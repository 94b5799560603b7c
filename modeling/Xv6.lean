import Xv6.Math.Exec
import Xv6.Math.Hoare
import Xv6.Math.Part
import Xv6.Math.Runs
import Xv6.Math.WriteLog
import Xv6.Math.ByteMem
import Xv6.Math.Copy
import Xv6.Math.Spans
import Xv6.Math.RingBuffer
import Xv6.Math.Table
import Xv6.Math.Pattern
import Xv6.Math.Lines
import Xv6.Math.Links
import Xv6.Math.RingText
import Xv6.Bio.Block
import Xv6.Bio.State
import Xv6.Bio.Cache
import Xv6.Bio.Journal
import Xv6.Bio.Commit
import Xv6.Bio.Flush
import Xv6.Bio.BufList
import Xv6.Journal.Calls
import Xv6.Journal.Invariant
import Xv6.Journal.Record
import Xv6.Journal.Pending
import Xv6.Journal.WriteAhead
import Xv6.Journal.Region
import Xv6.Journal.Recover
import Xv6.Journal.Decode
import Xv6.Journal.Replay
import Xv6.Journal.BadRecord
import Xv6.Journal.Crash
import Xv6.Journal.Lives
import Xv6.Kalloc.Model
import Xv6.Kalloc.FreeList
import Xv6.Kalloc.Arena
import Xv6.Pipe.Model
import Xv6.Pipe.Fifo
import Xv6.Pipe.Close
import Xv6.Proc.Table
import Xv6.Proc.Machine
import Xv6.Proc.Running
import Xv6.Proc.Scheduling
import Xv6.Proc.Effects
import Xv6.Proc.Rows
import Xv6.Proc.Places
import Xv6.Proc.States
import Xv6.Proc.Parents
import Xv6.Proc.Progress
import Xv6.Proc.Wakeups
import Xv6.Proc.Signals
import Xv6.Proc.Sleepers
import Xv6.Proc.Tickets
import Xv6.Proc.Lottery
import Xv6.Proc.Total
import Xv6.Proc.Killed
import Xv6.Fs.Layout
import Xv6.Fs.Blocks
import Xv6.Fs.Inode
import Xv6.Fs.Names
import Xv6.Fs.Paths
import Xv6.Fs.Tree
import Xv6.Fs.Sound
import Xv6.Fs.Reading
import Xv6.Fs.Grow
import Xv6.Fs.Write
import Xv6.Fs.Owners
import Xv6.Fs.Contents
import Xv6.Fs.Balloc
import Xv6.Fs.Freed
import Xv6.Fs.Trunc
import Xv6.Fs.Truncated
import Xv6.Fs.Refs
import Xv6.Fs.Dirents
import Xv6.Fs.Directory
import Xv6.Tx.Model
import Xv6.Tx.Calls
import Xv6.Tx.Erase
import Xv6.User.Copy
import Xv6.User.Confined
import Xv6.User.Refines
import Xv6.User.Memmove
import Xv6.Sys.State
import Xv6.Sys.File
import Xv6.Sys.Calls
import Xv6.Tx.Refs
import Xv6.Sys.Exhausted
import Xv6.Sys.Check
import Xv6.Task.Model
import Xv6.Task.Image
import Xv6.Task.Grow
import Xv6.Task.Program
import Xv6.Task.Load
import Xv6.Task.Stack
import Xv6.Task.Exec
import Xv6.Task.Refs
import Xv6.Task.Safety
import Xv6.Sh.Parse
import Xv6.Sh.Grammar
import Xv6.Sh.Sound
import Xv6.Sh.Complete
import Xv6.Sh.Accepts
import Xv6.Sh.Words
import Xv6.Umalloc.Model
import Xv6.Umalloc.Ring
import Xv6.Umalloc.Search
import Xv6.Umalloc.Tiles
import Xv6.Umalloc.Sizes
import Xv6.Mkfs.Model
import Xv6.Mkfs.Regions
import Xv6.Mkfs.Count
import Xv6.Mkfs.Forest
import Xv6.Mkfs.Append
import Xv6.Mkfs.Built
import Xv6.Mkfs.ReadBack
import Xv6.Mkfs.Bitmap
import Xv6.Console.Model
import Xv6.Console.Editing
import Xv6.Console.Delivery
import Xv6.Console.Capacity
import Xv6.Console.History
import Xv6.Grep.Match
import Xv6.Grep.Stream
