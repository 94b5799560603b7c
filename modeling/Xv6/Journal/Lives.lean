/-
# A machine that crashes again and again

A life of the machine starts with `pbjFSck` on the disk that the last life left, and ends anywhere
in the recovery or in the commits and flushes after it. However many lives there were, the next
recovery finds the home sectors with all committed transactions applied and no others.
-/

import Xv6.Journal.Crash

namespace Xv6

open Math Bio

/-- A life of the machine from one disk to the next, with the transactions it commits. -/
inductive Life (dev J : Nat) : List Txn → (BlockAddr → Block) → (BlockAddr → Block) → Prop
  /-- The machine stops after `k` writes of the recovery. -/
  | recovers {disk : BlockAddr → Block} {r : Bio} (k : Nat)
      (recovery : (pbjFSck dev).run (Bio.boot disk) = .ok () r) :
      Life dev J [] disk (applyWrites (r.log.take k) disk)
  /-- The machine stops after `k` writes of the work that follows. -/
  | works {disk : BlockAddr → Block} {r t : Bio} {txns : List Txn} {log : List (BlockAddr × Block)}
      (k : Nat) (recovery : (pbjFSck dev).run (Bio.boot disk) = .ok () r)
      (good : ∀ ws ∈ txns, GoodTxn dev J ws) (work : (txns.forM commitFlush).run r = .ok () t)
      (writes : t.log = r.log ++ log) :
      Life dev J (txns.take (superCommits dev (log.take k))) disk (applyWrites (log.take k) r.disk)

variable {dev J : Nat} {disk disk' H : BlockAddr → Block} {done : List Txn}

/-- A life takes a disk that recovers to `H` to one that recovers to `H` with the transactions
of that life. -/
theorem Life.recoverable (life : Life dev J done disk disk') (room : NBPT + 1 ≤ J)
    (cache : J + 1 ≤ NBUF) (rec : Recoverable dev J H disk) :
    Recoverable dev J (applyWrites done.flatten H) disk' := by
  have hpos : 0 < J := (Nat.succ_pos _).trans_le room
  cases life with
  | recovers k recovery =>
    obtain ⟨t, hrun, -, hagain⟩ := rec.pbjFSck hpos cache
    cases hrun.symm.trans recovery
    exact hagain k
  | works k recovery good work writes =>
    obtain ⟨before, on, home⟩ := rec
    obtain ⟨r, hrun, -, hdisk, hstart⟩ := pbjFSck_run on hpos cache
    cases hrun.symm.trans recovery
    obtain ⟨t, log, hwork, hlog, -, hrec⟩ :=
      commitFlush_recoverable hstart (hdisk ▸ on.emptied) room good
    cases hwork.symm.trans work
    obtain rfl := List.append_cancel_left (hlog.symm.trans writes)
    -- the recovery has made the home sectors what they should be
    refine (hrec k).congr fun a ha => applyWrites_congr (Or.inr ?_)
    rw [hdisk, applyWrites_recoveryWrites ha]
    exact home a ha

end Xv6
