import Arthas.Reactor.PassEffect

/-!
When undoing a reverted list gives the pool back. A revert pass saves the bytes of
the current version before it lays down an older one, so an older version that is
longer, or one copied from the old entry, writes bytes that no undo restores.
-/

set_option autoImplicit false
set_option relaxedAutoImplicit false

namespace Arthas.Reactor

open Arthas.Lib ByteImage Checkpoint Journal

/-- A number for which the log has an entry and a version. -/
def Recorded (cLog : CheckpointLog) (q : Int) : Prop := q ∈ cLog.versions.map seqOf

instance (cLog : CheckpointLog) (q : Int) : Decidable (Recorded cLog q) :=
  inferInstanceAs (Decidable (q ∈ cLog.versions.map seqOf))

theorem find_resolveWith (address : Int → UInt64) (sLog : SeqLog) (q : Int) :
    (sLog.resolveWith address).find q = (sLog.find q).map fun n =>
      n.update fun d => { d with sortedPmemAddress := some (address n.sequenceNumber) } :=
  ChainTable.find_map _ _ (f := fun n : SeqNode =>
    n.update fun d => { d with sortedPmemAddress := some (address n.sequenceNumber) })
    (fun _ => rfl) _ _

/-- What the resolved log of a checkpoint log answers for a version. -/
theorem lookup_resolved {cLog : CheckpointLog} (hnum : cLog.Numbered) (size : Nat)
    (address : Int → UInt64) {p : Node × Nat} (hp : p ∈ cLog.versions) :
    ∃ d, Records p.1 p.2 d ∧ lookup ((sequenceLog size cLog).resolveWith address) (seqOf p) =
      { d with sortedPmemAddress := some (address (seqOf p)) } := by
  obtain ⟨d, hfind, hrec⟩ := (sequenceLog_spec hnum size).1 p hp
  refine ⟨d, hrec, ?_⟩
  simp [lookup, find_resolveWith, hfind, SeqNode.update]

theorem number_of_recorded {cLog : CheckpointLog} (hnum : cLog.Numbered) {size : Nat}
    {address : Int → UInt64} {w : World}
    (hlog : w.sLog = (sequenceLog size cLog).resolveWith address) {q : Int}
    (hq : Recorded cLog q) : (w.view q).1.sequenceNumber ≠ -1 := by
  obtain ⟨p, hp, rfl⟩ := List.mem_map.mp hq
  obtain ⟨d, hrec, hlookup⟩ := lookup_resolved hnum size address hp
  have hv : (w.view (seqOf p)).1.sequenceNumber = seqOf p := by
    rw [World.view, hlog, hlookup]
    exact hrec.sequenceNumber
  have := hnum.nonneg p hp
  omega

/-- Undoing in ascending order what was reverted in descending order makes the round
trip of the steps. -/
theorem undoArray_revertArray_pool (cLog : CheckpointLog) (l : List Int) (w : World)
    (hnd : l.Nodup) (hnum : ∀ q ∈ l, (w.view q).1.sequenceNumber ≠ -1) :
    (undoBySequenceNumberArray (sortAscending l)
      (revertBySequenceNumberArray cLog (qsortReverse l) w)).pool =
      roundTrip ((qsortReverse l).map fun q => stepOf cLog (w.view q)) w.pool := by
  have h := undo_after_revert cLog (qsortReverse l) (w.log (.revert (qsortReverse l) w.base))
    ((revertBySequenceNumberArray cLog (qsortReverse l) w).log
      (.undo (sortAscending l) (revertBySequenceNumberArray cLog (qsortReverse l) w).base))
    ((qsortReverse_perm l).nodup_iff.mpr hnd)
    (fun q hq => hnum q (mem_qsortReverse.mp hq)) ⟨rfl, fun _ _ => rfl⟩
  rwa [qsortReverse_eq, List.reverse_reverse, ← qsortReverse_eq] at h

/-- What the numbers of a list, from the highest down, write to a place of the pool
before one of them saves it. -/
def writtenUnsaved (cLog : CheckpointLog) (w : World) (l : List Int) (a : UInt64) : List UInt8 :=
  unsaved ((qsortReverse l).map fun q => stepOf cLog (w.view q)) a

/-- Undo gives back the pool exactly when each byte written without having been saved
was last written with the value it had. -/
theorem undo_revert_eq_iff {cLog : CheckpointLog} (hnum : cLog.Numbered) (size : Nat)
    (address : Int → UInt64) {w : World}
    (hlog : w.sLog = (sequenceLog size cLog).resolveWith address) (buffer : List Int)
    {l : List Int} (hnd : l.Nodup) (hl : ∀ q ∈ l, Recorded cLog q) :
    let decided := decisionFuncSequenceArray l buffer 0
    (undoBySequenceNumberArray (sortAscending l)
      (revertBySequenceNumberArray cLog (decided.1.take decided.2) w)).pool = w.pool ↔
      ∀ a, ∀ v ∈ (writtenUnsaved cLog w l a).getLast?, v = w.pool a := by
  intro decided
  have htake : decided.1.take decided.2 = qsortReverse l := decision_take l buffer
  rw [htake, undoArray_revertArray_pool cLog l w hnd
    fun q hq => number_of_recorded hnum hlog (hl q hq)]
  exact roundTrip_eq_self_iff _ _

/-- An entry whose first version had two bytes and whose current version has one. -/
def shrunkEntry : Node where
  offset := 0
  cData :=
    { address := 0
      data j := if j = 0 then [1, 2] else [3]
      size j := if j = 0 then 2 else 1
      version := 1
      sequenceNumber j := (j : Int) + 1
      oldCheckpointEntry := 0
      txId _ := 0
      version_lt := by decide
      size_le := by decide
      size_lt := by decide }

def shrunkLog : CheckpointLog := .ofEntries [shrunkEntry]

theorem shrunkLog_numbered : shrunkLog.Numbered := ⟨by decide, by decide⟩

def shrunkWorld : World :=
  .start ((sequenceLog 4 shrunkLog).resolveWith fun _ => 64) (fun a => if a = 0 then 3 else 9)
    (some 64)

/-- Reverting the current version lays down two bytes, undoing it restores one. -/
theorem undo_revert_not_exact : ¬ ∀ (cLog : CheckpointLog) (size : Nat) (address : Int → UInt64)
    (w : World) (buffer l : List Int), cLog.Numbered →
    w.sLog = (sequenceLog size cLog).resolveWith address → l.Nodup →
    (∀ q ∈ l, Recorded cLog q) →
    let decided := decisionFuncSequenceArray l buffer 0
    (undoBySequenceNumberArray (sortAscending l)
      (revertBySequenceNumberArray cLog (decided.1.take decided.2) w)).pool = w.pool := by
  intro h
  have hbyte := congrFun (h shrunkLog 4 (fun _ => 64) shrunkWorld [] [2] shrunkLog_numbered rfl
    (by decide) (by decide)) 1
  revert hbyte
  decide +kernel

theorem undo_revert_eq_iff_shrunk :
    (undoBySequenceNumberArray (sortAscending [1, 2]) (revertBySequenceNumberArray shrunkLog
      ((decisionFuncSequenceArray [1, 2] [] 0).1.take 2) shrunkWorld)).pool = shrunkWorld.pool ↔
      ∀ a, ∀ v ∈ (writtenUnsaved shrunkLog shrunkWorld [1, 2] a).getLast?,
        v = shrunkWorld.pool a :=
  undo_revert_eq_iff shrunkLog_numbered 4 (fun _ => 64) rfl [] (by decide) (by decide)

end Arthas.Reactor
