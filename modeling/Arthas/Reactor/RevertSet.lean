import Arthas.Reactor.Addresses
import Arthas.Reactor.UndoExact

/-!
What reverting an arbitrary collection of numbers leaves in the pool. The pass goes
down the numbers, so among the numbers of one entry the one of the oldest version
writes last.
-/

set_option autoImplicit false
set_option relaxedAutoImplicit false

namespace Arthas.Reactor

open Arthas.Lib ByteImage Checkpoint Journal

/-- The largest size recorded for the entry. -/
def largestSize (c : CheckpointData) : Nat :=
  ((List.range (c.version + 1)).map c.size).foldr max 0

theorem size_le_largestSize (c : CheckpointData) {j : Nat} (hj : j ≤ c.version) :
    c.size j ≤ largestSize c := by
  have hmem : c.size j ∈ (List.range (c.version + 1)).map c.size :=
    List.mem_map_of_mem (List.mem_range.mpr (by omega))
  unfold largestSize
  generalize (List.range (c.version + 1)).map c.size = sizes at hmem
  induction sizes with
  | nil => simp at hmem
  | cons n sizes ih =>
    rcases List.mem_cons.mp hmem with rfl | hmem
    · exact Nat.le_max_left _ _
    · exact (ih hmem).trans (Nat.le_max_right _ _)

/-- The bytes of the pool that belong to the entry at its largest. -/
def inRange (temp : Node) (a : UInt64) : Prop := covers temp.offset (largestSize temp.cData) a

/-- A log whose entries are versioned in the order of their numbers, lie apart from each
other and are linked to no older entry. -/
structure Checkpoint.CheckpointLog.Separate (cLog : CheckpointLog) : Prop where
  increasing : ∀ temp ∈ cLog.entries, ∀ i j, i < j → j ≤ temp.cData.version →
    temp.cData.sequenceNumber i < temp.cData.sequenceNumber j
  disjoint : ∀ temp ∈ cLog.entries, ∀ temp' ∈ cLog.entries, temp ≠ temp' →
    ∀ a, ¬ (inRange temp a ∧ inRange temp' a)
  unlinked : ∀ temp ∈ cLog.entries, temp.cData.oldCheckpointEntry = 0

theorem mem_versions {cLog : CheckpointLog} {temp : Node} {j : Nat} :
    (temp, j) ∈ cLog.versions ↔ temp ∈ cLog.entries ∧ j ≤ temp.cData.version := by
  simp [CheckpointLog.versions]

section Step

variable {cLog : CheckpointLog} (hnum : cLog.Numbered) {size : Nat} (hpos : 0 < size)
  (hsize : size < 2 ^ 31) {base : UInt64} {w : World} (hbase : w.base = some base)
  (hlog : w.sLog = assignAddresses (sequenceLog size cLog) base)

include hnum hpos hsize hbase hlog

theorem view_recorded {p : Node × Nat} (hp : p ∈ cLog.versions) :
    ∃ d, Records p.1 p.2 d ∧ w.view (seqOf p) = (d, some p.1.offset) := by
  obtain ⟨d, hfind, hrec⟩ := (sequenceLog_spec hnum size).1 p hp
  have hholds : (sequenceLog size cLog).Holds (seqOf p) := by
    refine ⟨?_, by simp [hfind]⟩
    unfold SeqLog.InTable hashCode
    rw [sequenceLog_size]
    exact bucketIndex_bounds hpos hsize (hnum.nonneg p hp)
  have hd : lookup (sequenceLog size cLog) (seqOf p) = d := by simp [lookup, hfind]
  have hlookup : lookup w.sLog (seqOf p) = placedAt base d := by
    rw [hlog, lookup_assignAddresses hholds, hd]
  refine ⟨d, hrec, ?_⟩
  rw [World.view, hlookup, place_placedAt hbase, hrec.offset]
  have hfree : { placedAt base d with sortedPmemAddress := none } = d := by
    rw [← hrec.unresolved]
    rfl
  rw [hfree]

/-- The step of a version lays down the version before it at the offset of the entry. -/
theorem stepOf_recorded (hlink : ∀ temp ∈ cLog.entries, temp.cData.oldCheckpointEntry = 0)
    {temp : Node} {j : Nat} (hp : (temp, j) ∈ cLog.versions) :
    stepOf cLog (w.view (temp.cData.sequenceNumber j)) =
      if j = 0 then .idle
      else overwrite temp.offset (temp.cData.size j) (temp.cData.bytes (j - 1)) := by
  obtain ⟨d, hrec, hview⟩ := view_recorded hnum hpos hsize hbase hlog hp
  have hnonneg : d.sequenceNumber ≠ -1 := by
    have hge : 0 ≤ temp.cData.sequenceNumber j := hnum.nonneg _ hp
    have heq : d.sequenceNumber = temp.cData.sequenceNumber j := hrec.sequenceNumber
    omega
  have hentry : d.oldCheckpointEntry = 0 :=
    hrec.oldCheckpointEntry.trans (hlink temp (mem_versions.mp hp).1)
  have hver : d.version = (j : Int) := hrec.version
  rw [show temp.cData.sequenceNumber j = seqOf (temp, j) from rfl, hview]
  simp only [stepOf, stepAt, if_neg hnonneg, hver, hentry]
  by_cases hj : j = 0
  · simp [hj]
  · have hprev : ((j : Int) - 1).toNat = j - 1 := by omega
    have hnot : ¬ ((j : Int) - 1 < 0) := by omega
    have hbytes : (temp.cData.bytes (j - 1)).take (temp.cData.size (j - 1)) =
        temp.cData.bytes (j - 1) := by
      rw [CheckpointData.bytes, List.take_take, min_self]
    rw [if_neg hnot, if_neg hj, hprev, hrec.oldData _ (by omega), hrec.oldSize _ (by omega), hbytes,
      hrec.size]

omit hpos hsize hbase in
/-- A number without a version has no effect. -/
theorem stepOf_unrecorded {q : Int} (hq : ¬ Recorded cLog q) :
    stepOf cLog (w.view q) = .idle := by
  have hfind : w.sLog.find q = none := by
    rw [hlog, find_assignAddresses, (sequenceLog_spec hnum size).2.1 q hq]
    simp
  have herr : (w.view q).1.sequenceNumber = -1 := by
    simp [World.view, lookup, hfind, SingleData.errorData]
  unfold stepOf
  cases (w.view q).2 with
  | none => rfl
  | some place => exact if_pos herr

/-- A number that writes to a place is that of a version above 0 of an entry around it. -/
theorem writer_of_patch (hlink : ∀ temp ∈ cLog.entries, temp.cData.oldCheckpointEntry = 0)
    {q : Int} {a : UInt64} (h : (stepOf cLog (w.view q)).patch a ≠ none) :
    ∃ temp ∈ cLog.entries, ∃ j, 1 ≤ j ∧ j ≤ temp.cData.version ∧
      temp.cData.sequenceNumber j = q ∧ inRange temp a := by
  by_cases hq : Recorded cLog q
  · obtain ⟨⟨temp, j⟩, hp, rfl⟩ := List.mem_map.mp hq
    have hmem := mem_versions.mp hp
    rw [seqOf, stepOf_recorded hnum hpos hsize hbase hlog hlink hp] at h
    by_cases hj : j = 0
    · simp [hj, Step.idle] at h
    · rw [if_neg hj] at h
      have hc := (window_isSome_iff _ _ _).mp (Option.isSome_iff_ne_none.mpr h)
      rw [CheckpointData.length_bytes _ (by omega)] at hc
      exact ⟨temp, hmem.1, j, by omega, hmem.2, rfl,
        covers_mono (size_le_largestSize _ (by omega)) hc⟩
  · rw [stepOf_unrecorded hnum hlog hq] at h
    exact absurd rfl h

/-- The pass leaves the pool where no writer is in reach. -/
theorem revertArray_outside (hlink : ∀ temp ∈ cLog.entries, temp.cData.oldCheckpointEntry = 0)
    (l : List Int) {a : UInt64}
    (ha : ∀ temp ∈ cLog.entries, ∀ j, 1 ≤ j → j ≤ temp.cData.version →
      temp.cData.sequenceNumber j ∈ l → ¬ inRange temp a) :
    (revertBySequenceNumberArray cLog l w).pool a = w.pool a := by
  rw [revertBySequenceNumberArray, foldl_revertOne_pool]
  refine applyAll_of_untouched (fun s hs => ?_) _
  obtain ⟨q, hq, rfl⟩ := List.mem_map.mp hs
  by_contra hpatch
  obtain ⟨temp, htemp, j, hj, hle, rfl, hin⟩ :=
    writer_of_patch hnum hpos hsize hbase hlog hlink hpatch
  exact ha temp htemp j hj hle hq hin

/-- A descending pass leaves the version before the least one it holds of an entry. -/
theorem revertArray_least (hsep : cLog.Separate) {l : List Int} (hl : l.Pairwise (· ≥ ·))
    {temp : Node} (htemp : temp ∈ cLog.entries) {m : Nat} (hm : 1 ≤ m)
    (hle : m ≤ temp.cData.version) (hmem : temp.cData.sequenceNumber m ∈ l)
    (hleast : ∀ j < m, temp.cData.sequenceNumber j ∉ l) :
    slice (revertBySequenceNumberArray cLog l w).pool temp.offset (temp.cData.size (m - 1)) =
      temp.cData.bytes (m - 1) := by
  have hlen : (temp.cData.bytes (m - 1)).length = temp.cData.size (m - 1) :=
    CheckpointData.length_bytes _ (by omega)
  rw [← hlen]
  apply slice_eq_of_window (hlen ▸ temp.cData.size_lt _ (by omega))
  intro a v hv
  have hpatch : (stepOf cLog (w.view (temp.cData.sequenceNumber m))).patch a = some v := by
    rw [stepOf_recorded hnum hpos hsize hbase hlog hsep.unlinked (mem_versions.mpr ⟨htemp, hle⟩),
      if_neg (by omega)]
    exact hv
  have hin : inRange temp a := by
    have hc := (window_isSome_iff _ _ _).mp (Option.isSome_iff_exists.mpr ⟨v, hv⟩)
    rw [hlen] at hc
    exact covers_mono (size_le_largestSize _ (by omega)) hc
  rw [revertBySequenceNumberArray, foldl_revertOne_pool]
  refine applyAll_map_of_least hl _ hmem hpatch (fun q hq hlt => ?_) _
  -- A smaller number that writes here would be an older version of the same entry.
  by_contra hwrites
  obtain ⟨temp', htemp', j, -, hj, rfl, hin'⟩ :=
    writer_of_patch hnum hpos hsize hbase hlog hsep.unlinked hwrites
  by_cases hsame : temp = temp'
  · subst hsame
    have hjm : j < m := by
      by_contra hge
      rcases Nat.eq_or_lt_of_le (Nat.le_of_not_lt hge) with heq | hgt
      · rw [heq] at hlt
        exact lt_irrefl _ hlt
      · exact lt_asymm hlt (hsep.increasing temp htemp m j hgt hj)
    exact hleast j hjm hq
  · exact hsep.disjoint temp htemp temp' htemp' hsame a ⟨hin, hin'⟩

end Step

/-- An entry of two bytes at offset 16 with three versions. -/
def laterEntry : Node where
  offset := 16
  cData :=
    { address := 0
      data j := [UInt8.ofNat j, 7]
      size _ := 2
      version := 2
      sequenceNumber j := (j : Int) + 3
      oldCheckpointEntry := 0
      txId _ := 0
      version_lt := by decide
      size_le := by decide
      size_lt := by decide }

def pairLog : CheckpointLog := .ofEntries [shrunkEntry, laterEntry]

theorem pairLog_numbered : pairLog.Numbered := ⟨by decide, by decide⟩

theorem pairLog_separate : pairLog.Separate := by
  have hentries : pairLog.entries = [shrunkEntry, laterEntry] := rfl
  have hapart : ∀ a, ¬ (inRange shrunkEntry a ∧ inRange laterEntry a) := by
    rintro a ⟨h, h'⟩
    simp only [inRange, covers, decide_eq_true_eq] at h h'
    change (a - 0).toNat < 2 at h
    change (a - 16).toNat < 2 at h'
    rw [UInt64.toNat_sub] at h h'
    simp only [UInt64.reduceToNat] at h h'
    omega
  constructor
  · rw [hentries]
    rintro temp htemp i j hij -
    rcases List.mem_pair.mp htemp with rfl | rfl
    · change (i : Int) + 1 < j + 1
      omega
    · change (i : Int) + 3 < j + 3
      omega
  · rw [hentries]
    intro temp htemp temp' htemp' hne a
    rcases List.mem_pair.mp htemp with rfl | rfl <;> rcases List.mem_pair.mp htemp' with rfl | rfl
    · exact absurd rfl hne
    · exact hapart a
    · exact fun h => hapart a h.symm
    · exact absurd rfl hne
  · decide

def pairWorld : World :=
  .start (assignAddresses (sequenceLog 8 pairLog) 64) (fun _ => 9) (some 64)

end Arthas.Reactor
