import Mathlib
import Arthas.Reactor.Checkpoint

/-!
What the sequence log holds: the effect of each table operation on `find`, and the
records that `order_by_sequence_num` leaves for the versions of a checkpoint log.
-/

set_option autoImplicit false
set_option relaxedAutoImplicit false

namespace Arthas.Reactor.Checkpoint

open Arthas.Lib

/-- A size keeps the remainder of a key, read as unsigned, within `int`. -/
theorem remainder_bounds {size : Nat} (positive : 0 < size) (key : Int) :
    0 ≤ key % 2 ^ 64 % (size : Int) ∧ key % 2 ^ 64 % (size : Int) < size :=
  ⟨Int.emod_nonneg _ (by omega), Int.emod_lt_of_pos _ (by omega)⟩

/-- A key that is not negative is hashed into the bucket array. -/
theorem bucketIndex_bounds {size : Nat} (hpos : 0 < size) (hsize : size < 2 ^ 31) {key : Int}
    (hkey : 0 ≤ key) : 0 ≤ bucketIndex size key ∧ bucketIndex size key < size := by
  obtain ⟨hr, hlt⟩ := remainder_bounds hpos key
  have hid : toInt32 (key % 2 ^ 64 % (size : Int)) = key % 2 ^ 64 % (size : Int) :=
    Int.bmod_eq_of_le (by omega) (by omega)
  have hneg : ¬ key < 0 := by omega
  simp only [bucketIndex, if_neg hneg, hid]
  exact ⟨hr, hlt⟩

theorem SeqLog.find_modify (sLog : SeqLog) (key key' : Int) (f : SingleData → SingleData) :
    (sLog.modify key f).find key' =
      if key' = key then (sLog.find key).map (SeqNode.update f) else sLog.find key' :=
  ChainTable.find_modify _ _ (f := SeqNode.update f) (fun _ => rfl) _ _ _

theorem find_insert (sLog : SeqLog) (key key' : Int) (d : SingleData) :
    (insert sLog key d).find key' = if key' = key then some ⟨key, d⟩ else sLog.find key' := by
  have hfresh : SeqNode.sequenceNumber ⟨key, d⟩ = key := rfl
  have h := ChainTable.find_upsert (bucketIndex sLog.size) SeqNode.sequenceNumber
    (f := SeqNode.update fun _ => d) (fun _ => rfl) hfresh sLog.list key'
  apply h.trans
  split
  · cases hf : ChainTable.find (bucketIndex sLog.size) SeqNode.sequenceNumber sLog.list key with
    | none => rfl
    | some n =>
      have hn : n.sequenceNumber = key := by simpa using List.find?_some hf
      simp [SeqNode.update, hn]
  · rfl

theorem find_empty (size : Nat) (key : Int) : (SeqLog.empty size).find key = none := rfl

theorem SeqLog.find_key {sLog : SeqLog} {key : Int} {n : SeqNode} (h : sLog.find key = some n) :
    n.sequenceNumber = key := by
  simpa using List.find?_some h

theorem revLookup_insert (sLog : SeqLog) (key key' : Int) (d : SingleData) :
    revLookup (insert sLog key d) key' = if key' = key then 1 else revLookup sLog key' := by
  unfold revLookup
  rw [find_insert]
  by_cases h : key' = key <;> simp [h]

/-- Each node is in the bucket of its number, and a number occurs once. -/
def SeqLog.WellPlaced (sLog : SeqLog) : Prop :=
  ChainTable.WellPlaced (bucketIndex sLog.size) SeqNode.sequenceNumber sLog.list

theorem SeqLog.wellPlaced_empty (size : Nat) : (SeqLog.empty size).WellPlaced :=
  ChainTable.wellPlaced_empty _ _

theorem SeqLog.WellPlaced.insert {sLog : SeqLog} (h : sLog.WellPlaced) (key : Int)
    (d : SingleData) : (insert sLog key d).WellPlaced :=
  ChainTable.WellPlaced.upsert h (f := SeqNode.update fun _ => d) (fun _ => rfl) rfl

theorem SeqLog.WellPlaced.modify {sLog : SeqLog} (h : sLog.WellPlaced) (key : Int)
    (f : SingleData → SingleData) : (sLog.modify key f).WellPlaced :=
  ChainTable.WellPlaced.of_map_key h (ChainTable.map_key_modify (f := SeqNode.update f) (fun _ => rfl) _ _)

theorem SeqLog.mem_nodes {sLog : SeqLog} {n : SeqNode} :
    n ∈ sLog.nodes ↔ ∃ i < sLog.size, n ∈ sLog.list i := by
  simp [SeqLog.nodes]

/-- In a well placed log a scanned node is found under its number. -/
theorem SeqLog.WellPlaced.find_of_mem {sLog : SeqLog} (h : sLog.WellPlaced) {n : SeqNode}
    (hn : n ∈ sLog.nodes) : sLog.find n.sequenceNumber = some n := by
  obtain ⟨i, -, hi⟩ := SeqLog.mem_nodes.mp hn
  exact (ChainTable.WellPlaced.find_eq_some_iff h _ _).mpr ⟨rfl, i, hi⟩

/-- The number is hashed into the bucket array. -/
def SeqLog.InTable (sLog : SeqLog) (key : Int) : Prop :=
  0 ≤ hashCode sLog key ∧ hashCode sLog key < sLog.size

theorem SeqLog.mem_nodes_of_find {sLog : SeqLog} {key : Int} {n : SeqNode}
    (ht : sLog.InTable key) (h : sLog.find key = some n) : n ∈ sLog.nodes := by
  have hn : n ∈ sLog.list (hashCode sLog key) := List.mem_of_find?_eq_some h
  refine SeqLog.mem_nodes.mpr ⟨(hashCode sLog key).toNat, ?_, ?_⟩
  · have := ht.2
    have := ht.1
    omega
  · rwa [Int.toNat_of_nonneg ht.1]

theorem SeqLog.WellPlaced.inTable_of_mem {sLog : SeqLog} (h : sLog.WellPlaced) {n : SeqNode}
    (hn : n ∈ sLog.nodes) : sLog.InTable n.sequenceNumber := by
  obtain ⟨i, hi, hm⟩ := SeqLog.mem_nodes.mp hn
  have hp : bucketIndex sLog.size n.sequenceNumber = i := h.placed i n hm
  unfold SeqLog.InTable hashCode
  omega

/-! The record of one version, and the whole traversal. -/

/-- `d` records version `j` of the entry: its bytes, its history below `j`, and no
address yet. -/
structure Records (temp : Node) (j : Nat) (d : SingleData) : Prop where
  address : d.address = temp.cData.address
  offset : d.offset = temp.offset
  data : d.data = temp.cData.bytes j
  size : d.size = temp.cData.size j
  version : d.version = j
  sequenceNumber : d.sequenceNumber = temp.cData.sequenceNumber j
  oldCheckpointEntry : d.oldCheckpointEntry = temp.cData.oldCheckpointEntry
  txId : d.txId = temp.cData.txId j
  oldData : ∀ k < j, d.oldData k = temp.cData.bytes k
  oldSize : ∀ k < j, d.oldSize k = temp.cData.size k
  unresolved : d.sortedPmemAddress = none

theorem CheckpointData.length_bytes (c : CheckpointData) {j : Nat} (hj : j ≤ c.version) :
    (c.bytes j).length = c.size j := by
  rw [CheckpointData.bytes, List.length_take]
  exact min_eq_left (c.size_le j hj)

/-- The `k` loop changes the history slots below its bound and nothing else. -/
theorem copyOldVersions_eq (temp : Node) (d : SingleData) (j : Nat) :
    (List.range j).foldl (copyOldVersion temp) d =
      { d with
        oldData := fun k => if k < j then temp.cData.bytes k else d.oldData k
        oldSize := fun k => if k < j then temp.cData.size k else d.oldSize k } := by
  induction j with
  | zero => simp
  | succ j ih =>
    rw [List.range_succ, List.foldl_append, ih]
    simp only [List.foldl_cons, List.foldl_nil, copyOldVersion, SingleData.mk.injEq, true_and,
      and_true]
    constructor
    · funext k
      by_cases hk : k = j
      · simp [hk]
      · have : k < j + 1 ↔ k < j := by omega
        simp [hk, this]
    · funext k
      by_cases hk : k = j
      · simp [hk]
      · have : k < j + 1 ↔ k < j := by omega
        simp [hk, this]

theorem records_fillOrderedData (temp : Node) (j : Nat) {d : SingleData}
    (hd : d.sortedPmemAddress = none) : Records temp j (fillOrderedData d temp j) := by
  rw [fillOrderedData, copyOldVersions_eq]
  constructor <;> first
    | rfl
    | exact hd
    | (intro k hk; simp [hk])

/-- The log after a part of the traversal: the numbers met have their records, the
others keep what was found before. -/
theorem foldl_orderStep (ps : List (Node × Nat)) (st : Ordering)
    (hd : st.orderedData.sortedPmemAddress = none) (hnd : (ps.map seqOf).Nodup)
    (hw : st.sLog.WellPlaced) :
    let st' := ps.foldl orderStep st
    (∀ p ∈ ps, ∃ d, st'.sLog.find (seqOf p) = some ⟨seqOf p, d⟩ ∧ Records p.1 p.2 d) ∧
      (∀ q, q ∉ ps.map seqOf → st'.sLog.find q = st.sLog.find q) ∧
      st'.sLog.WellPlaced ∧ st'.sLog.size = st.sLog.size ∧
      st'.totalSize = st.totalSize + ps.length := by
  induction ps generalizing st with
  | nil => simpa using hw
  | cons p ps ih =>
    rw [List.map_cons, List.nodup_cons] at hnd
    have hr := records_fillOrderedData p.1 p.2 hd
    obtain ⟨hrec, hother, hwp, hsize, htotal⟩ :=
      ih (orderStep st p) hr.unresolved hnd.2 (hw.insert _ _)
    simp only [List.foldl_cons]
    refine ⟨?_, ?_, hwp, hsize, ?_⟩
    · intro p' hp'
      rcases List.mem_cons.mp hp' with rfl | hp'
      · refine ⟨_, ?_, hr⟩
        rw [hother _ hnd.1]
        simp [orderStep, find_insert]
      · exact hrec p' hp'
    · intro q hq
      rw [List.map_cons, List.mem_cons, not_or] at hq
      rw [hother q hq.2]
      simp [orderStep, find_insert, hq.1]
    · rw [htotal, List.length_cons]
      simp only [orderStep]
      omega

/-- The sequence numbers of the log are usable as keys: none is negative, none is
recorded twice. -/
structure CheckpointLog.Numbered (cLog : CheckpointLog) : Prop where
  nonneg : ∀ p ∈ cLog.versions, 0 ≤ seqOf p
  distinct : (cLog.versions.map seqOf).Nodup

section Ordered

variable {cLog : CheckpointLog} (hnum : cLog.Numbered) (size : Nat)

include hnum

theorem sequenceLog_spec :
    (∀ p ∈ cLog.versions, ∃ d, (sequenceLog size cLog).find (seqOf p) = some ⟨seqOf p, d⟩ ∧
      Records p.1 p.2 d) ∧
    (∀ q, q ∉ cLog.versions.map seqOf → (sequenceLog size cLog).find q = none) ∧
    (sequenceLog size cLog).WellPlaced := by
  obtain ⟨hrec, hother, hw, -, -⟩ := foldl_orderStep cLog.versions
    ⟨SingleData.uninit, SeqLog.empty size, 0⟩ rfl hnum.distinct (SeqLog.wellPlaced_empty size)
  exact ⟨hrec, hother, hw⟩

end Ordered

theorem foldl_orderStep_size (ps : List (Node × Nat)) (st : Ordering) :
    (ps.foldl orderStep st).sLog.size = st.sLog.size := by
  induction ps generalizing st with
  | nil => rfl
  | cons p ps ih => exact ih (orderStep st p)

theorem sequenceLog_size (size : Nat) (cLog : CheckpointLog) :
    (sequenceLog size cLog).size = size :=
  foldl_orderStep_size _ _

/-- Whatever the numbers are, a traversal leaves the nodes where they belong and sets no
address. -/
theorem foldl_orderStep_unresolved (ps : List (Node × Nat)) (st : Ordering)
    (hd : st.orderedData.sortedPmemAddress = none) (hw : st.sLog.WellPlaced)
    (hnone : ∀ q n, st.sLog.find q = some n → n.orderedData.sortedPmemAddress = none) :
    (ps.foldl orderStep st).sLog.WellPlaced ∧ ∀ q n, (ps.foldl orderStep st).sLog.find q = some n →
      n.orderedData.sortedPmemAddress = none := by
  induction ps generalizing st with
  | nil => exact ⟨hw, hnone⟩
  | cons p ps ih =>
    have hfilled := (records_fillOrderedData p.1 p.2 hd).unresolved
    apply ih (orderStep st p) hfilled (hw.insert _ _)
    intro q n hn
    simp only [orderStep, find_insert] at hn
    split_ifs at hn
    · rw [← Option.some.inj hn]
      exact hfilled
    · exact hnone q n hn

theorem sequenceLog_wellPlaced (size : Nat) (cLog : CheckpointLog) :
    (sequenceLog size cLog).WellPlaced :=
  (foldl_orderStep_unresolved cLog.versions ⟨SingleData.uninit, SeqLog.empty size, 0⟩ rfl
    (SeqLog.wellPlaced_empty size) fun _ _ h => nomatch h).1

theorem sequenceLog_unresolved {size : Nat} {cLog : CheckpointLog} {q : Int} {n : SeqNode}
    (h : (sequenceLog size cLog).find q = some n) : n.orderedData.sortedPmemAddress = none :=
  (foldl_orderStep_unresolved cLog.versions ⟨SingleData.uninit, SeqLog.empty size, 0⟩ rfl
    (SeqLog.wellPlaced_empty size) fun _ _ h => nomatch h).2 q n h

theorem foldl_highest (l : List Int) (highest : Int) :
    l.foldl (fun highest q => if q > highest then q else highest) highest = l.foldl max highest := by
  induction l generalizing highest with
  | nil => rfl
  | cons q l ih =>
    have larger : (if q > highest then q else highest) = max highest q := by
      split <;> omega
    rw [List.foldl_cons, List.foldl_cons, larger, ih]

/-- The maximum of a list and a first value. -/
theorem foldl_max_spec (l : List Int) (first : Int) :
    (l.foldl max first = first ∨ l.foldl max first ∈ l) ∧ first ≤ l.foldl max first ∧
      ∀ q ∈ l, q ≤ l.foldl max first := by
  induction l generalizing first with
  | nil => simp
  | cons q l ih =>
    obtain ⟨among, above, all⟩ := ih (max first q)
    rw [List.foldl_cons]
    refine ⟨?_, le_trans (le_max_left first q) above, ?_⟩
    · rcases among with same | member
      · rcases max_choice first q with first_max | q_max
        · exact Or.inl (same.trans first_max)
        · exact Or.inr (List.mem_cons.mpr (Or.inl (same.trans q_max)))
      · exact Or.inr (List.mem_cons_of_mem q member)
    · intro q' member
      rcases List.mem_cons.mp member with rfl | member
      · exact le_trans (le_max_right first q') above
      · exact all q' member

/-- The scan returns the highest number there is. -/
theorem findHighestSeqNum_eq {sLog : SeqLog} {highest : Int} {n : SeqNode}
    (hn : n ∈ sLog.nodes) (hnum : n.sequenceNumber = highest) (hpos : -1 ≤ highest)
    (hle : ∀ m ∈ sLog.nodes, m.sequenceNumber ≤ highest) : findHighestSeqNum sLog = highest := by
  have hfold := foldl_highest (sLog.nodes.map SeqNode.sequenceNumber) (-1)
  rw [List.foldl_map] at hfold
  obtain ⟨hamong, -, hall⟩ := foldl_max_spec (sLog.nodes.map SeqNode.sequenceNumber) (-1)
  rw [← hfold] at hamong hall
  apply le_antisymm
  · rcases hamong with hleast | hmem
    · exact hleast.trans_le hpos
    · obtain ⟨m, hm, heq⟩ := List.mem_map.mp hmem
      exact heq.symm.trans_le (hle m hm)
  · rw [← hnum]
    exact hall _ (List.mem_map_of_mem hn)

end Arthas.Reactor.Checkpoint
