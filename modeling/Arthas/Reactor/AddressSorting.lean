import Arthas.Reactor.OrderedLogs
import Arthas.Reactor.PoolRuns

/-!
Giving the nodes of the sequence log their addresses: through the multimap of their offsets
(`sort_creation` of `core.cpp`), and by the nested loops of `sort_by_sequence_number` of
`rollback.c`.
-/

set_option autoImplicit false
set_option relaxedAutoImplicit false

namespace Arthas.Reactor

open Arthas.Lib Checkpoint Multimap

/-- `PmemAddrOffsetList`, with the two arrays that the sorting reads. -/
structure PmemAddrOffsetList where
  offsets : List UInt64
  pmemAddresses : List UInt64
  length_eq : pmemAddresses.length = offsets.length

/-- The node takes the address, if there is one. -/
def takeAddress (addr : Option UInt64) (n : SeqNode) : SeqNode :=
  match addr with
  | some addr => n.update (setAddress addr)
  | none => n

namespace PmemAddrOffsetList

def numData (l : PmemAddrOffsetList) : Nat := l.offsets.length

/-- The offsets with their addresses. -/
def pairs (l : PmemAddrOffsetList) : Multimap UInt64 UInt64 := l.offsets.zip l.pmemAddresses

/-- The pairs that a loop up to an `int` visits. -/
def visited (l : PmemAddrOffsetList) (numData : Int) : Multimap UInt64 UInt64 :=
  l.pairs.take numData.toNat

end PmemAddrOffsetList

/-- `offset_seq_creation`, whose loop is bounded by the size converted to `int`. -/
def offsetSeqScan (sLog : SeqLog) : Multimap UInt64 Int :=
  sLog.scanned.map fun temp => (temp.orderedData.offset, temp.sequenceNumber)

/-- The body of the loop of `sort_creation`: the address goes to the numbers of an offset. -/
def sortOffset (offsetSeqMap : Multimap UInt64 Int) (sLog : SeqLog) (p : UInt64 × UInt64) :
    SeqLog :=
  (equalRange offsetSeqMap p.1).foldl (fun sLog seqNum => lookupModify sLog seqNum p.2) sLog

/-- `sort_creation`, with any two arrays. -/
def sortCreationList (addrOffList : PmemAddrOffsetList) (numData : Nat)
    (offsetSeqMap : Multimap UInt64 Int) (sLog : SeqLog) : SeqLog :=
  (addrOffList.visited (toInt32 numData)).foldl (sortOffset offsetSeqMap) sLog

/-- The loop of `sort_by_sequence_number` over the chain of a bucket. -/
def sortChain (offset addr : UInt64) (list : List SeqNode) : List SeqNode :=
  list.map fun temp =>
    if temp.orderedData.offset = offset then temp.update (setAddress addr) else temp

/-- The body of the loop of `sort_by_sequence_number` over the buckets. -/
def sortBucket (numData : Int) (addrOffList : PmemAddrOffsetList) (sLog : SeqLog) (i : Nat) :
    SeqLog :=
  (addrOffList.visited numData).foldl (fun sLog p =>
    { sLog with list := Function.update sLog.list i (sortChain p.1 p.2 (sLog.list i)) }) sLog

def sortBySequenceNumber (numData : Int) (addrOffList : PmemAddrOffsetList) (sLog : SeqLog) :
    SeqLog :=
  (List.range (toInt32 sLog.size).toNat).foldl (sortBucket numData addrOffList) sLog

/-- A node takes the address that is paired with the last occurrence of its offset. -/
def assignLast (ps : Multimap UInt64 UInt64) (n : SeqNode) : SeqNode :=
  takeAddress (equalRange ps n.orderedData.offset).getLast? n

/-- The nodes of the buckets up to the bound of the loops take their addresses. -/
def assignScanned (ps : Multimap UInt64 UInt64) (sLog : SeqLog) : SeqLog where
  size := sLog.size
  list i := if 0 ≤ i ∧ i < (toInt32 sLog.size).toNat then (sLog.list i).map (assignLast ps)
    else sLog.list i

@[simp] theorem takeAddress_sequenceNumber (addr : Option UInt64) (n : SeqNode) :
    (takeAddress addr n).sequenceNumber = n.sequenceNumber := by
  cases addr <;> rfl

@[simp] theorem takeAddress_offset (addr : Option UInt64) (n : SeqNode) :
    (takeAddress addr n).orderedData.offset = n.orderedData.offset := by
  cases addr <;> rfl

/-- A later address replaces an earlier one. -/
theorem update_takeAddress (addr : UInt64) (earlier : Option UInt64) (n : SeqNode) :
    (takeAddress earlier n).update (setAddress addr) = n.update (setAddress addr) := by
  cases earlier <;> rfl

/-- The loops of `sort_by_sequence_number` over one chain leave each node the address of the
last entry with its offset. -/
theorem foldl_sortChain (ps : Multimap UInt64 UInt64) (list : List SeqNode) :
    ps.foldl (fun list p => sortChain p.1 p.2 list) list =
      list.map (assignLast ps) := by
  induction ps using List.reverseRecOn with
  | nil => exact (List.map_id list).symm
  | append_singleton ps p ih =>
    rw [List.foldl_append, ih, List.foldl_cons, List.foldl_nil, sortChain, List.map_map]
    apply List.map_congr_left
    intro n _
    rw [Function.comp_apply, assignLast, assignLast, getLast?_equalRange_concat, takeAddress_offset,
      update_takeAddress]
    by_cases hoff : n.orderedData.offset = p.1
    · rw [if_pos hoff, if_pos hoff.symm]
      rfl
    · rw [if_neg hoff, if_neg (Ne.symm hoff)]

/-- The loop over the arrays stays in its bucket. -/
theorem sortBucket_eq (numData : Int) (l : PmemAddrOffsetList) (s : SeqLog) (i : Nat) :
    sortBucket numData l s i =
      ⟨s.size, Function.update s.list i ((s.list i).map (assignLast (l.visited numData)))⟩ := by
  rw [← foldl_sortChain]
  unfold sortBucket
  generalize l.visited numData = ps
  induction ps generalizing s with
  | nil => simp
  | cons p ps ih =>
    rw [List.foldl_cons, ih]
    simp

/-- What the nested loops do. -/
theorem sortBySequenceNumber_eq (numData : Int) (l : PmemAddrOffsetList) (s : SeqLog) :
    sortBySequenceNumber numData l s = assignScanned (l.visited numData) s := by
  unfold sortBySequenceNumber assignScanned
  generalize (toInt32 s.size).toNat = count
  induction count with
  | zero =>
    have hnone : ∀ i : Int, ¬ (0 ≤ i ∧ i < ((0 : Nat) : Int)) := by omega
    simp only [hnone, if_false]
    rfl
  | succ count ih =>
    rw [List.range_succ, List.foldl_append, ih, List.foldl_cons, List.foldl_nil, sortBucket_eq]
    congr 1
    funext i
    by_cases hi : i = count
    · subst hi
      simp only [Function.update_self]
      rw [if_neg (by omega), if_pos (by omega)]
    · rw [Function.update_of_ne hi]
      exact if_congr (by omega) rfl rfl

/-- One address given to the nodes of some numbers. -/
theorem find_foldl_setAddress (seqNums : List Int) (addr : UInt64) (s : SeqLog) (q : Int) :
    (seqNums.foldl (fun s seqNum => lookupModify s seqNum addr) s).find q =
      if q ∈ seqNums then (s.find q).map (SeqNode.update (setAddress addr)) else s.find q := by
  induction seqNums generalizing s with
  | nil => rfl
  | cons seqNum seqNums ih =>
    have hone : (lookupModify s seqNum addr).find q =
        if q = seqNum then (s.find seqNum).map (SeqNode.update (setAddress addr))
        else s.find q := SeqLog.find_modify s seqNum q _
    rw [List.foldl_cons, ih, hone]
    by_cases hq : q = seqNum
    · subst hq
      rw [if_pos rfl, if_pos List.mem_cons_self]
      split_ifs <;> cases s.find q <;> rfl
    · simp [hq]

/-- The number is hashed into the buckets that the loops scan. -/
def InScan (s : SeqLog) (q : Int) : Prop :=
  0 ≤ hashCode s q ∧ hashCode s q < (toInt32 s.size).toNat

instance (s : SeqLog) (q : Int) : Decidable (InScan s q) := inferInstanceAs (Decidable (_ ∧ _))

/-- The number of a scanned node is under the offset of the node, and under no other. -/
theorem mem_offsetSeqScan {s : SeqLog} (hs : s.WellPlaced) (q : Int) (offset : UInt64) :
    q ∈ equalRange (offsetSeqScan s) offset ↔
      InScan s q ∧ ∃ n, s.find q = some n ∧ n.orderedData.offset = offset := by
  have hscanned : ∀ n, n ∈ s.scanned ↔ ∃ i < (toInt32 s.size).toNat, n ∈ s.list i := by
    simp [SeqLog.scanned]
  rw [mem_equalRange, offsetSeqScan, List.mem_map]
  constructor
  · rintro ⟨n, hn, heq⟩
    obtain ⟨rfl, rfl⟩ := Prod.mk.inj heq
    obtain ⟨i, hi, hmem⟩ := (hscanned n).mp hn
    have hbucket : hashCode s n.sequenceNumber = i := hs.placed i n hmem
    refine ⟨⟨by omega, by omega⟩, n, ?_, rfl⟩
    exact (ChainTable.WellPlaced.find_eq_some_iff hs _ _).mpr ⟨rfl, i, hmem⟩
  · rintro ⟨⟨hlow, hhigh⟩, n, hn, rfl⟩
    have hmem : n ∈ s.list (hashCode s q) := List.mem_of_find?_eq_some hn
    refine ⟨n, (hscanned n).mpr ⟨(hashCode s q).toNat, by omega, ?_⟩, by rw [SeqLog.find_key hn]⟩
    rwa [Int.toNat_of_nonneg hlow]

/-- Through the multimap a scanned node gets the address of the last entry with its offset. -/
theorem find_foldl_sortOffset {s : SeqLog} (hs : s.WellPlaced) (ps : Multimap UInt64 UInt64)
    (q : Int) :
    (ps.foldl (sortOffset (offsetSeqScan s)) s).find q = (s.find q).map fun n =>
      if InScan s q then assignLast ps n else n := by
  induction ps using List.reverseRecOn with
  | nil =>
    rw [List.foldl_nil]
    cases s.find q <;> simp [equalRange, assignLast, takeAddress]
  | append_singleton ps p ih =>
    rw [List.foldl_append, List.foldl_cons, List.foldl_nil, sortOffset, find_foldl_setAddress, ih]
    simp only [mem_offsetSeqScan hs]
    cases hn : s.find q with
    | none => simp
    | some n =>
      simp only [Option.map_some, Option.some.injEq, exists_eq_left', assignLast,
        getLast?_equalRange_concat]
      by_cases hscan : InScan s q
      · by_cases hoff : n.orderedData.offset = p.1
        · rw [if_pos ⟨hscan, hoff⟩, if_pos hscan, if_pos hscan, if_pos hoff.symm, update_takeAddress]
          rfl
        · rw [if_neg fun hor => hoff hor.2, if_pos hscan, if_pos hscan, if_neg (Ne.symm hoff)]
      · rw [if_neg fun hor => hscan hor.1, if_neg hscan, if_neg hscan]

/-- The updates keep the table and the numbers along its chains. -/
theorem map_key_sortOffset (m : Multimap UInt64 Int) (p : UInt64 × UInt64) (s : SeqLog) :
    (sortOffset m s p).size = s.size ∧ ∀ i, ((sortOffset m s p).list i).map SeqNode.sequenceNumber =
      (s.list i).map SeqNode.sequenceNumber := by
  unfold sortOffset
  induction equalRange m p.1 generalizing s with
  | nil => exact ⟨rfl, fun _ => rfl⟩
  | cons q qs ih =>
    obtain ⟨hsize, hkeys⟩ := ih (lookupModify s q p.2)
    refine ⟨hsize, fun i => (hkeys i).trans ?_⟩
    exact ChainTable.map_key_modify (f := SeqNode.update (setAddress p.2)) (fun _ => rfl) s.list q i

theorem map_key_foldl_sortOffset (m : Multimap UInt64 Int) (ps : Multimap UInt64 UInt64)
    (s : SeqLog) :
    (ps.foldl (sortOffset m) s).size = s.size ∧
      ∀ i, ((ps.foldl (sortOffset m) s).list i).map SeqNode.sequenceNumber =
        (s.list i).map SeqNode.sequenceNumber := by
  induction ps generalizing s with
  | nil => exact ⟨rfl, fun _ => rfl⟩
  | cons p ps ih =>
    obtain ⟨hsize, hkeys⟩ := ih (sortOffset m s p)
    obtain ⟨hsize', hkeys'⟩ := map_key_sortOffset m p s
    exact ⟨hsize.trans hsize', fun i => (hkeys i).trans (hkeys' i)⟩

theorem assignLast_sequenceNumber (ps : Multimap UInt64 UInt64) (n : SeqNode) :
    (assignLast ps n).sequenceNumber = n.sequenceNumber :=
  takeAddress_sequenceNumber _ n

theorem map_key_assignScanned (ps : Multimap UInt64 UInt64) (s : SeqLog) (i : Int) :
    ((assignScanned ps s).list i).map SeqNode.sequenceNumber =
      (s.list i).map SeqNode.sequenceNumber := by
  simp only [assignScanned]
  split
  · rw [List.map_map]
    exact List.map_congr_left fun n _ => assignLast_sequenceNumber ps n
  · rfl

theorem find_assignScanned (ps : Multimap UInt64 UInt64) (s : SeqLog) (q : Int) :
    (assignScanned ps s).find q = (s.find q).map fun n => if InScan s q then assignLast ps n else n := by
  rw [SeqLog.find, ChainTable.find]
  change ChainTable.findKey _ q ((assignScanned ps s).list (bucketIndex s.size q)) = _
  by_cases hscan : InScan s q
  · have hall : (fun n => if InScan s q then assignLast ps n else n) = assignLast ps :=
      funext fun n => if_pos hscan
    have hlist : (assignScanned ps s).list (bucketIndex s.size q) =
        (s.list (bucketIndex s.size q)).map (assignLast ps) := if_pos hscan
    rw [hall, hlist]
    exact ChainTable.findKey_map _ (assignLast_sequenceNumber ps) q _
  · have hnone : (fun n => if InScan s q then assignLast ps n else n) = id :=
      funext fun n => if_neg hscan
    have hlist : (assignScanned ps s).list (bucketIndex s.size q) = s.list (bucketIndex s.size q) :=
      if_neg hscan
    rw [hnone, hlist, Option.map_id]
    rfl

theorem seqLog_ext {s t : SeqLog} (hsize : s.size = t.size) (hlist : s.list = t.list) : s = t := by
  cases s
  cases hsize
  cases hlist
  rfl

/-- What the way through the multimap does. -/
theorem sortCreationList_eq (numData : Nat) (l : PmemAddrOffsetList) {s : SeqLog}
    (hs : s.WellPlaced) :
    sortCreationList l numData (offsetSeqScan s) s =
      assignScanned (l.visited (toInt32 numData)) s := by
  rw [sortCreationList]
  generalize l.visited (toInt32 numData) = ps
  obtain ⟨hsize, hkeys⟩ := map_key_foldl_sortOffset (offsetSeqScan s) ps s
  have hplaced : ChainTable.WellPlaced (bucketIndex s.size) SeqNode.sequenceNumber
      (assignScanned ps s).list := hs.of_map_key (map_key_assignScanned ps s)
  have hlist : (ps.foldl (sortOffset (offsetSeqScan s)) s).list = (assignScanned ps s).list := by
    apply hplaced.ext
    · exact fun i => (hkeys i).trans (map_key_assignScanned ps s i).symm
    · intro q
      have hfind := find_foldl_sortOffset hs ps q
      rw [SeqLog.find, hsize] at hfind
      exact hfind.trans (find_assignScanned ps s q).symm
  exact seqLog_ext hsize hlist

/-- Both ways leave the same log, node by node. In a table and with arrays whose lengths fit
an `int`, a node whose offset occurs has the address of the last occurrence, and the others
are as they were. -/
theorem sortCreation_eq_sortBySequenceNumber (l : PmemAddrOffsetList) {s : SeqLog}
    (hs : s.WellPlaced) :
    sortCreationList l l.numData (offsetSeqScan s) s =
        sortBySequenceNumber (toInt32 l.numData) l s ∧
      (s.size < 2 ^ 31 → l.numData < 2 ^ 31 →
        (sortBySequenceNumber (toInt32 l.numData) l s).size = s.size ∧
        ∀ i : Int, 0 ≤ i → i < s.size →
          (sortBySequenceNumber (toInt32 l.numData) l s).list i =
            (s.list i).map (assignLast l.pairs)) := by
  rw [sortCreationList_eq _ l hs, sortBySequenceNumber_eq]
  refine ⟨rfl, fun hsize hnum => ⟨rfl, fun i hlow hhigh => ?_⟩⟩
  have hvisited : l.visited (toInt32 l.numData) = l.pairs := by
    rw [toInt32_size hnum]
    apply List.take_of_length_le
    rw [PmemAddrOffsetList.pairs, List.length_zip, l.length_eq, Int.toNat_natCast]
    exact min_le_left _ _
  rw [hvisited]
  simp only [assignScanned]
  rw [toInt32_size hsize, Int.toNat_natCast, if_pos ⟨hlow, hhigh⟩]

/-- Two updates of one offset, which occurs twice in the arrays. -/
theorem sortCreation_eq_sortBySequenceNumber_shared :
    let l : PmemAddrOffsetList := ⟨[8, 16, 8], [108, 116, 208], rfl⟩
    let d := { SingleData.uninit with offset := 8 }
    let s := insert (insert (SeqLog.empty 2) 1 d) 3 d
    sortCreationList l l.numData (offsetSeqScan s) s =
        sortBySequenceNumber (toInt32 l.numData) l s ∧
      (s.size < 2 ^ 31 → l.numData < 2 ^ 31 →
        (sortBySequenceNumber (toInt32 l.numData) l s).size = s.size ∧
        ∀ i : Int, 0 ≤ i → i < s.size →
          (sortBySequenceNumber (toInt32 l.numData) l s).list i =
            (s.list i).map (assignLast l.pairs)) :=
  sortCreation_eq_sortBySequenceNumber _ (((SeqLog.wellPlaced_empty 2).insert 1 _).insert 3 _)

/-- The sorting in `react`, whose addresses are those of the offsets in the pool. -/
theorem sortCreation_eq_list {offsets : List UInt64} (hnum : offsets.length < 2 ^ 31) (pop : UInt64)
    {s : SeqLog} (hsize : s.size < 2 ^ 31) :
    sortCreation offsets pop (offsetSeqCreation s) s =
      sortCreationList ⟨offsets, offsets.map (pop + ·), List.length_map _⟩ offsets.length
        (offsetSeqScan s) s := by
  have hvisited : PmemAddrOffsetList.visited ⟨offsets, offsets.map (pop + ·), List.length_map _⟩
      (toInt32 offsets.length) = offsets.map fun offset => (offset, pop + offset) := by
    have hpairs : PmemAddrOffsetList.pairs ⟨offsets, offsets.map (pop + ·), List.length_map _⟩ =
        offsets.map fun offset => (offset, pop + offset) := by
      have hzip := List.zip_map' (f := id) (g := (pop + ·)) (l := offsets)
      rwa [List.map_id] at hzip
    rw [toInt32_size hnum, PmemAddrOffsetList.visited, hpairs]
    exact List.take_of_length_le (by simp)
  rw [sortCreationList, hvisited, List.foldl_map, offsetSeqScan, scanned_eq_nodes hsize]
  rfl

end Arthas.Reactor
