import Mathlib
import Arthas.Reactor.OrderedLogs

/-!
The sequence log as a finite map: a run of its operations (`insert`, `lookup_modify`,
`lookup`, `rev_lookup`, `count_higher`, `address_lookup`, `find_highest_seq_num`) answers as
the map does that the same operations change.
-/

set_option autoImplicit false
set_option relaxedAutoImplicit false

namespace Arthas.Reactor.Checkpoint

open Arthas.Lib

/-- The body of the inner loop of `address_lookup`: `*seq_count` and the caller's array. -/
def collectAddress (address : UInt64) (st : Int × (Int → Int)) (temp : SeqNode) :
    Int × (Int → Int) :=
  if address = temp.orderedData.address then
    (toInt32 (st.1 + 1), Function.update st.2 st.1 temp.sequenceNumber)
  else st

/-- `address_lookup`: `*seq_count` and `sequences`, which the caller makes long enough. -/
def addressLookup (sLog : SeqLog) (address : UInt64) (sequences : Int → Int) :
    Int × (Int → Int) :=
  sLog.scanned.foldl (collectAddress address) (0, sequences)

/-- A call of one of the operations on the log. -/
inductive Operation where
  | insert (key : Int) (orderedData : SingleData)
  | lookupModify (key : Int) (addr : UInt64)
  | lookup (key : Int)
  | revLookup (key : Int)
  | countHigher (seqNum : Int)
  | addressLookup (address : UInt64) (sequences : Int → Int)
  | findHighestSeqNum

/-- What a call gives back. -/
inductive Answer where
  | nothing
  | record (data : SingleData)
  | number (n : Int)
  | sequences (seqCount : Int) (sequences : Int → Int)

/-- The key of the call is a number that is not negative and fits an `int`. -/
def Operation.KeyValid : Operation → Prop
  | .insert key _ | .lookupModify key _ | .lookup key | .revLookup key => 0 ≤ key ∧ key < 2 ^ 31
  | _ => True

def perform (sLog : SeqLog) : Operation → SeqLog × Answer
  | .insert key orderedData => (insert sLog key orderedData, .nothing)
  | .lookupModify key addr => (lookupModify sLog key addr, .nothing)
  | .lookup key => (sLog, .record (lookup sLog key))
  | .revLookup key => (sLog, .number (revLookup sLog key))
  | .countHigher seqNum => (sLog, .number (countHigher sLog seqNum))
  | .addressLookup address sequences =>
    let found := addressLookup sLog address sequences
    (sLog, .sequences found.1 found.2)
  | .findHighestSeqNum => (sLog, .number (scanHighestSeqNum sLog))

/-- The log after some calls, and their answers. -/
def performAll (sLog : SeqLog) : List Operation → SeqLog × List Answer
  | [] => (sLog, [])
  | op :: ops =>
    let rest := performAll (perform sLog op).1 ops
    (rest.1, (perform sLog op).2 :: rest.2)

section Map

/-- The records by their numbers. -/
abbrev RecordMap : Type := Finmap fun _ : Int => SingleData

/-- What a call does to the map: the last insertion under a key wins, and `lookup_modify`
changes one field of the record of a key that the map has. -/
def replay (m : RecordMap) : Operation → RecordMap
  | .insert key orderedData => m.insert key orderedData
  | .lookupModify key addr =>
    ChainTable.adjust m key fun d => { d with sortedPmemAddress := some addr }
  | _ => m

/-- The loops over the buckets come to the key: they are bounded by the size converted to
`int`, and in an array that is longer than that a key has a bucket of its own. -/
def Scanned (size : Nat) (key : Int) : Prop := size < 2 ^ 31 ∨ key < toInt32 size

instance (size : Nat) (key : Int) : Decidable (Scanned size key) :=
  inferInstanceAs (Decidable (_ ∨ _))

/-- The keys of the map whose records pass a test, as far as the loops come to them. -/
def keysThat (size : Nat) (p : Int → SingleData → Prop) [DecidableRel p] (m : RecordMap) :
    Finset Int :=
  m.keys.filter fun key => Scanned size key ∧ ∃ d ∈ m.lookup key, p key d

/-- The array lists the keys, each once, and is unchanged beyond them. -/
structure Lists (keys : Finset Int) (before : Int → Int) (seqCount : Int) (after : Int → Int) :
    Prop where
  count : seqCount = keys.card
  each : Set.BijOn after (Set.Ico 0 seqCount) keys
  rest : ∀ i, i ∉ Set.Ico 0 seqCount → after i = before i

/-- The answer to a call is the one that the map gives. What is counted in an `int` is right
if it fits. -/
def Answers (size : Nat) (m : RecordMap) : Operation → Answer → Prop
  | .insert _ _, .nothing => True
  | .lookupModify _ _, .nothing => True
  | .lookup key, .record d => m.lookup key = some d ∨ key ∉ m ∧ d.sequenceNumber = -1
  | .revLookup key, .number n => key ∈ m ∧ n = 1 ∨ key ∉ m ∧ n = -1
  | .countHigher seqNum, .number n =>
    let keys := keysThat size (fun key _ => seqNum < key) m
    keys.card < 2 ^ 31 → n = keys.card
  | .addressLookup address before, .sequences seqCount after =>
    let keys := keysThat size (fun _ d => address = d.address) m
    keys.card < 2 ^ 31 → Lists keys before seqCount after
  | .findHighestSeqNum, .number n =>
    let keys := keysThat size (fun _ _ => True) m
    keys = ∅ ∧ n = -1 ∨ IsGreatest keys n
  | _, _ => False

/-- Every answer is the one that the map gives to which the calls before it have led. -/
def Follows (size : Nat) : RecordMap → List Operation → List Answer → Prop
  | _, [], [] => True
  | m, op :: ops, answer :: answers =>
    Answers size m op answer ∧ Follows size (replay m op) ops answers
  | _, _, _ => False

end Map

section Scans

variable {size : Nat} {key : Int} {sLog : SeqLog}

/-- The bucket of a key that is not negative is its remainder, whatever the size. -/
theorem bucketIndex_of_nonneg (nonneg : 0 ≤ key) (int32 : key < 2 ^ 31) :
    bucketIndex size key = key % (size : Int) := by
  obtain ⟨k, rfl⟩ := Int.eq_ofNat_of_zero_le nonneg
  have plain : (k : Int) % 2 ^ 64 = k := Int.emod_eq_of_lt nonneg (by omega)
  have signed : ¬ (k : Int) < 0 := by omega
  have below : k % size ≤ k := Nat.mod_le k size
  simp only [bucketIndex, if_neg signed, plain, ← Int.natCast_emod]
  exact toInt32_size (by omega)

/-- A key is hashed into the array, whatever the size. -/
theorem bucketIndex_inside (positive : 0 < size) (nonneg : 0 ≤ key) (int32 : key < 2 ^ 31) :
    0 ≤ bucketIndex size key ∧ bucketIndex size key < size := by
  rw [bucketIndex_of_nonneg nonneg int32]
  exact ⟨Int.emod_nonneg _ (by omega), Int.emod_lt_of_pos _ (by omega)⟩

/-- The keys that the loops come to. -/
theorem scanned_iff (positive : 0 < size) (nonneg : 0 ≤ key) (int32 : key < 2 ^ 31) :
    (0 ≤ bucketIndex size key ∧ bucketIndex size key < (toInt32 size).toNat) ↔
      Scanned size key := by
  obtain ⟨low, high⟩ := bucketIndex_inside positive nonneg int32
  rcases Nat.lt_or_ge size (2 ^ 31) with few | many
  · rw [toInt32_size few]
    exact ⟨fun _ => Or.inl few, fun _ => ⟨low, high⟩⟩
  · have own : bucketIndex size key = key := by
      rw [bucketIndex_of_nonneg nonneg int32]
      exact Int.emod_eq_of_lt nonneg (by omega)
    rw [own, Scanned]
    omega

theorem scanned_eq_scan (sLog : SeqLog) :
    sLog.scanned = ChainTable.scan sLog.list (toInt32 sLog.size).toNat := by
  simp [SeqLog.scanned, ChainTable.scan, List.flatMap_assoc]

/-- `count_higher` counts the nodes it meets. -/
theorem countHigher_eq (sLog : SeqLog) (seqNum : Int)
    (fits : (sLog.scanned.filter fun n => seqNum < n.sequenceNumber).length < 2 ^ 31) :
    countHigher sLog seqNum = (sLog.scanned.filter fun n => seqNum < n.sequenceNumber).length := by
  have filtered : ((sLog.scanned.map SeqNode.sequenceNumber).filter fun q => seqNum < q).length =
      (sLog.scanned.filter fun n => seqNum < n.sequenceNumber).length := by
    rw [List.filter_map, List.length_map]
    rfl
  have count := foldl_count (sLog.scanned.map SeqNode.sequenceNumber) seqNum 0 le_rfl
    (by rw [filtered]; omega)
  rw [List.foldl_map, filtered, Int.zero_add] at count
  exact count

/-- `find_highest_seq_num` gives the largest number it meets, or `-1`. -/
theorem scanHighestSeqNum_spec (sLog : SeqLog)
    (nonneg : ∀ n ∈ sLog.scanned, 0 ≤ n.sequenceNumber) :
    sLog.scanned = [] ∧ scanHighestSeqNum sLog = -1 ∨
      IsGreatest {q | q ∈ sLog.scanned.map SeqNode.sequenceNumber} (scanHighestSeqNum sLog) := by
  have fold := foldl_highest (sLog.scanned.map SeqNode.sequenceNumber) (-1)
  rw [List.foldl_map] at fold
  obtain ⟨among, -, all⟩ := foldl_max_spec (sLog.scanned.map SeqNode.sequenceNumber) (-1)
  rw [← fold] at among all
  rcases among with least | member
  · left
    refine ⟨?_, least⟩
    apply List.eq_nil_iff_forall_not_mem.mpr
    intro n inside
    have below := all n.sequenceNumber (List.mem_map_of_mem inside)
    have above := nonneg n inside
    rw [least] at below
    omega
  · exact Or.inr ⟨member, all⟩

/-- The numbers that a part of the scan of `address_lookup` writes, and where. -/
theorem foldl_collectAddress (address : UInt64) (l : List SeqNode) (seqCount : Int)
    (before : Int → Int) (nonneg : 0 ≤ seqCount)
    (fits : seqCount + (l.filter fun n => address = n.orderedData.address).length < 2 ^ 31) :
    let hits := (l.filter fun n => address = n.orderedData.address).map SeqNode.sequenceNumber
    let st := l.foldl (collectAddress address) (seqCount, before)
    st.1 = seqCount + hits.length ∧
      (∀ j : Nat, (h : j < hits.length) → st.2 (seqCount + j) = hits[j]) ∧
      ∀ i, (i < seqCount ∨ seqCount + hits.length ≤ i) → st.2 i = before i := by
  induction l generalizing seqCount before with
  | nil => simp
  | cons n l ih =>
    by_cases hit : address = n.orderedData.address
    · rw [List.filter_cons_of_pos (by simpa using hit), List.length_cons] at fits
      have exact32 : toInt32 (seqCount + 1) = seqCount + 1 := by
        rw [toInt32, Int.bmod_eq_of_le] <;> omega
      obtain ⟨count, written, rest⟩ := ih (seqCount + 1)
        (Function.update before seqCount n.sequenceNumber) (by omega) (by omega)
      rw [List.filter_cons_of_pos (by simpa using hit), List.foldl_cons, collectAddress, if_pos hit]
      simp only [exact32, List.map_cons, List.length_cons]
      refine ⟨by rw [count]; omega, ?_, ?_⟩
      · intro j inside
        cases j with
        | zero =>
          rw [Nat.cast_zero, Int.add_zero, rest seqCount (Or.inl (by omega)), Function.update_self]
          rfl
        | succ j =>
          have here : seqCount + ((j + 1 : Nat) : Int) = seqCount + 1 + j := by omega
          rw [here, written j (by omega)]
          rfl
      · intro i outside
        rw [rest i (by omega), Function.update_of_ne (by omega)]
    · rw [List.filter_cons_of_neg (by simpa using hit)] at fits ⊢
      rw [List.foldl_cons, collectAddress, if_neg hit]
      exact ih seqCount before nonneg fits

/-- A list of the keys without repetitions that is written to the array lists them there. -/
theorem lists_of_written {hits : List Int} {keys : Finset Int} (nodup : hits.Nodup)
    (same : ∀ key, key ∈ hits ↔ key ∈ keys) {before after : Int → Int} {seqCount : Int}
    (count : seqCount = hits.length)
    (written : ∀ j : Nat, (h : j < hits.length) → after j = hits[j])
    (rest : ∀ i : Int, (i < 0 ∨ hits.length ≤ i) → after i = before i) :
    Lists keys before seqCount after := by
  have finset : hits.toFinset = keys := by
    ext key
    rw [List.mem_toFinset, same]
  have card : hits.length = keys.card := by
    rw [← finset, List.toFinset_card_of_nodup nodup]
  have position : ∀ i ∈ Set.Ico 0 seqCount, ∃ j : Nat, i = j ∧ j < hits.length := by
    intro i inside
    obtain ⟨low, high⟩ := Set.mem_Ico.mp inside
    exact ⟨i.toNat, by omega, by omega⟩
  refine ⟨by rw [count, card], ⟨?_, ?_, ?_⟩, ?_⟩
  · intro i inside
    obtain ⟨j, rfl, below⟩ := position i inside
    rw [written j below]
    exact (same _).mp (List.getElem_mem below)
  · intro i inside i' inside' equal
    obtain ⟨j, rfl, below⟩ := position i inside
    obtain ⟨j', rfl, below'⟩ := position i' inside'
    rw [written j below, written j' below', nodup.getElem_inj_iff] at equal
    rw [equal]
  · intro key member
    obtain ⟨j, below, here⟩ := List.getElem_of_mem ((same key).mpr member)
    refine ⟨j, Set.mem_Ico.mpr (by omega), ?_⟩
    rw [written j below, here]
  · intro i outside
    rw [Set.mem_Ico] at outside
    exact rest i (by omega)

end Scans

section Runs

variable {size : Nat} {sLog : SeqLog} {m : RecordMap}

/-- The log stores the map, whose keys are numbers that fit an `int`. -/
structure Represents (size : Nat) (sLog : SeqLog) (m : RecordMap) : Prop where
  size_eq : sLog.size = size
  stores : ChainTable.Stores (bucketIndex size) SeqNode.sequenceNumber SeqNode.orderedData
    sLog.list m
  keys : ∀ key ∈ m, 0 ≤ key ∧ key < 2 ^ 31

theorem represents_empty (size : Nat) : Represents size (SeqLog.empty size) ∅ where
  size_eq := rfl
  stores := ChainTable.stores_empty
  keys _ member := absurd member Finmap.notMem_empty

theorem Represents.insert (repr : Represents size sLog m) {key : Int}
    (valid : 0 ≤ key ∧ key < 2 ^ 31) (d : SingleData) :
    Represents size (insert sLog key d) (m.insert key d) := by
  obtain ⟨rfl, stores, keys⟩ := repr
  refine ⟨rfl, ?_, ?_⟩
  · have named : SeqNode.sequenceNumber ⟨key, d⟩ = key := rfl
    have holds : SeqNode.orderedData ⟨key, d⟩ = d := rfl
    exact stores.upsert (f := SeqNode.update fun _ => d) (fun _ => rfl) named (fun _ => rfl) holds
  · intro key' member
    rcases Finmap.mem_insert.mp member with rfl | member
    · exact valid
    · exact keys key' member

theorem Represents.modify (repr : Represents size sLog m) (key : Int)
    (f : SingleData → SingleData) :
    Represents size (sLog.modify key f) (ChainTable.adjust m key f) := by
  obtain ⟨rfl, stores, keys⟩ := repr
  refine ⟨rfl, ?_, ?_⟩
  · exact stores.modify (f := SeqNode.update f) (fun _ => rfl) (fun _ => rfl) key
  · intro key' member
    exact keys key' (ChainTable.mem_adjust.mp member)

theorem Represents.find (repr : Represents size sLog m) (key : Int) :
    (sLog.find key).map SeqNode.orderedData = m.lookup key := by
  obtain ⟨rfl, stores, -⟩ := repr
  exact stores.found key

theorem Represents.wellPlaced (repr : Represents size sLog m) : sLog.WellPlaced := by
  obtain ⟨rfl, stores, -⟩ := repr
  exact stores.placed

/-- Every node is in the array. -/
theorem Represents.inside (repr : Represents size sLog m) (positive : 0 < size) {i : Int}
    {n : SeqNode} (member : n ∈ sLog.list i) : 0 ≤ i ∧ i < size := by
  obtain ⟨rfl, stores, keys⟩ := repr
  have found := (stores.placed.find_eq_some_iff n.sequenceNumber n).mpr ⟨rfl, i, member⟩
  have held : n.sequenceNumber ∈ m := by
    apply (stores.isSome_find _).mp
    rw [found]
    rfl
  obtain ⟨nonneg, int32⟩ := keys _ held
  rw [← stores.placed.placed i n member]
  exact bucketIndex_inside positive nonneg int32

section Keys

variable (repr : Represents size sLog m) (positive : 0 < size)
variable (p : Int → SingleData → Prop) [DecidableRel p]

include repr positive

theorem Represents.keysThat_eq :
    keysThat size p m = ChainTable.keysWhere (bucketIndex size) (toInt32 size).toNat p m := by
  apply Finset.filter_congr
  intro key member
  obtain ⟨nonneg, int32⟩ := repr.keys key (Finmap.mem_keys.mp member)
  rw [scanned_iff positive nonneg int32]

/-- The numbers of the scanned nodes that pass a test are the keys that do, each once. -/
theorem Represents.keys_scanned :
    ((sLog.scanned.filter fun n => p n.sequenceNumber n.orderedData).map
        SeqNode.sequenceNumber).Nodup ∧
      ∀ key, key ∈ (sLog.scanned.filter fun n => p n.sequenceNumber n.orderedData).map
        SeqNode.sequenceNumber ↔ key ∈ keysThat size p m := by
  rw [repr.keysThat_eq positive, scanned_eq_scan, repr.size_eq]
  exact repr.stores.keys_scan

theorem Represents.length_scanned :
    (sLog.scanned.filter fun n => p n.sequenceNumber n.orderedData).length =
      (keysThat size p m).card := by
  rw [repr.keysThat_eq positive, scanned_eq_scan, repr.size_eq]
  exact repr.stores.length_scan

end Keys

section Calls

theorem Represents.lookup (repr : Represents size sLog m) (key : Int) :
    m.lookup key = some (lookup sLog key) ∨ key ∉ m ∧ (lookup sLog key).sequenceNumber = -1 := by
  rw [Checkpoint.lookup, repr.find]
  cases held : m.lookup key with
  | some d => exact Or.inl rfl
  | none => exact Or.inr ⟨Finmap.lookup_eq_none.mp held, rfl⟩

theorem Represents.revLookup (repr : Represents size sLog m) (key : Int) :
    key ∈ m ∧ revLookup sLog key = 1 ∨ key ∉ m ∧ revLookup sLog key = -1 := by
  have found : (sLog.find key).isSome ↔ key ∈ m := by
    rw [← Finmap.lookup_isSome, ← repr.find key, Option.isSome_map]
  rw [Checkpoint.revLookup]
  by_cases held : key ∈ m
  · exact Or.inl ⟨held, if_pos (found.mpr held)⟩
  · exact Or.inr ⟨held, if_neg fun inside => held (found.mp inside)⟩

theorem Represents.countHigher (repr : Represents size sLog m) (positive : 0 < size)
    (seqNum : Int) (fits : (keysThat size (fun key _ => seqNum < key) m).card < 2 ^ 31) :
    countHigher sLog seqNum = (keysThat size (fun key _ => seqNum < key) m).card := by
  have length := repr.length_scanned positive fun key _ => seqNum < key
  rw [← length] at fits ⊢
  exact countHigher_eq sLog seqNum fits

theorem Represents.addressLookup (repr : Represents size sLog m) (positive : 0 < size)
    (address : UInt64) (before : Int → Int)
    (fits : (keysThat size (fun _ d => address = d.address) m).card < 2 ^ 31) :
    Lists (keysThat size (fun _ d => address = d.address) m) before
      (addressLookup sLog address before).1 (addressLookup sLog address before).2 := by
  obtain ⟨nodup, same⟩ := repr.keys_scanned positive fun _ d => address = d.address
  have length := repr.length_scanned positive fun _ d => address = d.address
  have short : (0 : Int) + (sLog.scanned.filter fun n => address = n.orderedData.address).length <
      2 ^ 31 := by
    rw [length]
    omega
  obtain ⟨count, written, rest⟩ := foldl_collectAddress address sLog.scanned 0 before le_rfl short
  simp only [Int.zero_add] at count written rest
  rw [Checkpoint.addressLookup]
  exact lists_of_written nodup same count written rest

theorem Represents.findHighest (repr : Represents size sLog m) (positive : 0 < size) :
    keysThat size (fun _ _ => True) m = ∅ ∧ scanHighestSeqNum sLog = -1 ∨
      IsGreatest (keysThat size (fun _ _ => True) m : Set Int) (scanHighestSeqNum sLog) := by
  obtain ⟨-, same⟩ := repr.keys_scanned positive fun _ _ => True
  simp only [decide_true, List.filter_true] at same
  have nonneg : ∀ n ∈ sLog.scanned, 0 ≤ n.sequenceNumber := by
    intro n inside
    have member := (same _).mp (List.mem_map_of_mem inside)
    exact (repr.keys _ (Finmap.mem_keys.mp (Finset.mem_filter.mp member).1)).1
  have numbers : {q | q ∈ sLog.scanned.map SeqNode.sequenceNumber} =
      (keysThat size (fun _ _ => True) m : Set Int) := Set.ext same
  rcases scanHighestSeqNum_spec sLog nonneg with ⟨none, least⟩ | greatest
  · left
    refine ⟨?_, least⟩
    apply Finset.eq_empty_of_forall_notMem
    intro key member
    have inside := (same key).mpr member
    rw [none] at inside
    cases inside
  · right
    rwa [numbers] at greatest

/-- A call leads from a log that stores a map to one that stores the map after the call, and
answers as the map does. -/
theorem Represents.perform (repr : Represents size sLog m) (positive : 0 < size) {op : Operation}
    (valid : op.KeyValid) :
    Represents size (perform sLog op).1 (replay m op) ∧ Answers size m op (perform sLog op).2 := by
  cases op with
  | insert key orderedData => exact ⟨repr.insert valid orderedData, trivial⟩
  | lookupModify key addr => exact ⟨repr.modify key _, trivial⟩
  | lookup key => exact ⟨repr, repr.lookup key⟩
  | revLookup key => exact ⟨repr, repr.revLookup key⟩
  | countHigher seqNum => exact ⟨repr, repr.countHigher positive seqNum⟩
  | addressLookup address before => exact ⟨repr, repr.addressLookup positive address before⟩
  | findHighestSeqNum => exact ⟨repr, repr.findHighest positive⟩

/-- A run from a log that stores a map. -/
theorem Represents.performAll (repr : Represents size sLog m) (positive : 0 < size)
    {ops : List Operation} (valid : ∀ op ∈ ops, op.KeyValid) :
    Represents size (performAll sLog ops).1 (ops.foldl replay m) ∧
      Follows size m ops (performAll sLog ops).2 := by
  induction ops generalizing sLog m with
  | nil => exact ⟨repr, trivial⟩
  | cons op ops ih =>
    obtain ⟨next, answers⟩ := repr.perform positive (valid op List.mem_cons_self)
    obtain ⟨last, follows⟩ := ih next fun op' member => valid op' (List.mem_cons_of_mem op member)
    exact ⟨last, answers, follows⟩

end Calls

end Runs

/-- From empty buckets, whatever their number and whatever the calls: every node is in the
bucket of its number, inside the array, no number occurs twice, and every call answers as the
map does. -/
theorem sequenceLog_is_map {size : Nat} (positive : 0 < size) (ops : List Operation)
    (valid : ∀ op ∈ ops, op.KeyValid) :
    let sLog := (performAll (SeqLog.empty size) ops).1
    sLog.WellPlaced ∧
      (∀ i, ∀ n ∈ sLog.list i, hashCode sLog n.sequenceNumber = i ∧ 0 ≤ i ∧ i < size) ∧
      Follows size ∅ ops (performAll (SeqLog.empty size) ops).2 := by
  obtain ⟨repr, follows⟩ := (represents_empty size).performAll positive valid
  refine ⟨repr.wellPlaced, ?_, follows⟩
  intro i n member
  exact ⟨repr.wellPlaced.placed i n member, repr.inside positive member⟩

section Examples

/-- A record of the address 8. -/
def eightRecord : SingleData := { SingleData.uninit with address := 8 }

/-- In an array of `2^31` buckets the loops come to no node. -/
theorem sequenceLog_is_map_fails :
    let sLog := insert (SeqLog.empty (2 ^ 31)) 5 eightRecord
    revLookup sLog 5 = 1 ∧ scanHighestSeqNum sLog = -1 ∧ countHigher sLog 4 = 0 ∧
      (addressLookup sLog 8 fun _ => 0).1 = 0 := by
  have blind : (insert (SeqLog.empty (2 ^ 31)) 5 eightRecord).scanned = [] := by
    have size : (insert (SeqLog.empty (2 ^ 31)) 5 eightRecord).size = 2 ^ 31 := rfl
    have bound : (toInt32 ((2 ^ 31 : Nat) : Int)).toNat = 0 := by decide
    rw [scanned_eq_scan, size, bound]
    rfl
  refine ⟨?_, ?_, ?_, ?_⟩
  · simp [revLookup_insert]
  · rw [scanHighestSeqNum, blind]
    rfl
  · rw [countHigher, blind]
    rfl
  · rw [addressLookup, blind]
    rfl

/-- Two calls that collide in an array of two buckets, and one that changes an address. -/
def collidingCalls : List Operation :=
  [.insert 1 eightRecord, .insert 3 eightRecord, .lookupModify 1 16, .lookup 3,
    .addressLookup 8 fun _ => 0, .findHighestSeqNum]

theorem sequenceLog_is_map_colliding :
    let sLog := (performAll (SeqLog.empty 2) collidingCalls).1
    sLog.WellPlaced ∧
      (∀ i, ∀ n ∈ sLog.list i, hashCode sLog n.sequenceNumber = i ∧ 0 ≤ i ∧ i < 2) ∧
      Follows 2 ∅ collidingCalls (performAll (SeqLog.empty 2) collidingCalls).2 :=
  sequenceLog_is_map (by decide) collidingCalls
    (by simp [collidingCalls, Operation.KeyValid])

end Examples

end Arthas.Reactor.Checkpoint
