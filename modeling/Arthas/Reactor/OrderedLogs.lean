import Mathlib
import Arthas.Lib.ChainMap
import Arthas.Reactor.SequenceLog

/-!
The sequence log and the transaction log as indexes of the checkpoint log
(`order_by_sequence_num`, `order_by_tx_id`), with the loops over their buckets as they are
bounded: by the size converted to `int`.
-/

set_option autoImplicit false
set_option relaxedAutoImplicit false

namespace Arthas.Reactor.Checkpoint

open Arthas.Lib

/-- `insert`, which reads `list[92]` first: undefined in a shorter array. -/
def insertRead (sLog : SeqLog) (key : Int) (orderedData : SingleData) : Option SeqLog :=
  if 92 < sLog.size then some (insert sLog key orderedData) else none

def orderStepRead (st : Ordering) (p : Node × Nat) : Option Ordering :=
  let orderedData := fillOrderedData st.orderedData p.1 p.2
  (insertRead st.sLog (seqOf p) orderedData).map fun sLog => ⟨orderedData, sLog, st.totalSize + 1⟩

/-- `order_by_sequence_num`, with what `insert` reads. -/
def orderBySequenceNumRead (sLog : SeqLog) (totalSize : Nat) (cLog : CheckpointLog) :
    Option (SeqLog × Nat) :=
  (cLog.versions.foldlM orderStepRead ⟨SingleData.uninit, sLog, totalSize⟩).map fun st =>
    (st.sLog, st.totalSize)

/-- The nodes that the loops up to `(int)s_log->size` meet. -/
def SeqLog.scanned (sLog : SeqLog) : List SeqNode :=
  (List.range (toInt32 sLog.size).toNat).flatMap fun i => sLog.list i

/-- `count_higher` -/
def countHigher (sLog : SeqLog) (seqNum : Int) : Int :=
  sLog.scanned.foldl (fun returnNumber temp =>
    if temp.sequenceNumber > seqNum then toInt32 (returnNumber + 1) else returnNumber) 0

/-- `find_highest_seq_num` -/
def scanHighestSeqNum (sLog : SeqLog) : Int :=
  sLog.scanned.foldl (fun highest temp =>
    if temp.sequenceNumber > highest then temp.sequenceNumber else highest) (-1)

structure TxNode where
  txId : Int
  orderedData : SingleData

/-- `tx_log` -/
structure TxLog where
  size : Nat
  list : Int → List TxNode

def TxLog.empty (size : Nat) : TxLog := ⟨size, fun _ => []⟩

def txhashCode (tLog : TxLog) (key : Int) : Int := bucketIndex tLog.size key

/-- `tx_insert`: always a new node, in front of its chain. -/
def txInsert (tLog : TxLog) (key : Int) (orderedData : SingleData) : TxLog where
  size := tLog.size
  list := Function.update tLog.list (txhashCode tLog key)
    (⟨key, orderedData⟩ :: tLog.list (txhashCode tLog key))

structure TxOrdering where
  orderedData : SingleData
  tLog : TxLog

def txOrderStep (st : TxOrdering) (p : Node × Nat) : TxOrdering :=
  let orderedData := fillOrderedData st.orderedData p.1 p.2
  ⟨orderedData, txInsert st.tLog orderedData.txId orderedData⟩

def orderByTxId (tLog : TxLog) (cLog : CheckpointLog) : TxLog :=
  (cLog.versions.foldl txOrderStep ⟨SingleData.uninit, tLog⟩).tLog

def txOf (p : Node × Nat) : Int := p.1.cData.txId p.2

/-- The sequence log and `*total_size` index the versions of the checkpoint log. -/
structure SequenceIndex (cLog : CheckpointLog) (sLog : SeqLog) (totalSize : Nat) : Prop where
  found : ∀ p ∈ cLog.versions, Records p.1 p.2 (lookup sLog (seqOf p))
  others : ∀ q, 0 ≤ q → q ∉ cLog.versions.map seqOf → (lookup sLog q).sequenceNumber = -1
  total : totalSize = cLog.versions.length
  nodes : sLog.nodes.length = totalSize
  highest : scanHighestSeqNum sLog = (cLog.versions.map seqOf).foldr max (-1)
  higher : ∀ n, (cLog.versions.filter fun p => n < seqOf p).length < 2 ^ 31 →
    countHigher sLog n = (cLog.versions.filter fun p => n < seqOf p).length

/-- A bucket of the transaction log holds the records of the versions whose tx id is hashed
there, each once, the last one first. -/
def TxIndex (cLog : CheckpointLog) (tLog : TxLog) : Prop :=
  ∀ i, List.Forall₂ (fun n p => n.txId = txOf p ∧ Records p.1 p.2 n.orderedData) (tLog.list i)
    (cLog.versions.filter fun p => txhashCode tLog (txOf p) = i).reverse

section Sequence

variable {sLog : SeqLog}

theorem toInt32_size {size : Nat} (few : size < 2 ^ 31) : toInt32 (size : Int) = size := by
  rw [toInt32, Int.bmod_eq_of_le] <;> omega

theorem scanned_eq_nodes (few : sLog.size < 2 ^ 31) : sLog.scanned = sLog.nodes := by
  rw [SeqLog.scanned, toInt32_size few, Int.toNat_natCast, SeqLog.nodes]

theorem foldlM_orderStepRead (ps : List (Node × Nat)) (st : Ordering) (long : 92 < st.sLog.size) :
    ps.foldlM orderStepRead st = some (ps.foldl orderStep st) := by
  induction ps generalizing st with
  | nil => rfl
  | cons p ps ih =>
    have step : orderStepRead st p = some (orderStep st p) := by
      simp [orderStepRead, insertRead, long, orderStep]
    rw [List.foldlM_cons, step, List.foldl_cons]
    exact ih (orderStep st p) long

theorem nodes_eq_scan (sLog : SeqLog) : sLog.nodes = ChainTable.scan sLog.list sLog.size := by
  simp [SeqLog.nodes, ChainTable.scan, List.flatMap_assoc]

/-- The numbers in the table are different. -/
theorem SeqLog.WellPlaced.nodup_numbers (placed : sLog.WellPlaced) :
    (sLog.nodes.map SeqNode.sequenceNumber).Nodup := by
  rw [nodes_eq_scan]
  exact ChainTable.WellPlaced.nodup_scan placed sLog.size

/-- The nodes of the table carry the numbers of the versions. -/
theorem nodes_perm {cLog : CheckpointLog} {size : Nat} (numbered : cLog.Numbered)
    (positive : 0 < size) (few : size < 2 ^ 31) :
    ((sequenceLog size cLog).nodes.map SeqNode.sequenceNumber).Perm (cLog.versions.map seqOf) := by
  obtain ⟨found, absent, placed⟩ := sequenceLog_spec numbered size
  apply (List.perm_ext_iff_of_nodup placed.nodup_numbers numbered.distinct).mpr
  intro q
  constructor
  · intro member
    obtain ⟨n, inside, rfl⟩ := List.mem_map.mp member
    by_contra other
    have here := placed.find_of_mem inside
    rw [absent _ other] at here
    cases here
  · intro member
    obtain ⟨p, inside, rfl⟩ := List.mem_map.mp member
    obtain ⟨d, here, -⟩ := found p inside
    have inTable : (sequenceLog size cLog).InTable (seqOf p) := by
      rw [SeqLog.InTable, hashCode, sequenceLog_size]
      exact bucketIndex_bounds positive few (numbered.nonneg p inside)
    exact List.mem_map.mpr ⟨_, SeqLog.mem_nodes_of_find inTable here, rfl⟩

theorem foldl_count (l : List Int) (n returnNumber : Int) (nonneg : 0 ≤ returnNumber)
    (fits : returnNumber + (l.filter fun q => n < q).length < 2 ^ 31) :
    l.foldl (fun returnNumber q => if q > n then toInt32 (returnNumber + 1) else returnNumber)
      returnNumber = returnNumber + (l.filter fun q => n < q).length := by
  induction l generalizing returnNumber with
  | nil => simp
  | cons q l ih =>
    by_cases higher : n < q
    · rw [List.filter_cons_of_pos (by simpa using higher), List.length_cons] at fits
      have exact32 : toInt32 (returnNumber + 1) = returnNumber + 1 := by
        rw [toInt32, Int.bmod_eq_of_le] <;> omega
      rw [List.foldl_cons, if_pos higher, exact32, ih _ (by omega) (by omega),
        List.filter_cons_of_pos (by simpa using higher), List.length_cons]
      omega
    · rw [List.filter_cons_of_neg (by simpa using higher)] at fits ⊢
      rw [List.foldl_cons, if_neg higher, ih _ nonneg fits]

/-- The sequence log of a numbered checkpoint log is its index. -/
theorem sequenceIndex {cLog : CheckpointLog} {size : Nat} (numbered : cLog.Numbered)
    (long : 92 < size) (few : size < 2 ^ 31) :
    ∃ totalSize, orderBySequenceNumRead (SeqLog.empty size) 0 cLog =
        some (sequenceLog size cLog, totalSize) ∧
      SequenceIndex cLog (sequenceLog size cLog) totalSize := by
  obtain ⟨found, absent, placed⟩ := sequenceLog_spec numbered size
  have perm := nodes_perm numbered (by omega : 0 < size) few
  have scanned : (sequenceLog size cLog).scanned = (sequenceLog size cLog).nodes :=
    scanned_eq_nodes (by rwa [sequenceLog_size])
  have total : (cLog.versions.foldl orderStep
      ⟨SingleData.uninit, SeqLog.empty size, 0⟩).totalSize = cLog.versions.length := by
    obtain ⟨-, -, -, -, total⟩ := foldl_orderStep cLog.versions
      ⟨SingleData.uninit, SeqLog.empty size, 0⟩ rfl numbered.distinct (SeqLog.wellPlaced_empty size)
    rw [total, Nat.zero_add]
  refine ⟨cLog.versions.length, ?_, ?_⟩
  · rw [orderBySequenceNumRead, foldlM_orderStepRead _ _ long, Option.map_some, total]
    rfl
  · exact {
      found := fun p member => by
        obtain ⟨d, here, records⟩ := found p member
        rw [lookup, here]
        exact records
      others := fun q _ other => by
        rw [lookup, absent q other]
        rfl
      total := rfl
      nodes := by simpa using perm.length_eq
      highest := by
        have fold := foldl_highest ((sequenceLog size cLog).nodes.map SeqNode.sequenceNumber) (-1)
        rw [List.foldl_map] at fold
        rw [scanHighestSeqNum, scanned, fold, perm.foldl_eq, List.foldl_eq_foldr]
      higher := fun n fits => by
        have filtered : (((sequenceLog size cLog).nodes.map SeqNode.sequenceNumber).filter
            fun q => n < q).length = (cLog.versions.filter fun p => n < seqOf p).length := by
          rw [(perm.filter _).length_eq, List.filter_map, List.length_map]
          rfl
        have count := foldl_count ((sequenceLog size cLog).nodes.map SeqNode.sequenceNumber) n 0
          le_rfl (by rw [filtered]; omega)
        rw [List.foldl_map, filtered, Int.zero_add] at count
        rw [countHigher, scanned, count] }

end Sequence

section Transactions

/-- A version in front of the bucket of its tx id. -/
theorem list_txInsert (tLog : TxLog) (key i : Int) (d : SingleData) :
    (txInsert tLog key d).list i =
      if txhashCode tLog key = i then ⟨key, d⟩ :: tLog.list i else tLog.list i := by
  by_cases here : txhashCode tLog key = i
  · subst here
    simp [txInsert]
  · simp [txInsert, Function.update_of_ne (Ne.symm here), here]

theorem foldl_txOrderStep (ps : List (Node × Nat)) (st : TxOrdering)
    (unset : st.orderedData.sortedPmemAddress = none) (i : Int) :
    ∃ added, (ps.foldl txOrderStep st).tLog.list i = added ++ st.tLog.list i ∧
      List.Forall₂ (fun n p => n.txId = txOf p ∧ Records p.1 p.2 n.orderedData) added
        (ps.filter fun p => txhashCode st.tLog (txOf p) = i).reverse := by
  induction ps generalizing st with
  | nil => exact ⟨[], rfl, List.Forall₂.nil⟩
  | cons p ps ih =>
    have records := records_fillOrderedData p.1 p.2 unset
    obtain ⟨added, list, each⟩ := ih (txOrderStep st p) records.unresolved
    have hash : ∀ key, txhashCode (txOrderStep st p).tLog key = txhashCode st.tLog key :=
      fun _ => rfl
    have inserted : (txOrderStep st p).tLog.list i =
        if txhashCode st.tLog (txOf p) = i then
          ⟨txOf p, fillOrderedData st.orderedData p.1 p.2⟩ :: st.tLog.list i
        else st.tLog.list i := by
      rw [txOrderStep, list_txInsert, records.txId]
      rfl
    simp only [hash] at each
    rw [List.foldl_cons, list, inserted]
    by_cases here : txhashCode st.tLog (txOf p) = i
    · refine ⟨added ++ [⟨txOf p, fillOrderedData st.orderedData p.1 p.2⟩], by simp [here], ?_⟩
      rw [List.filter_cons_of_pos (by simpa using here), List.reverse_cons]
      exact List.rel_append each (List.Forall₂.cons ⟨rfl, records⟩ List.Forall₂.nil)
    · refine ⟨added, by simp [here], ?_⟩
      rwa [List.filter_cons_of_neg (by simpa using here)]

theorem orderByTxId_size (tLog : TxLog) (cLog : CheckpointLog) :
    (orderByTxId tLog cLog).size = tLog.size := by
  have size : ∀ (ps : List (Node × Nat)) (st : TxOrdering),
      (ps.foldl txOrderStep st).tLog.size = st.tLog.size := by
    intro ps
    induction ps with
    | nil => exact fun _ => rfl
    | cons p ps ih => exact fun st => ih (txOrderStep st p)
  exact size _ _

/-- The transaction log that is built in an empty table holds every version once, in the
bucket of its tx id. -/
theorem txIndex (size : Nat) (cLog : CheckpointLog) :
    TxIndex cLog (orderByTxId (TxLog.empty size) cLog) := by
  intro i
  obtain ⟨added, list, each⟩ := foldl_txOrderStep cLog.versions
    ⟨SingleData.uninit, TxLog.empty size⟩ rfl i
  have here : (orderByTxId (TxLog.empty size) cLog).list i = added := by
    rw [orderByTxId, list]
    exact List.append_nil _
  have hash : ∀ key, txhashCode (orderByTxId (TxLog.empty size) cLog) key =
      txhashCode (TxLog.empty size) key := fun key => by
    rw [txhashCode, orderByTxId_size]
    rfl
  simp only [here, hash]
  exact each

end Transactions

/-- For sizes that fit an `int` and are large enough for what `insert` reads, the sequence
log and the transaction log are faithful indexes of a checkpoint log whose numbers are
different and whose numbers and tx ids are not negative. -/
theorem logs_index_checkpoint {cLog : CheckpointLog} (numbered : cLog.Numbered)
    (txNonneg : ∀ p ∈ cLog.versions, 0 ≤ txOf p) {size txSize : Nat} (long : 92 < size)
    (few : size < 2 ^ 31) (txPositive : 0 < txSize) (txFew : txSize < 2 ^ 31) :
    (∃ sLog totalSize, orderBySequenceNumRead (SeqLog.empty size) 0 cLog = some (sLog, totalSize) ∧
      SequenceIndex cLog sLog totalSize) ∧
    TxIndex cLog (orderByTxId (TxLog.empty txSize) cLog) ∧
    ∀ p ∈ cLog.versions, 0 ≤ txhashCode (TxLog.empty txSize) (txOf p) ∧
      txhashCode (TxLog.empty txSize) (txOf p) < txSize := by
  obtain ⟨totalSize, built, index⟩ := sequenceIndex numbered long few
  exact ⟨⟨_, totalSize, built, index⟩, txIndex txSize cLog, fun p member =>
    bucketIndex_bounds txPositive txFew (txNonneg p member)⟩

section Examples

/-- An entry at offset 8 with one version, number 5 in transaction 2. -/
def oneVersion : Node where
  offset := 8
  cData := {
    address := 0
    data _ := [1, 2]
    size _ := 2
    version := 0
    sequenceNumber _ := 5
    oldCheckpointEntry := 0
    txId _ := 2
    version_lt := by decide
    size_le := by simp
    size_lt := by simp }

def oneVersionLog : CheckpointLog := .ofEntries [oneVersion]

theorem oneVersionLog_versions : oneVersionLog.versions = [(oneVersion, 0)] := by
  simp [CheckpointLog.versions, CheckpointLog.entries, oneVersionLog, CheckpointLog.ofEntries,
    oneVersion]

theorem oneVersionLog_numbered : oneVersionLog.Numbered := by
  constructor <;> rw [oneVersionLog_versions] <;> simp [seqOf, oneVersion]

theorem oneVersionLog_txNonneg : ∀ p ∈ oneVersionLog.versions, 0 ≤ txOf p := by
  rw [oneVersionLog_versions]
  simp [txOf, oneVersion]

theorem logs_index_oneVersion :
    ∃ sLog totalSize, orderBySequenceNumRead (SeqLog.empty 16000010) 0 oneVersionLog =
      some (sLog, totalSize) ∧ SequenceIndex oneVersionLog sLog totalSize :=
  (logs_index_checkpoint oneVersionLog_numbered oneVersionLog_txNonneg
    (by decide : 92 < 16000010) (by decide) (by decide : 0 < 16000010) (by decide)).1

/-- In an array of one bucket the first insertion is undefined; with `2^32` buckets the
loops over them never run. -/
theorem logs_index_fails :
    orderBySequenceNumRead (SeqLog.empty 1) 0 oneVersionLog = none ∧
    ¬ ∀ cLog : CheckpointLog, cLog.Numbered → (∀ p ∈ cLog.versions, 0 ≤ txOf p) →
      ∀ size txSize : Nat, 92 < size → 0 < txSize →
      (∃ sLog totalSize, orderBySequenceNumRead (SeqLog.empty size) 0 cLog =
        some (sLog, totalSize) ∧ SequenceIndex cLog sLog totalSize) ∧
      TxIndex cLog (orderByTxId (TxLog.empty txSize) cLog) := by
  constructor
  · rw [orderBySequenceNumRead, oneVersionLog_versions]
    rfl
  · intro claim
    obtain ⟨⟨sLog, totalSize, built, index⟩, -⟩ := claim oneVersionLog oneVersionLog_numbered
      oneVersionLog_txNonneg (2 ^ 32) 1 (by decide) (by decide)
    have size : sLog.size = 2 ^ 32 := by
      rw [orderBySequenceNumRead, foldlM_orderStepRead _ _ (by decide), Option.map_some,
        Option.some.injEq] at built
      rw [← (Prod.mk.inj built).1]
      exact foldl_orderStep_size _ _
    have none : sLog.scanned = [] := by
      have buckets : (toInt32 sLog.size).toNat = 0 := by
        rw [size]
        decide
      rw [SeqLog.scanned, buckets]
      rfl
    have highest := index.highest
    rw [scanHighestSeqNum, none, oneVersionLog_versions] at highest
    simp [seqOf, oneVersion] at highest

end Examples

end Arthas.Reactor.Checkpoint
