import Mathlib
import Arthas.Lib.ChainTable

/-!
The checkpoint log and the sequence log built from it (`checkpoint.h`,
`checkpoint.c`). A pointer with the number of bytes behind it is the list of these
bytes, an array indexed by a version is a function of the version, and a chain of
nodes is the list of its nodes. `none` stands for a pointer that was never set.
-/

set_option autoImplicit false
set_option relaxedAutoImplicit false

namespace Arthas.Reactor.Checkpoint

open Arthas.Lib

/-- `MAX_VERSIONS` -/
def maxVersions : Nat := 3

/-- `single_data`: one recorded update, as the sequence log keeps it. -/
structure SingleData where
  address : UInt64
  offset : UInt64
  data : List UInt8
  size : Nat
  sequenceNumber : Int
  version : Int
  oldData : Nat → List UInt8
  oldSize : Nat → Nat
  oldCheckpointEntry : UInt64
  sortedPmemAddress : Option UInt64
  txId : Int

/-- An automatic variable before its first assignment, with values chosen here; its address
has not been set. -/
def SingleData.uninit : SingleData where
  address := 0
  offset := 0
  data := []
  size := 0
  sequenceNumber := 0
  version := 0
  oldData _ := []
  oldSize _ := 0
  oldCheckpointEntry := 0
  sortedPmemAddress := none
  txId := 0

/-- The record a failed lookup returns. -/
def SingleData.errorData : SingleData := { SingleData.uninit with sequenceNumber := -1 }

/-- `checkpoint_data`: the versions of one persistent object. The slots in use are
those up to `version`; each holds at least the bytes its size, a `size_t`, announces. -/
structure CheckpointData where
  address : UInt64
  data : Nat → List UInt8
  size : Nat → Nat
  version : Nat
  sequenceNumber : Nat → Int
  oldCheckpointEntry : UInt64
  txId : Nat → Int
  version_lt : version < maxVersions
  size_le : ∀ j ≤ version, size j ≤ (data j).length
  size_lt : ∀ j ≤ version, size j < 2 ^ 64

structure Node where
  offset : UInt64
  cData : CheckpointData

/-- `checkpoint_log`; the bucket array has fewer than `2^31` entries, so the loops'
conversion of its size to `int` is exact. -/
structure CheckpointLog where
  size : Nat
  list : Int → List Node
  size_lt : size < 2 ^ 31

structure SeqNode where
  sequenceNumber : Int
  orderedData : SingleData

/-- `seq_log`. The bucket at an index outside `[0, size)` is memory beside the array,
which only a negative key can address. -/
structure SeqLog where
  size : Nat
  list : Int → List SeqNode

/-- Conversion to a 32-bit `int`. -/
def toInt32 (x : Int) : Int := x.bmod (2 ^ 32)

/-- The bucket of `key` among `size`: the operands of `%` are converted to 64-bit
unsigned, so is the negation for a negative key, and the result is narrowed. -/
def bucketIndex (size : Nat) (key : Int) : Int :=
  let r := key % 2 ^ 64 % (size : Int)
  if key < 0 then toInt32 (-r % 2 ^ 64) else toInt32 r

def hashCode (sLog : SeqLog) (key : Int) : Int := bucketIndex sLog.size key

/-- The first node with the given key in the bucket of the key. -/
def SeqLog.find (sLog : SeqLog) (key : Int) : Option SeqNode :=
  ChainTable.find (bucketIndex sLog.size) SeqNode.sequenceNumber sLog.list key

def SeqNode.update (f : SingleData → SingleData) (n : SeqNode) : SeqNode :=
  { n with orderedData := f n.orderedData }

/-- Change the record of the first node with the given key. -/
def SeqLog.modify (sLog : SeqLog) (key : Int) (f : SingleData → SingleData) : SeqLog where
  size := sLog.size
  list := ChainTable.modify (bucketIndex sLog.size) SeqNode.sequenceNumber sLog.list key
    (SeqNode.update f)

/-- The record replaces that of the first node with the key, or a new node with it
goes to the front of the chain. -/
def insert (sLog : SeqLog) (key : Int) (orderedData : SingleData) : SeqLog where
  size := sLog.size
  list := ChainTable.upsert (bucketIndex sLog.size) SeqNode.sequenceNumber sLog.list key
    (SeqNode.update fun _ => orderedData) ⟨key, orderedData⟩

def revLookup (sLog : SeqLog) (key : Int) : Int := if (sLog.find key).isSome then 1 else -1

def lookup (sLog : SeqLog) (key : Int) : SingleData :=
  ((sLog.find key).map SeqNode.orderedData).getD SingleData.errorData

def lookupModify (sLog : SeqLog) (key : Int) (addr : UInt64) : SeqLog :=
  sLog.modify key fun d => { d with sortedPmemAddress := some addr }

/-- All nodes in the order of the scanning loops: buckets upward, chains from the head. -/
def SeqLog.nodes (sLog : SeqLog) : List SeqNode :=
  (List.range sLog.size).flatMap fun i => sLog.list i

def findHighestSeqNum (sLog : SeqLog) : Int :=
  sLog.nodes.foldl (fun highest temp =>
    if temp.sequenceNumber > highest then temp.sequenceNumber else highest) (-1)

/-- `checkpoint_hashcode`; the offset is unsigned, so its sign test never holds. -/
def checkpointHashcode (cLog : CheckpointLog) (offset : UInt64) : Int :=
  toInt32 (offset.toNat % cLog.size : Nat)

def searchForOffset (oldOff : UInt64) (cLog : CheckpointLog) : Option Node :=
  (cLog.list (checkpointHashcode cLog oldOff)).find? fun temp => temp.offset == oldOff

/-- The entries in the order of the scanning loops. -/
def CheckpointLog.entries (cLog : CheckpointLog) : List Node :=
  (List.range cLog.size).flatMap fun i => cLog.list i

/-- The (entry, version) pairs in the order of the scanning loops. -/
def CheckpointLog.versions (cLog : CheckpointLog) : List (Node × Nat) :=
  cLog.entries.flatMap fun temp => (List.range (temp.cData.version + 1)).map fun j => (temp, j)

def seqOf (p : Node × Nat) : Int := p.1.cData.sequenceNumber p.2

/-- The first `size` bytes behind `data[j]`, what `memcpy` takes from them. -/
def CheckpointData.bytes (c : CheckpointData) (j : Nat) : List UInt8 := (c.data j).take (c.size j)

/-- One iteration of the inner `k` loop of `order_by_sequence_num`. -/
def copyOldVersion (temp : Node) (d : SingleData) (k : Nat) : SingleData :=
  { d with
    oldData := Function.update d.oldData k (temp.cData.bytes k)
    oldSize := Function.update d.oldSize k (temp.cData.size k) }

/-- The body of the `j` loop up to the insertion. The record is one variable for the
whole traversal: what is not assigned here stays from the iteration before. -/
def fillOrderedData (orderedData : SingleData) (temp : Node) (j : Nat) : SingleData :=
  (List.range j).foldl (copyOldVersion temp)
    { orderedData with
      address := temp.cData.address
      offset := temp.offset
      data := temp.cData.bytes j
      size := temp.cData.size j
      version := j
      sequenceNumber := temp.cData.sequenceNumber j
      oldCheckpointEntry := temp.cData.oldCheckpointEntry
      txId := temp.cData.txId j }

/-- The loop state of `order_by_sequence_num`. -/
structure Ordering where
  orderedData : SingleData
  sLog : SeqLog
  totalSize : Nat

def orderStep (st : Ordering) (p : Node × Nat) : Ordering :=
  let orderedData := fillOrderedData st.orderedData p.1 p.2
  ⟨orderedData, insert st.sLog (seqOf p) orderedData, st.totalSize + 1⟩

def orderBySequenceNum (sLog : SeqLog) (totalSize : Nat) (cLog : CheckpointLog) : SeqLog × Nat :=
  let st := cLog.versions.foldl orderStep ⟨SingleData.uninit, sLog, totalSize⟩
  (st.sLog, st.totalSize)

/-- A table of `size` empty buckets. -/
def SeqLog.empty (size : Nat) : SeqLog := ⟨size, fun _ => []⟩

/-- The sequence log that `order_by_sequence_num` builds in a fresh table. -/
def sequenceLog (size : Nat) (cLog : CheckpointLog) : SeqLog :=
  (orderBySequenceNum (SeqLog.empty size) 0 cLog).1

/-- Every node gets the address that its number is mapped to. -/
def SeqLog.resolveWith (address : Int → UInt64) (sLog : SeqLog) : SeqLog where
  size := sLog.size
  list i := (sLog.list i).map fun n =>
    n.update fun d => { d with sortedPmemAddress := some (address n.sequenceNumber) }

/-- The log of some entries in one bucket. -/
def CheckpointLog.ofEntries (entries : List Node) : CheckpointLog where
  size := 1
  list i := if i = 0 then entries else []
  size_lt := by decide

end Arthas.Reactor.Checkpoint
