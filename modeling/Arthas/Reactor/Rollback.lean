import Mathlib
import Arthas.Reactor.Machine

/-!
Reverting and undoing recorded updates, and re-executing the target program
(`rollback.c`, and `undo_by_sequence_number_array` of `core.cpp`).
-/

set_option autoImplicit false
set_option relaxedAutoImplicit false

namespace Arthas.Reactor

open Arthas.Lib ByteImage Checkpoint

/-- `reverse_cmpfunc`. The numbers compared are not negative, so the difference fits an `int`. -/
def reverseCmpfunc (a b : Int) : Int := b - a

/-- `qsort` with `reverse_cmpfunc`; elements that compare equal are equal. -/
def qsortReverse (l : List Int) : List Int :=
  l.insertionSort fun a b => reverseCmpfunc a b ≤ 0

/-- `std::sort` of numbers in ascending order. -/
def sortAscending (l : List Int) : List Int := l.insertionSort (· ≤ ·)

/-- `decision_func_sequence_array`: the target buffer and its count afterwards. -/
def decisionFuncSequenceArray (oldSeqNumbers newSeqNumbers : List Int) (newTotal : Nat) :
    List Int × Nat :=
  let buffer := oldSeqNumbers ++ newSeqNumbers.drop oldSeqNumbers.length
  let newTotal := newTotal + oldSeqNumbers.length
  (qsortReverse (buffer.take newTotal) ++ buffer.drop newTotal, newTotal)

/-- `memcpy` to the start of a buffer. -/
def overwritePrefix (buffer bytes : List UInt8) : List UInt8 := bytes ++ buffer.drop bytes.length

/-- The `size` bytes of the pool at the address of the record are copied to its buffer. -/
def saveBytes (w : World) (size : Nat) (d : SingleData) : SingleData :=
  match w.place d with
  | some off => { d with data := overwritePrefix d.data (slice w.pool off size) }
  | none => d

def lookupUndoSave (w : World) (key : Int) (size : Nat) : World :=
  { w with sLog := w.sLog.modify key (saveBytes w size) }

def undoBySequenceNumber (searchData : SingleData) (w : World) : World :=
  let rollbackVersion := searchData.version - 1
  if rollbackVersion < 0 then w
  else w.memcpy searchData (searchData.data.take searchData.size)

def revertBySequenceNumberCheckpoint (oldCheckData : CheckpointData) (rollbackVersion : Int)
    (searchData : SingleData) (w : World) : World :=
  w.memcpy searchData (oldCheckData.bytes rollbackVersion.toNat)

def revertBySequenceNumber (searchData : SingleData) (seqNum rollbackVersion : Int) (w : World) :
    World :=
  (lookupUndoSave w seqNum searchData.size).memcpy searchData
    ((searchData.oldData rollbackVersion.toNat).take (searchData.oldSize rollbackVersion.toNat))

/-- The body of the loop of `revert_by_sequence_number_array`. -/
def revertOne (cLog : CheckpointLog) (w : World) (seqNum : Int) : World :=
  let searchData := lookup w.sLog seqNum
  if searchData.sequenceNumber = -1 then w
  else
    let rollbackVersion := searchData.version - 1
    if rollbackVersion < 0 then
      if searchData.oldCheckpointEntry ≠ 0 then
        match searchForOffset searchData.oldCheckpointEntry cLog with
        | some cNode =>
          revertBySequenceNumberCheckpoint cNode.cData cNode.cData.version searchData w
        | none => w
      else w
    else revertBySequenceNumber searchData seqNum rollbackVersion w

def revertBySequenceNumberArray (cLog : CheckpointLog) (seqNumbers : List Int) (w : World) :
    World :=
  seqNumbers.foldl (revertOne cLog) (w.log (.revert seqNumbers w.base))

/-- The body of the loop of `undo_by_sequence_number_array`. -/
def undoOne (w : World) (seqNum : Int) : World :=
  undoBySequenceNumber (lookup w.sLog seqNum) w

def undoBySequenceNumberArray (seqList : List Int) (w : World) : World :=
  seqList.foldl undoOne (w.log (.undo seqList w.base))

/-- Every node of the table gets the address of its offset in the pool at `pop`. -/
def assignAddresses (sLog : SeqLog) (pop : UInt64) : SeqLog where
  size := sLog.size
  list i :=
    if 0 ≤ i ∧ i < sLog.size then
      (sLog.list i).map (SeqNode.update fun d => { d with sortedPmemAddress := some (pop + d.offset) })
    else sLog.list i

def redoPmemAddresses (env : Env) (w : World) : Option UInt64 × World :=
  match pmemobjOpen env w with
  | (none, w) => (none, w)
  | (some pop, w) => (some pop, { w with sLog := assignAddresses w.sLog pop })

/-- `MAX_COARSE_ATTEMPTS` -/
def maxCoarseAttempts : Int := 5

inductive ReversionType where
  | coarseGrainNaive
  | coarseGrainSequence
  | fineGrain
  deriving DecidableEq

/-- The destination is the recorded address moved from the old pool to the new one. -/
def revertBySequenceNumberNonslice (oldPop : UInt64) (orderedData : SingleData)
    (rollbackVersion : Int) (pop : Option UInt64) (w : World) : World :=
  if rollbackVersion < 0 then w
  else
    w.memcpy { orderedData with
        sortedPmemAddress := some (orderedData.address - oldPop + pop.getD 0) }
      ((orderedData.oldData rollbackVersion.toNat).take
        (orderedData.oldSize rollbackVersion.toNat))

def seqCoarseGrainReversion (seqNum : Int) (pop : Option UInt64) (oldPop : UInt64) (w : World) :
    World :=
  let revertData := lookup w.sLog seqNum
  let rollbackVersion := revertData.version - 1
  if rollbackVersion < 0 then w
  else revertBySequenceNumberNonslice oldPop revertData rollbackVersion pop w

/-- `system(reexecution_cmd)` -/
def system (env : Env) (w : World) : WaitStatus × World :=
  (env.status w.runs,
    { w with
      pool := env.effect w.runs w.pool
      runs := w.runs + 1
      history := .ran (env.status w.runs) :: w.history })

/-- The pool is opened again with fresh addresses, a second time after a failure. -/
def reopenForRetry (env : Env) (w : World) : Option UInt64 × World :=
  match redoPmemAddresses env w with
  | (some pop, w) => (some pop, w)
  | (none, w) => redoPmemAddresses env (w.log .killScript)

/-- `re_execute`. The recursive call's result is discarded, as in the source. -/
def reExecute (env : Env) (oldPop : UInt64) : Nat → ReversionType → Int → World →
    Option (Int × World)
  | 0, _, _, _ => none
  | fuel + 1, reversionType, seqNum, w =>
    let (retVal, w) := system env w
    if w.coarseGrainedTries = maxCoarseAttempts then some (-1, w)
    else if retVal.exitedWithError then
      let (pop, w) := reopenForRetry env w
      match reversionType with
      | .fineGrain => some (-1, pmemobjClose pop w)
      | .coarseGrainNaive =>
        (reExecute env oldPop fuel reversionType (seqNum - 1) (pmemobjClose pop w)).map
          fun r => (1, r.2)
      | .coarseGrainSequence =>
        if seqNum < 0 then some (-1, w)
        else
          (reExecute env oldPop fuel reversionType (seqNum - 1)
            (pmemobjClose pop (seqCoarseGrainReversion seqNum pop oldPop w))).map
            fun r => (1, r.2)
    else some (1, w)

end Arthas.Reactor
