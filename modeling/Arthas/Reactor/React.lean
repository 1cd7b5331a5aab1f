import Arthas.Lib.Multimap
import Arthas.Reactor.BinaryReversion

/-!
Reacting to a fault (`Reactor::react` of `core.cpp`): the preparation of the logs, the
loop of the ArCkpt mode and the loop over the slices of the fault.

The preparation also computes a starting number, which is set to -1 before anything
uses it, and a log by transactions, which is only printed; both are left out, and with
them what the code does where the starting number is not -1.
-/

set_option autoImplicit false
set_option relaxedAutoImplicit false

namespace Arthas.Reactor

open Arthas.Lib ByteImage Checkpoint Multimap

variable {ι : Type*} [DecidableEq ι]

/-- `LOG_SIZE` -/
def logSize : Nat := 16000010

/-- `BATCH_REEXECUTION` -/
def batchReexecution : Nat := 1

/-- A line of the address trace, with the instruction it was resolved to. -/
structure PmemAddrTraceItem (ι : Type*) where
  addr : UInt64
  poolOffset : UInt64
  instr : Option ι

/-- What `react` finds: the outcome of the steps before it, the options and the trace. -/
structure ReactorState (ι : Type*) where
  ready : Bool
  /-- The result of `locate_fault_instr`. -/
  faultInst : Option ι
  /-- The result of `slice_fault_instr`, each slice by its instructions. -/
  faultSlices : Option (List (List ι))
  pmemFile : Bool
  pmemLibrary : PmemLibrary
  arckpt : Bool
  /-- The address of the last pool of the trace. -/
  poolAddress : UInt64
  /-- The items of the last pool of the trace. -/
  lastPool : List (PmemAddrTraceItem ι)
  addrTrace : List (PmemAddrTraceItem ι)
  /-- The result of `reconstruct_checkpoint`. -/
  checkpoint : Option CheckpointLog

/-- `trace_instrs`, as `wait_address_trace_ready` fills it. -/
def traceInstrs (addrTrace : List (PmemAddrTraceItem ι)) :
    Multimap (Option ι) (PmemAddrTraceItem ι) :=
  addrTrace.map fun traceItem => (traceItem.instr, traceItem)

def offsetSeqCreation (sLog : SeqLog) : Multimap UInt64 Int :=
  sLog.nodes.map fun temp => (temp.orderedData.offset, temp.sequenceNumber)

/-- `sort_creation`; the address of an offset is that in the pool just opened. -/
def sortCreation (offsets : List UInt64) (pop : UInt64) (offsetSeqMap : Multimap UInt64 Int)
    (sLog : SeqLog) : SeqLog :=
  offsets.foldl (fun sLog offset =>
    (equalRange offsetSeqMap offset).foldl (fun sLog seqNum =>
      lookupModify sLog seqNum (pop + offset)) sLog) sLog

def addressSeqCreation (sLog : SeqLog) : Multimap UInt64 Int :=
  sLog.nodes.map fun temp => (temp.orderedData.address, temp.sequenceNumber)

/-- `std::sort` with `greater<int>`. -/
def sortDescending (l : List Int) : List Int := l.insertionSort (· ≥ ·)

/-- The ArCkpt loop from `cpkt_ind` down: one number at a time. -/
def arckptLoop (cLog : CheckpointLog) (env : Env) (pmemLibrary : PmemLibrary)
    (poolAddress : UInt64) : Nat → World → Option (Int × World)
  | 0, w => some (1, w)
  | cpktInd + 1, w =>
    let w := { w with
      totalRevertedItems := w.totalRevertedItems + 1
      totalReexecutions := w.totalReexecutions + 1 }
    let w := revertBySequenceNumberArray cLog [(cpktInd : Int) + 1] w
    let w := if pmemLibrary = .libpmemobj then pmemobjClose w.pop w else w
    match reExecuteFineGrain env poolAddress (-1) w with
    | none => none
    | some (reqFlag2, w) =>
      if reqFlag2 = 1 then some (1, w)
      else
        let reopened := redoPmemAddresses env w
        arckptLoop cLog env pmemLibrary poolAddress cpktInd { reopened.2 with pop := reopened.1 }

/-- The variables of the slice loop. The buffer `slice_seq_numbers` is given by its first
`slice_seq_iterator` elements. -/
structure SliceState where
  manyAddressSeq : List Int
  sliceSeqNumbers : List Int
  rLog : SeqLog
  manyAddressClear : Bool
  reqFlag2 : Int
  world : World

/-- How an iteration of the slice loop ends. -/
inductive Progress where
  | returned (ret : Int) (w : World)
  | next (st : SliceState)

/-- Go on with `f` unless `react` returned. -/
def andThen (p : Option Progress) (f : SliceState → Option Progress) : Option Progress :=
  match p with
  | some (.next st) => f st
  | ended => ended

/-- The body of the loop over the numbers of an address. -/
def collectNumber (st : SliceState) (seqNum : Int) : SliceState :=
  let searchNum := revLookup st.rLog seqNum
  if seqNum ≠ -1 ∧ searchNum ≠ 1 then
    { st with
      manyAddressSeq := st.manyAddressSeq ++ [seqNum]
      sliceSeqNumbers := st.sliceSeqNumbers ++ [seqNum]
      rLog := insert st.rLog seqNum SingleData.uninit }
  else st

/-- The body of the loop over the trace items of an instruction. -/
def collectTraceItem (addressSeqNums : Multimap UInt64 Int) (depInst : ι) (st : SliceState)
    (traceItem : PmemAddrTraceItem ι) : SliceState :=
  if traceItem.instr = some depInst then
    let sequences := sortDescending (equalRange addressSeqNums traceItem.addr)
    sequences.reverse.foldl collectNumber st
  else st

/-- The search over the collected numbers, once there are too many of them. -/
def manyReversion (cLog : CheckpointLog) (env : Env) (pmemLibrary : PmemLibrary)
    (poolAddress : UInt64) (fuel : Nat) (st : SliceState) : Option Progress :=
  if st.manyAddressSeq.length > batchReexecution then
    let many := sortAscending st.manyAddressSeq
    let w := { st.world.log (.batch many) with binarySuccess := -1 }
    match binaryReversion cLog env pmemLibrary poolAddress fuel many 0 (many.length - 1) w with
    | none => none
    | some (_, w) =>
      let w := { w with totalRevertedItems := w.totalRevertedItems + w.binaryRevertedItems }
      if w.binarySuccess = 1 then some (.returned 1 w)
      else some (.next { st with manyAddressSeq := [], manyAddressClear := true, world := w })
  else some (.next st)

/-- The reversion of the numbers of one slice item at once. -/
def directReversion (cLog : CheckpointLog) (env : Env) (pmemLibrary : PmemLibrary)
    (poolAddress : UInt64) (st : SliceState) : Option Progress :=
  if st.sliceSeqNumbers.length ≥ 1 ∧ st.manyAddressSeq.length < batchReexecution ∧
      ¬ st.manyAddressClear then
    let decided := decisionFuncSequenceArray st.sliceSeqNumbers [] 0
    let decidedSliceSeqNumbers := decided.1.take decided.2
    let w := revertBySequenceNumberArray cLog decidedSliceSeqNumbers
      (st.world.log (.batch decidedSliceSeqNumbers))
    let reexecuted :=
      if decided.2 > 0 then
        let w := if pmemLibrary = .libpmemobj then pmemobjClose w.pop w else w
        (reExecuteFineGrain env poolAddress (-1) w).map fun r =>
          let w := { r.2 with totalReexecutions := r.2.totalReexecutions + 1 }
          let reopened := redoPmemAddresses env w
          (r.1, { reopened.2 with
            pop := reopened.1
            totalRevertedItems := reopened.2.totalRevertedItems + decided.2 })
      else some (st.reqFlag2, w)
    reexecuted.map fun r =>
      if r.1 = 1 then .returned 1 r.2 else .next { st with reqFlag2 := r.1, world := r.2 }
  else some (.next st)

/-- The body of the loop over the items of a slice. -/
def sliceItem (cLog : CheckpointLog) (env : Env) (pmemLibrary : PmemLibrary)
    (poolAddress : UInt64) (fuel : Nat) (addrTrace : List (PmemAddrTraceItem ι))
    (addressSeqNums : Multimap UInt64 Int) (depInst : ι) (st : SliceState) : Option Progress :=
  let result := equalRange (traceInstrs addrTrace) (some depInst)
  let st := result.foldl (collectTraceItem addressSeqNums depInst) st
  andThen (manyReversion cLog env pmemLibrary poolAddress fuel st) fun st =>
    andThen (directReversion cLog env pmemLibrary poolAddress st) fun st =>
      some (.next { st with sliceSeqNumbers := [], manyAddressClear := false })

/-- The loop over the items of one slice. -/
def sliceItems (cLog : CheckpointLog) (env : Env) (pmemLibrary : PmemLibrary)
    (poolAddress : UInt64) (fuel : Nat) (addrTrace : List (PmemAddrTraceItem ι))
    (addressSeqNums : Multimap UInt64 Int) : List ι → SliceState → Option Progress
  | [], st => some (.next st)
  | depInst :: slice, st =>
    andThen (sliceItem cLog env pmemLibrary poolAddress fuel addrTrace addressSeqNums depInst st)
      (sliceItems cLog env pmemLibrary poolAddress fuel addrTrace addressSeqNums slice)

/-- The loop over the slices. -/
def sliceLoop (cLog : CheckpointLog) (env : Env) (pmemLibrary : PmemLibrary)
    (poolAddress : UInt64) (fuel : Nat) (addrTrace : List (PmemAddrTraceItem ι))
    (addressSeqNums : Multimap UInt64 Int) : List (List ι) → SliceState → Option Progress
  | [], st => some (.next st)
  | slice :: faultSlices, st =>
    andThen (sliceItems cLog env pmemLibrary poolAddress fuel addrTrace addressSeqNums slice st)
      (sliceLoop cLog env pmemLibrary poolAddress fuel addrTrace addressSeqNums faultSlices)

/-- The variables as the slice loop finds them. -/
def SliceState.start (totalSize : Nat) (w : World) : SliceState where
  manyAddressSeq := []
  sliceSeqNumbers := []
  rLog := SeqLog.empty totalSize
  manyAddressClear := false
  reqFlag2 := 0
  world := w

/-- The pool as `react` opens it; for `libpmemobj2` it does not. -/
def openPool (env : Env) (pmemLibrary : PmemLibrary) (w : World) : Option UInt64 × World :=
  match pmemLibrary with
  | .libpmemobj => pmemobjOpen env w
  | .libpmem => (env.pmemMapFile, { w with base := env.pmemMapFile })
  | .libpmemobj2 => (none, w)

/-- The sequence log once the addresses of the traced offsets have been set. -/
def preparedLog (cLog : CheckpointLog) (lastPool : List (PmemAddrTraceItem ι)) (pop : UInt64) :
    SeqLog :=
  let sLog := sequenceLog logSize cLog
  sortCreation (lastPool.map (·.poolOffset)) pop (offsetSeqCreation sLog) sLog

/-- `Reactor::react`, with the value it returns before that is converted to `bool`. -/
def react (env : Env) (fuel : Nat) (state : ReactorState ι) (w : World) : Option (Int × World) :=
  if ¬ state.ready then some (0, w)
  else
    match state.faultInst, state.faultSlices with
    | none, _ => some (0, w)
    | some _, none => some (0, w)
    | some _, some faultSlices =>
      if ¬ state.pmemFile then some (0, w)
      else
        match openPool env state.pmemLibrary w with
        | (none, w) => some (-1, { w with pop := none })
        | (some pop, w) =>
          let w := { w with pop := some pop }
          if state.lastPool.isEmpty then some (0, w)
          else
            match state.checkpoint with
            | none => some (1, w)
            | some cLog =>
              let w := { w with sLog := preparedLog cLog state.lastPool pop }
              if state.arckpt then
                arckptLoop cLog env state.pmemLibrary state.poolAddress
                  (findHighestSeqNum w.sLog).toNat w
              else
                let totalSize := (orderBySequenceNum (SeqLog.empty logSize) 0 cLog).2
                match sliceLoop cLog env state.pmemLibrary state.poolAddress fuel state.addrTrace
                  (addressSeqCreation w.sLog) faultSlices (SliceState.start totalSize w) with
                | none => none
                | some (.returned ret w) => some (ret, w)
                | some (.next st) => some (1, st.world)

/-- The conversion of the returned value to the declared type. -/
def toBool (ret : Int) : Bool := ret ≠ 0

end Arthas.Reactor
