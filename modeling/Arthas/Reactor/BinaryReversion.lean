import Arthas.Reactor.Rollback

/-!
The search for a small set of updates whose reversion helps (`binary_reversion` of
`core.cpp`).
-/

set_option autoImplicit false
set_option relaxedAutoImplicit false

namespace Arthas.Reactor

open Arthas.Lib ByteImage Checkpoint

/-- `BINARY_REVERSION_ATTEMPTS` -/
def binaryReversionAttempts : Int := 2

/-- `re_execute` of type `FINE_GRAIN`, which calls itself no further. -/
def reExecuteFineGrain (env : Env) (poolAddress : UInt64) (startingSeqNum : Int) (w : World) :
    Option (Int × World) :=
  (reExecute env poolAddress 1 .fineGrain startingSeqNum w).map fun r =>
    (r.1, r.2.log (.reexecuted r.1))

/-- The part of `binary_reversion` from setting `binary_reverted_items` to reopening the
pool, which the source has once for either half. `reqFlag2` comes in with its value
before, and keeps it when nothing was decided. -/
def attempt (cLog : CheckpointLog) (env : Env) (pmemLibrary : PmemLibrary) (poolAddress : UInt64)
    (decided : List Int) (reqFlag2 : Int) (w : World) : Option (Int × World) :=
  let w := { w with binaryRevertedItems := decided.length }
  let w := revertBySequenceNumberArray cLog decided w
  let w := if pmemLibrary = .libpmemobj then pmemobjClose w.pop w else w
  let reexecuted :=
    if decided.length > 0 then
      (reExecuteFineGrain env poolAddress 0 w).map fun r =>
        (r.1, { r.2 with totalReexecutions := r.2.totalReexecutions + 1 })
    else some (reqFlag2, w)
  reexecuted.map fun r =>
    if pmemLibrary = .libpmemobj then
      let reopened := redoPmemAddresses env r.2
      (r.1, { reopened.2 with pop := reopened.1 })
    else r

/-- `binary_reversion`. What the recursive calls return is discarded, as in the source;
`req_flag2` starts out unset. -/
def binaryReversion (cLog : CheckpointLog) (env : Env) (pmemLibrary : PmemLibrary)
    (poolAddress : UInt64) : Nat → List Int → Int → Int → World → Option (Int × World)
  | 0, _, _, _, _ => none
  | fuel + 1, seqList, l, r, w =>
    if r ≥ l then
      let mid := l + (r - l).tdiv 2
      let left := seqList.take (mid + 1).toNat
      let firstRight := if mid = 0 ∧ seqList.length = 1 then mid else mid + 1
      let right := seqList.drop firstRight.toNat
      let decided := decisionFuncSequenceArray right [] 0
      match attempt cLog env pmemLibrary poolAddress (decided.1.take decided.2) 0 w with
      | none => none
      | some (reqFlag2, w) =>
        let w := { w with binaryReversionCount := w.binaryReversionCount + 1 }
        if reqFlag2 = 1 then
          if w.binaryReversionCount > binaryReversionAttempts ∨ right.length = 1 then
            some (0, { w with binaryReversionCount := 0, binarySuccess := 1 })
          else
            (binaryReversion cLog env pmemLibrary poolAddress fuel right 0 (right.length - 1)
              (undoBySequenceNumberArray right w)).map fun r => (-1, r.2)
        else
          let w := undoBySequenceNumberArray right w
          if w.binaryReversionCount > binaryReversionAttempts ∨ left.length = 1 then
            let w := { w with binaryReversionCount := 0 }
            let decided := decisionFuncSequenceArray left decided.1 0
            (attempt cLog env pmemLibrary poolAddress (decided.1.take decided.2) reqFlag2 w).map
              fun r => (1, if r.1 = 1 then { r.2 with binarySuccess := 1 } else r.2)
          else
            (binaryReversion cLog env pmemLibrary poolAddress fuel left 0 (left.length - 1) w).map
              fun r => (-1, r.2)
    else some (-1, w)

end Arthas.Reactor
