import Arthas.Lib.ByteImage
import Arthas.Reactor.Checkpoint

/-!
The state the reversion code works on: the sequence log, the content of the pool
file and where it is mapped, and the globals of `core.cpp`. What the outside world
answers (the command's wait statuses, its effect on the pool, the result of opening
the pool) is an `Env`. The history records what happened, newest first; the code
never reads it.
-/

set_option autoImplicit false
set_option relaxedAutoImplicit false

namespace Arthas.Reactor

open Arthas.Lib ByteImage Checkpoint

/-- The wait status of a command run by `system`. -/
inductive WaitStatus where
  | exited (code : UInt8)
  | signaled (signal : Nat)
  | launchFailure
  deriving DecidableEq

/-- `WIFEXITED(status) && WEXITSTATUS(status) != 0` -/
def WaitStatus.exitedWithError : WaitStatus → Bool
  | .exited code => code != 0
  | _ => false

inductive PmemLibrary where
  | libpmem
  | libpmemobj
  | libpmemobj2
  deriving DecidableEq

/-- The answers of the outside world; those asked for repeatedly are indexed by the
number of earlier requests of their kind. -/
structure Env where
  status : Nat → WaitStatus
  effect : Nat → Image → Image
  pmemobjOpen : Nat → Option UInt64
  pmemMapFile : Option UInt64

inductive Event where
  /-- A pass of `revert_by_sequence_number_array`, with where the pool was mapped. -/
  | revert (seqNumbers : List Int) (base : Option UInt64)
  /-- A pass of `undo_by_sequence_number_array`, likewise. -/
  | undo (seqNumbers : List Int) (base : Option UInt64)
  /-- A `memcpy` into the pool for a record with the given offset. -/
  | copy (base dst : Option UInt64) (offset : UInt64)
  | opened (pop : Option UInt64)
  | closed (pop : Option UInt64)
  | ran (status : WaitStatus)
  | killScript
  /-- The value `re_execute` returned to its caller in `core.cpp`. -/
  | reexecuted (ret : Int)
  /-- A batch handed over by the slice loop. -/
  | batch (seqNumbers : List Int)
  deriving DecidableEq

structure World where
  sLog : SeqLog
  /-- The bytes of the pool file by offset. -/
  pool : Image
  /-- Where the pool is mapped, `none` while it is closed. -/
  base : Option UInt64
  /-- The variable `pop` of `react`, shared with `binary_reversion`. -/
  pop : Option UInt64
  opens : Nat
  runs : Nat
  coarseGrainedTries : Int
  binarySuccess : Int
  binaryReversionCount : Int
  binaryRevertedItems : Nat
  totalRevertedItems : Nat
  totalReexecutions : Nat
  history : List Event

namespace World

/-- A fresh process: the globals of `core.cpp` as initialised, with the log, the pool and
where it was opened. -/
def start (sLog : SeqLog) (pool : Image) (pop : Option UInt64) : World where
  sLog := sLog
  pool := pool
  base := pop
  pop := pop
  opens := 0
  runs := 0
  coarseGrainedTries := 0
  binarySuccess := -1
  binaryReversionCount := 0
  binaryRevertedItems := 0
  totalRevertedItems := 0
  totalReexecutions := 0
  history := []

def log (w : World) (e : Event) : World := { w with history := e :: w.history }

/-- The offset in the mapped pool of the destination of a record. -/
def place (w : World) (d : SingleData) : Option UInt64 :=
  match w.base, d.sortedPmemAddress with
  | some base, some dst => some (dst - base)
  | _, _ => none

/-- `memcpy(sorted_pmem_address, bytes, length)`. A destination that is not in a mapped
pool leaves the pool as it is. -/
def memcpy (w : World) (d : SingleData) (bytes : List UInt8) : World :=
  { w with
    pool := match w.place d with
      | some off => blit w.pool off bytes
      | none => w.pool
    history := .copy w.base d.sortedPmemAddress d.offset :: w.history }

end World

/-- `pmemobj_open` -/
def pmemobjOpen (env : Env) (w : World) : Option UInt64 × World :=
  match env.pmemobjOpen w.opens with
  | some pop => (some pop,
      { w with base := some pop, opens := w.opens + 1, history := .opened (some pop) :: w.history })
  | none => (none, { w with opens := w.opens + 1, history := .opened none :: w.history })

/-- `pmemobj_close` -/
def pmemobjClose (pop : Option UInt64) (w : World) : World :=
  { w with
    base := if pop.isSome ∧ pop = w.base then none else w.base
    history := .closed pop :: w.history }

end Arthas.Reactor
