import Mathlib
import Arthas.Reactor.Monitor

/-!
The monitor thread and the threads of the requests (`wait_address_trace_ready`). A request
takes one step for each operation on the trace and keeps the mutex until it returns or
waits; the monitor adds items without the mutex.
-/

set_option autoImplicit false
set_option relaxedAutoImplicit false

namespace Arthas.Reactor

open Arthas.Lib Arthas.Utils Arthas.Matcher Arthas.Instrument

/-- Where a request stands in `wait_address_trace_ready`. -/
inductive RequestPc where
  | idle
  | called
  | awaitProcessed
  | awaitReady
  | checkPool
  | offsets
  | resolve
  | index
  | returned (result : Bool)
  deriving DecidableEq

/-- A request thread, with the items that the trace had when its call began. -/
structure Request where
  pc : RequestPc
  atCall : List Nat
  deriving DecidableEq

/-- The server: the trace file, the monitor, the requests, and who of them holds the mutex.
`offsetsDone` and `instrsDone` tell which items went through `calculatePoolOffsets` and
`addressesToInstructions`. -/
structure TraceServer (ι : Type*) where
  file : Text
  monitor : Monitor
  st : TraceState
  mutex : Option ι
  requests : ι → Request
  offsetsDone : List Nat
  instrsDone : List Nat

/-- The addresses of the items. -/
def TraceState.itemPtrs (st : TraceState) : List Nat :=
  st.addrTrace.items.map Instrument.PmemAddrTraceItem.ptr

/-- The pairs that the last loop of `wait_address_trace_ready` inserts. -/
def indexItems (items : List Instrument.PmemAddrTraceItem) : Multimap (Option Instruction) Nat :=
  items.map fun traceItem => (traceItem.instr, traceItem.ptr)

/-- One step: the writer appends to the file or truncates it, the monitor takes a step, or
a request calls `wait_address_trace_ready` or goes on in it. -/
inductive ServerEvent (ι : Type*) where
  | append (chunk : Text)
  | truncate (size : Nat)
  | monitor
  | call (i : ι)
  | wait (i : ι)

namespace TraceServer

variable {ι : Type*} [DecidableEq ι]

def start (varMap : PmemVarGuidMap) (file : Text) : TraceServer ι :=
  ⟨file, .new, .new varMap, none, fun _ => ⟨.idle, []⟩, [], []⟩

def goto (s : TraceServer ι) (i : ι) (pc : RequestPc) : TraceServer ι :=
  { s with requests := Function.update s.requests i { s.requests i with pc := pc } }

section Steps

variable (asm : AsmWriter) (M : Module)

/-- The next step of a request in `wait_address_trace_ready`; `none` while it has to wait,
and where resolving an item is undefined. -/
def waitStep (i : ι) (s : TraceServer ι) : Option (TraceServer ι) :=
  match (s.requests i).pc with
  | .idle | .returned _ => none
  | .called =>
    if s.mutex.isSome then none
    else if s.st.traceProcessed then some (s.goto i (.returned true))
    else if s.st.processingTrace then some (s.goto i .awaitProcessed)
    else
      let s := { s with st := { s.st with processingTrace := true } }
      if s.st.traceReady then some ({ s with mutex := some i }.goto i .checkPool)
      else some (s.goto i .awaitReady)
  | .awaitProcessed =>
    if s.mutex.isSome ∨ s.st.traceProcessed = false then none
    else some (s.goto i (.returned true))
  | .awaitReady =>
    if s.mutex.isSome ∨ s.st.traceReady = false then none
    else some ({ s with mutex := some i }.goto i .checkPool)
  | .checkPool =>
    if s.st.addrTrace.poolEmpty then some ({ s with mutex := none }.goto i (.returned false))
    else some (s.goto i .offsets)
  | .offsets =>
    let (ok, addrTrace) := s.st.addrTrace.calculatePoolOffsets
    let s := { s with st := { s.st with addrTrace := addrTrace } }
    if ok then some ({ s with offsetsDone := s.st.itemPtrs }.goto i .resolve)
    else some ({ s with mutex := none }.goto i (.returned false))
  | .resolve =>
    (s.st.addrTrace.addressesToInstructions asm M s.st.varMap).map fun (varMap, addrTrace) =>
      let s := { s with st := { s.st with varMap := varMap, addrTrace := addrTrace } }
      { s with instrsDone := s.st.itemPtrs }.goto i .index
  | .index =>
    let st := { s.st with
      traceInstrs := s.st.traceInstrs ++ indexItems s.st.addrTrace.items
      traceProcessed := true
      processingTrace := false }
    some ({ s with st := st, mutex := none }.goto i (.returned true))

/-- The state after an event that can happen. -/
def next (s : TraceServer ι) : ServerEvent ι → Option (TraceServer ι)
  | .append chunk => some { s with file := s.file ++ chunk }
  | .truncate size => some { s with file := s.file.take size }
  | .monitor =>
    if (s.monitor.pc = .clear ∨ s.monitor.pc = .signal) ∧ s.mutex.isSome then none
    else
      match s.monitor.step s.file s.st with
      | .error _ => none
      | .ok (monitor, st) => some { s with monitor := monitor, st := st }
  | .call i =>
    match (s.requests i).pc with
    | .idle | .returned _ =>
      some { s with requests := Function.update s.requests i ⟨.called, s.st.itemPtrs⟩ }
    | _ => none
  | .wait i => waitStep asm M i s

/-- A step of the server, by any event. -/
def Step (s s' : TraceServer ι) : Prop := ∃ e, next asm M s e = some s'

end Steps

/-- What a request may rely on when `wait_address_trace_ready` has returned true. -/
structure Current (s : TraceServer ι) (atCall : List Nat) : Prop where
  once : ∀ item ∈ s.st.addrTrace.items, item.ptr ∈ atCall →
    s.st.traceInstrs.filter (fun p => p.2 = item.ptr) = [(item.instr, item.ptr)]
  through : ∀ item ∈ s.st.addrTrace.items, item.ptr ∈ atCall →
    item.ptr ∈ s.offsetsDone ∧ item.ptr ∈ s.instrsDone
  alive : ∀ p ∈ s.st.traceInstrs, ∃ item ∈ s.st.addrTrace.items, item.ptr = p.2

end TraceServer

end Arthas.Reactor
