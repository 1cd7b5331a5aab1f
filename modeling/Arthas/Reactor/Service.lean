import Arthas.Reactor.DependencyOutcome
import Arthas.Reactor.FaultSlices
import Arthas.Reactor.Modes
import Arthas.Reactor.TraceRetry

/-!
The reactor server (`server.cpp`): a background job that prepares the reactor, starts the
monitor and computes the dependences, and the handlers of the requests. A handler waits for
the trace and then reacts to its fault; what it does besides waiting for the trace and for the
dependences takes one step for each stage of `Reactor::react`.
-/

set_option autoImplicit false
set_option relaxedAutoImplicit false

namespace Arthas.Reactor

open Arthas.Lib Arthas.Utils Arthas.Matcher Arthas.Instrument Checkpoint

structure ReactRequest where
  faultLoc : Text
  faultInstr : Text

/-- The reply; the number of tries is `none` where it was never initialised. -/
structure ReactReply where
  success : Bool
  tries : Option Nat
  deriving DecidableEq

inductive StatusCode where
  | ok
  | cancelled
  deriving DecidableEq

/-- What the handler of a request gives back. -/
structure ReactAnswer where
  status : StatusCode
  reply : ReactReply
  deriving DecidableEq

/-- The answer of a handler that could not react. -/
def ReactAnswer.failure (status : StatusCode) : ReactAnswer := ⟨status, false, some 0⟩

/-- `ReactorClient::react`, where `none` is a call that got no answer; the text that it returns
for an error converts to true. -/
def clientReact : Option ReactAnswer → Bool
  | some ⟨.ok, reply⟩ => reply.success
  | some ⟨.cancelled, _⟩ | none => true

/-- Where `do_background_job` stands. -/
inductive BackgroundPc where
  | preparing
  | prepared
  | serving
  | monitoring
  | computing
  | computed
  | waiting
  | done
  deriving DecidableEq

/-- The thread of the monitor has been started. -/
def BackgroundPc.monitors : BackgroundPc → Bool
  | .preparing | .prepared | .serving => false
  | .monitoring | .computing | .computed | .waiting | .done => true

/-- Where the handler of a request stands: waiting for the trace, before the test of `ready`,
and then in `Reactor::react`. -/
inductive HandlerPc where
  | idle
  | waiting
  | waited
  | locating
  | computing (faultInst : Instruction)
  | slicing (faultInst : Instruction)
  | reacting (faultInst : Instruction) (faultSlices : List (List Instruction))
  | answered
  deriving DecidableEq

/-- The request waits for the trace, or there is none. -/
def HandlerPc.early : HandlerPc → Bool
  | .idle | .waiting => true
  | _ => false

/-- The options, the files that are read once, and the parts of the reactor that are taken
from elsewhere: the graph builder, and the slices of an instruction, `none` where slicing is
undefined. -/
structure ServiceConfig (γ φ σ : Type*) where
  asm : AsmWriter
  sysModule : Module
  /-- The options can be parsed, and the first checks of `prepare` pass. -/
  optionsOk : Bool
  hookGuidFile : Option Text
  addressFile : Option Text
  pmemFile : Bool
  pmemLibrary : PmemLibrary
  arckpt : Bool
  env : Env
  fuel : Nat
  builder : γ → γ
  constructed : γ → φ
  slice : φ → σ → Instruction → Option (Option (List (List Instruction)) × σ)

/-- The server; a thread is that of a request or, as `none`, the background job. -/
structure Service (ι γ φ σ : Type*) where
  exited : Bool
  /-- `_state->ready` -/
  stateReady : Bool
  ready : Bool
  background : BackgroundPc
  trace : TraceServer (Option ι)
  dependencies : DependencyState (Option ι) γ φ
  slicing : σ
  requests : ι → ReactRequest
  handlers : ι → HandlerPc
  answers : List (ι × ReactAnswer)
  world : World

/-- A step of the writer of the trace, the monitor, a thread in one of the two waits, the
background job or a handler outside them; `finish` ends the computation of the dependences, and
`react` reads the checkpoint file. -/
inductive ServiceEvent (ι γ : Type*) where
  | append (chunk : Text)
  | truncate (size : Nat)
  | monitor
  | background
  | request (i : ι) (request : ReactRequest)
  | wait (t : Option ι)
  | compute (t : Option ι)
  | finish (t : Option ι) (cfg : Option γ)
  | handle (i : ι)
  | react (i : ι) (checkpoint : Option CheckpointLog)

namespace Service

variable {ι γ φ σ : Type*}

/-- The item at an address, unless it was deleted. -/
def item (st : TraceState) (ptr : Nat) : Option (PmemAddrTraceItem Instruction) :=
  (st.addrTrace.items.find? fun item => item.ptr = ptr).map fun item =>
    ⟨item.addr, item.poolOffset, item.instr⟩

/-- What `Reactor::react` finds when it has the slices and the pool; `none` where it reads an
item that was deleted, or the last pool of a trace without pools. -/
def reactorState (c : ServiceConfig γ φ σ) (st : TraceState) (faultInst : Instruction)
    (faultSlices : List (List Instruction)) (checkpoint : Option CheckpointLog) :
    Option (ReactorState Instruction) := do
  let pool ← st.addrTrace.poolAddrs.getLast?
  let poolItem ← item st pool.poolAddr
  let lastPool ← pool.addresses.mapM (item st)
  let addrTrace ← st.traceInstrs.mapM fun p => item st p.2
  return {
    ready := true
    faultInst := some faultInst
    faultSlices := some faultSlices
    pmemFile := c.pmemFile
    pmemLibrary := c.pmemLibrary
    arckpt := c.arckpt
    poolAddress := poolItem.addr
    lastPool := lastPool
    addrTrace := addrTrace
    checkpoint := checkpoint }

/-- The last stage of `Reactor::react`; without a pool it does not look at the trace. -/
def reactStage (c : ServiceConfig γ φ σ) (st : TraceState) (faultInst : Instruction)
    (faultSlices : List (List Instruction)) (checkpoint : Option CheckpointLog) (w : World) :
    Option (Int × World) :=
  if ¬ c.pmemFile then some (0, w)
  else
    match openPool c.env c.pmemLibrary w with
    | (none, w) => some (-1, { w with pop := none })
    | (some _, _) =>
      (reactorState c st faultInst faultSlices checkpoint).bind fun state =>
        Reactor.react c.env c.fuel state w

def start (file : Text) (slicing : σ) (w : World) : Service ι γ φ σ where
  exited := false
  stateReady := false
  ready := false
  background := .preparing
  trace := .start .empty file
  dependencies := .start
  slicing := slicing
  requests _ := ⟨[], []⟩
  handlers _ := .idle
  answers := []
  world := w

variable [DecidableEq ι]

def goto (s : Service ι γ φ σ) (i : ι) (pc : HandlerPc) : Service ι γ φ σ :=
  { s with handlers := Function.update s.handlers i pc }

/-- The handler of the request returns. -/
def answer (s : Service ι γ φ σ) (i : ι) (answer : ReactAnswer) : Service ι γ φ σ :=
  { s.goto i .answered with answers := s.answers ++ [(i, answer)] }

/-- The handler returns with what `Reactor::react` returned. -/
def reply (s : Service ι γ φ σ) (i : ι) (success : Bool) : Service ι γ φ σ :=
  if success then s.answer i ⟨.ok, true, none⟩ else s.answer i (.failure .ok)

section Steps

variable (c : ServiceConfig γ φ σ)

/-- The next step of `do_background_job` outside the two waits; a preparation that fails ends
the process. -/
def backgroundStep (s : Service ι γ φ σ) : Option (Service ι γ φ σ) :=
  match s.background with
  | .preparing =>
    if ¬ c.optionsOk then some { s with exited := true }
    else
      match prepare c.asm c.sysModule c.hookGuidFile c.addressFile true with
      | .ok (some (true, st)) =>
        let trace := { s.trace with st := { s.trace.st with varMap := st.varMap } }
        some { s with stateReady := true, background := .prepared, trace := trace }
      | _ => some { s with exited := true }
  | .prepared => some { s with ready := true, background := .serving }
  | .serving => some { s with background := .monitoring }
  | .monitoring =>
    (s.dependencies.next c.builder c.constructed (.call none)).map fun dependencies =>
      { s with dependencies := dependencies, background := .computing }
  | .computing =>
    match s.dependencies.pc none with
    | .unlocked _ => (s.dependencies.stepOf none).map fun dependencies =>
        { s with dependencies := dependencies, background := .computed }
    | _ => none
  | .computed =>
    (s.trace.next c.asm c.sysModule (.call none)).map fun trace =>
      { s with trace := trace, background := .waiting }
  | .waiting =>
    match (s.trace.requests none).pc with
    | .returned _ => some { s with background := .done }
    | _ => none
  | .done => none

/-- The next step of a handler outside the two waits and before the pool is opened. -/
def handlerStep (i : ι) (s : Service ι γ φ σ) : Option (Service ι γ φ σ) :=
  match s.handlers i with
  | .idle | .answered | .reacting _ _ => none
  | .waiting =>
    match (s.trace.requests (some i)).pc with
    -- what the wait returned is not looked at
    | .returned _ => some (s.goto i .waited)
    | _ => none
  | .waited =>
    if s.ready then some (s.goto i .locating) else some (s.answer i (.failure .cancelled))
  | .locating =>
    if ¬ s.stateReady then some (s.reply i false)
    else
      match locateFaultInstr c.asm c.sysModule true (s.requests i).faultLoc
        (s.requests i).faultInstr with
      | none => none
      | some none => some (s.reply i false)
      | some (some faultInst) =>
        (s.dependencies.next c.builder c.constructed (.call (some i))).map fun dependencies =>
          { s with dependencies := dependencies }.goto i (.computing faultInst)
  | .computing faultInst =>
    match s.dependencies.pc (some i) with
    | .unlocked result => (s.dependencies.stepOf (some i)).map fun dependencies =>
        let s := { s with dependencies := dependencies }
        if result then s.goto i (.slicing faultInst) else s.reply i false
    | _ => none
  | .slicing faultInst =>
    match s.dependencies.slicer.funcDgMap with
    -- without graphs there is no slice graph
    | none => some (s.reply i false)
    | some funcDgMap => (c.slice funcDgMap s.slicing faultInst).map fun (slices, slicing) =>
        let s := { s with slicing := slicing }
        match slices with
        | none => s.reply i false
        | some faultSlices => s.goto i (.reacting faultInst faultSlices)

/-- The state after an event that can happen. -/
def next (s : Service ι γ φ σ) (e : ServiceEvent ι γ) : Option (Service ι γ φ σ) :=
  if s.exited then none
  else
    match e with
    | .append chunk => (s.trace.next c.asm c.sysModule (.append chunk)).map fun trace =>
        { s with trace := trace }
    | .truncate size => (s.trace.next c.asm c.sysModule (.truncate size)).map fun trace =>
        { s with trace := trace }
    | .monitor =>
      if s.background.monitors then
        (s.trace.next c.asm c.sysModule .monitor).map fun trace => { s with trace := trace }
      else none
    | .background => s.backgroundStep c
    | .request i request =>
      if s.handlers i = .idle then
        (s.trace.next c.asm c.sysModule (.call (some i))).map fun trace =>
          { s with
            trace := trace
            requests := Function.update s.requests i request }.goto i .waiting
      else none
    | .wait t => (s.trace.next c.asm c.sysModule (.wait t)).map fun trace =>
        { s with trace := trace }
    | .compute t =>
      match s.dependencies.pc t with
      | .unlocked _ => none
      | _ => (s.dependencies.stepOf t).map fun dependencies =>
          { s with dependencies := dependencies }
    | .finish t cfg =>
      (s.dependencies.next c.builder c.constructed (.finish t cfg)).map fun dependencies =>
        { s with dependencies := dependencies }
    | .handle i => s.handlerStep c i
    | .react i checkpoint =>
      match s.handlers i with
      | .reacting faultInst faultSlices =>
        (reactStage c s.trace.st faultInst faultSlices checkpoint s.world).map fun (ret, w) =>
          { s with world := w }.reply i (toBool ret)
      | _ => none

/-- The state after a log of events. -/
def play (s : Service ι γ φ σ) (log : List (ServiceEvent ι γ)) : Option (Service ι γ φ σ) :=
  log.foldlM (next c) s

end Steps

section Moves

variable (c : ServiceConfig γ φ σ)

/-- What an event can do, with what it requires; several events go the same way. -/
inductive Move (s : Service ι γ φ σ) : ServiceEvent ι γ → Service ι γ φ σ → Prop where
  | writes {e : ServiceEvent ι γ} {d : ServerEvent (Option ι)} {trace : TraceServer (Option ι)}
      (other : ∀ t, e ≠ .wait t)
      (writer : (∃ chunk, d = .append chunk) ∨ ∃ size, d = .truncate size)
      (step : s.trace.next c.asm c.sysModule d = some trace) : Move s e { s with trace := trace }
  | monitors {trace : TraceServer (Option ι)} (started : s.background.monitors = true)
      (step : s.trace.next c.asm c.sysModule .monitor = some trace) :
      Move s .monitor { s with trace := trace }
  | waits {t : Option ι} {trace : TraceServer (Option ι)}
      (step : s.trace.next c.asm c.sysModule (.wait t) = some trace) :
      Move s (.wait t) { s with trace := trace }
  | computes {e : ServiceEvent ι γ} {d : DependencyEvent (Option ι) γ}
      {dependencies : DependencyState (Option ι) γ φ} (other : ∀ t, e ≠ .wait t)
      (step : s.dependencies.next c.builder c.constructed d = some dependencies) :
      Move s e { s with dependencies := dependencies }
  | exits (here : s.background = .preparing) : Move s .background { s with exited := true }
  | prepares (varMap : PmemVarGuidMap) (here : s.background = .preparing) :
      Move s .background { s with
        stateReady := true
        background := .prepared
        trace := { s.trace with st := { s.trace.st with varMap := varMap } } }
  | readies (here : s.background = .prepared) :
      Move s .background { s with ready := true, background := .serving }
  | starts (here : s.background = .serving) :
      Move s .background { s with background := .monitoring }
  | asks {pc : BackgroundPc} {d : DependencyEvent (Option ι) γ}
      {dependencies : DependencyState (Option ι) γ φ} (before : s.background.monitors = true)
      (after : pc.monitors = true)
      (step : s.dependencies.next c.builder c.constructed d = some dependencies) :
      Move s .background { s with dependencies := dependencies, background := pc }
  | awaits {trace : TraceServer (Option ι)} (here : s.background = .computed)
      (step : s.trace.next c.asm c.sysModule (.call none) = some trace) :
      Move s .background { s with trace := trace, background := .waiting }
  | ends (here : s.background = .waiting) : Move s .background { s with background := .done }
  | requests {i : ι} {trace : TraceServer (Option ι)} (request : ReactRequest)
      (here : s.handlers i = .idle)
      (step : s.trace.next c.asm c.sysModule (.call (some i)) = some trace) :
      Move s (.request i request)
        ({ s with
          trace := trace
          requests := Function.update s.requests i request }.goto i .waiting)
  | passes {i : ι} {result : Bool} (here : s.handlers i = .waiting)
      (returned : (s.trace.requests (some i)).pc = .returned result) :
      Move s (.handle i) (s.goto i .waited)
  | cancels {i : ι} (here : s.handlers i = .waited) (unready : s.ready = false) :
      Move s (.handle i) (s.answer i (.failure .cancelled))
  | admits {i : ι} (here : s.handlers i = .waited) : Move s (.handle i) (s.goto i .locating)
  | gives {i : ι} {slicing : σ} {d : DependencyState (Option ι) γ φ}
      (here : (s.handlers i).early = false) (open' : s.handlers i ≠ .answered)
      (kept : d = s.dependencies ∨ s.dependencies.stepOf (some i) = some d) :
      Move s (.handle i) ({ s with dependencies := d, slicing := slicing }.reply i false)
  | calls {i : ι} {faultInst : Instruction} {dependencies : DependencyState (Option ι) γ φ}
      (here : s.handlers i = .locating)
      (step : s.dependencies.next c.builder c.constructed (.call (some i)) = some dependencies) :
      Move s (.handle i) ({ s with dependencies := dependencies }.goto i (.computing faultInst))
  | learns {i : ι} {faultInst : Instruction} {dependencies : DependencyState (Option ι) γ φ}
      (here : s.handlers i = .computing faultInst)
      (step : s.dependencies.stepOf (some i) = some dependencies) :
      Move s (.handle i) ({ s with dependencies := dependencies }.goto i (.slicing faultInst))
  | slices {i : ι} {faultInst : Instruction} {faultSlices : List (List Instruction)} {slicing : σ}
      (here : s.handlers i = .slicing faultInst)
      (graphs : s.dependencies.slicer.funcDgMap ≠ none) :
      Move s (.handle i) ({ s with slicing := slicing }.goto i (.reacting faultInst faultSlices))
  | reacts {i : ι} {faultInst : Instruction} {faultSlices : List (List Instruction)}
      {checkpoint : Option CheckpointLog} {ret : Int} {w : World}
      (here : s.handlers i = .reacting faultInst faultSlices)
      (stage : reactStage c s.trace.st faultInst faultSlices checkpoint s.world = some (ret, w)) :
      Move s (.react i checkpoint) ({ s with world := w }.reply i (toBool ret))

variable {c} {s s' : Service ι γ φ σ}

theorem backgroundStep_move (step : s.backgroundStep c = some s') : Move c s .background s' := by
  unfold backgroundStep at step
  split at step
  case h_1 here =>
    split_ifs at step
    · split at step
      · cases step
        exact .prepares _ here
      · cases step
        exact .exits here
    · cases step
      exact .exits here
  case h_2 here =>
    cases step
    exact .readies here
  case h_3 here =>
    cases step
    exact .starts here
  case h_4 here =>
    obtain ⟨dependencies, called, rfl⟩ := Option.map_eq_some_iff.mp step
    exact .asks (by rw [here]; rfl) rfl called
  case h_5 here =>
    split at step
    · obtain ⟨dependencies, returned, rfl⟩ := Option.map_eq_some_iff.mp step
      have called : s.dependencies.next c.builder c.constructed (.step none) =
          some dependencies := returned
      exact .asks (by rw [here]; rfl) rfl called
    · cases step
  case h_6 here =>
    obtain ⟨trace, called, rfl⟩ := Option.map_eq_some_iff.mp step
    exact .awaits here called
  case h_7 here =>
    split at step
    · cases step
      exact .ends here
    · cases step
  case h_8 => cases step

theorem handlerStep_move {i : ι} (step : s.handlerStep c i = some s') :
    Move c s (.handle i) s' := by
  unfold handlerStep at step
  split at step
  case h_1 => cases step
  case h_2 => cases step
  case h_3 => cases step
  case h_4 here =>
    split at step
    · next returned =>
      cases step
      exact .passes here returned
    · cases step
  case h_5 here =>
    split_ifs at step with ready
    · cases step
      exact .admits here
    · cases step
      exact .cancels here (Bool.not_eq_true _ ▸ ready)
  case h_6 here =>
    have gives : Move c s (.handle i) (s.reply i false) :=
      .gives (by rw [here]; rfl) (by rw [here]; simp) (Or.inl rfl)
    split_ifs at step
    · split at step
      · cases step
      · cases step
        exact gives
      · obtain ⟨dependencies, called, rfl⟩ := Option.map_eq_some_iff.mp step
        exact .calls here called
    · cases step
      exact gives
  case h_7 here =>
    split at step
    · next result _ =>
      obtain ⟨dependencies, returned, rfl⟩ := Option.map_eq_some_iff.mp step
      cases result with
      | true => exact .learns here returned
      | false => exact .gives (by rw [here]; rfl) (by rw [here]; simp) (Or.inr returned)
    · cases step
  case h_8 here =>
    split at step
    · cases step
      exact .gives (by rw [here]; rfl) (by rw [here]; simp) (Or.inl rfl)
    · next graphs =>
      obtain ⟨⟨slices, slicing⟩, -, rfl⟩ := Option.map_eq_some_iff.mp step
      cases slices with
      | none => exact .gives (by rw [here]; rfl) (by rw [here]; simp) (Or.inl rfl)
      | some faultSlices => exact .slices here (by rw [graphs]; simp)

theorem next_move {e : ServiceEvent ι γ} (step : s.next c e = some s') : Move c s e s' := by
  obtain ⟨-, step⟩ := Option.ite_none_left_eq_some.mp step
  cases e with
  | append chunk =>
    obtain ⟨trace, written, rfl⟩ := Option.map_eq_some_iff.mp step
    exact .writes (by simp) (Or.inl ⟨chunk, rfl⟩) written
  | truncate size =>
    obtain ⟨trace, written, rfl⟩ := Option.map_eq_some_iff.mp step
    exact .writes (by simp) (Or.inr ⟨size, rfl⟩) written
  | monitor =>
    obtain ⟨started, step⟩ := Option.ite_none_right_eq_some.mp step
    obtain ⟨trace, moved, rfl⟩ := Option.map_eq_some_iff.mp step
    exact .monitors started moved
  | background => exact backgroundStep_move step
  | request i request =>
    obtain ⟨here, step⟩ := Option.ite_none_right_eq_some.mp step
    obtain ⟨trace, called, rfl⟩ := Option.map_eq_some_iff.mp step
    exact .requests request here called
  | wait t =>
    obtain ⟨trace, moved, rfl⟩ := Option.map_eq_some_iff.mp step
    exact .waits moved
  | compute t =>
    dsimp only at step
    split at step
    · cases step
    · obtain ⟨dependencies, moved, rfl⟩ := Option.map_eq_some_iff.mp step
      exact .computes (d := .step t) (by simp) moved
  | finish t cfg =>
    obtain ⟨dependencies, moved, rfl⟩ := Option.map_eq_some_iff.mp step
    exact .computes (by simp) moved
  | handle i => exact handlerStep_move step
  | react i checkpoint =>
    dsimp only at step
    split at step
    · next here =>
      obtain ⟨⟨ret, w⟩, stage, rfl⟩ := Option.map_eq_some_iff.mp step
      exact .reacts here stage
    · cases step

end Moves

end Service

end Arthas.Reactor
