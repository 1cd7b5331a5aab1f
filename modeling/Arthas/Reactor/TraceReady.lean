import Mathlib
import Arthas.Reactor.TraceServer

/-!
When requests work on the current trace: one request processes the trace once and for all,
so the multimap is right as long as the monitor adds no item and clears none from then on.
-/

set_option autoImplicit false
set_option relaxedAutoImplicit false

namespace Arthas.Reactor

open Arthas.Lib Arthas.Utils Arthas.Matcher Arthas.Instrument

section Items

open PmemAddrTrace

variable {asm : AsmWriter} {M : Module} {trace : PmemAddrTrace}

/-- The items are different objects, created before the next one. -/
structure DistinctItems (trace : PmemAddrTrace) : Prop where
  nodup : (trace.items.map Instrument.PmemAddrTraceItem.ptr).Nodup
  created : ∀ item ∈ trace.items, item.ptr < trace.allocated

theorem DistinctItems.of_ptrs {trace' : PmemAddrTrace} (distinct : DistinctItems trace)
    (ptrs : trace'.items.map Instrument.PmemAddrTraceItem.ptr =
      trace.items.map Instrument.PmemAddrTraceItem.ptr)
    (allocated : trace'.allocated = trace.allocated) : DistinctItems trace' where
  nodup := ptrs ▸ distinct.nodup
  created item member := by
    have old : item.ptr ∈ trace.items.map Instrument.PmemAddrTraceItem.ptr :=
      ptrs ▸ List.mem_map_of_mem member
    obtain ⟨before, inside, eq⟩ := List.mem_map.mp old
    rw [allocated, ← eq]
    exact distinct.created before inside

theorem offsetStep_ptr {item item' : Instrument.PmemAddrTraceItem} {s s' : OffsetState}
    (step : offsetStep item s = some (item', s')) : item'.ptr = item.ptr := by
  unfold offsetStep at step
  split at step
  · split at step
    · cases step
    · cases step
      rfl
  · split at step
    · cases step
      rfl
    · split at step
      · cases step
        rfl
      · cases step
        rfl

theorem offsetLoop_ptrs (items : List Instrument.PmemAddrTraceItem) (s : OffsetState) :
    (offsetLoop items s).2.1.map Instrument.PmemAddrTraceItem.ptr =
      items.map Instrument.PmemAddrTraceItem.ptr := by
  induction items generalizing s with
  | nil => rfl
  | cons item items ih =>
    rw [offsetLoop]
    split
    · rfl
    · next item' s' step =>
      simp only [List.map_cons, offsetStep_ptr step, ih]

theorem calculatePoolOffsets_ptrs (trace : PmemAddrTrace) :
    trace.calculatePoolOffsets.2.items.map Instrument.PmemAddrTraceItem.ptr =
        trace.items.map Instrument.PmemAddrTraceItem.ptr ∧
      trace.calculatePoolOffsets.2.allocated = trace.allocated := by
  unfold calculatePoolOffsets
  split
  · exact ⟨rfl, rfl⟩
  · exact ⟨offsetLoop_ptrs _ _, rfl⟩

theorem addressToInstruction_ptr {item item' : Instrument.PmemAddrTraceItem}
    {s s' : ResolveState} {ok : Bool}
    (resolved : addressToInstruction asm M item s = some (ok, item', s')) :
    item'.ptr = item.ptr := by
  unfold addressToInstruction at resolved
  split at resolved
  · cases resolved
    rfl
  split at resolved
  · cases resolved
    rfl
  split at resolved
  · cases resolved
    rfl
  split at resolved
  · cases resolved
    rfl
  obtain ⟨found, -, outcome⟩ := Option.bind_eq_some_iff.mp resolved
  split at outcome <;> cases outcome <;> rfl

theorem resolveItems_ptrs {items items' : List Instrument.PmemAddrTraceItem} {s s' : ResolveState}
    (resolved : resolveItems asm M items s = some (items', s')) :
    items'.map Instrument.PmemAddrTraceItem.ptr = items.map Instrument.PmemAddrTraceItem.ptr := by
  induction items generalizing s items' with
  | nil =>
    cases resolved
    rfl
  | cons item items ih =>
    simp only [resolveItems, Option.bind_eq_bind, Option.bind_eq_some_iff, Prod.exists,
      Option.pure_def, Option.some.injEq, Prod.mk.injEq] at resolved
    obtain ⟨ok, item', s₁, first, rest', s₂, rest, rfl, rfl⟩ := resolved
    rw [List.map_cons, List.map_cons, addressToInstruction_ptr first, ih rest]

theorem addressesToInstructions_ptrs {varMap varMap' : PmemVarGuidMap} {trace' : PmemAddrTrace}
    (resolved : trace.addressesToInstructions asm M varMap = some (varMap', trace')) :
    trace'.items.map Instrument.PmemAddrTraceItem.ptr =
        trace.items.map Instrument.PmemAddrTraceItem.ptr ∧
      trace'.allocated = trace.allocated := by
  obtain ⟨⟨items, s⟩, loop, outcome⟩ := Option.bind_eq_some_iff.mp resolved
  cases outcome
  exact ⟨resolveItems_ptrs loop, rfl⟩

/-- A parsed item stands at the address where it was created. -/
theorem parse_ptr {line : Text} {item item' : Instrument.PmemAddrTraceItem}
    {varMap : Option PmemVarGuidMap} {ok : Bool}
    (parsed : Instrument.PmemAddrTraceItem.parse line item varMap = .ok (ok, item')) :
    item'.ptr = item.ptr := by
  have attached : ∀ read : Instrument.PmemAddrTraceItem,
      (varMap.elim read read.attach).ptr = read.ptr := by
    intro read
    obtain ⟨var, isPool, isMmap, kept⟩ := Instrument.attach_frame read varMap
    rw [kept]
  unfold Instrument.PmemAddrTraceItem.parse at parsed
  split at parsed
  · obtain ⟨addr, -, parsed⟩ := Exception.bind_eq_ok parsed
    obtain ⟨guid, -, parsed⟩ := Exception.bind_eq_ok parsed
    cases parsed
    exact attached _
  · cases parsed
    rfl

theorem DistinctItems.readLine {varMap : Option PmemVarGuidMap} {line : Text}
    {trace' : PmemAddrTrace} (distinct : DistinctItems trace)
    (read : PmemAddrTrace.readLine varMap trace line = .ok trace') : DistinctItems trace' := by
  obtain ⟨⟨ok, item⟩, parsed, read⟩ := Exception.bind_eq_ok read
  have here : item.ptr = trace.allocated := parse_ptr parsed
  have older : ∀ old ∈ trace.items, old.ptr < trace.allocated + 1 := fun old member =>
    (distinct.created old member).trans (Nat.lt_succ_self _)
  cases ok with
  | false =>
    cases read
    exact ⟨distinct.nodup, older⟩
  | true =>
    cases read
    refine ⟨?_, fun old member => ?_⟩
    · show ((trace.items ++ [item]).map Instrument.PmemAddrTraceItem.ptr).Nodup
      rw [List.map_append]
      refine List.nodup_append.mpr ⟨distinct.nodup, List.nodup_singleton _, ?_⟩
      intro p inside q new
      obtain ⟨old, member, rfl⟩ := List.mem_map.mp inside
      rw [List.mem_singleton.mp new, here]
      exact (distinct.created old member).ne
    · rcases List.mem_append.mp member with inside | new
      · exact older old inside
      · rw [List.mem_singleton.mp new, here]
        exact Nat.lt_succ_self _

end Items

section MonitorFrame

variable {file : Text} {m m' : Monitor} {st st' : TraceState}

/-- The next step of the monitor adds an item or clears the trace. -/
def Monitor.ChangesTrace (m : Monitor) (file : Text) : Prop :=
  m.pc = .clear ∨ m.pc = .read ∧ m.eof = false ∧ '\n' ∈ file.drop m.pos

/-- What the monitor leaves as it is. -/
structure MonitorFrame (st st' : TraceState) : Prop where
  processed : st'.traceProcessed = st.traceProcessed
  processing : st'.processingTrace = st.processingTrace
  instrs : st'.traceInstrs = st.traceInstrs
  distinct : DistinctItems st.addrTrace → DistinctItems st'.addrTrace

theorem Monitor.step_frame (step : m.step file st = .ok (m', st')) :
    MonitorFrame st st' ∧ (¬ m.ChangesTrace file → st'.addrTrace = st.addrTrace) := by
  have same : MonitorFrame st st := ⟨rfl, rfl, rfl, id⟩
  unfold Monitor.step at step
  split at step
  case h_1 =>
    dsimp only at step
    split at step <;> cases step <;> exact ⟨same, fun _ => rfl⟩
  case h_2 clears =>
    cases step
    exact ⟨⟨rfl, rfl, rfl, fun _ => ⟨List.nodup_nil, by simp [PmemAddrTrace.clear]⟩⟩,
      fun unchanged => (unchanged (Or.inl clears)).elim⟩
  case h_3 =>
    split at step
    · cases step
      exact ⟨same, fun _ => rfl⟩
    · split at step <;> cases step <;> exact ⟨same, fun _ => rfl⟩
  case h_4 =>
    cases step
    exact ⟨⟨rfl, rfl, rfl, id⟩, fun _ => rfl⟩
  case h_5 reads =>
    rcases m.getline_cases file with
      ⟨read, -⟩ | ⟨line, rest, more, next, -, read⟩ | ⟨more, rest, -, read⟩
    · rw [read] at step
      cases step
      exact ⟨same, fun _ => rfl⟩
    · simp only [read, more, Bool.false_eq_true, false_and, if_false] at step
      have changes : m.ChangesTrace file := Or.inr ⟨reads, more, by simp [next]⟩
      obtain ⟨addrTrace, added, outcome⟩ := Exception.bind_eq_ok step
      cases outcome
      exact ⟨⟨rfl, rfl, rfl, fun distinct => distinct.readLine added⟩,
        fun unchanged => (unchanged changes).elim⟩
    · simp only [read, rest, ne_eq, not_false_eq_true, and_self, if_true] at step
      cases step
      exact ⟨same, fun _ => rfl⟩
  case h_6 =>
    cases step
    exact ⟨same, fun _ => rfl⟩

end MonitorFrame

namespace RequestPc

/-- From the claim of the processing to its end. -/
def works : RequestPc → Bool
  | .awaitReady | .checkPool | .offsets | .resolve | .index => true
  | _ => false

/-- With the mutex between two steps. -/
def holds : RequestPc → Bool
  | .checkPool | .offsets | .resolve | .index => true
  | _ => false

end RequestPc

namespace TraceServer

variable {ι : Type*} [DecidableEq ι] {s s' : TraceServer ι}

section Phases

/-- Nobody processes the trace: nobody has begun, or a request has failed. -/
structure Unprocessed (s : TraceServer ι) : Prop where
  unprocessed : s.st.traceProcessed = false
  noWorker : ∀ i, (s.requests i).pc.works = false
  free : s.mutex = none
  noInstrs : s.st.traceInstrs = []

/-- One request processes the trace. -/
structure Working (s : TraceServer ι) (w : ι) : Prop where
  claimed : s.st.processingTrace = true
  unprocessed : s.st.traceProcessed = false
  worker : (s.requests w).pc.works = true
  alone : ∀ i, i ≠ w → (s.requests i).pc.works = false
  holder : s.mutex = if (s.requests w).pc.holds then some w else none
  noInstrs : s.st.traceInstrs = []
  offsets : (s.requests w).pc = .resolve ∨ (s.requests w).pc = .index →
    s.offsetsDone = s.st.itemPtrs
  resolved : (s.requests w).pc = .index → s.instrsDone = s.st.itemPtrs

/-- The trace was processed, and its items are those that were processed. -/
structure Processed (s : TraceServer ι) : Prop where
  processed : s.st.traceProcessed = true
  noWorker : ∀ i, (s.requests i).pc.works = false
  free : s.mutex = none
  instrs : s.st.traceInstrs = indexItems s.st.addrTrace.items
  offsets : s.offsetsDone = s.st.itemPtrs
  resolved : s.instrsDone = s.st.itemPtrs

structure Coherent (s : TraceServer ι) : Prop where
  distinct : DistinctItems s.st.addrTrace
  phase : Unprocessed s ∨ (∃ w, Working s w) ∨ Processed s

/-- The monitor adds an item or clears the trace only while no request processes it and
before it is processed. -/
def Orderly (s : TraceServer ι) : ServerEvent ι → Prop
  | .monitor => s.monitor.ChangesTrace s.file → s.mutex = none ∧ s.st.traceProcessed = false
  | _ => True

omit [DecidableEq ι] in
theorem coherent_start (varMap : PmemVarGuidMap) (file : Text) :
    Coherent (TraceServer.start varMap file : TraceServer ι) where
  distinct := ⟨List.nodup_nil, by simp [TraceServer.start, TraceState.new, PmemAddrTrace.empty]⟩
  phase := Or.inl ⟨rfl, fun _ => rfl, rfl, rfl⟩

omit [DecidableEq ι] in
/-- A request that works is the only one. -/
theorem Coherent.working (coherent : Coherent s) {i : ι} (works : (s.requests i).pc.works = true) :
    Working s i := by
  rcases coherent.phase with before | ⟨w, working⟩ | after
  · simp [before.noWorker i] at works
  · by_cases same : i = w
    · exact same ▸ working
    · simp [working.alone i same] at works
  · simp [after.noWorker i] at works

omit [DecidableEq ι] in
theorem Coherent.file (coherent : Coherent s) (file : Text) : Coherent { s with file := file } where
  distinct := coherent.distinct
  phase := coherent.phase.imp (fun h => ⟨h.1, h.2, h.3, h.4⟩) <| Or.imp
    (fun ⟨w, h⟩ => ⟨w, ⟨h.1, h.2, h.3, h.4, h.5, h.6, h.7, h.8⟩⟩)
    (fun h => ⟨h.1, h.2, h.3, h.4, h.5, h.6⟩)

omit [DecidableEq ι] in
theorem Coherent.monitor (coherent : Coherent s) (orderly : Orderly s .monitor) {m : Monitor}
    {st : TraceState} (step : s.monitor.step s.file s.st = .ok (m, st)) :
    Coherent { s with monitor := m, st := st } := by
  obtain ⟨frame, unchanged⟩ := Monitor.step_frame step
  refine ⟨frame.distinct coherent.distinct, ?_⟩
  rcases coherent.phase with before | ⟨w, working⟩ | after
  · exact Or.inl ⟨frame.processed.trans before.unprocessed, before.noWorker, before.free,
      frame.instrs.trans before.noInstrs⟩
  · refine Or.inr (Or.inl ⟨w, ?_⟩)
    have kept : (s.requests w).pc.holds = true → st.itemPtrs = s.st.itemPtrs := by
      intro holds
      have held : s.mutex = some w := working.holder.trans (if_pos holds)
      have same := unchanged fun changes => by
        have free := (orderly changes).1
        rw [held] at free
        cases free
      rw [TraceState.itemPtrs, same, TraceState.itemPtrs]
    exact {
      claimed := frame.processing.trans working.claimed
      unprocessed := frame.processed.trans working.unprocessed
      worker := working.worker
      alone := working.alone
      holder := working.holder
      noInstrs := frame.instrs.trans working.noInstrs
      offsets := fun here => by
        rw [kept (by rcases here with here | here <;> rw [here] <;> rfl)]
        exact working.offsets here
      resolved := fun here => by
        rw [kept (by rw [here]; rfl)]
        exact working.resolved here }
  · have same := unchanged fun changes => by
      have unprocessed := (orderly changes).2
      rw [after.processed] at unprocessed
      cases unprocessed
    refine Or.inr (Or.inr ⟨frame.processed.trans after.processed, after.noWorker, after.free,
      ?_, ?_, ?_⟩)
    · rw [same]
      exact frame.instrs.trans after.instrs
    · rw [TraceState.itemPtrs, same]
      exact after.offsets
    · rw [TraceState.itemPtrs, same]
      exact after.resolved

/-- A request that does not work goes to a place where it does not work either. -/
theorem Coherent.aside (coherent : Coherent s) {i : ι} {request : Request}
    (before : (s.requests i).pc.works = false) (after : request.pc.works = false) :
    Coherent { s with requests := Function.update s.requests i request } where
  distinct := coherent.distinct
  phase := by
    have noWorker : (∀ j, (s.requests j).pc.works = false) →
        ∀ j, (Function.update s.requests i request j).pc.works = false := by
      intro none j
      by_cases same : j = i
      · rw [same, Function.update_self]
        exact after
      · rw [Function.update_of_ne same]
        exact none j
    rcases coherent.phase with unclaimed | ⟨w, working⟩ | done
    · exact Or.inl ⟨unclaimed.unprocessed, noWorker unclaimed.noWorker, unclaimed.free,
        unclaimed.noInstrs⟩
    · have other : w ≠ i := by
        rintro rfl
        simp [working.worker] at before
      have worker : Function.update s.requests i request w = s.requests w :=
        Function.update_of_ne other _ _
      refine Or.inr (Or.inl ⟨w, working.claimed, working.unprocessed, ?_, ?_, ?_, working.noInstrs,
        ?_, ?_⟩)
      · simpa only [worker] using working.worker
      · intro j different
        by_cases same : j = i
        · simpa only [same, Function.update_self] using after
        · simpa only [Function.update_of_ne same] using working.alone j different
      · simpa only [worker] using working.holder
      · simpa only [worker] using working.offsets
      · simpa only [worker] using working.resolved
    · exact Or.inr (Or.inr ⟨done.processed, noWorker done.noWorker, done.free, done.instrs,
        done.offsets, done.resolved⟩)

end Phases

section Waiting

variable {asm : AsmWriter} {M : Module} {i : ι} {pc : RequestPc}

theorem goto_self (s : TraceServer ι) (i : ι) (pc : RequestPc) :
    ((s.goto i pc).requests i).pc = pc := by
  simp [goto]

theorem goto_other (s : TraceServer ι) {i j : ι} (pc : RequestPc) (different : j ≠ i) :
    (s.goto i pc).requests j = s.requests j :=
  Function.update_of_ne different _ _

/-- The working request at its next place. -/
theorem working_goto (claimed : s.st.processingTrace = true)
    (unprocessed : s.st.traceProcessed = false) (works : pc.works = true)
    (alone : ∀ j, j ≠ i → (s.requests j).pc.works = false)
    (holder : s.mutex = if pc.holds then some i else none) (noInstrs : s.st.traceInstrs = [])
    (offsets : pc = .resolve ∨ pc = .index → s.offsetsDone = s.st.itemPtrs)
    (resolved : pc = .index → s.instrsDone = s.st.itemPtrs) : Working (s.goto i pc) i where
  claimed := claimed
  unprocessed := unprocessed
  worker := by rwa [goto_self]
  alone j different := by
    rw [goto_other s pc different]
    exact alone j different
  holder := by rwa [goto_self]
  noInstrs := noInstrs
  offsets := by rwa [goto_self]
  resolved := by rwa [goto_self]

theorem noWorker_goto (alone : ∀ j, j ≠ i → (s.requests j).pc.works = false)
    (stops : pc.works = false) (j : ι) : ((s.goto i pc).requests j).pc.works = false := by
  by_cases same : j = i
  · rw [same, goto_self]
    exact stops
  · rw [goto_other s pc same]
    exact alone j same

/-- A request that finds the trace neither processed nor in processing begins with it. -/
theorem Coherent.claim (coherent : Coherent s) (unprocessed : s.st.traceProcessed = false)
    (unclaimed : s.st.processingTrace = false)
    {mutex : Option ι} (works : pc.works = true)
    (holder : mutex = if pc.holds then some i else none)
    (early : pc ≠ .resolve ∧ pc ≠ .index) :
    Coherent ({ s with
      st := { s.st with processingTrace := true }, mutex := mutex }.goto i pc) := by
  rcases coherent.phase with before | ⟨w, working⟩ | after
  · refine ⟨coherent.distinct, Or.inr (Or.inl ⟨i, working_goto rfl unprocessed works
      (fun j _ => before.noWorker j) holder before.noInstrs ?_ fun here => absurd here early.2⟩)⟩
    rintro (here | here)
    · exact absurd here early.1
    · exact absurd here early.2
  · have claimed := working.claimed
    rw [unclaimed] at claimed
    cases claimed
  · have processed := after.processed
    rw [unprocessed] at processed
    cases processed

/-- The steps of a request in `wait_address_trace_ready`, by the place where it is. -/
inductive WaitStep (asm : AsmWriter) (M : Module) (s : TraceServer ι) (i : ι) :
    TraceServer ι → Prop
  | done (here : (s.requests i).pc = .called) (free : s.mutex = none)
      (processed : s.st.traceProcessed = true) :
      WaitStep asm M s i (s.goto i (.returned true))
  | sent (here : (s.requests i).pc = .called) (free : s.mutex = none)
      (unprocessed : s.st.traceProcessed = false) (claimed : s.st.processingTrace = true) :
      WaitStep asm M s i (s.goto i .awaitProcessed)
  | claim (here : (s.requests i).pc = .called) (free : s.mutex = none)
      (unprocessed : s.st.traceProcessed = false) (unclaimed : s.st.processingTrace = false)
      (ready : s.st.traceReady = true) :
      WaitStep asm M s i ({ s with
        st := { s.st with processingTrace := true }, mutex := some i }.goto i .checkPool)
  | early (here : (s.requests i).pc = .called) (free : s.mutex = none)
      (unprocessed : s.st.traceProcessed = false) (unclaimed : s.st.processingTrace = false)
      (unready : s.st.traceReady = false) :
      WaitStep asm M s i ({ s with
        st := { s.st with processingTrace := true } }.goto i .awaitReady)
  | woken (here : (s.requests i).pc = .awaitProcessed) (free : s.mutex = none)
      (processed : s.st.traceProcessed = true) :
      WaitStep asm M s i (s.goto i (.returned true))
  | ready (here : (s.requests i).pc = .awaitReady) (free : s.mutex = none)
      (ready : s.st.traceReady = true) :
      WaitStep asm M s i ({ s with mutex := some i }.goto i .checkPool)
  | noPool (here : (s.requests i).pc = .checkPool) (empty : s.st.addrTrace.poolEmpty = true) :
      WaitStep asm M s i ({ s with mutex := none }.goto i (.returned false))
  | pool (here : (s.requests i).pc = .checkPool) (pools : s.st.addrTrace.poolEmpty = false) :
      WaitStep asm M s i (s.goto i .offsets)
  | offsets (here : (s.requests i).pc = .offsets)
      (ok : s.st.addrTrace.calculatePoolOffsets.1 = true) :
      WaitStep asm M s i ({ s with
        st := { s.st with addrTrace := s.st.addrTrace.calculatePoolOffsets.2 }
        offsetsDone := s.st.addrTrace.calculatePoolOffsets.2.items.map
          Instrument.PmemAddrTraceItem.ptr }.goto i .resolve)
  | noOffsets (here : (s.requests i).pc = .offsets)
      (failed : s.st.addrTrace.calculatePoolOffsets.1 = false) :
      WaitStep asm M s i ({ s with
        st := { s.st with addrTrace := s.st.addrTrace.calculatePoolOffsets.2 }
        mutex := none }.goto i (.returned false))
  | resolve (here : (s.requests i).pc = .resolve) {varMap : PmemVarGuidMap}
      {addrTrace : PmemAddrTrace}
      (resolved : s.st.addrTrace.addressesToInstructions asm M s.st.varMap =
        some (varMap, addrTrace)) :
      WaitStep asm M s i ({ s with
        st := { s.st with varMap := varMap, addrTrace := addrTrace }
        instrsDone := addrTrace.items.map Instrument.PmemAddrTraceItem.ptr }.goto i .index)
  | index (here : (s.requests i).pc = .index) :
      WaitStep asm M s i ({ s with
        st := { s.st with
          traceInstrs := s.st.traceInstrs ++ indexItems s.st.addrTrace.items
          traceProcessed := true
          processingTrace := false }
        mutex := none }.goto i (.returned true))

theorem waitStep_cases (step : waitStep asm M i s = some s') : WaitStep asm M s i s' := by
  unfold waitStep at step
  split at step
  case h_1 => cases step
  case h_2 => cases step
  case h_3 here =>
    split at step
    · cases step
    next free =>
    have free : s.mutex = none := by simpa using free
    split at step
    · next processed =>
      cases step
      exact .done here free processed
    next unprocessed =>
    have unprocessed := Bool.eq_false_iff.mpr unprocessed
    split at step
    · next claimed =>
      cases step
      exact .sent here free unprocessed claimed
    next unclaimed =>
    have unclaimed := Bool.eq_false_iff.mpr unclaimed
    dsimp only at step
    split at step
    · next ready =>
      cases step
      exact .claim here free unprocessed unclaimed ready
    · next unready =>
      cases step
      exact .early here free unprocessed unclaimed (Bool.eq_false_iff.mpr unready)
  case h_4 here =>
    split at step
    · cases step
    · next woken =>
      cases step
      obtain ⟨free, processed⟩ := not_or.mp woken
      exact .woken here (by simpa using free) (by simpa using processed)
  case h_5 here =>
    split at step
    · cases step
    · next signalled =>
      cases step
      obtain ⟨free, ready⟩ := not_or.mp signalled
      exact .ready here (by simpa using free) (by simpa using ready)
  case h_6 here =>
    split at step
    · next empty =>
      cases step
      exact .noPool here empty
    · next pools =>
      cases step
      exact .pool here (Bool.eq_false_iff.mpr pools)
  case h_7 here =>
    dsimp only at step
    split at step
    · next ok =>
      cases step
      exact .offsets here ok
    · next failed =>
      cases step
      exact .noOffsets here (Bool.eq_false_iff.mpr failed)
  case h_8 here =>
    obtain ⟨⟨varMap, addrTrace⟩, resolved, rfl⟩ := Option.map_eq_some_iff.mp step
    exact .resolve here resolved
  case h_9 here =>
    cases step
    exact .index here

/-- One step of a request in `wait_address_trace_ready`. -/
theorem Coherent.wait (coherent : Coherent s) (step : waitStep asm M i s = some s') :
    Coherent s' := by
  have working : (s.requests i).pc.works = true → Working s i := coherent.working
  have held : (s.requests i).pc.works = true → (s.requests i).pc.holds = true →
      s.mutex = some i := by
    intro works holds
    rw [(working works).holder, if_pos holds]
  cases waitStep_cases step with
  | done here | sent here | woken here => exact coherent.aside (by rw [here]; rfl) rfl
  | claim _ _ unprocessed unclaimed =>
    exact coherent.claim unprocessed unclaimed rfl rfl (by simp)
  | early _ free unprocessed unclaimed =>
    exact coherent.claim unprocessed unclaimed rfl free (by simp)
  | ready here =>
    have working := working (by rw [here]; rfl)
    exact ⟨coherent.distinct, Or.inr (Or.inl ⟨i, working_goto working.claimed
      working.unprocessed rfl working.alone rfl working.noInstrs (by simp) (by simp)⟩)⟩
  | noPool here =>
    have working := working (by rw [here]; rfl)
    exact ⟨coherent.distinct, Or.inl ⟨working.unprocessed, noWorker_goto working.alone rfl, rfl,
      working.noInstrs⟩⟩
  | pool here =>
    have held := held (by rw [here]; rfl) (by rw [here]; rfl)
    have working := working (by rw [here]; rfl)
    exact ⟨coherent.distinct, Or.inr (Or.inl ⟨i, working_goto working.claimed
      working.unprocessed rfl working.alone held working.noInstrs (by simp) (by simp)⟩)⟩
  | offsets here =>
    have held := held (by rw [here]; rfl) (by rw [here]; rfl)
    have working := working (by rw [here]; rfl)
    obtain ⟨ptrs, allocated⟩ := calculatePoolOffsets_ptrs s.st.addrTrace
    exact ⟨coherent.distinct.of_ptrs ptrs allocated, Or.inr (Or.inl ⟨i, working_goto
      working.claimed working.unprocessed rfl working.alone held working.noInstrs (fun _ => rfl)
      (by simp)⟩)⟩
  | noOffsets here =>
    have working := working (by rw [here]; rfl)
    obtain ⟨ptrs, allocated⟩ := calculatePoolOffsets_ptrs s.st.addrTrace
    exact ⟨coherent.distinct.of_ptrs ptrs allocated, Or.inl ⟨working.unprocessed,
      noWorker_goto working.alone rfl, rfl, working.noInstrs⟩⟩
  | @resolve here varMap addrTrace resolved =>
    have held := held (by rw [here]; rfl) (by rw [here]; rfl)
    have working := working (by rw [here]; rfl)
    obtain ⟨ptrs, allocated⟩ := addressesToInstructions_ptrs resolved
    have offsets : s.offsetsDone = addrTrace.items.map Instrument.PmemAddrTraceItem.ptr :=
      (working.offsets (Or.inl here)).trans ptrs.symm
    exact ⟨coherent.distinct.of_ptrs ptrs allocated, Or.inr (Or.inl ⟨i, working_goto
      working.claimed working.unprocessed rfl working.alone held working.noInstrs
      (fun _ => offsets) (fun _ => rfl)⟩)⟩
  | index here =>
    have working := working (by rw [here]; rfl)
    refine ⟨coherent.distinct, Or.inr (Or.inr ⟨rfl, noWorker_goto working.alone rfl, rfl, ?_,
      working.offsets (Or.inr here), working.resolved here⟩)⟩
    show s.st.traceInstrs ++ _ = _
    rw [working.noInstrs, List.nil_append]
    rfl

/-- A request that returns true has found the trace processed, or has processed it. -/
theorem processed_of_returned (step : waitStep asm M i s = some s')
    (returned : (s'.requests i).pc = .returned true) : s'.st.traceProcessed = true := by
  cases waitStep_cases step with
  | done _ _ processed | woken _ _ processed => exact processed
  | index => rfl
  | _ => simp [goto_self] at returned

end Waiting

section Runs

variable {asm : AsmWriter} {M : Module}

theorem Coherent.next (coherent : Coherent s) {e : ServerEvent ι} (orderly : Orderly s e)
    (step : s.next asm M e = some s') : Coherent s' := by
  cases e with
  | append chunk =>
    cases step
    exact coherent.file _
  | truncate size =>
    cases step
    exact coherent.file _
  | monitor =>
    unfold TraceServer.next at step
    dsimp only at step
    split at step
    · cases step
    split at step
    · cases step
    · next m st moved =>
      cases step
      exact coherent.monitor orderly moved
  | call i =>
    unfold TraceServer.next at step
    dsimp only at step
    split at step
    case h_1 here =>
      cases step
      exact coherent.aside (by rw [here]; rfl) rfl
    case h_2 here =>
      cases step
      exact coherent.aside (by rw [here]; rfl) rfl
    case h_3 => cases step
  | wait i => exact coherent.wait step

/-- A step of the server that keeps the order. -/
def OrderlyStep (asm : AsmWriter) (M : Module) (s s' : TraceServer ι) : Prop :=
  ∃ e, Orderly s e ∧ s.next asm M e = some s'

theorem coherent_run {varMap : PmemVarGuidMap} {file : Text}
    (run : Relation.ReflTransGen (OrderlyStep asm M) (.start varMap file) s) : Coherent s := by
  induction run with
  | refl => exact coherent_start varMap file
  | tail _ step ih =>
    obtain ⟨e, orderly, step⟩ := step
    exact ih.next orderly step

omit [DecidableEq ι] in
theorem Processed.current (distinct : DistinctItems s.st.addrTrace) (processed : Processed s)
    (atCall : List Nat) : Current s atCall where
  once item member _ := by
    rw [processed.instrs, indexItems, List.filter_map]
    have only : s.st.addrTrace.items.filter (fun other => other.ptr = item.ptr) = [item] := by
      have same : ∀ other ∈ s.st.addrTrace.items,
          decide (other.ptr = item.ptr) = decide (other = item) := fun other inside =>
        decide_eq_decide.mpr ⟨List.inj_on_of_nodup_map distinct.nodup inside member,
          congrArg Instrument.PmemAddrTraceItem.ptr⟩
      rw [List.filter_congr same, List.filter_eq, List.count_eq_one_of_mem distinct.nodup.of_map member,
        List.replicate_one]
    exact congrArg _ only
  through item member _ := by
    have listed : item.ptr ∈ s.st.itemPtrs := List.mem_map_of_mem member
    exact ⟨processed.offsets ▸ listed, processed.resolved ▸ listed⟩
  alive p member := by
    rw [processed.instrs] at member
    obtain ⟨item, inside, rfl⟩ := List.mem_map.mp member
    exact ⟨item, inside, rfl⟩

/-- If the monitor neither adds an item nor clears the trace while a request processes it or
after it was processed, every request that returns true may rely on the multimap. -/
theorem returned_current {varMap : PmemVarGuidMap} {file : Text}
    (run : Relation.ReflTransGen (OrderlyStep asm M) (.start varMap file) s) {i : ι}
    (step : s.next asm M (.wait i) = some s') (returned : (s'.requests i).pc = .returned true) :
    Current s' (s'.requests i).atCall := by
  have coherent := (coherent_run run).wait step
  have processed := processed_of_returned step returned
  rcases coherent.phase with before | ⟨w, working⟩ | after
  · rw [before.unprocessed] at processed
    cases processed
  · rw [working.unprocessed] at processed
    cases processed
  · exact after.current coherent.distinct _

end Runs

section Examples

def noFunctions : Module := ⟨[], 0, by simp, by simp⟩

/-- Events one after the other, each of them admitted by the guard. -/
def play (guard : TraceServer ι → ServerEvent ι → Bool) (log : List (ServerEvent ι))
    (s : TraceServer ι) : Option (TraceServer ι) :=
  log.foldlM (fun s e => if guard s e then s.next .unary noFunctions e else none) s

theorem play_run {guard : TraceServer ι → ServerEvent ι → Bool}
    {R : TraceServer ι → TraceServer ι → Prop}
    (admitted : ∀ s e s', guard s e = true →
      s.next .unary noFunctions e = some s' → R s s')
    {log : List (ServerEvent ι)} {s s' : TraceServer ι} (played : play guard log s = some s') :
    Relation.ReflTransGen R s s' := by
  induction log generalizing s with
  | nil =>
    cases played
    exact .refl
  | cons e log ih =>
    obtain ⟨s₁, first, rest⟩ := Option.bind_eq_some_iff.mp played
    dsimp only at first
    split at first
    · next allowed => exact .head (admitted s e s₁ allowed first) (ih rest)
    · cases first

/-- A pool creation with GUID 200 and another hook with GUID 201. -/
def poolGuids : PmemVarGuidMap :=
  (PmemVarGuidMap.empty.add
    ⟨200, [], [], [], 0, Instrument.PmemAddrTraceItem.pmemObjCreateCall⟩).add
    ⟨201, [], [], [], 0, []⟩

def twoLines : TraceServer Unit := .start poolGuids "0x10,200\n0x18,201\n".toList

/-- The monitor reads the two lines and sees the size unchanged; then a request comes and
works up to its last step. -/
def firstRequest : List (ServerEvent Unit) :=
  List.replicate 9 .monitor ++ .call () :: List.replicate 4 (.wait ())

theorem returned_current_first :
    ∃ s', Current s' ((s'.requests ()).atCall) ∧ s'.st.traceInstrs = [(none, 0), (none, 1)] := by
  let guard : TraceServer Unit → ServerEvent Unit → Bool := fun s e =>
    match e with
    | .monitor => s.mutex.isNone && !s.st.traceProcessed
    | _ => true
  have admitted : ∀ s e s', guard s e = true → s.next .unary noFunctions e = some s' →
      OrderlyStep .unary noFunctions s s' := by
    intro s e s' allowed step
    refine ⟨e, ?_, step⟩
    cases e with
    | monitor =>
      intro _
      simpa [guard] using allowed
    | _ => trivial
  obtain ⟨s, played⟩ := Option.isSome_iff_exists.mp
    (show (play guard firstRequest twoLines).isSome by decide)
  have last : ((play guard firstRequest twoLines).bind fun s => s.next .unary noFunctions (.wait ())).map
      (fun s' => ((s'.requests ()).pc, s'.st.traceInstrs)) =
        some (.returned true, [(none, 0), (none, 1)]) := by decide
  rw [played, Option.bind_some, Option.map_eq_some_iff] at last
  obtain ⟨s', step, eq⟩ := last
  obtain ⟨pc, instrs⟩ := Prod.mk.inj eq
  exact ⟨s', returned_current (play_run admitted played) step pc, instrs⟩

/-- The file grows, the monitor reads the new line, and the next request returns at once. -/
theorem returned_current_grown :
    ¬ ∀ (ι : Type) [DecidableEq ι] (asm : AsmWriter) (M : Module) (varMap : PmemVarGuidMap)
      (file : Text) (s s' : TraceServer ι) (i : ι),
      Relation.ReflTransGen (Step asm M) (.start varMap file) s →
      s.next asm M (.wait i) = some s' → (s'.requests i).pc = .returned true →
      Current s' (s'.requests i).atCall := by
  intro claim
  let log : List (ServerEvent Unit) :=
    firstRequest ++ ServerEvent.wait () :: ServerEvent.append "0x20,201\n".toList ::
      (List.replicate 4 ServerEvent.monitor ++ [ServerEvent.call ()])
  obtain ⟨s, played⟩ := Option.isSome_iff_exists.mp
    (show (play (fun _ _ => true) log twoLines).isSome by decide)
  have missed : ((play (fun _ _ => true) log twoLines).bind fun s =>
      s.next .unary noFunctions (.wait ())).map (fun s' => ((s'.requests ()).pc,
        decide (∀ item ∈ s'.st.addrTrace.items, item.ptr ∈ (s'.requests ()).atCall →
          (s'.st.traceInstrs.filter fun p => p.2 = item.ptr).length = 1))) =
        some (.returned true, false) := by decide
  rw [played, Option.bind_some, Option.map_eq_some_iff] at missed
  obtain ⟨s', step, eq⟩ := missed
  obtain ⟨pc, notIndexed⟩ := Prod.mk.inj eq
  have run : Relation.ReflTransGen (Step .unary noFunctions) twoLines s :=
    play_run (fun _ e _ _ step => ⟨e, step⟩) played
  have current := claim Unit .unary noFunctions _ _ s s' () run step pc
  apply of_decide_eq_false notIndexed
  intro item member called
  rw [current.once item member called, List.length_singleton]

end Examples

end TraceServer

end Arthas.Reactor
