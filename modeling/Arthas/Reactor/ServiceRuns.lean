import Arthas.Reactor.Service

/-!
What clients of the reactor server see, in every run: when the first answers are given, what a
request that finds no pool does to the others, and what a failed computation of the dependences
does to all of them.
-/

set_option autoImplicit false
set_option relaxedAutoImplicit false

namespace Arthas.Reactor

open Arthas.Lib Arthas.Utils Arthas.Matcher Arthas.Instrument Checkpoint

namespace TraceServer

variable {ι : Type*} [DecidableEq ι] {asm : AsmWriter} {M : Module} {s s' : TraceServer ι} {t : ι}

section Returned

omit [DecidableEq ι] in
/-- The call of the thread has returned. -/
def Returned (s : TraceServer ι) (t : ι) : Prop := ∃ result, (s.requests t).pc = .returned result

/-- What an event other than a step in `wait_address_trace_ready` leaves of the threads and of
what they have made of the trace. -/
structure Aside (e : ServerEvent ι) (s s' : TraceServer ι) : Prop where
  requests : ∀ u, e ≠ .call u → s'.requests u = s.requests u
  called : ∀ u, e = .call u → (s'.requests u).pc = .called
  ready : e ≠ .monitor → s'.st.traceReady = s.st.traceReady
  processed : s'.st.traceProcessed = s.st.traceProcessed
  instrs : s'.st.traceInstrs = s.st.traceInstrs

theorem aside_of_next {e : ServerEvent ι} (other : ∀ u, e ≠ .wait u)
    (step : s.next asm M e = some s') : Aside e s s' := by
  cases e with
  | append chunk | truncate size =>
    cases step
    exact ⟨fun _ _ => rfl, by simp, fun _ => rfl, rfl, rfl⟩
  | monitor =>
    unfold TraceServer.next at step
    dsimp only at step
    split at step
    · cases step
    split at step
    · cases step
    · next m st moved =>
      cases step
      obtain ⟨frame, -⟩ := Monitor.step_frame moved
      exact ⟨fun _ _ => rfl, by simp, fun absurd => (absurd rfl).elim, frame.processed,
        frame.instrs⟩
  | call i =>
    have called : s' = { s with
        requests := Function.update s.requests i ⟨.called, s.st.itemPtrs⟩ } := by
      unfold TraceServer.next at step
      dsimp only at step
      split at step <;> cases step <;> rfl
    rw [called]
    refine ⟨fun u different => ?_, fun u same => ?_, fun _ => rfl, rfl, rfl⟩
    · refine Function.update_of_ne ?_ _ _
      rintro rfl
      exact different rfl
    · obtain rfl := ServerEvent.call.inj same
      simp only [Function.update_self]
  | wait i => exact (other i rfl).elim

omit [DecidableEq ι] in
theorem Aside.returned {e : ServerEvent ι} (aside : Aside e s s') {u : ι} (after : s'.Returned u) :
    s.Returned u := by
  obtain ⟨result, here⟩ := after
  by_cases called : e = .call u
  · rw [aside.called u called] at here
    cases here
  · exact ⟨result, aside.requests u called ▸ here⟩

/-- A thread that has returned stays so until it calls again. -/
theorem Returned.next (returned : s.Returned t) {e : ServerEvent ι} (again : e ≠ .call t)
    (step : s.next asm M e = some s') : s'.Returned t := by
  obtain ⟨result, here⟩ := returned
  refine ⟨result, ?_⟩
  by_cases waits : ∃ u, e = .wait u
  · obtain ⟨u, rfl⟩ := waits
    have waited : waitStep asm M u s = some s' := step
    have other : t ≠ u := by
      rintro rfl
      simp only [waitStep, here] at waited
      cases waited
    rw [waitStep_others waited other, here]
  · rw [(aside_of_next (fun u equal => waits ⟨u, equal⟩) step).requests t again, here]

end Returned

section Silent

omit [DecidableEq ι] in
/-- Before the monitor runs, nobody gets beyond the waits for the trace. -/
structure Silent (s : TraceServer ι) : Prop where
  unready : s.st.traceReady = false
  unprocessed : s.st.traceProcessed = false
  before : ∀ u, (s.requests u).pc = .idle ∨ (s.requests u).pc = .called ∨
    (s.requests u).pc = .awaitProcessed ∨ (s.requests u).pc = .awaitReady

omit [DecidableEq ι] in
theorem silent_start (varMap : PmemVarGuidMap) (file : Text) :
    Silent (start varMap file : TraceServer ι) :=
  ⟨rfl, rfl, fun _ => Or.inl rfl⟩

omit [DecidableEq ι] in
theorem Silent.not_returned (silent : Silent s) (u : ι) : ¬ s.Returned u := by
  rintro ⟨result, here⟩
  have before := silent.before u
  rw [here] at before
  simp at before

/-- A thread that goes on in the waits goes to sleep. -/
theorem Silent.sleeps (silent : Silent s) (step : waitStep asm M t s = some s') :
    ((s'.requests t).pc = .awaitProcessed ∨ (s'.requests t).pc = .awaitReady) ∧
      s'.st.traceReady = false ∧ s'.st.traceProcessed = false := by
  obtain ⟨unready, unprocessed, before⟩ := silent
  have before := before t
  cases waitStep_cases step with
  | sent => exact ⟨Or.inl (goto_self ..), unready, unprocessed⟩
  | early => exact ⟨Or.inr (goto_self ..), unready, unprocessed⟩
  | done _ _ processed | woken _ _ processed =>
    rw [unprocessed] at processed
    cases processed
  | claim _ _ _ _ ready | ready _ _ ready =>
    rw [unready] at ready
    cases ready
  | noPool here | pool here | offsets here | noOffsets here | resolve here | index here =>
    simp [here] at before

theorem Silent.next (silent : Silent s) {e : ServerEvent ι} (other : e ≠ .monitor)
    (step : s.next asm M e = some s') : Silent s' := by
  by_cases waits : ∃ u, e = .wait u
  · obtain ⟨u, rfl⟩ := waits
    obtain ⟨here, unready, unprocessed⟩ := silent.sleeps step
    refine ⟨unready, unprocessed, fun v => ?_⟩
    by_cases same : v = u
    · exact same ▸ Or.inr (Or.inr here)
    · rw [waitStep_others step same]
      exact silent.before v
  · have aside := aside_of_next (fun u equal => waits ⟨u, equal⟩) step
    refine ⟨(aside.ready other).trans silent.unready, aside.processed.trans silent.unprocessed,
      fun u => ?_⟩
    by_cases called : e = .call u
    · exact Or.inr (Or.inl (aside.called u called))
    · rw [aside.requests u called]
      exact silent.before u

end Silent

section Outcome

omit [DecidableEq ι] in
/-- Nobody has returned. -/
structure Unanswered (s : TraceServer ι) : Prop where
  unprocessed : s.st.traceProcessed = false
  noInstrs : s.st.traceInstrs = []
  none : ∀ u, ¬ s.Returned u

omit [DecidableEq ι] in
/-- The thread has failed, and nobody else has returned. -/
structure Starved (s : TraceServer ι) (t : ι) : Prop where
  abandoned : Abandoned s
  noInstrs : s.st.traceInstrs = []
  only : ∀ u, s.Returned u → u = t

omit [DecidableEq ι] in
/-- How far the threads have got: nobody has returned, one has failed, or the trace was
processed. -/
def Outcome (s : TraceServer ι) : Prop :=
  Unanswered s ∨ (∃ t, Starved s t) ∨ s.st.traceProcessed = true

omit [DecidableEq ι] in
theorem unanswered_start (varMap : PmemVarGuidMap) (file : Text) :
    Unanswered (start varMap file : TraceServer ι) := by
  refine ⟨rfl, rfl, ?_⟩
  rintro u ⟨result, here⟩
  cases here

/-- As long as the trace is not processed, `trace_instrs` stays as it is. -/
theorem instrs_kept (step : waitStep asm M t s = some s')
    (unprocessed : s'.st.traceProcessed = false) :
    s'.st.traceInstrs = s.st.traceInstrs := by
  cases waitStep_cases step with
  | index => cases unprocessed
  | _ => rfl

/-- A thread that fails starves the others. -/
theorem Unanswered.fails (unanswered : Unanswered s) (claimed : Claimed s)
    (fails : s.FailsNext (.wait t)) (step : s.next asm M (.wait t) = some s') : Starved s' t := by
  have abandoned := claimed.abandoned fails step
  refine ⟨abandoned, (instrs_kept step abandoned.unprocessed).trans unanswered.noInstrs, ?_⟩
  intro u returned
  by_contra other
  apply unanswered.none u
  rwa [Returned, ← waitStep_others step other]

theorem Unanswered.next (unanswered : Unanswered s) (claimed : Claimed s) {e : ServerEvent ι}
    (step : s.next asm M e = some s') : Outcome s' := by
  by_cases waits : ∃ u, e = .wait u
  · obtain ⟨u, rfl⟩ := waits
    have waited : waitStep asm M u s = some s' := step
    have stays : s'.st.traceProcessed = s.st.traceProcessed →
        (∀ result, (s'.requests u).pc ≠ .returned result) → Outcome s' := by
      intro processed goes
      have unprocessed := processed.trans unanswered.unprocessed
      refine Or.inl ⟨unprocessed, (instrs_kept waited unprocessed).trans unanswered.noInstrs, ?_⟩
      rintro v ⟨result, here⟩
      by_cases same : v = u
      · exact goes result (same ▸ here)
      · rw [waitStep_others waited same] at here
        exact unanswered.none v ⟨result, here⟩
    cases waitStep_move waited with
    | aside _ _ _ processed noFailure success =>
      refine stays processed fun result here => ?_
      cases result with
      | false => exact noFailure here
      | true =>
        have set := success here
        rw [unanswered.unprocessed] at set
        cases set
    | claims _ unprocessed after _ processed =>
      refine stays (processed.trans unprocessed.symm) fun result here => ?_
      rw [here] at after
      cases after
    | goesOn _ after _ processed =>
      refine stays processed fun result here => ?_
      rw [here] at after
      cases after
    | finishes _ _ _ processed => exact Or.inr (Or.inr processed)
    | fails exit => exact Or.inr (Or.inl ⟨u, unanswered.fails claimed exit step⟩)
  · have aside := aside_of_next (fun u equal => waits ⟨u, equal⟩) step
    exact Or.inl ⟨aside.processed.trans unanswered.unprocessed,
      aside.instrs.trans unanswered.noInstrs, fun u after => unanswered.none u (aside.returned after)⟩

theorem Starved.next (starved : Starved s t) {e : ServerEvent ι}
    (step : s.next asm M e = some s') : Starved s' t := by
  obtain ⟨abandoned, quiet⟩ := starved.abandoned.next step
  by_cases waits : ∃ u, e = .wait u
  · obtain ⟨u, rfl⟩ := waits
    have waited : waitStep asm M u s = some s' := step
    refine ⟨abandoned, (instrs_kept waited abandoned.unprocessed).trans starved.noInstrs, ?_⟩
    rintro v ⟨result, here⟩
    by_cases same : v = u
    · exact (quiet u result rfl (same ▸ here)).elim
    · rw [waitStep_others waited same] at here
      exact starved.only v ⟨result, here⟩
  · have aside := aside_of_next (fun u equal => waits ⟨u, equal⟩) step
    exact ⟨abandoned, aside.instrs.trans starved.noInstrs,
      fun u after => starved.only u (aside.returned after)⟩

theorem processed_kept {e : ServerEvent ι} (processed : s.st.traceProcessed = true)
    (step : s.next asm M e = some s') :
    s'.st.traceProcessed = true := by
  by_cases waits : ∃ u, e = .wait u
  · obtain ⟨u, rfl⟩ := waits
    cases waitStep_move step with
    | aside _ _ _ same | fails _ _ _ _ same | goesOn _ _ _ same => exact same.trans processed
    | claims _ unprocessed =>
      rw [processed] at unprocessed
      cases unprocessed
    | finishes _ _ _ set => exact set
  · have aside := aside_of_next (fun u equal => waits ⟨u, equal⟩) step
    exact aside.processed.trans processed

theorem Outcome.next (outcome : Outcome s) (claimed : Claimed s) {e : ServerEvent ι}
    (step : s.next asm M e = some s') : Outcome s' := by
  rcases outcome with unanswered | ⟨t, starved⟩ | processed
  · exact unanswered.next claimed step
  · exact Or.inr (Or.inl ⟨t, starved.next step⟩)
  · exact Or.inr (Or.inr (processed_kept processed step))

end Outcome

end TraceServer

section Untraced

/-- Between the two states nothing was handed over, reverted, re-executed or undone. -/
def Unmarked (w w' : World) : Prop := ∃ trace, w'.history = trace ++ w.history ∧ marks trace = []

theorem Unmarked.refl (w : World) : Unmarked w w := ⟨[], rfl, rfl⟩

theorem Unmarked.trans {w w₁ w₂ : World} (h : Unmarked w w₁) (h' : Unmarked w₁ w₂) :
    Unmarked w w₂ := by
  obtain ⟨trace, before, unmarked⟩ := h
  obtain ⟨trace', after, unmarked'⟩ := h'
  exact ⟨trace' ++ trace, by rw [after, before, List.append_assoc],
    by rw [marks_append, unmarked, unmarked', List.append_nil]⟩

theorem Unmarked.since {w w' : World} (h : Unmarked w w') : marks (w.since w') = [] := by
  obtain ⟨trace, before, unmarked⟩ := h
  rw [since_eq before, unmarked]

variable {ι : Type*} [DecidableEq ι] {env : Env} {fuel : Nat} {ret : Int} {w w' : World}

/-- Without a trace the loop over the slices has nothing to try. -/
theorem sliceItems_untraced (cLog : CheckpointLog) (pmemLibrary : PmemLibrary)
    (poolAddress : UInt64) (addressSeqNums : Multimap UInt64 Int) (slice : List ι)
    {st : SliceState} (pending : st.manyAddressSeq = []) (numbers : st.sliceSeqNumbers = [])
    {p : Progress} (run : sliceItems cLog env pmemLibrary poolAddress fuel [] addressSeqNums slice
      st = some p) : p.world = st.world := by
  induction slice generalizing st with
  | nil =>
    obtain rfl := Option.some.inj run
    rfl
  | cons depInst slice ih =>
    have many : manyReversion cLog env pmemLibrary poolAddress fuel st = some (.next st) :=
      if_neg (by simp [pending, batchReexecution])
    have idle : st.sliceSeqNumbers.length ≤ st.manyAddressSeq.length := by
      simp [pending, numbers]
    have direct := directReversion_skip cLog env pmemLibrary poolAddress (Or.inr idle)
    have item : sliceItem cLog env pmemLibrary poolAddress fuel [] addressSeqNums depInst st =
        some (.next { st with sliceSeqNumbers := [], manyAddressClear := false }) := by
      have step : sliceItem cLog env pmemLibrary poolAddress fuel [] addressSeqNums depInst st =
          andThen (manyReversion cLog env pmemLibrary poolAddress fuel st) fun st =>
            andThen (directReversion cLog env pmemLibrary poolAddress st) fun st =>
              some (.next { st with sliceSeqNumbers := [], manyAddressClear := false }) := rfl
      rw [step, many]
      simp only [andThen, direct]
    simp only [sliceItems, item, andThen] at run
    let after : SliceState := { st with sliceSeqNumbers := [], manyAddressClear := false }
    have rest : p.world = after.world := ih pending rfl run
    exact rest

theorem react_untraced {state : ReactorState ι} (untraced : state.addrTrace = [])
    (sliceMode : state.arckpt = false) (run : react env fuel state w = some (ret, w')) :
    Unmarked w w' := by
  by_cases loops : ∃ faultSlices pop cLog opened,
      ReachesLoops env state w faultSlices pop cLog opened
  · obtain ⟨faultSlices, pop, cLog, opened, reaches⟩ := loops
    obtain ⟨frame, p, rfl, looped⟩ := reaches.run_items sliceMode run
    rw [untraced] at looped
    have same := sliceItems_untraced cLog state.pmemLibrary state.poolAddress _ _ rfl rfl looped
    rw [same]
    exact frame.history
  · obtain ⟨ret', left, again, -, opened⟩ := react_ends fuel loops
    obtain rfl := (Prod.mk.inj (Option.some.inj (again.symm.trans run))).2
    rcases opened with rfl | ⟨pop, rfl⟩
    · exact .refl _
    · exact (openPool_frame env state.pmemLibrary w).history

end Untraced

/-- The graphs of the functions are there from the one successful computation on. -/
theorem DependencyState.funcDgMap_of_next {ι γ φ : Type*} [DecidableEq ι] {builder : γ → γ}
    {constructed : γ → φ} {s s' : DependencyState ι γ φ} {e : DependencyEvent ι γ}
    (step : s.next builder constructed e = some s') (without : s'.slicer.funcDgMap = none) :
    s.slicer.funcDgMap = none := by
  cases next_move step with
  | @finishes i cfg =>
    change (s.slicer.computeDependencies builder constructed cfg).2.funcDgMap = _ at without
    unfold DgSlicerState.computeDependencies at without
    split_ifs at without
    · exact without
    · cases cfg with
      | none => exact without
      | some dg => cases without
  | _ => exact without

namespace Service

variable {ι γ φ σ : Type*} {c : ServiceConfig γ φ σ}

theorem reactStage_untraced {st : TraceState} (untraced : st.traceInstrs = [])
    (sliceMode : c.arckpt = false) {faultInst : Instruction}
    {faultSlices : List (List Instruction)} {checkpoint : Option CheckpointLog} {ret : Int}
    {w w' : World}
    (stage : reactStage c st faultInst faultSlices checkpoint w = some (ret, w')) :
    Unmarked w w' := by
  rw [reactStage] at stage
  split_ifs at stage
  · have opening := (openPool_frame c.env c.pmemLibrary w).history
    split at stage
    · next opened =>
      obtain ⟨-, rfl⟩ := Prod.mk.inj (Option.some.inj stage)
      rw [opened] at opening
      exact opening
    · obtain ⟨state, built, run⟩ := Option.bind_eq_some_iff.mp stage
      have fields : state.addrTrace = [] ∧ state.arckpt = c.arckpt := by
        simp only [reactorState, untraced, List.mapM_nil, Option.pure_def, Option.bind_eq_bind,
          Option.bind_some, Option.bind_eq_some_iff, Option.some.injEq] at built
        obtain ⟨-, -, -, -, -, -, rfl⟩ := built
        exact ⟨rfl, rfl⟩
      exact react_untraced fields.1 (fields.2.trans sliceMode) run
  · obtain ⟨-, rfl⟩ := Prod.mk.inj (Option.some.inj stage)
    exact .refl _

variable [DecidableEq ι] {s s' : Service ι γ φ σ} {e : ServiceEvent ι γ}

section Views

/-- What an event does to the trace. -/
inductive TraceMove (c : ServiceConfig γ φ σ) (s s' : Service ι γ φ σ) : Prop where
  | kept (same : s'.trace = s.trace)
  | prepared (varMap : PmemVarGuidMap) (same : s'.trace =
      { s.trace with st := { s.trace.st with varMap := varMap } })
  | steps (e : ServerEvent (Option ι)) (step : s.trace.next c.asm c.sysModule e = some s'.trace)
      (monitors : e = .monitor → s.background.monitors = true)
      (calls : ∀ i, e = .call (some i) → s.handlers i = .idle)

theorem Move.trace (move : Move c s e s') : TraceMove c s s' := by
  cases move with
  | writes _ writer step =>
    rcases writer with ⟨chunk, rfl⟩ | ⟨size, rfl⟩
    · exact .steps _ step (by simp) (by simp)
    · exact .steps _ step (by simp) (by simp)
  | monitors started step => exact .steps .monitor step (fun _ => started) (by simp)
  | waits step => exact .steps _ step (by simp) (by simp)
  | prepares varMap => exact .prepared varMap rfl
  | awaits _ step => exact .steps _ step (by simp) (by simp)
  | requests request here step =>
    refine .steps _ step (by simp) fun j equal => ?_
    cases equal
    exact here
  | gives => exact .kept (by simp [reply, answer, goto])
  | reacts => exact .kept (by unfold reply; split <;> rfl)
  | _ => exact .kept rfl

/-- What an event does to the computation of the dependences. -/
theorem Move.dependencies (move : Move c s e s') : s'.dependencies = s.dependencies ∨
    ∃ d, s.dependencies.next c.builder c.constructed d = some s'.dependencies := by
  cases move with
  | computes _ step | asks _ _ step => exact Or.inr ⟨_, step⟩
  | calls _ step => exact Or.inr ⟨.call _, step⟩
  | learns _ step => exact Or.inr ⟨.step _, step⟩
  | gives _ _ kept => exact kept.imp id fun step => ⟨.step _, step⟩
  | reacts => exact Or.inl (by unfold reply; split <;> rfl)
  | _ => exact Or.inl rfl

/-- What an event does to the handlers, their answers and the pool. -/
inductive HandlerMove (c : ServiceConfig γ φ σ) (s s' : Service ι γ φ σ) : Prop where
  | kept (handlers : s'.handlers = s.handlers) (answers : s'.answers = s.answers)
      (world : s'.world = s.world)
  | waits (i : ι) (here : s.handlers i = .idle)
      (handlers : s'.handlers = Function.update s.handlers i .waiting)
      (answers : s'.answers = s.answers) (world : s'.world = s.world)
  | goes (i : ι) (pc : HandlerPc) (later : pc ≠ .answered) (unanswered : s.handlers i ≠ .answered)
      (returned : (s.handlers i).early = false ∨ s.trace.Returned (some i))
      (graphs : ∀ faultInst faultSlices, pc = .reacting faultInst faultSlices →
        s.dependencies.slicer.funcDgMap ≠ none)
      (handlers : s'.handlers = Function.update s.handlers i pc)
      (answers : s'.answers = s.answers) (world : s'.world = s.world)
      (trace : s'.trace = s.trace)
  | answers (i : ι) (answer : ReactAnswer) (here : (s.handlers i).early = false)
      (unanswered : s.handlers i ≠ .answered)
      (handlers : s'.handlers = Function.update s.handlers i .answered)
      (answers : s'.answers = s.answers ++ [(i, answer)])
      (status : answer.status = .ok ∨ s.ready = false)
      (world : s'.world = s.world ∧ answer.reply.success = false ∨
        ∃ faultInst faultSlices checkpoint ret,
          s.handlers i = .reacting faultInst faultSlices ∧
          reactStage c s.trace.st faultInst faultSlices checkpoint s.world = some (ret, s'.world))
      (trace : s'.trace = s.trace)

theorem Move.handlers (move : Move c s e s') : HandlerMove c s s' := by
  cases move with
  | requests request here => exact .waits _ here rfl rfl rfl
  | passes here returned =>
    exact .goes _ .waited (by simp) (by simp [here]) (Or.inr ⟨_, returned⟩) (by simp) rfl rfl rfl rfl
  | admits here =>
    exact .goes _ .locating (by simp) (by simp [here]) (Or.inl (by rw [here]; rfl)) (by simp) rfl rfl
      rfl rfl
  | @calls _ faultInst _ here =>
    exact .goes _ (.computing faultInst) (by simp) (by simp [here]) (Or.inl (by rw [here]; rfl))
      (by simp) rfl rfl rfl rfl
  | @learns _ faultInst _ here =>
    exact .goes _ (.slicing faultInst) (by simp) (by simp [here]) (Or.inl (by rw [here]; rfl))
      (by simp) rfl rfl rfl rfl
  | @slices _ faultInst faultSlices _ here graphs =>
    exact .goes _ (.reacting faultInst faultSlices) (by simp) (by simp [here])
      (Or.inl (by rw [here]; rfl)) (fun _ _ _ => graphs) rfl rfl rfl rfl
  | cancels here unready =>
    exact .answers _ (.failure .cancelled) (by rw [here]; rfl) (by simp [here]) rfl rfl
      (Or.inr unready) (Or.inl ⟨rfl, rfl⟩) rfl
  | gives here unanswered =>
    exact .answers _ (.failure .ok) here unanswered rfl rfl (Or.inl rfl) (Or.inl ⟨rfl, rfl⟩) rfl
  | @reacts i faultInst faultSlices checkpoint ret w here stage =>
    have early : (s.handlers i).early = false := by rw [here]; rfl
    have unanswered : s.handlers i ≠ .answered := by simp [here]
    cases success : toBool ret with
    | true =>
      exact .answers _ ⟨.ok, true, none⟩ early unanswered rfl rfl (Or.inl rfl)
        (Or.inr ⟨faultInst, faultSlices, checkpoint, ret, here, stage⟩) rfl
    | false =>
      exact .answers _ (.failure .ok) early unanswered rfl rfl (Or.inl rfl)
        (Or.inr ⟨faultInst, faultSlices, checkpoint, ret, here, stage⟩) rfl
  | _ => exact .kept rfl rfl rfl

end Views

section Sound

/-- `ready` has been set. -/
def announced : BackgroundPc → Bool
  | .preparing | .prepared => false
  | .serving | .monitoring | .computing | .computed | .waiting | .done => true

/-- What holds in every state of the server that was started with the pool as in `w`. -/
structure Sound (c : ServiceConfig γ φ σ) (w : World) (s : Service ι γ φ σ) : Prop where
  claimed : s.trace.Claimed
  outcome : s.trace.Outcome
  once : s.dependencies.Once
  ready : s.ready = announced s.background
  untouched : s.ready = false → s.world = w
  silent : s.background.monitors = false → s.trace.Silent
  returned : ∀ i, (s.handlers i).early = false → s.trace.Returned (some i)
  answered : ∀ a ∈ s.answers, s.handlers a.1 = .answered
  nodup : (s.answers.map Prod.fst).Nodup
  status : ∀ a ∈ s.answers, a.2.status = .ok
  graphless : s.dependencies.slicer.funcDgMap = none → s.world = w ∧
    (∀ a ∈ s.answers, a.2.reply.success = false) ∧
      ∀ i faultInst faultSlices, s.handlers i ≠ .reacting faultInst faultSlices
  unmarked : c.arckpt = false → s.trace.st.traceProcessed = false → Unmarked w s.world

omit [DecidableEq ι] in
theorem sound_start (file : Text) (slicing : σ) (w : World) :
    Sound c w (start file slicing w : Service ι γ φ σ) where
  claimed := TraceServer.claimed_start _ _
  outcome := Or.inl (TraceServer.unanswered_start _ _)
  once := DependencyState.once_start
  ready := rfl
  untouched _ := rfl
  silent _ := TraceServer.silent_start _ _
  returned _ later := by cases later
  answered _ member := by cases member
  nodup := List.nodup_nil
  status _ member := by cases member
  graphless _ := by simp [start]
  unmarked _ _ := .refl w

variable {w : World}

namespace Sound

theorem next_claimed (sound : Sound c w s) (move : Move c s e s') :
    s'.trace.Claimed ∧ s'.trace.Outcome := by
  cases move.trace with
  | kept same => exact same ▸ ⟨sound.claimed, sound.outcome⟩
  | prepared varMap same =>
    have claimed := sound.claimed
    have outcome := sound.outcome
    rw [same]
    refine ⟨⟨claimed.1, claimed.2, claimed.3⟩, ?_⟩
    rcases outcome with ⟨unprocessed, noInstrs, none⟩ | ⟨t, ⟨abandoned, noInstrs, only⟩⟩ | processed
    · exact Or.inl ⟨unprocessed, noInstrs, none⟩
    · exact Or.inr (Or.inl ⟨t, ⟨abandoned.1, abandoned.2, abandoned.3⟩, noInstrs, only⟩)
    · exact Or.inr (Or.inr processed)
  | steps e step => exact ⟨sound.claimed.next step, sound.outcome.next sound.claimed step⟩

theorem next_once (sound : Sound c w s) (move : Move c s e s') : s'.dependencies.Once := by
  rcases move.dependencies with same | ⟨d, step⟩
  · exact same ▸ sound.once
  · exact sound.once.next (DependencyState.next_move step)

/-- The background job goes on, and sets `ready` on its way. -/
theorem next_ready (sound : Sound c w s) (move : Move c s e s') :
    s'.ready = announced s'.background ∧ (s'.ready = false → s.ready = false) ∧
      (s'.background.monitors = false → s.background.monitors = false) := by
  have ready := sound.ready
  cases move with
  | prepares _ here =>
    rw [here] at ready
    exact ⟨ready, id, fun _ => by rw [here]; rfl⟩
  | readies here => exact ⟨rfl, fun unready => (by cases unready), fun _ => by rw [here]; rfl⟩
  | starts here =>
    rw [here] at ready
    exact ⟨ready, id, fun absurd => by cases absurd⟩
  | @asks pc _ _ before after =>
    have set : ∀ pc : BackgroundPc, pc.monitors = true → announced pc = true := by
      intro pc monitors
      cases pc <;> first | rfl | cases monitors
    refine ⟨?_, id, fun absurd => ?_⟩
    · rw [set pc after]
      exact ready.trans (set _ before)
    · rw [after] at absurd
      cases absurd
  | awaits here =>
    rw [here] at ready
    exact ⟨ready, id, fun absurd => by cases absurd⟩
  | ends here =>
    rw [here] at ready
    exact ⟨ready, id, fun absurd => by cases absurd⟩
  | gives => exact ⟨ready, id, id⟩
  | reacts =>
    unfold reply
    split <;> exact ⟨ready, id, id⟩
  | _ => exact ⟨ready, id, id⟩

theorem next_silent (sound : Sound c w s) (move : Move c s e s')
    (unmonitored : s'.background.monitors = false) : s'.trace.Silent := by
  have before := (sound.next_ready move).2.2 unmonitored
  have silent := sound.silent before
  cases move.trace with
  | kept same => exact same ▸ silent
  | prepared varMap same =>
    rw [same]
    exact ⟨silent.1, silent.2, silent.3⟩
  | steps e step monitors =>
    refine silent.next (fun equal => ?_) step
    have started := monitors equal
    rw [before] at started
    cases started

theorem next_returned (sound : Sound c w s) (move : Move c s e s') (i : ι)
    (later : (s'.handlers i).early = false) : s'.trace.Returned (some i) := by
  have kept : (s.handlers i).early = false → s'.trace.Returned (some i) := by
    intro before
    have returned := sound.returned i before
    cases move.trace with
    | kept same => exact same ▸ returned
    | prepared varMap same =>
      rw [same]
      exact returned
    | steps d step _ calls =>
      refine returned.next (fun again => ?_) step
      rw [calls i again] at before
      cases before
  cases move.handlers with
  | kept handlers => exact kept (handlers ▸ later)
  | waits j here handlers =>
    rw [handlers] at later
    by_cases same : i = j
    · rw [same, Function.update_self] at later
      cases later
    · rw [Function.update_of_ne same] at later
      exact kept later
  | goes j pc _ _ returned _ handlers _ _ trace =>
    by_cases same : i = j
    · subst same
      rcases returned with before | returned
      · exact kept before
      · exact trace ▸ returned
    · rw [handlers, Function.update_of_ne same] at later
      exact kept later
  | answers j answer here _ handlers =>
    by_cases same : i = j
    · exact kept (same ▸ here)
    · rw [handlers, Function.update_of_ne same] at later
      exact kept later

/-- An answer is the last thing that a handler does. -/
theorem next_answered (sound : Sound c w s) (move : Move c s e s') :
    (∀ a ∈ s'.answers, s'.handlers a.1 = .answered) ∧ (s'.answers.map Prod.fst).Nodup := by
  have others : ∀ (j : ι) (pc : HandlerPc), s.handlers j ≠ .answered → ∀ a ∈ s.answers,
      Function.update s.handlers j pc a.1 = .answered := by
    intro j pc unanswered a member
    have done := sound.answered a member
    have other : a.1 ≠ j := fun same => unanswered (same ▸ done)
    rwa [Function.update_of_ne other]
  cases move.handlers with
  | kept handlers answers =>
    rw [handlers, answers]
    exact ⟨sound.answered, sound.nodup⟩
  | waits j here handlers answers =>
    rw [handlers, answers]
    exact ⟨others j _ (by simp [here]), sound.nodup⟩
  | goes j pc _ unanswered _ _ handlers answers =>
    rw [handlers, answers]
    exact ⟨others j pc unanswered, sound.nodup⟩
  | answers j answer _ unanswered handlers answers =>
    rw [handlers, answers]
    constructor
    · intro a member
      rcases List.mem_append.mp member with old | new
      · exact others j _ unanswered a old
      · obtain rfl := List.mem_singleton.mp new
        exact Function.update_self ..
    · rw [List.map_append]
      refine List.nodup_append.mpr ⟨sound.nodup, List.nodup_singleton _, ?_⟩
      intro k old k' new same
      obtain ⟨a, member, rfl⟩ := List.mem_map.mp old
      rw [List.map_singleton, List.mem_singleton] at new
      have here : a.1 = j := same.trans new
      exact unanswered (here ▸ sound.answered a member)

omit [DecidableEq ι] in
/-- A handler that has waited finds the reactor ready. -/
theorem ready_of_later (sound : Sound c w s) {i : ι} (later : (s.handlers i).early = false) :
    s.ready = true := by
  rw [sound.ready]
  cases monitors : s.background.monitors with
  | false => exact ((sound.silent monitors).not_returned _ (sound.returned i later)).elim
  | true =>
    cases here : s.background <;> first | rfl | (rw [here] at monitors; cases monitors)

theorem next_untouched (sound : Sound c w s) (move : Move c s e s') (unready : s'.ready = false) :
    s'.world = w := by
  have before := (sound.next_ready move).2.1 unready
  have untouched := sound.untouched before
  cases move.handlers with
  | kept _ _ same => exact same.trans untouched
  | waits _ _ _ _ same => exact same.trans untouched
  | goes _ _ _ _ _ _ _ _ same => exact same.trans untouched
  | answers _ _ here =>
    have ready := sound.ready_of_later here
    rw [before] at ready
    cases ready

theorem next_status (sound : Sound c w s) (move : Move c s e s') :
    ∀ a ∈ s'.answers, a.2.status = .ok := by
  cases move.handlers with
  | kept _ answers => exact answers ▸ sound.status
  | waits _ _ _ answers => exact answers ▸ sound.status
  | goes _ _ _ _ _ _ _ answers => exact answers ▸ sound.status
  | answers i answer here _ _ answers status =>
    rw [answers]
    intro a member
    rcases List.mem_append.mp member with old | new
    · exact sound.status a old
    · obtain rfl := List.mem_singleton.mp new
      refine status.resolve_right fun unready => ?_
      rw [sound.ready_of_later here] at unready
      cases unready

/-- Without the graphs of the functions no handler gets as far as the pool. -/
theorem next_graphless (sound : Sound c w s) (move : Move c s e s')
    (without : s'.dependencies.slicer.funcDgMap = none) : s'.world = w ∧
      (∀ a ∈ s'.answers, a.2.reply.success = false) ∧
        ∀ i faultInst faultSlices, s'.handlers i ≠ .reacting faultInst faultSlices := by
  have before : s.dependencies.slicer.funcDgMap = none := by
    rcases move.dependencies with same | ⟨d, step⟩
    · exact same ▸ without
    · exact DependencyState.funcDgMap_of_next step without
  obtain ⟨world, failures, notReacting⟩ := sound.graphless before
  have others : ∀ (j : ι) (pc : HandlerPc),
      (∀ faultInst faultSlices, pc ≠ .reacting faultInst faultSlices) →
      ∀ i faultInst faultSlices,
        Function.update s.handlers j pc i ≠ .reacting faultInst faultSlices := by
    intro j pc different i
    by_cases same : i = j
    · subst same
      rwa [Function.update_self]
    · rw [Function.update_of_ne same]
      exact notReacting i
  cases move.handlers with
  | kept handlers answers same =>
    exact ⟨same.trans world, answers ▸ failures, handlers ▸ notReacting⟩
  | waits j _ handlers answers same =>
    exact ⟨same.trans world, answers ▸ failures, handlers ▸ others j _ (by simp)⟩
  | goes j pc _ _ _ graphs handlers answers same =>
    exact ⟨same.trans world, answers ▸ failures, handlers ▸ others j pc fun faultInst faultSlices
      equal => graphs faultInst faultSlices equal before⟩
  | answers j answer _ _ handlers answers _ ends =>
    rcases ends with ⟨same, failure⟩ | ⟨faultInst, faultSlices, -, -, reacting, -⟩
    · refine ⟨same.trans world, ?_, handlers ▸ others j _ (by simp)⟩
      rw [answers]
      intro a member
      rcases List.mem_append.mp member with old | new
      · exact failures a old
      · obtain rfl := List.mem_singleton.mp new
        exact failure
    · exact (notReacting j faultInst faultSlices reacting).elim

/-- While the trace is not processed there is nothing to revert. -/
theorem next_unmarked (sound : Sound c w s) (move : Move c s e s') (sliceMode : c.arckpt = false)
    (unprocessed : s'.trace.st.traceProcessed = false) : Unmarked w s'.world := by
  have before : s.trace.st.traceProcessed = false := by
    cases move.trace with
    | kept same => exact same ▸ unprocessed
    | prepared varMap same =>
      rw [same] at unprocessed
      exact unprocessed
    | steps d step =>
      by_contra processed
      rw [TraceServer.processed_kept ((Bool.not_eq_false _).mp processed) step] at unprocessed
      cases unprocessed
  have unmarked := sound.unmarked sliceMode before
  have noInstrs : s.trace.st.traceInstrs = [] := by
    rcases sound.outcome with unanswered | ⟨t, starved⟩ | processed
    · exact unanswered.noInstrs
    · exact starved.noInstrs
    · rw [before] at processed
      cases processed
  cases move.handlers with
  | kept _ _ same => exact same ▸ unmarked
  | waits _ _ _ _ same => exact same ▸ unmarked
  | goes _ _ _ _ _ _ _ _ same => exact same ▸ unmarked
  | answers _ _ _ _ _ _ _ ends =>
    rcases ends with ⟨same, -⟩ | ⟨_, _, _, _, -, stage⟩
    · exact same ▸ unmarked
    · exact unmarked.trans (reactStage_untraced noInstrs sliceMode stage)

theorem next (sound : Sound c w s) (move : Move c s e s') : Sound c w s' where
  claimed := (sound.next_claimed move).1
  outcome := (sound.next_claimed move).2
  once := sound.next_once move
  ready := (sound.next_ready move).1
  untouched := sound.next_untouched move
  silent := sound.next_silent move
  returned := sound.next_returned move
  answered := (sound.next_answered move).1
  nodup := (sound.next_answered move).2
  status := sound.next_status move
  graphless := sound.next_graphless move
  unmarked := sound.next_unmarked move

theorem play (sound : Sound c w s) {log : List (ServiceEvent ι γ)}
    (played : s.play c log = some s') : Sound c w s' := by
  induction log generalizing s with
  | nil =>
    cases played
    exact sound
  | cons e log ih =>
    obtain ⟨s₁, step, rest⟩ := Option.bind_eq_some_iff.mp played
    exact ih (sound.next (next_move step)) rest

end Sound

end Sound

section Runs

/-- A thread is about to report that the trace has no pool, or that the offsets cannot be
calculated. -/
def FailsNext (s : Service ι γ φ σ) (e : ServiceEvent ι γ) : Prop :=
  ∃ t, e = .wait t ∧ s.trace.FailsNext (.wait t)

variable {file : Text} {slicing : σ} {w : World} {log : List (ServiceEvent ι γ)}
  {s₁ s₂ : Service ι γ φ σ}

/-- No request is ever told that the reactor is not ready: nobody gets past the wait for the
trace before the monitor runs. So a client that gets an answer takes it for what it is, and until
the server is ready nothing happens to the pool. -/
theorem never_cancelled (played : (start file slicing w).play c log = some s) :
    (∀ a ∈ s.answers, a.2.status = .ok ∧ clientReact (some a.2) = a.2.reply.success) ∧
      (s.ready = false → s.answers = [] ∧ s.world = w ∧ ∀ i, (s.handlers i).early = true) := by
  have sound := (sound_start (c := c) file slicing w).play played
  refine ⟨fun a member => ?_, fun unready => ?_⟩
  · have ok := sound.status a member
    obtain ⟨i, status, reply⟩ := a
    obtain rfl : status = .ok := ok
    exact ⟨rfl, rfl⟩
  · have early : ∀ i, (s.handlers i).early = true := by
      intro i
      by_contra later
      rw [sound.ready_of_later ((Bool.not_eq_true _).mp later)] at unready
      cases unready
    refine ⟨List.eq_nil_iff_forall_not_mem.mpr fun a member => ?_, sound.untouched unready, early⟩
    have still := early a.1
    rw [sound.answered a member] at still
    cases still

theorem starved_play {t : Option ι} (starved : s.trace.Starved t)
    (played : s.play c log = some s') : s'.trace.Starved t := by
  induction log generalizing s with
  | nil =>
    cases played
    exact starved
  | cons e log ih =>
    obtain ⟨s₁, step, rest⟩ := Option.bind_eq_some_iff.mp played
    refine ih ?_ rest
    cases (next_move step).trace with
    | kept same => exact same ▸ starved
    | prepared varMap same =>
      obtain ⟨⟨processing, unprocessed, noWorker⟩, noInstrs, only⟩ := starved
      rw [same]
      exact ⟨⟨processing, unprocessed, noWorker⟩, noInstrs, only⟩
    | steps d step => exact starved.next step

/-- Where a thread fails, nobody has returned before. -/
theorem Sound.starved (sound : Sound c w s) {t : Option ι} (fails : s.trace.FailsNext (.wait t))
    (step : s.next c (.wait t) = some s') : s'.trace.Starved t := by
  cases next_move step with
  | waits moved =>
    rcases sound.outcome with unanswered | ⟨u, starved⟩ | processed
    · exact unanswered.fails sound.claimed fails moved
    all_goals
      have works : (s.trace.requests t).pc.works = true := by
        rcases fails with ⟨here, -⟩ | ⟨here, -⟩ <;> rw [here] <;> rfl
    · rw [starved.abandoned.noWorker t] at works
      cases works
    · rw [sound.claimed.unprocessed t works] at processed
      cases processed
  | writes other | computes other => exact (other t rfl).elim

/-- Once a thread has failed to prepare the trace, the server answers no request but the one
that failed, and in slice mode it never touches the pool. -/
theorem failure_starves (played : (start file slicing w).play c log = some s₁)
    (fails : s₁.FailsNext e) (step : s₁.next c e = some s₂) {later : List (ServiceEvent ι γ)}
    (rest : s₂.play c later = some s) :
    ∃ t, e = .wait t ∧ (∀ a ∈ s.answers, some a.1 = t) ∧ s.answers.length ≤ 1 ∧
      (c.arckpt = false → marks (w.since s.world) = []) := by
  obtain ⟨t, rfl, fails⟩ := fails
  have before := (sound_start (c := c) file slicing w).play played
  have sound := (before.next (next_move step)).play rest
  have starved := starved_play (before.starved fails step) rest
  have only : ∀ a ∈ s.answers, some a.1 = t := by
    intro a member
    apply starved.only
    apply sound.returned
    rw [sound.answered a member]
    rfl
  refine ⟨t, rfl, only, ?_, fun sliceMode =>
    (sound.unmarked sliceMode starved.abandoned.unprocessed).since⟩
  have same : ∀ a ∈ s.answers, ∀ b ∈ s.answers, a.1 = b.1 := fun a ha b hb =>
    Option.some.inj ((only a ha).trans (only b hb).symm)
  have nodup := sound.nodup
  match answered : s.answers with
  | [] => exact Nat.zero_le _
  | [a] => exact le_rfl
  | a :: b :: rest =>
    rw [answered] at nodup same
    have twice : a.1 = b.1 := same a List.mem_cons_self b (by simp)
    simp [twice] at nodup

/-- A computation of the dependences that has failed stays the only one. -/
theorem failed_play (once : s.dependencies.Once) (failed : s.dependencies.finished = [false])
    (played : s.play c log = some s') : s'.dependencies.finished = [false] := by
  induction log generalizing s with
  | nil =>
    cases played
    exact failed
  | cons e log ih =>
    obtain ⟨s₁, step, rest⟩ := Option.bind_eq_some_iff.mp played
    rcases (next_move step).dependencies with same | ⟨d, step⟩
    · exact ih (same ▸ once) (same ▸ failed) rest
    · have move := DependencyState.next_move step
      refine ih (once.next move) ?_ rest
      rcases move.finished with kept | computing
      · exact kept.trans failed
      · have none := (once.fits_at computing).2.2
        rw [failed] at none
        cases none

/-- After a computation of the dependences that has failed the server leaves the pool alone and
fails every request, though it tells the callers of `compute_dependencies` otherwise. -/
theorem failed_graphs_silence (played : (start file slicing w).play c log = some s₁)
    (failed : s₁.dependencies.finished = [false]) {later : List (ServiceEvent ι γ)}
    (rest : s₁.play c later = some s) :
    s.world = w ∧ ∀ a ∈ s.answers, a.2.status = .ok ∧ a.2.reply.success = false := by
  have before := (sound_start (c := c) file slicing w).play played
  have sound := before.play rest
  have still := failed_play before.once failed rest
  have unset : s.dependencies.slicer.dependencyComputed = false := by
    rw [← Bool.not_eq_true, sound.once.slicer, still]
    simp
  obtain ⟨world, failures, -⟩ := sound.graphless (sound.once.noGraph unset).2
  exact ⟨world, fun a member => ⟨sound.status a member, failures a member⟩⟩

end Runs

section Examples

/-- A server for a module without functions, where nothing is mapped. -/
def sampleConfig : ServiceConfig Unit Unit Unit where
  asm := .unary
  sysModule := TraceServer.noFunctions
  optionsOk := true
  hookGuidFile := some []
  addressFile := none
  pmemFile := true
  pmemLibrary := .libpmemobj
  arckpt := false
  env := failingEnv
  fuel := 3
  builder := id
  constructed := id
  slice _ _ _ := none

/-- The trace has a line, but no pool. -/
def sampleService : Service Unit Unit Unit Unit := .start "0x18,201\n".toList () pairWorld

/-- The server gets ready, reads the trace and fails to compute the dependences; a request comes
and is about to find that there is no pool. -/
def gettingReady : List (ServiceEvent Unit Unit) :=
  let job : List (ServiceEvent Unit Unit) :=
    [.background, .compute none, .compute none, .finish none none]
  let waiting : List (ServiceEvent Unit Unit) :=
    [.request () ⟨"a.c:1".toList, []⟩, .wait (some ())]
  List.replicate 3 ServiceEvent.background ++ List.replicate 8 ServiceEvent.monitor ++ job ++
    waiting

/-- The request does not look at what the wait returned. -/
def goingOn : List (ServiceEvent Unit Unit) := List.replicate 3 (.handle ())

theorem sampleService_run : ∃ s₁ s₂ s, sampleService.play sampleConfig gettingReady = some s₁ ∧
    s₁.FailsNext (.wait (some ())) ∧ s₁.dependencies.finished = [false] ∧
    s₁.next sampleConfig (.wait (some ())) = some s₂ ∧ s₂.play sampleConfig goingOn = some s ∧
    s.answers = [((), .failure .ok)] := by
  have last : ((sampleService.play sampleConfig gettingReady).bind fun s₁ =>
      (s₁.next sampleConfig (.wait (some ()))).bind fun s₂ =>
        (s₂.play sampleConfig goingOn).map fun s =>
          ((s₁.trace.requests (some ())).pc, s₁.trace.st.addrTrace.poolEmpty,
            s₁.dependencies.finished, s.answers)) =
      some (.checkPool, true, [false], [((), .failure .ok)]) := by
    decide
  obtain ⟨s₁, first, last⟩ := Option.bind_eq_some_iff.mp last
  obtain ⟨s₂, second, last⟩ := Option.bind_eq_some_iff.mp last
  obtain ⟨s, third, facts⟩ := Option.map_eq_some_iff.mp last
  simp only [Prod.mk.injEq] at facts
  obtain ⟨here, empty, finished, answers⟩ := facts
  exact ⟨s₁, s₂, s, first, ⟨some (), rfl, Or.inl ⟨here, empty⟩⟩, finished, second, third, answers⟩

theorem never_cancelled_sample : ∃ s : Service Unit Unit Unit Unit,
    s.answers = [((), .failure .ok)] ∧
      (∀ a ∈ s.answers, a.2.status = .ok ∧ clientReact (some a.2) = a.2.reply.success) ∧
        (s.ready = false → s.answers = [] ∧ s.world = pairWorld ∧
          ∀ i, (s.handlers i).early = true) := by
  obtain ⟨s₁, s₂, s, first, -, -, second, third, answers⟩ := sampleService_run
  have whole : sampleService.play sampleConfig
      (gettingReady ++ .wait (some ()) :: goingOn) = some s := by
    rw [play, List.foldlM_append]
    exact Option.bind_eq_some_iff.mpr ⟨s₁, first, Option.bind_eq_some_iff.mpr ⟨s₂, second, third⟩⟩
  exact ⟨s, answers, never_cancelled whole⟩

theorem failure_starves_sample : ∃ s : Service Unit Unit Unit Unit, ∃ t : Option Unit,
    (ServiceEvent.wait (some ()) : ServiceEvent Unit Unit) = .wait t ∧
      (∀ a ∈ s.answers, some a.1 = t) ∧ s.answers.length ≤ 1 ∧
        (sampleConfig.arckpt = false → marks (pairWorld.since s.world) = []) := by
  obtain ⟨s₁, s₂, s, first, fails, -, second, third, -⟩ := sampleService_run
  exact ⟨s, failure_starves first fails second third⟩

theorem failed_graphs_silence_sample : ∃ s : Service Unit Unit Unit Unit,
    s.answers = [((), .failure .ok)] ∧ s.world = pairWorld ∧
      ∀ a ∈ s.answers, a.2.status = .ok ∧ a.2.reply.success = false := by
  obtain ⟨s₁, s₂, s, first, -, failed, second, third, answers⟩ := sampleService_run
  have rest : s₁.play sampleConfig (.wait (some ()) :: goingOn) = some s :=
    Option.bind_eq_some_iff.mpr ⟨s₂, second, third⟩
  exact ⟨s, answers, failed_graphs_silence first failed rest⟩

end Examples

end Service

end Arthas.Reactor
