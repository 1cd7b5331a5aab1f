import Mathlib
import Arthas.Reactor.TraceReady

/-!
When the preparation of the trace can be tried again: the flag that a request sets when it
begins with the processing is reset only where the processing succeeds.
-/

set_option autoImplicit false
set_option relaxedAutoImplicit false

namespace Arthas.Reactor

open Arthas.Lib Arthas.Utils Arthas.Matcher Arthas.Instrument

namespace TraceServer

variable {ι : Type*} [DecidableEq ι] {s s' : TraceServer ι} {i : ι}
variable {asm : AsmWriter} {M : Module}

/-- Some request is between the claim of the processing and its end. -/
def Owned (s : TraceServer ι) : Prop := ∃ i, (s.requests i).pc.works = true

/-- The next step of the request is one of the two exits that report a failure: no pool was
found, or the offsets cannot be calculated. -/
def FailsNext (s : TraceServer ι) : ServerEvent ι → Prop
  | .wait i =>
    (s.requests i).pc = .checkPool ∧ s.st.addrTrace.poolEmpty = true ∨
      (s.requests i).pc = .offsets ∧ s.st.addrTrace.calculatePoolOffsets.1 = false
  | _ => False

section Moves

/-- What a step of request `i` does to the claim of the processing. -/
inductive WaitMove (s s' : TraceServer ι) (i : ι) : Prop where
  | aside (before : (s.requests i).pc.works = false) (after : (s'.requests i).pc.works = false)
      (processing : s'.st.processingTrace = s.st.processingTrace)
      (processed : s'.st.traceProcessed = s.st.traceProcessed)
      (noFailure : (s'.requests i).pc ≠ .returned false)
      (success : (s'.requests i).pc = .returned true → s.st.traceProcessed = true)
      (sent : (s'.requests i).pc = .awaitProcessed → s.st.processingTrace = true)
  | claims (unclaimed : s.st.processingTrace = false) (unprocessed : s.st.traceProcessed = false)
      (after : (s'.requests i).pc.works = true) (processing : s'.st.processingTrace = true)
      (processed : s'.st.traceProcessed = false)
  | goesOn (before : (s.requests i).pc.works = true) (after : (s'.requests i).pc.works = true)
      (processing : s'.st.processingTrace = s.st.processingTrace)
      (processed : s'.st.traceProcessed = s.st.traceProcessed)
  | finishes (before : (s.requests i).pc.works = true)
      (after : (s'.requests i).pc = .returned true) (processing : s'.st.processingTrace = false)
      (processed : s'.st.traceProcessed = true)
  | fails (exit : s.FailsNext (.wait i)) (before : (s.requests i).pc.works = true)
      (after : (s'.requests i).pc = .returned false)
      (processing : s'.st.processingTrace = s.st.processingTrace)
      (processed : s'.st.traceProcessed = s.st.traceProcessed)

theorem waitStep_others (step : waitStep asm M i s = some s') {j : ι} (different : j ≠ i) :
    s'.requests j = s.requests j := by
  cases waitStep_cases step <;> exact goto_other _ _ different

theorem waitStep_move (step : waitStep asm M i s = some s') : WaitMove s s' i := by
  cases waitStep_cases step with
  | done here _ processed | woken here _ processed =>
    exact .aside (by rw [here]; rfl) (by rw [goto_self]; rfl) rfl rfl (by simp [goto_self])
      (fun _ => processed) (by simp [goto_self])
  | sent here _ _ claimed =>
    exact .aside (by rw [here]; rfl) (by rw [goto_self]; rfl) rfl rfl (by simp [goto_self])
      (by simp [goto_self]) (fun _ => claimed)
  | claim _ _ unprocessed unclaimed | early _ _ unprocessed unclaimed =>
    exact .claims unclaimed unprocessed (by rw [goto_self]; rfl) rfl unprocessed
  | ready here | pool here | offsets here | resolve here =>
    exact .goesOn (by rw [here]; rfl) (by rw [goto_self]; rfl) rfl rfl
  | noPool here empty =>
    exact .fails (Or.inl ⟨here, empty⟩) (by rw [here]; rfl) (goto_self ..) rfl rfl
  | noOffsets here failed =>
    exact .fails (Or.inr ⟨here, failed⟩) (by rw [here]; rfl) (goto_self ..) rfl rfl
  | index here => exact .finishes (by rw [here]; rfl) (goto_self ..) rfl rfl

end Moves

section Claims

/-- Only one request works, and while it works the flag is set. -/
structure Claimed (s : TraceServer ι) : Prop where
  processing : ∀ i, (s.requests i).pc.works = true → s.st.processingTrace = true
  unprocessed : ∀ i, (s.requests i).pc.works = true → s.st.traceProcessed = false
  alone : ∀ i j, (s.requests i).pc.works = true → (s.requests j).pc.works = true → i = j

omit [DecidableEq ι] in
theorem claimed_start (varMap : PmemVarGuidMap) (file : Text) :
    Claimed (TraceServer.start varMap file : TraceServer ι) where
  processing _ works := by cases works
  unprocessed _ works := by cases works
  alone _ _ works := by cases works

omit [DecidableEq ι] in
theorem Claimed.noWorker (claimed : Claimed s) (unclaimed : s.st.processingTrace = false) (j : ι) :
    (s.requests j).pc.works = false := by
  by_contra works
  have set := claimed.processing j (Bool.not_eq_false _ ▸ works)
  rw [unclaimed] at set
  cases set

omit [DecidableEq ι] in
/-- A step after which the workers are among those before and the flags are the same. -/
theorem Claimed.of_le (claimed : Claimed s)
    (workers : ∀ j, (s'.requests j).pc.works = true → (s.requests j).pc.works = true)
    (processing : s'.st.processingTrace = s.st.processingTrace)
    (processed : s'.st.traceProcessed = s.st.traceProcessed) : Claimed s' where
  processing j works := processing.trans (claimed.processing j (workers j works))
  unprocessed j works := processed.trans (claimed.unprocessed j (workers j works))
  alone j k works works' := claimed.alone j k (workers j works) (workers k works')

omit [DecidableEq ι] in
/-- The workers after a step of a request that works no more are among those before. -/
theorem workers_of_stopped (others : ∀ j, j ≠ i → s'.requests j = s.requests j)
    (after : (s'.requests i).pc.works = false) (j : ι) (works : (s'.requests j).pc.works = true) :
    j ≠ i ∧ (s.requests j).pc.works = true := by
  have different : j ≠ i := by
    rintro rfl
    rw [after] at works
    cases works
  exact ⟨different, others j different ▸ works⟩

theorem Claimed.wait (claimed : Claimed s) (step : waitStep asm M i s = some s') :
    Claimed s' := by
  have others : ∀ j, j ≠ i → s'.requests j = s.requests j := fun _ => waitStep_others step
  cases waitStep_move step with
  | aside _ after processing processed =>
    exact claimed.of_le (fun j works => (workers_of_stopped others after j works).2) processing
      processed
  | claims unclaimed _ after processing processed =>
    have only : ∀ j, (s'.requests j).pc.works = true → j = i := by
      intro j works
      by_contra different
      rw [others j different, claimed.noWorker unclaimed j] at works
      cases works
    exact ⟨fun _ _ => processing, fun _ _ => processed,
      fun j k works works' => (only j works).trans (only k works').symm⟩
  | goesOn before _ processing processed =>
    refine claimed.of_le (fun j works => ?_) processing processed
    by_cases same : j = i
    · exact same ▸ before
    · exact others j same ▸ works
  | finishes before after =>
    have none : ∀ j, (s'.requests j).pc.works ≠ true := by
      intro j works
      obtain ⟨different, worked⟩ := workers_of_stopped others (by rw [after]; rfl) j works
      exact different (claimed.alone j i worked before)
    exact ⟨fun j works => (none j works).elim, fun j works => (none j works).elim,
      fun j _ works => (none j works).elim⟩
  | fails _ _ after processing processed =>
    exact claimed.of_le (fun j works => (workers_of_stopped others (by rw [after]; rfl) j works).2)
      processing processed

/-- An event other than a step in `wait_address_trace_ready` leaves the workers and the flags
as they are. -/
theorem next_aside {e : ServerEvent ι} (aside : ∀ i, e ≠ .wait i)
    (step : s.next asm M e = some s') :
    (∀ j, (s'.requests j).pc.works = (s.requests j).pc.works) ∧
      s'.st.processingTrace = s.st.processingTrace ∧
      s'.st.traceProcessed = s.st.traceProcessed := by
  cases e with
  | append chunk =>
    cases step
    exact ⟨fun _ => rfl, rfl, rfl⟩
  | truncate size =>
    cases step
    exact ⟨fun _ => rfl, rfl, rfl⟩
  | monitor =>
    unfold TraceServer.next at step
    dsimp only at step
    split at step
    · cases step
    split at step
    · cases step
    · next m st moved =>
      cases step
      obtain ⟨frame, -⟩ := Monitor.step_frame moved
      exact ⟨fun _ => rfl, frame.processing, frame.processed⟩
  | call i =>
    have called : ∀ t : TraceServer ι, t = { s with
        requests := Function.update s.requests i ⟨.called, s.st.itemPtrs⟩ } →
        (s.requests i).pc.works = false → ∀ j,
          (t.requests j).pc.works = (s.requests j).pc.works := by
      rintro t rfl idle j
      by_cases same : j = i
      · subst same
        simp only [Function.update_self, idle]
        rfl
      · simp only [Function.update_of_ne same]
    unfold TraceServer.next at step
    dsimp only at step
    split at step
    case h_1 here =>
      cases step
      exact ⟨called _ rfl (by rw [here]; rfl), rfl, rfl⟩
    case h_2 here =>
      cases step
      exact ⟨called _ rfl (by rw [here]; rfl), rfl, rfl⟩
    case h_3 => cases step
  | wait i => exact (aside i rfl).elim

theorem Claimed.next (claimed : Claimed s) {e : ServerEvent ι} (step : s.next asm M e = some s') :
    Claimed s' := by
  by_cases waits : ∃ i, e = .wait i
  · obtain ⟨i, rfl⟩ := waits
    exact claimed.wait step
  · obtain ⟨workers, processing, processed⟩ :=
      next_aside (fun i equal => waits ⟨i, equal⟩) step
    exact claimed.of_le (fun j works => workers j ▸ works) processing processed

end Claims

section Retrying

/-- What a request may rely on to begin anew: the flag is set only while some request works; a
request that reports a failure leaves the flag reset, unless another one has begun; and a
request is sent to wait only while another one works. -/
structure Retryable (e : ServerEvent ι) (s' : TraceServer ι) : Prop where
  owned : s'.st.processingTrace = true → s'.Owned
  again : ∀ i, e = .wait i → (s'.requests i).pc = .returned false →
    s'.st.processingTrace = false ∨ ∃ j, j ≠ i ∧ (s'.requests j).pc.works = true
  performed : ∀ i, e = .wait i → (s'.requests i).pc = .awaitProcessed →
    ∃ j, j ≠ i ∧ (s'.requests j).pc.works = true

omit [DecidableEq ι] in
/-- A request that works after its step has neither returned nor been sent to wait. -/
theorem Retryable.of_works (works : (s'.requests i).pc.works = true) :
    Retryable (.wait i) s' := by
  refine ⟨fun _ => ⟨i, works⟩, ?_, ?_⟩
  all_goals
    intro k equal here
    cases equal
    rw [here] at works
    cases works

theorem retryable_of_passes {e : ServerEvent ι}
    (owned : s.st.processingTrace = true → s.Owned) (passes : ¬ s.FailsNext e)
    (step : s.next asm M e = some s') : Retryable e s' := by
  have kept : s'.st.processingTrace = s.st.processingTrace →
      (∀ j, (s.requests j).pc.works = true → (s'.requests j).pc.works = true) →
      s'.st.processingTrace = true → s'.Owned := by
    intro processing workers set
    obtain ⟨j, works⟩ := owned (processing.symm.trans set)
    exact ⟨j, workers j works⟩
  by_cases waits : ∃ i, e = .wait i
  · obtain ⟨i, rfl⟩ := waits
    have others : ∀ j, j ≠ i → s'.requests j = s.requests j := fun _ => waitStep_others step
    cases waitStep_move step with
    | aside before after processing processed noFailure success sent =>
      have workers : ∀ j, (s.requests j).pc.works = true → j ≠ i := by
        rintro j works rfl
        rw [before] at works
        cases works
      refine ⟨kept processing fun j works => by rwa [others j (workers j works)], ?_, ?_⟩
      · rintro k equal failed
        cases equal
        exact (noFailure failed).elim
      · rintro k equal waiting
        cases equal
        obtain ⟨j, works⟩ := owned (sent waiting)
        exact ⟨j, workers j works, by rwa [others j (workers j works)]⟩
    | claims _ _ after => exact .of_works after
    | goesOn _ after => exact .of_works after
    | finishes _ after processing =>
      refine ⟨fun set => ?_, fun _ _ _ => Or.inl processing, ?_⟩
      · rw [processing] at set
        cases set
      · rintro k equal here
        cases equal
        rw [after] at here
        cases here
    | fails exit => exact (passes exit).elim
  · obtain ⟨workers, processing, -⟩ := next_aside (fun i equal => waits ⟨i, equal⟩) step
    refine ⟨kept processing fun j works => workers j ▸ works, ?_, ?_⟩ <;>
    · rintro i equal
      exact (waits ⟨i, equal⟩).elim

/-- Nobody works and the flag is set, so nobody will ever begin. -/
structure Abandoned (s : TraceServer ι) : Prop where
  processing : s.st.processingTrace = true
  unprocessed : s.st.traceProcessed = false
  noWorker : ∀ i, (s.requests i).pc.works = false

omit [DecidableEq ι] in
theorem Abandoned.not_retryable (abandoned : Abandoned s) (e : ServerEvent ι) :
    ¬ Retryable e s := by
  intro retryable
  obtain ⟨i, works⟩ := retryable.owned abandoned.processing
  rw [abandoned.noWorker i] at works
  cases works

/-- A request that fails leaves the flag set. -/
theorem Claimed.abandoned (claimed : Claimed s) {e : ServerEvent ι} (fails : s.FailsNext e)
    (step : s.next asm M e = some s') : Abandoned s' := by
  cases e with
  | wait i =>
    have works : (s.requests i).pc.works = true := by
      rcases fails with ⟨here, -⟩ | ⟨here, -⟩ <;> rw [here] <;> rfl
    have stopped : (s'.requests i).pc = .returned false ∧
        s'.st.processingTrace = s.st.processingTrace ∧
        s'.st.traceProcessed = s.st.traceProcessed := by
      have step : waitStep asm M i s = some s' := step
      unfold waitStep at step
      rcases fails with ⟨here, empty⟩ | ⟨here, failed⟩
      · simp only [here, empty, if_true, Option.some.injEq] at step
        subst step
        exact ⟨goto_self .., rfl, rfl⟩
      · simp only [here, failed, Bool.false_eq_true, if_false, Option.some.injEq] at step
        subst step
        exact ⟨goto_self .., rfl, rfl⟩
    obtain ⟨after, processing, processed⟩ := stopped
    refine ⟨processing.trans (claimed.processing i works),
      processed.trans (claimed.unprocessed i works), fun j => ?_⟩
    by_contra worksNow
    obtain ⟨different, worked⟩ := workers_of_stopped (fun _ => waitStep_others step)
      (by rw [after]; rfl) j (Bool.not_eq_false _ ▸ worksNow)
    exact different (claimed.alone j i worked works)
  | _ => exact fails.elim

/-- Once a request has failed, no step changes that, and no request ever returns. -/
theorem Abandoned.next (abandoned : Abandoned s) {e : ServerEvent ι}
    (step : s.next asm M e = some s') :
    Abandoned s' ∧ ∀ i result, e = .wait i → (s'.requests i).pc ≠ .returned result := by
  by_cases waits : ∃ i, e = .wait i
  · obtain ⟨i, rfl⟩ := waits
    cases waitStep_move step with
    | aside _ after processing processed noFailure success =>
      refine ⟨⟨processing.trans abandoned.processing, processed.trans abandoned.unprocessed,
        fun j => ?_⟩, ?_⟩
      · by_cases same : j = i
        · exact same ▸ after
        · rw [waitStep_others step same]
          exact abandoned.noWorker j
      · rintro k result equal returned
        cases equal
        cases result with
        | false => exact noFailure returned
        | true =>
          have processed := success returned
          rw [abandoned.unprocessed] at processed
          cases processed
    | claims unclaimed =>
      rw [abandoned.processing] at unclaimed
      cases unclaimed
    | goesOn before | finishes before =>
      rw [abandoned.noWorker i] at before
      cases before
    | fails _ before =>
      rw [abandoned.noWorker i] at before
      cases before
  · obtain ⟨workers, processing, processed⟩ :=
      next_aside (fun i equal => waits ⟨i, equal⟩) step
    exact ⟨⟨processing.trans abandoned.processing, processed.trans abandoned.unprocessed,
      fun j => (workers j).trans (abandoned.noWorker j)⟩,
      fun i _ equal => (waits ⟨i, equal⟩).elim⟩

theorem Abandoned.run (abandoned : Abandoned s)
    (run : Relation.ReflTransGen (Step asm M) s s') : Abandoned s' := by
  induction run with
  | refl => exact abandoned
  | tail _ step ih =>
    obtain ⟨e, step⟩ := step
    exact (ih.next step).1

end Retrying

section Runs

variable (asm : AsmWriter) (M : Module)

/-- Every step of a run leaves the trace in a state in which its processing can begin anew. -/
def StaysRetryable : TraceServer ι → List (ServerEvent ι) → Prop
  | _, [] => True
  | s, e :: log => ∀ s', s.next asm M e = some s' → Retryable e s' ∧ s'.StaysRetryable log

/-- No step of a run is one of the two exits that report a failure. -/
def NoneFails : TraceServer ι → List (ServerEvent ι) → Prop
  | _, [] => True
  | s, e :: log => ∀ s', s.next asm M e = some s' → ¬ s.FailsNext e ∧ s'.NoneFails log

variable {asm M}

theorem Claimed.stays_iff_noneFails (claimed : Claimed s)
    (owned : s.st.processingTrace = true → s.Owned) (log : List (ServerEvent ι)) :
    s.StaysRetryable asm M log ↔ s.NoneFails asm M log := by
  induction log generalizing s with
  | nil => exact Iff.rfl
  | cons e log ih =>
    apply forall₂_congr
    intro s' step
    have next := claimed.next step
    constructor
    · rintro ⟨retryable, rest⟩
      refine ⟨fun fails => (claimed.abandoned fails step).not_retryable e retryable, ?_⟩
      exact (ih next retryable.owned).mp rest
    · rintro ⟨passes, rest⟩
      have retryable := retryable_of_passes owned passes step
      exact ⟨retryable, (ih next retryable.owned).mpr rest⟩

/-- From the start of the server, the processing can begin anew after every step of a run
exactly when no request of the run finds no pool and none fails to calculate the offsets. -/
theorem staysRetryable_iff (varMap : PmemVarGuidMap) (file : Text) (log : List (ServerEvent ι)) :
    (start varMap file : TraceServer ι).StaysRetryable asm M log ↔
      (start varMap file : TraceServer ι).NoneFails asm M log :=
  (claimed_start varMap file).stays_iff_noneFails (fun set => by cases set) log

/-- The last event of a run, from the state before it. -/
theorem StaysRetryable.last {log : List (ServerEvent ι)} {e : ServerEvent ι} {s₁ : TraceServer ι}
    (stays : s.StaysRetryable .unary noFunctions (log ++ [e]))
    (played : play (fun _ _ => true) log s = some s₁)
    (step : s₁.next .unary noFunctions e = some s') : Retryable e s' := by
  induction log generalizing s with
  | nil =>
    cases played
    exact (stays s' step).1
  | cons first log ih =>
    obtain ⟨s₂, head, rest⟩ := Option.bind_eq_some_iff.mp played
    exact ih (stays s₂ head).2 rest

/-- A line without a pool: the request fails, and the flag stays set with nobody at work. -/
theorem staysRetryable_noPool :
    ¬ ∀ (ι : Type) [DecidableEq ι] (asm : AsmWriter) (M : Module) (varMap : PmemVarGuidMap)
      (file : Text) (log : List (ServerEvent ι)),
      (start varMap file : TraceServer ι).StaysRetryable asm M log := by
  intro claim
  let server : TraceServer Unit := .start poolGuids "0x18,201\n".toList
  let log : List (ServerEvent Unit) :=
    List.replicate 8 ServerEvent.monitor ++ [ServerEvent.call (), ServerEvent.wait ()]
  have last : ((play (fun _ _ => true) log server).bind fun s =>
      s.next .unary noFunctions (.wait ())).map (fun s' =>
        ((s'.requests ()).pc, s'.st.processingTrace)) = some (.returned false, true) := by decide
  obtain ⟨s', ends, eq⟩ := Option.map_eq_some_iff.mp last
  obtain ⟨s, played, step⟩ := Option.bind_eq_some_iff.mp ends
  obtain ⟨pc, processing⟩ := Prod.mk.inj eq
  have stays := claim Unit .unary noFunctions poolGuids "0x18,201\n".toList (log ++ [.wait ()])
  obtain ⟨request, works⟩ := (stays.last played step).owned processing
  rw [pc] at works
  cases works

end Runs

end TraceServer

end Arthas.Reactor
