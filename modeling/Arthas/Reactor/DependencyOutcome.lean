import Mathlib
import Arthas.Reactor.DependencyCalls

/-!
What the callers of `Reactor::compute_dependencies` learn: the outcome of the one computation,
unless a call comes to its test after the computation has failed. Who has to wait for it: nobody,
unless an exception has left the flag set.
-/

set_option autoImplicit false
set_option relaxedAutoImplicit false

namespace Arthas.Reactor

open Arthas.Lib

namespace DependencyState

variable {ι γ φ : Type*} [DecidableEq ι]

section Outcomes

variable {builder : γ → γ} {constructed : γ → φ} {s s' : DependencyState ι γ φ} {i : ι}

omit [DecidableEq ι] in
/-- The next step of a call is a test that finds `dependency_computed` set, while the slicer's
own flag is not: the computation has failed. -/
def ReadsFailure (s : DependencyState ι γ φ) : DependencyEvent ι γ → Prop
  | .step i => (s.pc i = .locked ∨ s.pc i = .waiting) ∧ s.dependencyComputed = true ∧
      s.slicer.dependencyComputed = false
  | _ => False

instance (s : DependencyState ι γ φ) : (e : DependencyEvent ι γ) → Decidable (s.ReadsFailure e)
  | .step _ => inferInstanceAs (Decidable ((_ ∨ _) ∧ _ ∧ _))
  | .call _ | .finish _ _ | .throws _ => inferInstanceAs (Decidable False)

omit [DecidableEq ι] in
/-- The call has its value to return. -/
def Leaves (s : DependencyState ι γ φ) (i : ι) (result : Bool) : Prop :=
  s.pc i = .returning result ∨ s.pc i = .unlocked result

omit [DecidableEq ι] in
/-- Every call returns true exactly when a computation has succeeded. -/
def Honest (s : DependencyState ι γ φ) : Prop :=
  ∀ i result, s.Leaves i result → (result = true ↔ true ∈ s.finished)

omit [DecidableEq ι] in
theorem honest_start : Honest (start : DependencyState ι γ φ) := by
  intro i result leaves
  rcases leaves with here | here <;> cases here

omit [DecidableEq ι] in
theorem Once.set_of_leaves (once : Once s) {result : Bool} (leaves : s.Leaves i result) :
    s.dependencyComputed = true := by
  rcases leaves with here | here
  · exact (once.fits_at here).1
  · exact (once.fits_at here).1

/-- A call has its value to return from before the step, or gets it in the step, by a test or
from its own computation. -/
theorem Move.leaves {e : DependencyEvent ι γ} (move : Move builder constructed s e s') {j : ι}
    {result : Bool} (leaves : s'.Leaves j result) :
    s.Leaves j result ∨ s.pc j = .computed result ∧ s'.finished = s.finished ∨
      e = .step j ∧ (s.pc j = .locked ∨ s.pc j = .waiting) ∧ s.dependencyComputed = true ∧
        s'.finished = s.finished ∧ result = true := by
  by_cases other : j ≠ e.thread
  · left
    rwa [Leaves, move.others other] at leaves
  obtain rfl : j = e.thread := not_not.mp other
  cases move with
  | locks | wakes => simp [Leaves, acquire, pc, DependencyEvent.thread] at leaves
  | sleeps | throws => simp [Leaves, release, pc, DependencyEvent.thread] at leaves
  | calls | awaits | claims | returns | finishes =>
    simp [Leaves, goto, pc, DependencyEvent.thread] at leaves
  | reads here set =>
    have value : result = true := by
      simpa [Leaves, goto, pc, DependencyEvent.thread, eq_comm] using leaves
    exact Or.inr (Or.inr ⟨rfl, here, set, rfl, value⟩)
  | @publishes i ok here =>
    have value : ok = result := by
      simpa [Leaves, goto, pc, DependencyEvent.thread] using leaves
    exact Or.inr (Or.inl ⟨value ▸ here, rfl⟩)
  | @unlocks i value here =>
    have same : value = result := by
      simpa [Leaves, release, pc, DependencyEvent.thread] using leaves
    exact Or.inl (Or.inl (same ▸ here))

/-- What the computations have returned changes only when one finishes. -/
theorem Move.finished {e : DependencyEvent ι γ} (move : Move builder constructed s e s') :
    s'.finished = s.finished ∨ s.pc e.thread = .computing := by
  cases move with
  | finishes here => exact Or.inr here
  | _ => exact Or.inl rfl

/-- While some call is on its way out, no computation finishes. -/
theorem Once.finished_kept (once : Once s) {result : Bool} (leaves : s.Leaves i result)
    {e : DependencyEvent ι γ} (move : Move builder constructed s e s') :
    s'.finished = s.finished := by
  refine move.finished.resolve_right fun computing => ?_
  have set := once.set_of_leaves leaves
  rw [(once.fits_at computing).1] at set
  cases set

/-- Whoever has a value to return got it from the computation, or has read the flag. -/
theorem Honest.next (honest : Honest s) (once : Once s) {e : DependencyEvent ι γ}
    (move : Move builder constructed s e s') (succeeded : ¬ s.ReadsFailure e) : Honest s' := by
  intro j result leaves
  rcases move.leaves leaves with before | ⟨here, same⟩ | ⟨rfl, here, set, same, rfl⟩
  · rw [once.finished_kept before move]
    exact honest j result before
  · obtain ⟨-, -, finished⟩ := once.fits_at here
    rw [same, finished, List.mem_singleton]
    exact eq_comm
  · have flag : s.slicer.dependencyComputed = true := by
      by_contra unset
      exact succeeded ⟨here, set, Bool.not_eq_true _ ▸ unset⟩
    rw [same]
    exact iff_of_true rfl (once.slicer.mp flag)

/-- The call has read the flag of a failed computation and is about to return true. -/
structure Deceived (s : DependencyState ι γ φ) (i : ι) : Prop where
  leaves : s.Leaves i true
  failed : s.finished = [false]

theorem Once.deceived (once : Once s) (reads : s.ReadsFailure (.step i))
    (step : s.next builder constructed (.step i) = some s') : Deceived s' i := by
  obtain ⟨here, set, unset⟩ := reads
  obtain ⟨ok, finished⟩ := once.outcome set
  have failed : ok = false := by
    have noSuccess : true ∉ s.finished := fun member => by
      rw [once.slicer.mpr member] at unset
      cases unset
    rw [finished, List.mem_singleton] at noSuccess
    exact (Bool.not_eq_true ok).mp fun equal => noSuccess equal.symm
  have after : s.stepOf i = some (s.goto i (.returning true)) := by
    rcases here with here | here <;> rw [stepOf, here] <;> simp only [set, if_true]
  obtain rfl : s.goto i (.returning true) = s' := Option.some.inj (after.symm.trans step)
  exact ⟨Or.inl Threads.goto_self, failed ▸ finished⟩

/-- A call on its way out returns in the step, or is still on its way out. -/
theorem Move.on_way_out {e : DependencyEvent ι γ} (move : Move builder constructed s e s')
    {result : Bool} (leaves : s.Leaves i result) :
    e = .step i ∧ s.pc i = .unlocked result ∨ s'.Leaves i result := by
  by_cases other : i ≠ e.thread
  · right
    rwa [Leaves, move.others other]
  obtain rfl : i = e.thread := not_not.mp other
  cases move with
  | @unlocks i value before =>
    rcases leaves with here | here
    · have same : value = result := DependencyPc.returning.inj (before.symm.trans here)
      exact Or.inr (Or.inr (same ▸ Threads.release_self))
    · cases before.symm.trans here
  | returns before =>
    rcases leaves with here | here
    · cases before.symm.trans here
    · exact Or.inl ⟨rfl, here⟩
  | reads before =>
    rcases leaves with here | here <;> rcases before with before | before <;>
      cases before.symm.trans here
  | calls before | locks before | awaits before | claims before | sleeps before | wakes before
  | publishes before | finishes before | throws before =>
    rcases leaves with here | here <;> cases before.symm.trans here

theorem Deceived.next (deceived : Deceived s i) (once : Once s) {e : DependencyEvent ι γ}
    (move : Move builder constructed s e s') :
    e = .step i ∧ s.pc i = .unlocked true ∨ Deceived s' i := by
  have kept := once.finished_kept deceived.leaves move
  exact (move.on_way_out deceived.leaves).imp_right fun leaves =>
    ⟨leaves, kept.trans deceived.failed⟩

omit [DecidableEq ι] in
/-- It goes on with a slicer that has no graph. -/
theorem Deceived.noGraph (deceived : Deceived s i) (once : Once s) :
    s.slicer.dg = none ∧ s.slicer.funcDgMap = none := by
  apply once.noGraph
  rw [← Bool.not_eq_true, once.slicer, deceived.failed]
  simp

end Outcomes

section Runs

variable (builder : γ → γ) (constructed : γ → φ)

omit [DecidableEq ι] in
/-- What callers may expect of a step from `s` to `s'`: at most one thread is inside the
computation, and a call that returns gives true exactly when a computation that has finished
succeeded. -/
structure Correct (s : DependencyState ι γ φ) (e : DependencyEvent ι γ)
    (s' : DependencyState ι γ φ) : Prop where
  alone : ∀ i j, s'.pc i = .computing → s'.pc j = .computing → i = j
  truthful : ∀ i result, e = .step i → s.pc i = .unlocked result →
    (result = true ↔ true ∈ s.finished)

/-- Every step of a run is as callers expect. -/
def StaysCorrect : DependencyState ι γ φ → List (DependencyEvent ι γ) → Prop
  | _, [] => True
  | s, e :: log => ∀ s', s.next builder constructed e = some s' →
      Correct s e s' ∧ s'.StaysCorrect log

/-- No call of a run comes to its test after the computation has failed. -/
def NoneReadsFailure : DependencyState ι γ φ → List (DependencyEvent ι γ) → Prop
  | _, [] => True
  | s, e :: log => ∀ s', s.next builder constructed e = some s' →
      ¬ s.ReadsFailure e ∧ s'.NoneReadsFailure log

instance decidableNoneReadsFailure : (log : List (DependencyEvent ι γ)) →
    (s : DependencyState ι γ φ) → Decidable (s.NoneReadsFailure builder constructed log)
  | [], _ => isTrue trivial
  | e :: log, s =>
    have := decidableNoneReadsFailure log
    inferInstanceAs (Decidable (∀ s' ∈ s.next builder constructed e,
      ¬ s.ReadsFailure e ∧ s'.NoneReadsFailure builder constructed log))

variable {builder constructed} {s t : DependencyState ι γ φ} {i : ι}

omit [DecidableEq ι] in
theorem Once.alone (once : Once s) {j : ι} (first : s.pc i = .computing)
    (second : s.pc j = .computing) : i = j := by
  apply once.guarded.exclusive
  · change (s.pc i).holds
    rw [first]
    trivial
  · change (s.pc j).holds
    rw [second]
    trivial

theorem Once.staysCorrect (once : Once s) (honest : Honest s) {log : List (DependencyEvent ι γ)}
    (succeeded : s.NoneReadsFailure builder constructed log) :
    s.StaysCorrect builder constructed log := by
  induction log generalizing s with
  | nil => trivial
  | cons e log ih =>
    intro s' step
    obtain ⟨passes, rest⟩ := succeeded s' step
    have move := next_move step
    have next := once.next move
    refine ⟨⟨fun i j => next.alone, ?_⟩, ih next (honest.next once move passes) rest⟩
    intro i result _ here
    exact honest i result (Or.inr here)

/-- A run that ends when no call is on its way out is not correct once a call is deceived. -/
theorem Deceived.not_staysCorrect (deceived : Deceived s i) (once : Once s)
    {log : List (DependencyEvent ι γ)} (played : s.play builder constructed log = some t)
    (out : ∀ i result, ¬ t.Leaves i result) : ¬ s.StaysCorrect builder constructed log := by
  induction log generalizing s with
  | nil =>
    cases played
    exact fun _ => out i true deceived.leaves
  | cons e log ih =>
    intro stays
    obtain ⟨s', step, rest⟩ := Option.bind_eq_some_iff.mp played
    obtain ⟨correct, later⟩ := stays s' step
    have move := next_move step
    rcases deceived.next once move with ⟨rfl, here⟩ | deceived'
    · have success := (correct.truthful i true rfl here).mp rfl
      rw [deceived.failed] at success
      simp at success
    · exact ih deceived' (once.next move) rest later

theorem Once.noneReadsFailure (once : Once s) {log : List (DependencyEvent ι γ)}
    (played : s.play builder constructed log = some t) (out : ∀ i result, ¬ t.Leaves i result)
    (stays : s.StaysCorrect builder constructed log) :
    s.NoneReadsFailure builder constructed log := by
  induction log generalizing s with
  | nil => trivial
  | cons e log ih =>
    intro s' step
    obtain ⟨-, later⟩ := stays s' step
    obtain ⟨s₁, first, rest⟩ := Option.bind_eq_some_iff.mp played
    obtain rfl : s' = s₁ := Option.some.inj (step.symm.trans first)
    have next := once.next (next_move step)
    refine ⟨fun reads => ?_, ih next rest later⟩
    cases e with
    | step i => exact (once.deceived reads step).not_staysCorrect next rest out later
    | _ => exact reads

/-- In every run without a call that comes to its test after the computation has failed, one
thread at a time is inside the computation and every call learns its outcome. A run that does
and ends when no call is on its way out has no such call. -/
theorem calls_learn_outcome (log : List (DependencyEvent ι γ)) :
    ((start : DependencyState ι γ φ).NoneReadsFailure builder constructed log →
      (start : DependencyState ι γ φ).StaysCorrect builder constructed log) ∧
    ∀ t, (start : DependencyState ι γ φ).play builder constructed log = some t →
      (∀ i result, ¬ t.Leaves i result) →
      (start : DependencyState ι γ φ).StaysCorrect builder constructed log →
      (start : DependencyState ι γ φ).NoneReadsFailure builder constructed log :=
  ⟨once_start.staysCorrect honest_start, fun _ => once_start.noneReadsFailure⟩

theorem StaysCorrect.last {log : List (DependencyEvent ι γ)} {e : DependencyEvent ι γ}
    {s₁ s' : DependencyState ι γ φ} (stays : s.StaysCorrect builder constructed (log ++ [e]))
    (played : s.play builder constructed log = some s₁)
    (step : s₁.next builder constructed e = some s') : Correct s₁ e s' := by
  induction log generalizing s with
  | nil =>
    cases played
    exact (stays s' step).1
  | cons first log ih =>
    obtain ⟨s₂, head, rest⟩ := Option.bind_eq_some_iff.mp played
    exact ih (stays s₂ head).2 rest

end Runs

section Waiting

variable {builder : γ → γ} {constructed : γ → φ} {s s' : DependencyState ι γ φ}

omit [DecidableEq ι] in
/-- Some thread is between the claim of the computation and the end of it. -/
def Owned (s : DependencyState ι γ φ) : Prop :=
  ∃ i, s.pc i = .computing ∨ ∃ ok, s.pc i = .computed ok

omit [DecidableEq ι] in
theorem Once.held_of_owned (once : Once s) (owned : s.Owned) {j : ι} (held : (s.pc j).holds) :
    s.pc j = .computing ∨ ∃ ok, s.pc j = .computed ok := by
  obtain ⟨i, here⟩ := owned
  have holds : (s.pc i).holds := by
    rcases here with here | ⟨ok, here⟩ <;> (rw [here]; trivial)
  exact once.guarded.exclusive holds held ▸ here

omit [DecidableEq ι] in
/-- Nobody waits for the end of the computation, and `computing_dependency` is set only while
a thread owns it. -/
structure Awake (s : DependencyState ι γ φ) : Prop where
  owned : s.computingDependency = true → s.Owned
  waiting : ∀ i, s.pc i ≠ .waiting
  asleep : ∀ i, s.pc i ≠ .asleep

omit [DecidableEq ι] in
theorem awake_start : Awake (start : DependencyState ι γ φ) where
  owned set := by cases set
  waiting _ here := by cases here
  asleep _ here := by cases here

/-- A thread waits after a step if it did before, or finds the computation claimed. -/
theorem Move.to_wait {e : DependencyEvent ι γ} (move : Move builder constructed s e s') {j : ι}
    (after : s'.pc j = .waiting ∨ s'.pc j = .asleep) :
    (s.pc j = .waiting ∨ s.pc j = .asleep) ∨ s.pc j = .locked ∧ s.computingDependency = true := by
  by_cases other : j ≠ e.thread
  · left
    rwa [move.others other] at after
  obtain rfl : j = e.thread := not_not.mp other
  cases move with
  | awaits here claimed => exact Or.inr ⟨here, claimed⟩
  | sleeps here => exact Or.inl (Or.inl here)
  | wakes here => exact Or.inl (Or.inr here)
  | locks => simp [acquire, pc, DependencyEvent.thread] at after
  | unlocks | throws => simp [release, pc, DependencyEvent.thread] at after
  | calls | reads | claims | publishes | returns | finishes =>
    simp [goto, pc, DependencyEvent.thread] at after

/-- The owner of the computation stays its owner until the flags are set. -/
theorem Move.owned {e : DependencyEvent ι γ} (move : Move builder constructed s e s')
    (runs : ∀ i, e ≠ .throws i) (owned : s.computingDependency = true → s.Owned)
    (set : s'.computingDependency = true) : s'.Owned := by
  have kept : s.Owned → (s.pc e.thread ≠ .computing ∧ ∀ ok, s.pc e.thread ≠ .computed ok) →
      s'.Owned := by
    rintro ⟨j, here⟩ ⟨notComputing, notComputed⟩
    have other : j ≠ e.thread := by
      rintro rfl
      rcases here with here | ⟨ok, here⟩
      · exact notComputing here
      · exact notComputed ok here
    exact ⟨j, by rwa [move.others other]⟩
  cases move with
  | @claims i => exact ⟨i, Or.inl Threads.goto_self⟩
  | @finishes i => exact ⟨i, Or.inr ⟨_, Threads.goto_self⟩⟩
  | publishes => cases set
  | @throws i => exact (runs i rfl).elim
  | reads here =>
    refine kept (owned set) ?_
    rcases here with here | here <;> simp [DependencyEvent.thread, here]
  | calls here | locks here | awaits here | sleeps here | wakes here | unlocks here
  | returns here =>
    exact kept (owned set) (by simp [DependencyEvent.thread, here])

/-- As the lock is held throughout the computation, no call comes to the wait, unless an
exception has left the flag set. -/
theorem Awake.next (awake : Awake s) (once : Once s) {e : DependencyEvent ι γ}
    (move : Move builder constructed s e s') (runs : ∀ i, e ≠ .throws i) : Awake s' := by
  have never : ∀ j, ¬ (s'.pc j = .waiting ∨ s'.pc j = .asleep) := by
    intro j after
    rcases move.to_wait after with (here | here) | ⟨here, claimed⟩
    · exact awake.waiting j here
    · exact awake.asleep j here
    · have held : (s.pc j).holds := by
        rw [here]
        trivial
      rcases once.held_of_owned (awake.owned claimed) held with there | ⟨ok, there⟩ <;>
        cases here.symm.trans there
  exact ⟨move.owned runs awake.owned, fun j here => never j (Or.inl here),
    fun j here => never j (Or.inr here)⟩

/-- In a run without exceptions nobody ever waits. -/
theorem never_waits {log : List (DependencyEvent ι γ)} (runs : ∀ i, .throws i ∉ log)
    (played : (start : DependencyState ι γ φ).play builder constructed log = some s) (i : ι) :
    s.pc i ≠ .waiting ∧ s.pc i ≠ .asleep := by
  have run : ∀ (log : List (DependencyEvent ι γ)) (s₀ : DependencyState ι γ φ), Once s₀ →
      Awake s₀ → (∀ i, .throws i ∉ log) → s₀.play builder constructed log = some s → Awake s := by
    intro log
    induction log with
    | nil =>
      intro s₀ _ awake _ played
      cases played
      exact awake
    | cons e log ih =>
      intro s₀ once awake runs played
      obtain ⟨s₁, step, rest⟩ := Option.bind_eq_some_iff.mp played
      have move := next_move step
      have first : ∀ i, e ≠ .throws i := fun i equal => runs i (equal ▸ List.mem_cons_self)
      exact ih s₁ (once.next move) (awake.next once move first)
        (fun i member => runs i (List.mem_cons_of_mem e member)) rest
  have awake := run log start once_start awake_start runs played
  exact ⟨awake.waiting i, awake.asleep i⟩

omit [DecidableEq ι] in
/-- The computation is claimed, and nobody will end it. -/
structure Abandoned (s : DependencyState ι γ φ) : Prop where
  claimed : s.computingDependency = true
  unset : s.dependencyComputed = false
  noOwner : ¬ s.Owned

/-- An owner after a step was one before, or claims the computation in the step. -/
theorem Move.to_owned {e : DependencyEvent ι γ} (move : Move builder constructed s e s')
    (owned : s'.Owned) : s.Owned ∨ s.computingDependency = false := by
  obtain ⟨j, here⟩ := owned
  by_cases other : j ≠ e.thread
  · left
    rw [move.others other] at here
    exact ⟨j, here⟩
  obtain rfl : j = e.thread := not_not.mp other
  cases move with
  | claims _ _ unclaimed => exact Or.inr unclaimed
  | finishes before => exact Or.inl ⟨_, Or.inl before⟩
  | locks | wakes => simp [acquire, pc, DependencyEvent.thread] at here
  | sleeps | unlocks | throws => simp [release, pc, DependencyEvent.thread] at here
  | calls | awaits | reads | publishes | returns =>
    simp [goto, pc, DependencyEvent.thread] at here

/-- A call that leaves the computation with an exception leaves the flag set. -/
theorem Once.abandoned (once : Once s) {i : ι}
    (step : s.next builder constructed (.throws i) = some s') : Abandoned s' := by
  cases next_move step with
  | throws here =>
    obtain ⟨unset, claimed, -⟩ := once.fits_at here
    refine ⟨claimed, unset, ?_⟩
    rintro ⟨j, there⟩
    by_cases same : j = i
    · subst same
      simp [DependencyState.release, pc] at there
    · have held : (s.pc i).holds := by
        rw [here]
        trivial
      have owner : (s.pc j).holds := by
        rw [← Move.others (next_move step) same]
        rcases there with there | ⟨ok, there⟩ <;> (rw [there]; trivial)
      exact same (once.guarded.exclusive owner held)

/-- From then on no call ever has a value to return. -/
theorem Abandoned.next (abandoned : Abandoned s) (once : Once s) {e : DependencyEvent ι γ}
    (move : Move builder constructed s e s') :
    Abandoned s' ∧ ∀ i result, ¬ s'.Leaves i result := by
  have flags : s'.computingDependency = true ∧ s'.dependencyComputed = false := by
    cases move with
    | claims _ _ unclaimed =>
      rw [abandoned.claimed] at unclaimed
      cases unclaimed
    | publishes here => exact (abandoned.noOwner ⟨_, Or.inr ⟨_, here⟩⟩).elim
    | finishes here | throws here => exact (abandoned.noOwner ⟨_, Or.inl here⟩).elim
    | _ => exact ⟨abandoned.claimed, abandoned.unset⟩
  have noOwner : ¬ s'.Owned := by
    intro owned
    rcases move.to_owned owned with before | unclaimed
    · exact abandoned.noOwner before
    · rw [abandoned.claimed] at unclaimed
      cases unclaimed
  refine ⟨⟨flags.1, flags.2, noOwner⟩, fun i result leaves => ?_⟩
  have set := (once.next move).set_of_leaves leaves
  rw [flags.2] at set
  cases set

end Waiting

section Examples

/-- The first call fails to build the graph, the second one comes after it. -/
def failedThenCalled : List (DependencyEvent Bool Unit) :=
  [.call false, .step false, .step false, .finish false none, .step false, .step false,
    .step false, .call true, .step true, .step true, .step true]

theorem calls_learn_outcome_fails :
    ((start : DependencyState Bool Unit Unit).play id id failedThenCalled).map
        (fun s => (s.pc true, s.finished)) = some (.unlocked true, [false]) ∧
      ¬ (start : DependencyState Bool Unit Unit).StaysCorrect id id
        (failedThenCalled ++ [.step true]) := by
  refine ⟨rfl, fun stays => ?_⟩
  have success : true ∈ [false] := ((stays.last rfl rfl).truthful true true rfl rfl).mp rfl
  simp at success

/-- The first call builds the graph, and the second one waits for the lock meanwhile. -/
def calledThenBuilt : List (DependencyEvent Bool Unit) :=
  [.call false, .step false, .step false, .call true, .finish false (some ()), .step false,
    .step false, .step true, .step false, .step true, .step true, .step true]

theorem calls_learn_outcome_built :
    (start : DependencyState Bool Unit Unit).StaysCorrect id id calledThenBuilt :=
  (calls_learn_outcome calledThenBuilt).1 (by decide)

end Examples

end DependencyState

end Arthas.Reactor
