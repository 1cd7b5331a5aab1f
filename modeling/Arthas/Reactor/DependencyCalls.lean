import Mathlib
import Arthas.Lib.Mutex

/-!
The threads that call `Reactor::compute_dependencies`. A call keeps `_lock` from its first
test to its return, also while `DgSlicer::computeDependencies` runs, and sets
`dependency_computed` whatever came of it.
-/

set_option autoImplicit false
set_option relaxedAutoImplicit false

namespace Arthas.Reactor

open Arthas.Lib

/-- `DgSlicer`, as far as the computation of the dependences changes it. -/
structure DgSlicerState (γ φ : Type*) where
  dependencyComputed : Bool
  dg : Option γ
  funcDgMap : Option φ

section Slicer

variable {γ φ : Type*}

def DgSlicerState.new : DgSlicerState γ φ := ⟨false, none, none⟩

/-- `DgSlicer::computeDependencies`, where `constructCFGOnly` gives `cfg`; the builder's
`computeDependencies` and `getConstructedFunctions` are parameters. -/
def DgSlicerState.computeDependencies (builder : γ → γ) (constructed : γ → φ)
    (slicer : DgSlicerState γ φ) (cfg : Option γ) : Bool × DgSlicerState γ φ :=
  if slicer.dependencyComputed then (true, slicer)
  else
    match cfg with
    | none => (false, { slicer with dg := none })
    | some dg => (true, ⟨true, some (builder dg), some (constructed (builder dg))⟩)

/-- The first computation: what it returns is what the slicer's flag records, and a failed one
leaves no graph. -/
theorem DgSlicerState.computeDependencies_first (builder : γ → γ) (constructed : γ → φ)
    {slicer : DgSlicerState γ φ} (unset : slicer.dependencyComputed = false) (cfg : Option γ) :
    (slicer.computeDependencies builder constructed cfg).2.dependencyComputed =
        (slicer.computeDependencies builder constructed cfg).1 ∧
      ((slicer.computeDependencies builder constructed cfg).1 = false →
        (slicer.computeDependencies builder constructed cfg).2.dg = none ∧
        (slicer.computeDependencies builder constructed cfg).2.funcDgMap = slicer.funcDgMap) := by
  cases cfg with
  | none =>
    simp only [computeDependencies, unset, Bool.false_eq_true, if_false]
    exact ⟨trivial, fun _ => ⟨trivial, trivial⟩⟩
  | some dg =>
    simp only [computeDependencies, unset, Bool.false_eq_true, if_false]
    refine ⟨trivial, fun absurd => ?_⟩
    cases absurd

end Slicer

/-- Where a thread stands in `compute_dependencies`: about to lock, before the two tests,
before the test of the wait, asleep without the lock, inside the computation, before the flags
are set, and before and after the lock is given back with the value to return. -/
inductive DependencyPc where
  | idle
  | called
  | locked
  | waiting
  | asleep
  | computing
  | computed (ok : Bool)
  | returning (result : Bool)
  | unlocked (result : Bool)
  deriving DecidableEq

/-- The lock is held. -/
def DependencyPc.holds : DependencyPc → Prop
  | .locked | .waiting | .computing | .computed _ | .returning _ => True
  | _ => False

/-- The flags of the reactor, its slicer, the lock and the threads. `finished` records what
the computations that have finished returned. -/
structure DependencyState (ι γ φ : Type*) where
  dependencyComputed : Bool
  computingDependency : Bool
  slicer : DgSlicerState γ φ
  threads : Threads ι DependencyPc
  finished : List Bool

/-- A thread calls `compute_dependencies`, goes on in it, comes to the end of the computation
for which `constructCFGOnly` gave `cfg`, or leaves it with an exception. -/
inductive DependencyEvent (ι γ : Type*) where
  | call (i : ι)
  | step (i : ι)
  | finish (i : ι) (cfg : Option γ)
  | throws (i : ι)

/-- The thread that takes the step. -/
def DependencyEvent.thread {ι γ : Type*} : DependencyEvent ι γ → ι
  | .call i | .step i | .finish i _ | .throws i => i

namespace DependencyState

variable {ι γ φ : Type*}

def start : DependencyState ι γ φ := ⟨false, false, .new, .start .idle, []⟩

def pc (s : DependencyState ι γ φ) (i : ι) : DependencyPc := s.threads.pc i

variable [DecidableEq ι]

def goto (s : DependencyState ι γ φ) (i : ι) (pc : DependencyPc) : DependencyState ι γ φ :=
  { s with threads := s.threads.goto i pc }

def acquire (s : DependencyState ι γ φ) (i : ι) (pc : DependencyPc) : DependencyState ι γ φ :=
  { s with threads := s.threads.acquire i pc }

def release (s : DependencyState ι γ φ) (i : ι) (pc : DependencyPc) : DependencyState ι γ φ :=
  { s with threads := s.threads.release i pc }

section Steps

variable (builder : γ → γ) (constructed : γ → φ)

/-- The next step of a thread in `compute_dependencies`; `none` while the lock is taken. A
sleeping thread may wake at any time, notified or not. -/
def stepOf (i : ι) (s : DependencyState ι γ φ) : Option (DependencyState ι γ φ) :=
  match s.pc i with
  | .idle | .computing => none
  | .called => if s.threads.owner.isSome then none else some (s.acquire i .locked)
  | .locked =>
    if s.dependencyComputed then some (s.goto i (.returning true))
    else if s.computingDependency then some (s.goto i .waiting)
    else some ({ s with computingDependency := true }.goto i .computing)
  | .waiting =>
    if s.dependencyComputed then some (s.goto i (.returning true))
    else some (s.release i .asleep)
  | .asleep => if s.threads.owner.isSome then none else some (s.acquire i .waiting)
  | .computed ok =>
    let s := { s with dependencyComputed := true, computingDependency := false }
    some (s.goto i (.returning ok))
  | .returning result => some (s.release i (.unlocked result))
  | .unlocked _ => some (s.goto i .idle)

/-- The state after an event that can happen. -/
def next (s : DependencyState ι γ φ) : DependencyEvent ι γ → Option (DependencyState ι γ φ)
  | .call i => if s.pc i = .idle then some (s.goto i .called) else none
  | .step i => s.stepOf i
  | .finish i cfg =>
    if s.pc i = .computing then
      let result := s.slicer.computeDependencies builder constructed cfg
      some ({ s with slicer := result.2, finished := s.finished ++ [result.1] }.goto i
        (.computed result.1))
    else none
  -- the exception unwinds the call: the lock is given back, the flags stay
  | .throws i => if s.pc i = .computing then some (s.release i .idle) else none

/-- The state after a log of events. -/
def play (s : DependencyState ι γ φ) (log : List (DependencyEvent ι γ)) :
    Option (DependencyState ι γ φ) :=
  log.foldlM (next builder constructed) s

end Steps

section Moves

variable {builder : γ → γ} {constructed : γ → φ} {s s' : DependencyState ι γ φ} {i : ι}

/-- What an event can do, with what it requires. -/
inductive Move (builder : γ → γ) (constructed : γ → φ) (s : DependencyState ι γ φ) :
    DependencyEvent ι γ → DependencyState ι γ φ → Prop where
  | calls {i : ι} (here : s.pc i = .idle) : Move builder constructed s (.call i) (s.goto i .called)
  | locks {i : ι} (here : s.pc i = .called) (free : s.threads.owner = none) :
      Move builder constructed s (.step i) (s.acquire i .locked)
  | reads {i : ι} (here : s.pc i = .locked ∨ s.pc i = .waiting)
      (set : s.dependencyComputed = true) :
      Move builder constructed s (.step i) (s.goto i (.returning true))
  | awaits {i : ι} (here : s.pc i = .locked) (claimed : s.computingDependency = true) :
      Move builder constructed s (.step i) (s.goto i .waiting)
  | claims {i : ι} (here : s.pc i = .locked) (unset : s.dependencyComputed = false)
      (unclaimed : s.computingDependency = false) :
      Move builder constructed s (.step i)
        ({ s with computingDependency := true }.goto i .computing)
  | sleeps {i : ι} (here : s.pc i = .waiting) (unset : s.dependencyComputed = false) :
      Move builder constructed s (.step i) (s.release i .asleep)
  | wakes {i : ι} (here : s.pc i = .asleep) (free : s.threads.owner = none) :
      Move builder constructed s (.step i) (s.acquire i .waiting)
  | publishes {i : ι} {ok : Bool} (here : s.pc i = .computed ok) :
      Move builder constructed s (.step i)
        ({ s with dependencyComputed := true, computingDependency := false }.goto i (.returning ok))
  | unlocks {i : ι} {result : Bool} (here : s.pc i = .returning result) :
      Move builder constructed s (.step i) (s.release i (.unlocked result))
  | returns {i : ι} {result : Bool} (here : s.pc i = .unlocked result) :
      Move builder constructed s (.step i) (s.goto i .idle)
  | finishes {i : ι} {cfg : Option γ} (here : s.pc i = .computing) :
      Move builder constructed s (.finish i cfg)
        (let result := s.slicer.computeDependencies builder constructed cfg
        { s with slicer := result.2, finished := s.finished ++ [result.1] }.goto i
          (.computed result.1))
  | throws {i : ι} (here : s.pc i = .computing) :
      Move builder constructed s (.throws i) (s.release i .idle)

theorem stepOf_move (step : s.stepOf i = some s') : Move builder constructed s (.step i) s' := by
  unfold stepOf at step
  split at step
  case h_1 => cases step
  case h_2 => cases step
  case h_3 here =>
    split at step
    · cases step
    · next free =>
      cases step
      exact .locks here (by simpa using free)
  case h_4 here =>
    split at step
    · next set =>
      cases step
      exact .reads (Or.inl here) set
    · next unset =>
      split at step
      · next claimed =>
        cases step
        exact .awaits here claimed
      · next unclaimed =>
        cases step
        exact .claims here (by simpa using unset) (by simpa using unclaimed)
  case h_5 here =>
    split at step
    · next set =>
      cases step
      exact .reads (Or.inr here) set
    · next unset =>
      cases step
      exact .sleeps here (by simpa using unset)
  case h_6 here =>
    split at step
    · cases step
    · next free =>
      cases step
      exact .wakes here (by simpa using free)
  case h_7 here =>
    cases step
    exact .publishes here
  case h_8 here =>
    cases step
    exact .unlocks here
  case h_9 here =>
    cases step
    exact .returns here

theorem next_move {e : DependencyEvent ι γ} (step : s.next builder constructed e = some s') :
    Move builder constructed s e s' := by
  cases e with
  | call i =>
    obtain ⟨here, outcome⟩ := Option.ite_none_right_eq_some.mp step
    cases outcome
    exact .calls here
  | step i => exact stepOf_move step
  | finish i cfg =>
    obtain ⟨here, outcome⟩ := Option.ite_none_right_eq_some.mp step
    cases outcome
    exact .finishes here
  | throws i =>
    obtain ⟨here, outcome⟩ := Option.ite_none_right_eq_some.mp step
    cases outcome
    exact .throws here

/-- The other threads stay where they are. -/
theorem Move.others {e : DependencyEvent ι γ} (move : Move builder constructed s e s') {j : ι}
    (other : j ≠ e.thread) : s'.pc j = s.pc j := by
  cases move with
  | locks | wakes => exact Threads.acquire_other other
  | sleeps | unlocks | throws => exact Threads.release_other other
  | calls | reads | awaits | claims | publishes | returns | finishes =>
    exact Threads.goto_other other

end Moves

section Once

variable {builder : γ → γ} {constructed : γ → φ} {s s' : DependencyState ι γ φ} {i : ι}

omit [DecidableEq ι] in
/-- What is known where a thread stands. -/
def Fits (s : DependencyState ι γ φ) : DependencyPc → Prop
  | .computing => s.dependencyComputed = false ∧ s.computingDependency = true ∧ s.finished = []
  | .computed ok => s.dependencyComputed = false ∧ s.computingDependency = true ∧ s.finished = [ok]
  | .returning result | .unlocked result =>
    s.dependencyComputed = true ∧ (result = false → s.finished = [false])
  | _ => True

/-- The computation runs under the lock and only once, and the slicer's flag records whether it
succeeded. -/
structure Once (s : DependencyState ι γ φ) : Prop where
  guarded : s.threads.Guarded DependencyPc.holds
  fits : ∀ i, s.Fits (s.pc i)
  outcome : s.dependencyComputed = true → ∃ ok, s.finished = [ok]
  fresh : s.dependencyComputed = false → s.computingDependency = false → s.finished = []
  slicer : s.slicer.dependencyComputed = true ↔ true ∈ s.finished
  noGraph : s.slicer.dependencyComputed = false → s.slicer.dg = none ∧ s.slicer.funcDgMap = none

omit [DecidableEq ι] in
theorem once_start : Once (start : DependencyState ι γ φ) where
  guarded := Threads.guarded_start id
  fits _ := trivial
  outcome set := by cases set
  fresh _ _ := rfl
  slicer := by simp [start, DgSlicerState.new]
  noGraph _ := ⟨rfl, rfl⟩

omit [DecidableEq ι] in
/-- Before the flag is set, the threads beside the owner of the lock know nothing. -/
theorem Once.others_fit (once : Once s) (here : (s.pc i).holds)
    (unset : s.dependencyComputed = false) {j : ι} (other : j ≠ i)
    (s' : DependencyState ι γ φ) : s'.Fits (s.pc j) := by
  have outside : ¬ (s.pc j).holds := fun held => other (once.guarded.exclusive held here)
  have fits := once.fits j
  cases point : s.pc j with
  | unlocked result =>
    rw [point] at fits
    rw [fits.1] at unset
    cases unset
  | idle | called | asleep => trivial
  | _ =>
    rw [point] at outside
    exact (outside trivial).elim

omit [DecidableEq ι] in
/-- A step of one thread that leaves the flags alone. -/
theorem Once.of_threads (once : Once s) {t : Threads ι DependencyPc}
    (guarded : t.Guarded DependencyPc.holds) (others : ∀ j, j ≠ i → t.pc j = s.pc j)
    (here : s.Fits (t.pc i)) : Once { s with threads := t } := by
  refine ⟨guarded, ?_, once.outcome, once.fresh, once.slicer, once.noGraph⟩
  intro j
  change s.Fits (t.pc j)
  by_cases same : j = i
  · exact same ▸ here
  · rw [others j same]
    exact once.fits j

theorem Once.goto (once : Once s) {p q : DependencyPc} (here : s.pc i = p)
    (same : q.holds ↔ p.holds) (fits : s.Fits q) : Once (s.goto i q) := by
  have point : s.threads.pc i = p := here
  apply once.of_threads (once.guarded.goto (point ▸ same)) fun _ => Threads.goto_other
  rw [Threads.goto_self]
  exact fits

theorem Once.acquire (once : Once s) {q : DependencyPc} (free : s.threads.owner = none)
    (held : q.holds) (fits : s.Fits q) : Once (s.acquire i q) := by
  apply once.of_threads (once.guarded.acquire free held) fun _ => Threads.acquire_other
  rw [Threads.acquire_self]
  exact fits

theorem Once.release (once : Once s) {p q : DependencyPc} (here : s.pc i = p) (held : p.holds)
    (left : ¬ q.holds) (fits : s.Fits q) : Once (s.release i q) := by
  have point : s.threads.pc i = p := here
  apply once.of_threads (once.guarded.release (point ▸ held) left) fun _ => Threads.release_other
  rw [Threads.release_self]
  exact fits

omit [DecidableEq ι] in
/-- The fit of a thread that stands at a known point. -/
theorem Once.fits_at (once : Once s) {p : DependencyPc} (here : s.pc i = p) : s.Fits p :=
  here ▸ once.fits i

omit [DecidableEq ι] in
theorem Once.notFinished (once : Once s) (here : s.pc i = .computing) :
    s.slicer.dependencyComputed = false := by
  obtain ⟨-, -, none⟩ := once.fits_at here
  rw [← Bool.not_eq_true, once.slicer, none]
  exact List.not_mem_nil

/-- A step of the owner of the lock that changes the flags before the computation counts. -/
theorem Once.of_owner (once : Once s) (p : DependencyPc) (here : (s.pc i).holds) (held : p.holds)
    (unset : s.dependencyComputed = false)
    (threads : s'.threads = s.threads.goto i p) (fits : s'.Fits p)
    (outcome : s'.dependencyComputed = true → ∃ ok, s'.finished = [ok])
    (fresh : s'.dependencyComputed = false → s'.computingDependency = false → s'.finished = [])
    (slicer : s'.slicer.dependencyComputed = true ↔ true ∈ s'.finished)
    (noGraph : s'.slicer.dependencyComputed = false →
      s'.slicer.dg = none ∧ s'.slicer.funcDgMap = none) : Once s' := by
  refine ⟨?_, ?_, outcome, fresh, slicer, noGraph⟩
  · rw [threads]
    exact once.guarded.goto (iff_of_true held here)
  · intro j
    rw [pc, threads]
    by_cases same : j = i
    · subst same
      rw [Threads.goto_self]
      exact fits
    · rw [Threads.goto_other same]
      exact once.others_fit here unset same s'

theorem Once.next (once : Once s) {e : DependencyEvent ι γ}
    (move : Move builder constructed s e s') : Once s' := by
  cases move with
  | calls here | awaits here | returns here => exact once.goto here Iff.rfl trivial
  | locks _ free | wakes _ free => exact once.acquire free trivial trivial
  | sleeps here | throws here => exact once.release here trivial id trivial
  | unlocks here =>
    have fits := once.fits_at here
    exact once.release here trivial id fits
  | reads here set =>
    have fits : s.Fits (.returning true) := ⟨set, fun absurd => by cases absurd⟩
    rcases here with here | here
    · exact once.goto here Iff.rfl fits
    · exact once.goto here Iff.rfl fits
  | claims here unset unclaimed =>
    have none := once.fresh unset unclaimed
    refine once.of_owner .computing (by rw [here]; trivial) trivial unset rfl ⟨unset, rfl, none⟩
      once.outcome ?_ once.slicer once.noGraph
    intro _ claimed
    cases claimed
  | @publishes i ok here =>
    obtain ⟨unset, -, finished⟩ := once.fits_at here
    refine once.of_owner (.returning ok) (by rw [here]; trivial) trivial unset rfl ⟨rfl, ?_⟩
      (fun _ => ⟨ok, finished⟩) ?_ once.slicer once.noGraph
    · rintro rfl
      exact finished
    · intro absurd
      cases absurd
  | @finishes i cfg here =>
    obtain ⟨unset, claimed, none⟩ := once.fits_at here
    have unfinished := once.notFinished here
    obtain ⟨records, noGraph⟩ :=
      DgSlicerState.computeDependencies_first builder constructed unfinished cfg
    refine once.of_owner (.computed _) (by rw [here]; trivial) trivial unset rfl
      ⟨unset, claimed, by simp [DependencyState.goto, none]⟩ ?_ ?_ ?_ ?_
    · intro set
      rw [unset] at set
      cases set
    · intro _ unclaimed
      rw [claimed] at unclaimed
      cases unclaimed
    · change _ ↔ true ∈ s.finished ++ [_]
      rw [none, List.nil_append, List.mem_singleton, ← records]
      exact eq_comm
    · intro failed
      have empty := (once.noGraph unfinished).2
      exact empty ▸ noGraph (records.symm.trans failed)

end Once

end DependencyState

end Arthas.Reactor
