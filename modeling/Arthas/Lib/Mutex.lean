import Mathlib.Logic.Function.Basic

/-!
Threads at their program points and one mutex. At some points the mutex is held; it is owned
by the thread at such a point as long as every step takes it, keeps it or gives it back there.
-/

set_option autoImplicit false
set_option relaxedAutoImplicit false

namespace Arthas.Lib

structure Threads (ι π : Type*) where
  owner : Option ι
  pc : ι → π

namespace Threads

variable {ι π : Type*}

/-- Nobody owns the mutex, and all stand at the same point. -/
def start (p : π) : Threads ι π := ⟨none, fun _ => p⟩

/-- The threads that stand where the mutex is held are its owners. -/
def Guarded (holds : π → Prop) (t : Threads ι π) : Prop :=
  ∀ i, holds (t.pc i) ↔ t.owner = some i

section Held

variable {holds : π → Prop} {t : Threads ι π} {i : ι} {p : π}

theorem guarded_start (free : ¬ holds p) : Guarded holds (start p : Threads ι π) := by
  intro i
  simpa [start] using free

/-- Two threads cannot both hold the mutex. -/
theorem Guarded.exclusive (guarded : Guarded holds t) {j : ι} (first : holds (t.pc i))
    (second : holds (t.pc j)) : i = j := by
  have owner := (guarded i).mp first
  rw [(guarded j).mp second] at owner
  exact (Option.some.inj owner).symm

theorem Guarded.free (guarded : Guarded holds t) (free : t.owner = none) (j : ι) :
    ¬ holds (t.pc j) := by
  rw [guarded j, free]
  exact Option.some_ne_none j ∘ Eq.symm

end Held

section Steps

variable [DecidableEq ι]

/-- A thread goes on without touching the mutex. -/
def goto (t : Threads ι π) (i : ι) (p : π) : Threads ι π :=
  { t with pc := Function.update t.pc i p }

/-- A thread goes on and takes the mutex. -/
def acquire (t : Threads ι π) (i : ι) (p : π) : Threads ι π := { t.goto i p with owner := some i }

/-- A thread goes on and gives the mutex back. -/
def release (t : Threads ι π) (i : ι) (p : π) : Threads ι π := { t.goto i p with owner := none }

variable {holds : π → Prop} {t : Threads ι π} {i j : ι} {p : π}

@[simp] theorem goto_self : (t.goto i p).pc i = p := Function.update_self ..

@[simp] theorem acquire_self : (t.acquire i p).pc i = p := Function.update_self ..

@[simp] theorem release_self : (t.release i p).pc i = p := Function.update_self ..

theorem goto_other (other : j ≠ i) : (t.goto i p).pc j = t.pc j := Function.update_of_ne other ..

theorem acquire_other (other : j ≠ i) : (t.acquire i p).pc j = t.pc j :=
  Function.update_of_ne other ..

theorem release_other (other : j ≠ i) : (t.release i p).pc j = t.pc j :=
  Function.update_of_ne other ..

theorem Guarded.goto (guarded : Guarded holds t) (same : holds p ↔ holds (t.pc i)) :
    Guarded holds (t.goto i p) := by
  intro j
  by_cases here : j = i
  · subst here
    rw [goto_self, same]
    exact guarded j
  · rw [goto_other here]
    exact guarded j

theorem Guarded.acquire (guarded : Guarded holds t) (free : t.owner = none) (held : holds p) :
    Guarded holds (t.acquire i p) := by
  intro j
  by_cases here : j = i
  · subst here
    rw [acquire_self]
    exact iff_of_true held rfl
  · rw [acquire_other here]
    refine iff_of_false (guarded.free free j) ?_
    intro owner
    exact here (Option.some.inj owner).symm

theorem Guarded.release (guarded : Guarded holds t) (held : holds (t.pc i)) (left : ¬ holds p) :
    Guarded holds (t.release i p) := by
  intro j
  by_cases here : j = i
  · subst here
    rw [release_self]
    exact iff_of_false left (Option.some_ne_none j ∘ Eq.symm)
  · rw [release_other here]
    refine iff_of_false ?_ (Option.some_ne_none j ∘ Eq.symm)
    intro other
    exact here (guarded.exclusive other held)

end Steps

end Threads

end Arthas.Lib
