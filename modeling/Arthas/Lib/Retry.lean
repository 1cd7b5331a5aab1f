import Mathlib.Data.Nat.Find
import Mathlib.Data.Option.Basic

/-!
Attempts that are made one after the other until one succeeds or a limit is reached, and
which of them is the last.
-/

set_option autoImplicit false
set_option relaxedAutoImplicit false

namespace Arthas.Lib.Retry

variable {fails : Nat → Prop} {limit : Option Nat} {k : Nat}

/-- Attempt `k` is the last one. All before it failed, and if it fails too, it is the last
that is allowed. -/
structure EndsAt (fails : Nat → Prop) (limit : Option Nat) (k : Nat) : Prop where
  failed : ∀ j < k, fails j
  within : ∀ m ∈ limit, k ≤ m
  ends : fails k → limit = some k

theorem endsAt_zero : EndsAt fails limit 0 ↔ (fails 0 → limit = some 0) := by
  constructor
  · exact EndsAt.ends
  · intro ends
    exact ⟨fun j below => absurd below (Nat.not_lt_zero j), fun m _ => Nat.zero_le m, ends⟩

/-- After a failed attempt the rest is a shorter run. -/
theorem endsAt_succ (failed : fails 0) (more : limit ≠ some 0) :
    EndsAt fails limit (k + 1) ↔ EndsAt (fun j => fails (j + 1)) (limit.map (· - 1)) k := by
  constructor
  · intro run
    refine ⟨fun j below => run.failed (j + 1) (Nat.succ_lt_succ below), ?_, ?_⟩
    · intro m allowed
      obtain ⟨n, bound, rfl⟩ := Option.mem_map.mp allowed
      have within := run.within n bound
      omega
    · intro last
      rw [run.ends last]
      rfl
  · intro run
    refine ⟨?_, ?_, ?_⟩
    · intro j below
      cases j with
      | zero => exact failed
      | succ j => exact run.failed j (Nat.lt_of_succ_lt_succ below)
    · intro m bound
      have within := run.within (m - 1) (Option.mem_map_of_mem (· - 1) bound)
      have positive : m ≠ 0 := by
        rintro rfl
        exact more bound
      omega
    · intro last
      obtain ⟨m, bound, equal⟩ := Option.map_eq_some_iff.mp (run.ends last)
      have positive : m ≠ 0 := by
        rintro rfl
        exact more bound
      rw [bound]
      congr 1
      omega

/-- A run ends by its `n`-th attempt exactly when the limit is not beyond it or one of these
attempts succeeds. -/
theorem exists_endsAt_le (n : Nat) :
    (∃ k ≤ n, EndsAt fails limit k) ↔ (∃ m ∈ limit, m ≤ n) ∨ ∃ k ≤ n, ¬ fails k := by
  classical
  constructor
  · rintro ⟨k, early, run⟩
    by_cases last : fails k
    · exact Or.inl ⟨k, run.ends last, early⟩
    · exact Or.inr ⟨k, early, last⟩
  · intro stops
    have stopping : ∃ k, k ≤ n ∧ (limit = some k ∨ ¬ fails k) := by
      rcases stops with ⟨m, bound, early⟩ | ⟨k, early, succeeds⟩
      · exact ⟨m, early, Or.inl bound⟩
      · exact ⟨k, early, Or.inr succeeds⟩
    obtain ⟨early, ends⟩ := Nat.find_spec stopping
    have before : ∀ j < Nat.find stopping, limit ≠ some j ∧ fails j := by
      intro j below
      have not_end := Nat.find_min stopping below
      refine ⟨fun bound => not_end ⟨Nat.le_trans (Nat.le_of_lt below) early, Or.inl bound⟩, ?_⟩
      by_contra succeeds
      exact not_end ⟨Nat.le_trans (Nat.le_of_lt below) early, Or.inr succeeds⟩
    refine ⟨_, early, fun j below => (before j below).2, ?_, fun last => ends.resolve_right (· last)⟩
    intro m bound
    by_contra beyond
    exact (before m (Nat.lt_of_not_le beyond)).1 bound

end Arthas.Lib.Retry
