import Mathlib

/-!
Collecting the elements of successive rounds, each once, and handing them over as soon
as more than one is pending. Everything collected is handed over or still pending, and
whether something is pending at the end is a matter of parity: it depends on the rounds
after the last one that brought two elements or more.
-/

set_option autoImplicit false
set_option relaxedAutoImplicit false

namespace Arthas.Lib.Batching

variable {κ : Type*} [DecidableEq κ]

/-- The elements not seen before, each where it comes first. -/
def fresh : List κ → List κ → List κ
  | _, [] => []
  | seen, x :: xs => if x ∈ seen then fresh seen xs else x :: fresh (x :: seen) xs

theorem fresh_congr {seen seen' : List κ} (h : ∀ x, x ∈ seen ↔ x ∈ seen') (xs : List κ) :
    fresh seen xs = fresh seen' xs := by
  induction xs generalizing seen seen' with
  | nil => rfl
  | cons x xs ih =>
    have hcons : ∀ y, y ∈ x :: seen ↔ y ∈ x :: seen' := by
      intro y
      rw [List.mem_cons, List.mem_cons, h y]
    by_cases hx : x ∈ seen
    · rw [fresh, fresh, if_pos hx, if_pos ((h x).mp hx), ih h]
    · rw [fresh, fresh, if_neg hx, if_neg fun hx' => hx ((h x).mpr hx'), ih hcons]

theorem mem_fresh {seen xs : List κ} {x : κ} : x ∈ fresh seen xs ↔ x ∈ xs ∧ x ∉ seen := by
  induction xs generalizing seen with
  | nil => simp [fresh]
  | cons y xs ih =>
    by_cases hy : y ∈ seen
    · rw [fresh, if_pos hy, ih, List.mem_cons]
      constructor
      · rintro ⟨hx, hseen⟩
        exact ⟨Or.inr hx, hseen⟩
      · rintro ⟨rfl | hx, hseen⟩
        · exact absurd hy hseen
        · exact ⟨hx, hseen⟩
    · rw [fresh, if_neg hy, List.mem_cons, ih, List.mem_cons, List.mem_cons, not_or]
      constructor
      · rintro (rfl | ⟨hx, -, hseen⟩)
        · exact ⟨Or.inl rfl, hy⟩
        · exact ⟨Or.inr hx, hseen⟩
      · rintro ⟨rfl | hx, hseen⟩
        · exact Or.inl rfl
        · by_cases hxy : x = y
          · exact Or.inl hxy
          · exact Or.inr ⟨hx, hxy, hseen⟩

theorem nodup_fresh (seen xs : List κ) : (fresh seen xs).Nodup := by
  induction xs generalizing seen with
  | nil => exact List.nodup_nil
  | cons x xs ih =>
    by_cases hx : x ∈ seen
    · rw [fresh, if_pos hx]
      exact ih seen
    · rw [fresh, if_neg hx, List.nodup_cons]
      exact ⟨fun h => (mem_fresh.mp h).2 List.mem_cons_self, ih _⟩

theorem fresh_append (seen xs ys : List κ) :
    fresh seen (xs ++ ys) = fresh seen xs ++ fresh (fresh seen xs ++ seen) ys := by
  induction xs generalizing seen with
  | nil => rfl
  | cons x xs ih =>
    by_cases hx : x ∈ seen
    · rw [List.cons_append, fresh, if_pos hx, ih, fresh, if_pos hx]
    · have hmem : ∀ y, y ∈ fresh (x :: seen) xs ++ x :: seen ↔
          y ∈ (x :: fresh (x :: seen) xs) ++ seen := by
        intro y
        simp only [List.mem_append, List.mem_cons]
        tauto
      rw [List.cons_append, fresh, if_neg hx, ih, fresh, if_neg hx, List.cons_append,
        fresh_congr hmem]

/-- What has been seen so far, and what is pending. -/
structure Stage (κ : Type*) where
  seen : List κ
  pending : List κ

/-- One round: what it hands over, if anything, and the stage after it. -/
def Stage.step (s : Stage κ) (xs : List κ) : List (List κ) × Stage κ :=
  if (s.pending ++ fresh s.seen xs).length > 1 then
    ([s.pending ++ fresh s.seen xs], ⟨fresh s.seen xs ++ s.seen, []⟩)
  else ([], ⟨fresh s.seen xs ++ s.seen, s.pending ++ fresh s.seen xs⟩)

/-- All rounds: the batches handed over, in order, and the last stage. -/
def run : Stage κ → List (List κ) → List (List κ) × Stage κ
  | s, [] => ([], s)
  | s, xs :: rounds =>
    ((s.step xs).1 ++ (run (s.step xs).2 rounds).1, (run (s.step xs).2 rounds).2)

/-- The number of new elements of each round. -/
def freshCounts : List κ → List (List κ) → List Nat
  | _, [] => []
  | seen, xs :: rounds =>
    (fresh seen xs).length :: freshCounts (fresh seen xs ++ seen) rounds

theorem step_flatten (s : Stage κ) (xs : List κ) :
    (s.step xs).1.flatten ++ (s.step xs).2.pending = s.pending ++ fresh s.seen xs := by
  unfold Stage.step
  split <;> simp

theorem step_seen (s : Stage κ) (xs : List κ) :
    (s.step xs).2.seen = fresh s.seen xs ++ s.seen := by
  unfold Stage.step
  split <;> rfl

/-- Nothing is lost and nothing doubled between the batches and what is pending. -/
theorem run_flatten (s : Stage κ) (rounds : List (List κ)) :
    (run s rounds).1.flatten ++ (run s rounds).2.pending =
      s.pending ++ fresh s.seen rounds.flatten := by
  induction rounds generalizing s with
  | nil => simp [run, fresh]
  | cons xs rounds ih =>
    have hstep := step_flatten s xs
    have hrest := ih (s.step xs).2
    rw [step_seen] at hrest
    rw [run, List.flatten_append, List.append_assoc, hrest, ← List.append_assoc, hstep,
      List.flatten_cons, fresh_append, List.append_assoc]

/-- How many are pending after a round that brings `new`. -/
def flush (pending new : Nat) : Nat := if pending + new > 1 then 0 else pending + new

theorem run_pending_length (s : Stage κ) (rounds : List (List κ)) :
    (run s rounds).2.pending.length =
      (freshCounts s.seen rounds).foldl flush s.pending.length := by
  induction rounds generalizing s with
  | nil => rfl
  | cons xs rounds ih =>
    have hpending : (s.step xs).2.pending.length =
        flush s.pending.length (fresh s.seen xs).length := by
      unfold Stage.step flush
      rw [List.length_append]
      split
      · rfl
      · exact List.length_append
    rw [run, ih, step_seen, hpending]
    rfl

/-- The rounds with exactly one new element after the last round with more. -/
def trailingOnes (counts : List Nat) : Nat := (counts.reverse.takeWhile (· ≤ 1)).count 1

theorem trailingOnes_concat (counts : List Nat) (n : Nat) :
    trailingOnes (counts ++ [n]) =
      if n ≤ 1 then trailingOnes counts + (if n = 1 then 1 else 0) else 0 := by
  unfold trailingOnes
  rw [List.reverse_append, List.reverse_singleton, List.singleton_append, List.takeWhile_cons]
  by_cases hn : n ≤ 1
  · simp [hn, List.count_cons]
  · simp [hn]

/-- Single new elements pair up, so what is left of them is their parity. -/
theorem foldl_flush (counts : List Nat) : counts.foldl flush 0 = trailingOnes counts % 2 := by
  induction counts using List.reverseRecOn with
  | nil => rfl
  | append_singleton counts n ih =>
    rw [List.foldl_append, List.foldl_cons, List.foldl_nil, ih, trailingOnes_concat, flush]
    split_ifs <;> omega

theorem run_pending_eq_nil_iff (rounds : List (List κ)) :
    (run ⟨[], []⟩ rounds).2.pending = [] ↔ Even (trailingOnes (freshCounts [] rounds)) := by
  have hlen := run_pending_length (⟨[], []⟩ : Stage κ) rounds
  rw [List.length_nil, foldl_flush] at hlen
  rw [← List.length_eq_zero_iff, hlen, Nat.even_iff]

theorem run_pending_length_le (rounds : List (List κ)) :
    (run ⟨[], []⟩ rounds).2.pending.length ≤ 1 := by
  have hlen := run_pending_length (⟨[], []⟩ : Stage κ) rounds
  rw [List.length_nil, foldl_flush] at hlen
  omega

/-- What is pending at the end is the element that was new last. -/
theorem run_pending_eq (rounds : List (List κ)) :
    (run ⟨[], []⟩ rounds).2.pending = [] ∨
      ∃ x, (run ⟨[], []⟩ rounds).2.pending = [x] ∧
        (fresh [] rounds.flatten).getLast? = some x := by
  have hflat := run_flatten (⟨[], []⟩ : Stage κ) rounds
  rw [List.nil_append] at hflat
  have hlen := run_pending_length_le rounds
  cases hp : (run ⟨[], []⟩ rounds).2.pending with
  | nil => exact Or.inl rfl
  | cons x rest =>
    rw [hp, List.length_cons] at hlen
    have hrest : rest = [] := List.length_eq_zero_iff.mp (by omega)
    refine Or.inr ⟨x, by rw [hrest], ?_⟩
    rw [← hflat, hp, hrest]
    simp

end Arthas.Lib.Batching
