import Mathlib.Logic.Function.Basic
import Mathlib.Data.Set.Insert
import Mathlib.Data.List.Induction

/-!
Things that carry the number of the last round that marked them. A round has a number and a
set; its number replaces the one that the things in the set had.
-/

set_option autoImplicit false
set_option relaxedAutoImplicit false

namespace Arthas.Lib.Stamps

variable {α : Type*}

open Classical in
/-- What the things carry after a round. -/
noncomputable def stamp (marks : Set α) (number : Nat) (old : α → Nat) (a : α) : Nat :=
  if a ∈ marks then number else old a

theorem stamp_of_mem {marks : Set α} {a : α} (member : a ∈ marks) (number : Nat) (old : α → Nat) :
    stamp marks number old a = number := if_pos member

theorem stamp_of_notMem {marks : Set α} {a : α} (missing : a ∉ marks) (number : Nat)
    (old : α → Nat) : stamp marks number old a = old a := if_neg missing

theorem stamp_empty (number : Nat) (old : α → Nat) : stamp ∅ number old = old := by
  funext a
  exact stamp_of_notMem (Set.notMem_empty a) number old

/-- One more thing is marked. -/
theorem update_stamp [DecidableEq α] (marks : Set α) (number : Nat) (old : α → Nat) (a : α) :
    Function.update (stamp marks number old) a number = stamp (insert a marks) number old := by
  funext b
  by_cases same : b = a
  · subst same
    rw [Function.update_self, stamp_of_mem (Set.mem_insert b marks)]
  · rw [Function.update_of_ne same]
    by_cases member : b ∈ marks
    · rw [stamp_of_mem member, stamp_of_mem (Set.mem_insert_of_mem a member)]
    · rw [stamp_of_notMem member, stamp_of_notMem]
      exact fun inserted => (Set.mem_insert_iff.mp inserted).elim same member

/-- What the things carry after a number of rounds. -/
noncomputable def stampAll (rounds : List (Nat × Set α)) (old : α → Nat) : α → Nat :=
  rounds.foldl (fun carried round => stamp round.2 round.1 carried) old

theorem stampAll_concat (rounds : List (Nat × Set α)) (round : Nat × Set α) (old : α → Nat) :
    stampAll (rounds ++ [round]) old = stamp round.2 round.1 (stampAll rounds old) := by
  rw [stampAll, List.foldl_append]
  rfl

/-- The last round that marked the thing has the number. -/
def Last (rounds : List (Nat × Set α)) (number : Nat) (a : α) : Prop :=
  ∃ before marks after, rounds = before ++ (number, marks) :: after ∧ a ∈ marks ∧
    ∀ round ∈ after, a ∉ round.2

theorem last_concat {rounds : List (Nat × Set α)} {round : Nat × Set α} {number : Nat} {a : α} :
    Last (rounds ++ [round]) number a ↔
      a ∈ round.2 ∧ round.1 = number ∨ a ∉ round.2 ∧ Last rounds number a := by
  constructor
  · rintro ⟨before, marks, after, same, member, later⟩
    rcases List.eq_nil_or_concat after with rfl | ⟨after, last, rfl⟩
    · obtain ⟨-, equal⟩ := List.append_inj' same rfl
      obtain rfl := (List.cons.inj equal).1
      exact Or.inl ⟨member, rfl⟩
    · rw [List.concat_eq_append, ← List.cons_append, ← List.append_assoc] at same
      obtain ⟨rfl, equal⟩ := List.append_inj' same rfl
      obtain rfl := (List.cons.inj equal).1
      refine Or.inr ⟨later round (by simp), before, marks, after, rfl, member, ?_⟩
      intro other early
      exact later other (by simp [early])
  · rintro (⟨member, rfl⟩ | ⟨missing, before, marks, after, rfl, member, later⟩)
    · exact ⟨rounds, round.2, [], rfl, member, fun _ absurd => (List.not_mem_nil absurd).elim⟩
    · refine ⟨before, marks, after ++ [round], by simp, member, ?_⟩
      intro other late
      rcases List.mem_append.mp late with early | isLast
      · exact later other early
      · rw [List.mem_singleton.mp isLast]
        exact missing

/-- What a thing carries is the number of the last round that marked it, for a number that
it did not carry before. -/
theorem stampAll_eq_iff {old : α → Nat} {number : Nat} {a : α} (fresh : old a ≠ number)
    (rounds : List (Nat × Set α)) : stampAll rounds old a = number ↔ Last rounds number a := by
  induction rounds using List.reverseRecOn with
  | nil =>
    refine iff_of_false fresh ?_
    rintro ⟨before, marks, after, same, -⟩
    simp at same
  | append_singleton rounds round ih =>
    rw [stampAll_concat, last_concat, ← ih]
    by_cases member : a ∈ round.2
    · simp [stamp_of_mem member, member]
    · simp [stamp_of_notMem member, member]

theorem stampAll_zero_iff {number : Nat} (nonzero : number ≠ 0) (rounds : List (Nat × Set α))
    (a : α) : stampAll rounds (fun _ => 0) a = number ↔ Last rounds number a := by
  refine stampAll_eq_iff ?_ rounds
  exact nonzero.symm

/-- After rounds with other numbers, what carries a round's number is what it marked. -/
theorem stampAll_concat_iff {rounds : List (Nat × Set α)} {number : Nat} {marks : Set α}
    {old : α → Nat} {a : α} (fresh : old a ≠ number) (other : number ∉ rounds.map Prod.fst) :
    stampAll (rounds ++ [(number, marks)]) old a = number ↔ a ∈ marks := by
  rw [stampAll_eq_iff fresh, last_concat]
  have earlier : ¬ Last rounds number a := by
    rintro ⟨before, early, after, rfl, -⟩
    exact other (by simp)
  tauto

end Arthas.Lib.Stamps
