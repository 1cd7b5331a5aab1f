import Mathlib.Data.List.Basic

/-!
The binary searches of the C++ standard library over a list. They find what they look for
if the list is partitioned; `std::equal_range` is used on lists that may not be.
-/

set_option autoImplicit false
set_option relaxedAutoImplicit false

namespace Arthas.Lib.EqualRange

variable {α : Type*}

/-- `std::partition_point` (and with it `lower_bound` and `upper_bound`): how many elements
in front pass. -/
def partitionPoint (p : α → Bool) : Nat → List α → Nat
  | 0, _ => 0
  | fuel + 1, l =>
    match l[l.length / 2]? with
    | none => 0
    | some x =>
      if p x then l.length / 2 + 1 + partitionPoint p fuel (l.drop (l.length / 2 + 1))
      else partitionPoint p fuel (l.take (l.length / 2))

/-- The search of `std::equal_range`: in a half until the middle is neither before nor after
the value, then for the two ends. -/
def search (before after : α → Bool) : Nat → List α → List α
  | 0, _ => []
  | fuel + 1, l =>
    match l[l.length / 2]? with
    | none => []
    | some x =>
      let front := l.take (l.length / 2)
      let back := l.drop (l.length / 2 + 1)
      if before x then search before after fuel back
      else if after x then search before after fuel front
      else front.drop (partitionPoint before fuel front) ++
        x :: back.take (partitionPoint (!after ·) fuel back)

def equalRange (before after : α → Bool) (l : List α) : List α := search before after l.length l

/-- The elements that pass stand in front. -/
def Partitioned (p : α → Bool) (l : List α) : Prop :=
  l.Pairwise fun x y => p y = true → p x = true

variable {p before after : α → Bool} {l front back : List α} {x y : α} {fuel : Nat}

theorem partitioned_append : Partitioned p (front ++ x :: back) ↔
    Partitioned p front ∧ Partitioned p back ∧ (p x = true → ∀ y ∈ front, p y = true) ∧
      (∀ y ∈ back, p y = true → p x = true ∧ ∀ z ∈ front, p z = true) := by
  simp only [Partitioned, List.pairwise_append, List.pairwise_cons, List.mem_cons]
  grind

/-- The middle of a list that is not empty, and the halves around it. -/
theorem middle (some : l[l.length / 2]? = some x) :
    l = l.take (l.length / 2) ++ x :: l.drop (l.length / 2 + 1) := by
  obtain ⟨inside, rfl⟩ := List.getElem?_eq_some_iff.mp some
  rw [← List.drop_eq_getElem_cons, List.take_append_drop]

theorem length_front_le (enough : l.length ≤ fuel + 1) : (l.take (l.length / 2)).length ≤ fuel := by
  rw [List.length_take]
  omega

theorem length_back_le (enough : l.length ≤ fuel + 1) :
    (l.drop (l.length / 2 + 1)).length ≤ fuel := by
  rw [List.length_drop]
  omega

theorem middle_none (none : l[l.length / 2]? = none) : l = [] := by
  have short := List.getElem?_eq_none_iff.mp none
  exact List.length_eq_zero_iff.mp (by omega)

theorem partitionPoint_spec (enough : l.length ≤ fuel) (partitioned : Partitioned p l) :
    ∃ front back, l = front ++ back ∧ partitionPoint p fuel l = front.length ∧
      (∀ y ∈ front, p y = true) ∧ ∀ y ∈ back, p y = false := by
  induction fuel generalizing l with
  | zero =>
    obtain rfl : l = [] := List.length_eq_zero_iff.mp (by omega)
    exact ⟨[], [], rfl, rfl, by simp, by simp⟩
  | succ fuel ih =>
    rw [partitionPoint]
    cases found : l[l.length / 2]? with
    | none =>
      obtain rfl := middle_none found
      exact ⟨[], [], rfl, rfl, by simp, by simp⟩
    | some x =>
      have parts := middle found
      have length : (l.take (l.length / 2)).length = l.length / 2 := by
        rw [List.length_take]
        omega
      obtain ⟨inFront, inBack, ofMiddle, ofBack⟩ := partitioned_append.mp (parts ▸ partitioned)
      by_cases passes : p x = true
      · obtain ⟨front, back, here, count, passing, failing⟩ := ih (length_back_le enough) inBack
        refine ⟨l.take (l.length / 2) ++ x :: front, back, ?_, ?_, ?_, failing⟩
        · rw [List.append_assoc, List.cons_append, ← here]
          exact parts
        · simp only [passes, if_true, List.length_append, List.length_cons, length, count]
          omega
        · intro y member
          rcases List.mem_append.mp member with earlier | later
          · exact ofMiddle passes y earlier
          · rcases List.mem_cons.mp later with rfl | later
            · exact passes
            · exact passing y later
      · obtain ⟨front, back, here, count, passing, failing⟩ := ih (length_front_le enough) inFront
        refine ⟨front, back ++ x :: l.drop (l.length / 2 + 1), ?_, ?_, passing, ?_⟩
        · rw [← List.append_assoc, ← here]
          exact parts
        · simp only [passes, Bool.false_eq_true, if_false, count]
        · intro y member
          rcases List.mem_append.mp member with earlier | later
          · exact failing y earlier
          · rcases List.mem_cons.mp later with rfl | later
            · exact Bool.eq_false_iff.mpr passes
            · exact Bool.eq_false_iff.mpr fun also => passes (ofBack y later also).1

theorem mem_drop_partitionPoint (enough : l.length ≤ fuel) (partitioned : Partitioned p l) :
    y ∈ l.drop (partitionPoint p fuel l) ↔ y ∈ l ∧ p y = false := by
  obtain ⟨front, back, rfl, count, passing, failing⟩ := partitionPoint_spec enough partitioned
  rw [count, List.drop_left, List.mem_append]
  refine ⟨fun member => ⟨Or.inr member, failing y member⟩, ?_⟩
  rintro ⟨earlier | later, fails⟩
  · exact absurd (passing y earlier) (Bool.eq_false_iff.mp fails)
  · exact later

theorem mem_take_partitionPoint (enough : l.length ≤ fuel) (partitioned : Partitioned p l) :
    y ∈ l.take (partitionPoint p fuel l) ↔ y ∈ l ∧ p y = true := by
  obtain ⟨front, back, rfl, count, passing, failing⟩ := partitionPoint_spec enough partitioned
  rw [count, List.take_left, List.mem_append]
  refine ⟨fun member => ⟨Or.inl member, passing y member⟩, ?_⟩
  rintro ⟨earlier | later, passes⟩
  · exact earlier
  · exact absurd passes (Bool.eq_false_iff.mp (failing y later))

theorem mem_search (enough : l.length ≤ fuel) (lower : Partitioned before l)
    (upper : Partitioned (!after ·) l) :
    y ∈ search before after fuel l ↔ y ∈ l ∧ before y = false ∧ after y = false := by
  induction fuel generalizing l with
  | zero =>
    obtain rfl : l = [] := List.length_eq_zero_iff.mp (by omega)
    simp [search]
  | succ fuel ih =>
    rw [search]
    cases found : l[l.length / 2]? with
    | none =>
      obtain rfl := middle_none found
      simp
    | some x =>
      have parts := middle found
      obtain ⟨lowerFront, lowerBack, lowerMiddle, lowerLast⟩ := partitioned_append.mp (parts ▸ lower)
      obtain ⟨upperFront, upperBack, upperMiddle, upperLast⟩ := partitioned_append.mp (parts ▸ upper)
      have members : y ∈ l ↔ y ∈ l.take (l.length / 2) ∨ y = x ∨ y ∈ l.drop (l.length / 2 + 1) := by
        conv_lhs => rw [parts]
        rw [List.mem_append, List.mem_cons]
      simp only [Bool.not_eq_true'] at upperMiddle upperLast
      have inBack := ih (length_back_le enough) lowerBack upperBack
      have inFront := ih (length_front_le enough) lowerFront upperFront
      have left := mem_drop_partitionPoint (y := y) (length_front_le enough) lowerFront
      have right := mem_take_partitionPoint (y := y) (length_back_le enough) upperBack
      rw [Bool.not_eq_true'] at right
      dsimp only
      split_ifs with isBefore isAfter
      · rw [inBack, members]
        grind
      · rw [inFront, members]
        grind
      · rw [List.mem_append, List.mem_cons, left, right, members]
        grind

/-- In a partitioned list the range has the elements neither before nor after the value. -/
theorem mem_equalRange (lower : Partitioned before l) (upper : Partitioned (!after ·) l) :
    y ∈ equalRange before after l ↔ y ∈ l ∧ before y = false ∧ after y = false :=
  mem_search (Nat.le_refl _) lower upper

theorem search_subset : search before after fuel l ⊆ l := by
  induction fuel generalizing l with
  | zero => exact List.nil_subset l
  | succ fuel ih =>
    rw [search]
    cases found : l[l.length / 2]? with
    | none => exact List.nil_subset l
    | some x =>
      intro y member
      dsimp only at member
      split_ifs at member
      · exact List.mem_of_mem_drop (ih member)
      · exact List.mem_of_mem_take (ih member)
      · rw [middle found]
        rcases List.mem_append.mp member with front | back
        · exact List.mem_append_left _ (List.mem_of_mem_drop front)
        · rcases List.mem_cons.mp back with rfl | back
          · exact List.mem_append_right _ List.mem_cons_self
          · exact List.mem_append_right _ (List.mem_cons_of_mem x (List.mem_of_mem_take back))

/-- Whatever the order, a range that is not empty has an element neither before nor after. -/
theorem search_some (some : search before after fuel l ≠ []) :
    ∃ x ∈ search before after fuel l, before x = false ∧ after x = false := by
  induction fuel generalizing l with
  | zero => exact absurd rfl some
  | succ fuel ih =>
    rw [search] at some ⊢
    cases found : l[l.length / 2]? with
    | none => simp [found] at some
    | some x =>
      simp only [found] at some ⊢
      split_ifs at some ⊢ with isBefore isAfter
      · exact ih some
      · exact ih some
      · exact ⟨x, List.mem_append_right _ List.mem_cons_self,
          Bool.eq_false_iff.mpr isBefore, Bool.eq_false_iff.mpr isAfter⟩

end Arthas.Lib.EqualRange
