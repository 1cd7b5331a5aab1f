import Mathlib.Data.List.Sort

/-!
Sorting with a comparator that may be undefined. A sort promises its result only where the
comparator is a strict weak order on the elements; then they come out in some order that
puts no element behind one that it precedes, and all such orders are possible.
-/

set_option autoImplicit false
set_option relaxedAutoImplicit false

namespace Arthas.Lib

variable {α : Type*}

/-- Whether the first element precedes the second; nothing where that is undefined. -/
abbrev Comparator (α : Type*) := α → α → Option Bool

namespace Comparator

def Less (cmp : Comparator α) (a b : α) : Prop := cmp a b = some true

def Incomparable (cmp : Comparator α) (a b : α) : Prop := ¬ cmp.Less a b ∧ ¬ cmp.Less b a

/-- The comparator is a strict weak order on a set. -/
structure StrictWeak (cmp : Comparator α) (S : Set α) : Prop where
  defined : ∀ a ∈ S, ∀ b ∈ S, (cmp a b).isSome = true
  irrefl : ∀ a ∈ S, ¬ cmp.Less a a
  asymm : ∀ a ∈ S, ∀ b ∈ S, cmp.Less a b → ¬ cmp.Less b a
  trans : ∀ a ∈ S, ∀ b ∈ S, ∀ c ∈ S, cmp.Less a b → cmp.Less b c → cmp.Less a c
  incomparable : ∀ a ∈ S, ∀ b ∈ S, ∀ c ∈ S,
    cmp.Incomparable a b → cmp.Incomparable b c → cmp.Incomparable a c

/-- The results that a sort may have. -/
def Sorts (cmp : Comparator α) (l r : List α) : Prop :=
  cmp.StrictWeak {a | a ∈ l} → r.Perm l ∧ r.Pairwise fun a b => ¬ cmp.Less b a

variable {cmp : Comparator α} {S : Set α}

/-- Where one element precedes another, any third one comes after the first or before the
second. -/
theorem StrictWeak.less_or_less (h : cmp.StrictWeak S) {a b c : α} (ha : a ∈ S) (hb : b ∈ S)
    (hc : c ∈ S) (less : cmp.Less a c) : cmp.Less a b ∨ cmp.Less b c := by
  by_contra! neither
  obtain ⟨notFirst, notSecond⟩ := neither
  have first : cmp.Incomparable a b :=
    ⟨notFirst, fun back => notSecond (h.trans b hb a ha c hc back less)⟩
  have second : cmp.Incomparable b c :=
    ⟨notSecond, fun back => notFirst (h.trans a ha c hc b hb less back)⟩
  exact (h.incomparable a ha b hb c hc first second).1 less

/-- In a sorted list there is a place for a new element in front of all that it does not
come after. -/
theorem StrictWeak.place (h : cmp.StrictWeak S) {a : α} (ha : a ∈ S) {r : List α}
    (inside : ∀ b ∈ r, b ∈ S) (sorted : r.Pairwise fun a b => ¬ cmp.Less b a) :
    ∃ r₁ r₂, r = r₁ ++ r₂ ∧ (∀ b ∈ r₁, cmp.Less b a) ∧
      (r₁ ++ a :: r₂).Pairwise fun a b => ¬ cmp.Less b a := by
  induction r with
  | nil => exact ⟨[], [], rfl, by simp, by simp⟩
  | cons b r ih =>
    obtain ⟨after, rest⟩ := List.pairwise_cons.mp sorted
    have hb := inside b List.mem_cons_self
    by_cases less : cmp.Less b a
    · obtain ⟨r₁, r₂, rfl, before, placed⟩ :=
        ih (fun c member => inside c (List.mem_cons_of_mem b member)) rest
      refine ⟨b :: r₁, r₂, rfl, ?_, List.pairwise_cons.mpr ⟨?_, placed⟩⟩
      · intro c member
        rcases List.mem_cons.mp member with rfl | member
        · exact less
        · exact before c member
      · intro c member
        rcases List.mem_append.mp member with member | member
        · exact after c (List.mem_append_left r₂ member)
        rcases List.mem_cons.mp member with rfl | member
        · exact h.asymm b hb c ha less
        · exact after c (List.mem_append_right r₁ member)
    · refine ⟨[], b :: r, rfl, by simp, List.pairwise_cons.mpr ⟨?_, sorted⟩⟩
      intro c member
      rcases List.mem_cons.mp member with rfl | member
      · exact less
      · intro behind
        rcases h.less_or_less (inside c (List.mem_cons_of_mem b member)) hb ha behind with
          first | second
        · exact after c member first
        · exact less second

theorem StrictWeak.exists_sorted (h : cmp.StrictWeak S) {l : List α} (inside : ∀ a ∈ l, a ∈ S) :
    ∃ r : List α, r.Perm l ∧ r.Pairwise fun a b => ¬ cmp.Less b a := by
  induction l with
  | nil => exact ⟨[], .refl _, .nil⟩
  | cons a l ih =>
    obtain ⟨r, perm, sorted⟩ := ih fun b member => inside b (List.mem_cons_of_mem a member)
    obtain ⟨r₁, r₂, rfl, -, placed⟩ := h.place (inside a List.mem_cons_self)
      (fun b member => inside b (List.mem_cons_of_mem a (perm.mem_iff.mp member))) sorted
    exact ⟨_, List.perm_middle.trans (perm.cons a), placed⟩

/-- Every list has a result. -/
theorem exists_sorts (cmp : Comparator α) (l : List α) : ∃ r, cmp.Sorts l r := by
  by_cases h : cmp.StrictWeak {a | a ∈ l}
  · obtain ⟨r, result⟩ := h.exists_sorted fun _ => id
    exact ⟨r, fun _ => result⟩
  · exact ⟨[], fun valid => (h valid).elim⟩

/-- Unless an element precedes another one, the other one may come out in front of it. -/
theorem StrictWeak.exists_sorted_before {l : List α} (h : cmp.StrictWeak {a | a ∈ l}) {a b : α}
    (ha : a ∈ l) (hb : b ∈ l) (different : a ≠ b) (notLess : ¬ cmp.Less a b) :
    ∃ r : List α, r.Perm l ∧ (r.Pairwise fun a b => ¬ cmp.Less b a) ∧
      ∃ r₁ r₂, r = r₁ ++ b :: r₂ ∧ a ∈ r₂ := by
  obtain ⟨s, t, rfl⟩ := List.append_of_mem hb
  obtain ⟨r, perm, sorted⟩ := h.exists_sorted (l := s ++ t) fun c member => by
    rcases List.mem_append.mp member with member | member
    · exact List.mem_append_left _ member
    · exact List.mem_append_right _ (List.mem_cons_of_mem b member)
  have inside : ∀ c ∈ r, c ∈ s ++ b :: t := fun c member =>
    List.perm_middle.symm.mem_iff.mp (List.mem_cons_of_mem b (perm.mem_iff.mp member))
  obtain ⟨r₁, r₂, rfl, before, placed⟩ := h.place hb inside sorted
  refine ⟨_, (List.perm_middle.trans (perm.cons b)).trans List.perm_middle.symm, placed, r₁, r₂,
    rfl, ?_⟩
  have member : a ∈ r₁ ++ r₂ := by
    apply perm.mem_iff.mpr
    rcases List.mem_append.mp ha with member | member
    · exact List.mem_append_left t member
    · exact List.mem_append_right s ((List.mem_cons.mp member).resolve_left different)
  exact (List.mem_append.mp member).resolve_left fun first => notLess (before a first)

/-- Every result has the elements in a wanted order exactly when the comparator is a strict
weak order on them that decides for what is wanted. The elements may carry more than what is
compared of the result. -/
theorem sorts_iff {β : Type*} (f : α → β) {l : List α} {before : α → α → Prop}
    (irrefl : ∀ a, ¬ before a a) :
    (∀ r, cmp.Sorts l r → (r.map f).Perm (l.map f) ∧ r.Pairwise fun a b => ¬ before b a) ↔
      cmp.StrictWeak {a | a ∈ l} ∧ ∀ a ∈ l, ∀ b ∈ l, before a b → cmp.Less a b := by
  constructor
  · intro all
    have valid : cmp.StrictWeak {a | a ∈ l} := by
      by_contra invalid
      have empty := (all [] fun valid => (invalid valid).elim).1
      obtain rfl : l = [] := List.map_eq_nil_iff.mp empty.symm.eq_nil
      exact invalid ⟨by simp, by simp, by simp, by simp, by simp⟩
    refine ⟨valid, fun a ha b hb first => ?_⟩
    by_contra notLess
    have different : a ≠ b := by
      rintro rfl
      exact irrefl a first
    obtain ⟨r, perm, sorted, r₁, r₂, rfl, behind⟩ :=
      valid.exists_sorted_before ha hb different notLess
    have order := (all _ fun _ => ⟨perm, sorted⟩).2
    have rest := (List.pairwise_append.mp order).2.1
    exact (List.pairwise_cons.mp rest).1 a behind first
  · rintro ⟨valid, wanted⟩ r sorts
    obtain ⟨perm, sorted⟩ := sorts valid
    refine ⟨perm.map f, sorted.imp_of_mem fun {a b} ha hb notLess first => ?_⟩
    exact notLess (wanted b (perm.mem_iff.mp hb) a (perm.mem_iff.mp ha) first)

end Comparator

end Arthas.Lib
