import Mathlib.Data.List.Sort

/-!
Lists of objects with keys into which runs of new objects are inserted, each run behind
the object with some key. A list that grew that way is the old list with a tail behind
every object.
-/

set_option autoImplicit false
set_option relaxedAutoImplicit false

namespace Arthas.Lib

variable {α κ : Type*} (key : α → κ)

def insertAfter [DecidableEq κ] (p : κ) (new l : List α) : List α :=
  l.flatMap fun a => if key a = p then a :: new else [a]

/-- Every object with the tail of its key behind it. -/
def expand (tail : κ → List α) (l : List α) : List α := l.flatMap fun a => a :: tail (key a)

section Insert

variable [DecidableEq κ] {key} {p : κ} {new l l' : List α}

theorem insertAfter_append :
    insertAfter key p new (l ++ l') = insertAfter key p new l ++ insertAfter key p new l' :=
  List.flatMap_append

theorem insertAfter_flatMap {β : Type*} (f : β → List α) (bs : List β) :
    insertAfter key p new (bs.flatMap f) = bs.flatMap fun b => insertAfter key p new (f b) :=
  List.flatMap_assoc

theorem insertAfter_absent (absent : ∀ a ∈ l, key a ≠ p) : insertAfter key p new l = l := by
  induction l with
  | nil => rfl
  | cons a l ih =>
    have here := absent a List.mem_cons_self
    have rest := ih fun b member => absent b (List.mem_cons_of_mem _ member)
    rw [insertAfter, List.flatMap_cons, if_neg here, ← insertAfter, rest]
    rfl

theorem insertAfter_split {a : α} {front back : List α} (here : key a = p)
    (before : ∀ b ∈ front, key b ≠ p) (behind : ∀ b ∈ back, key b ≠ p) :
    insertAfter key p new (front ++ a :: back) = front ++ a :: (new ++ back) := by
  have head : insertAfter key p new (a :: back) = a :: new ++ insertAfter key p new back := by
    rw [insertAfter, List.flatMap_cons, if_pos here, ← insertAfter]
  rw [insertAfter_append, insertAfter_absent before, head, insertAfter_absent behind]
  rfl

theorem mem_insertAfter {a : α} (member : a ∈ insertAfter key p new l) : a ∈ l ∨ a ∈ new := by
  obtain ⟨b, inside, here⟩ := List.mem_flatMap.mp member
  split at here
  · rcases List.mem_cons.mp here with rfl | added
    · exact Or.inl inside
    · exact Or.inr added
  · rw [List.mem_singleton.mp here]
    exact Or.inl inside

theorem mem_insertAfter_of_mem {a : α} (member : a ∈ l) : a ∈ insertAfter key p new l := by
  refine List.mem_flatMap.mpr ⟨a, member, ?_⟩
  split
  · exact List.mem_cons_self
  · exact List.mem_singleton_self a

/-- New objects with keys of their own keep the keys different. -/
theorem insertAfter_nodup (distinct : (l.map key).Nodup) (fresh : (new.map key).Nodup)
    (apart : ∀ a ∈ l, ∀ b ∈ new, key a ≠ key b) :
    ((insertAfter key p new l).map key).Nodup := by
  by_cases present : ∃ a ∈ l, key a = p
  · obtain ⟨a, inside, here⟩ := present
    obtain ⟨front, back, rfl⟩ := List.mem_iff_append.mp inside
    have perm : (front ++ a :: (new ++ back)).Perm ((front ++ a :: back) ++ new) := by
      rw [List.append_assoc, List.cons_append]
      exact (List.perm_append_comm.cons a).append_left front
    have parts := distinct
    rw [List.map_append, List.map_cons, List.nodup_append, List.nodup_cons] at parts
    obtain ⟨-, ⟨behind, -⟩, between⟩ := parts
    have split : insertAfter key p new (front ++ a :: back) = front ++ a :: (new ++ back) := by
      refine insertAfter_split here (fun b member eq => ?_) fun b member eq => ?_
      · exact between _ (List.mem_map_of_mem member) _ List.mem_cons_self (eq.trans here.symm)
      · exact behind (List.mem_map.mpr ⟨b, member, eq.trans here.symm⟩)
    rw [split, (perm.map key).nodup_iff, List.map_append, List.nodup_append]
    refine ⟨?_, fresh, ?_⟩
    · exact distinct
    · intro c inOld d inNew
      obtain ⟨x, hx, rfl⟩ := List.mem_map.mp inOld
      obtain ⟨y, hy, rfl⟩ := List.mem_map.mp inNew
      exact apart x hx y hy
  · rw [insertAfter_absent fun a inside here => present ⟨a, inside, here⟩]
    exact distinct

end Insert

section Expand

variable {key} {tail : κ → List α}

theorem expand_nil_tails (l : List α) : expand key (fun _ => []) l = l := by
  induction l with
  | nil => rfl
  | cons a l ih =>
    have head : expand key (fun _ => []) (a :: l) = a :: expand key (fun _ => []) l := rfl
    rw [head, ih]

/-- A run inserted behind an object without a tail becomes its tail. -/
theorem insertAfter_expand [DecidableEq κ] {p : κ} {new l : List α} (bare : tail p = [])
    (apart : ∀ q, ∀ a ∈ tail q, key a ≠ p) :
    insertAfter key p new (expand key tail l) = expand key (Function.update tail p new) l := by
  rw [expand, insertAfter_flatMap]
  apply List.flatMap_congr
  intro a _
  rw [insertAfter, List.flatMap_cons, ← insertAfter, insertAfter_absent (apart (key a))]
  by_cases here : key a = p
  · rw [if_pos here, here, Function.update_self, bare, List.append_nil]
  · rw [if_neg here, Function.update_of_ne here]
    rfl

/-- The objects of the tails taken out again. -/
theorem filter_expand {keep : α → Bool} {l : List α} (kept : ∀ a ∈ l, keep a = true)
    (dropped : ∀ q, ∀ a ∈ tail q, keep a = false) : (expand key tail l).filter keep = l := by
  induction l with
  | nil => rfl
  | cons a l ih =>
    have none : (tail (key a)).filter keep = [] :=
      List.filter_eq_nil_iff.mpr fun b member => by simp [dropped _ b member]
    rw [expand, List.flatMap_cons, ← expand, List.filter_append, List.filter_cons,
      if_pos (kept a List.mem_cons_self), none,
      ih fun b member => kept b (List.mem_cons_of_mem _ member)]
    rfl

theorem mem_expand {a : α} {l : List α} :
    a ∈ expand key tail l ↔ a ∈ l ∨ ∃ b ∈ l, a ∈ tail (key b) := by
  simp only [expand, List.mem_flatMap, List.mem_cons]
  constructor
  · rintro ⟨b, inside, rfl | behind⟩
    · exact Or.inl inside
    · exact Or.inr ⟨b, inside, behind⟩
  · rintro (inside | ⟨b, inside, behind⟩)
    · exact ⟨a, inside, Or.inl rfl⟩
    · exact ⟨b, inside, Or.inr behind⟩

theorem expand_append {l l' : List α} :
    expand key tail (l ++ l') = expand key tail l ++ expand key tail l' :=
  List.flatMap_append

end Expand

end Arthas.Lib
