import Mathlib.Data.Fintype.Card

/-!
A worklist whose elements are marked when they are put in. The order in which they are
taken out is a parameter, and so is what is done with each of them: a rule for the loop
gives what holds when the list is empty, and what is marked then is what can be reached.
-/

set_option autoImplicit false
set_option relaxedAutoImplicit false

namespace Arthas.Lib.Worklist

open Relation

variable {α σ : Type*}

/-- Where a new element goes; the first of the list is the next one taken out. -/
structure Discipline (α : Type*) where
  push : α → List α → List α
  push_perm : ∀ a l, (push a l).Perm (a :: l)

def Discipline.lifo : Discipline α := ⟨List.cons, fun _ _ => .refl _⟩

def Discipline.fifo : Discipline α :=
  ⟨fun a l => l ++ [a], fun _ _ => List.perm_append_singleton _ _⟩

/-- The marked elements are the ones taken out and, each once, the ones in the list. -/
structure Frontier (reach marked : α → Prop) (done : Finset α) (queue : List α) : Prop where
  nodup : queue.Nodup
  waiting : ∀ a ∈ queue, a ∉ done
  mem : ∀ a, marked a ↔ a ∈ done ∨ a ∈ queue
  reach : ∀ a, marked a → reach a

/-- What the elements taken out lead to is marked. -/
def Closed (step : α → α → Prop) (marked : α → Prop) (done : Finset α) : Prop :=
  ∀ a ∈ done, ∀ b, step a b → marked b

section Frontier

variable {reach marked marked' : α → Prop} {done : Finset α} {queue : List α}

theorem Frontier.empty (unmarked : ∀ a, ¬ marked a) : Frontier reach marked ∅ [] where
  nodup := List.nodup_nil
  waiting _ member := (List.not_mem_nil member).elim
  mem a := by simp [unmarked a]
  reach a mark := absurd mark (unmarked a)

theorem Frontier.enqueue (h : Frontier reach marked done queue) (d : Discipline α) {a : α}
    (reached : reach a) (new : ¬ marked a) (marks : ∀ b, marked' b ↔ marked b ∨ b = a) :
    Frontier reach marked' done (d.push a queue) := by
  have perm := d.push_perm a queue
  have notMem : a ∉ queue := fun member => new ((h.mem a).mpr (Or.inr member))
  refine ⟨?_, fun b member => ?_, fun b => ?_, fun b mark => ?_⟩
  · rw [perm.nodup_iff, List.nodup_cons]
    exact ⟨notMem, h.nodup⟩
  · rcases List.mem_cons.mp (perm.mem_iff.mp member) with rfl | member
    · exact fun inDone => new ((h.mem b).mpr (Or.inl inDone))
    · exact h.waiting b member
  · rw [marks, h.mem, perm.mem_iff, List.mem_cons]
    tauto
  · rcases (marks b).mp mark with mark | rfl
    · exact h.reach b mark
    · exact reached

theorem Frontier.pop [DecidableEq α] {a : α} (h : Frontier reach marked done (a :: queue)) :
    Frontier reach marked (insert a done) queue := by
  have nodup := List.nodup_cons.mp h.nodup
  refine ⟨nodup.2, fun b member inDone => ?_, fun b => ?_, h.reach⟩
  · rcases Finset.mem_insert.mp inDone with rfl | inDone
    · exact nodup.1 member
    · exact h.waiting b (List.mem_cons_of_mem a member) inDone
  · rw [h.mem, List.mem_cons, Finset.mem_insert]
    tauto

/-- Elements taken out are marked. -/
theorem Frontier.marked_of_done (h : Frontier reach marked done queue) {a : α}
    (member : a ∈ done) : marked a := (h.mem a).mpr (Or.inl member)

/-- When the list is empty, what was taken out is what can be reached. -/
theorem Frontier.complete {step : α → α → Prop} {root : α}
    (h : Frontier (ReflTransGen step root) marked done [])
    (closed : Closed step marked done) (rootMarked : marked root) (a : α) :
    a ∈ done ↔ ReflTransGen step root a := by
  have finished : ∀ b, marked b → b ∈ done := fun b mark =>
    ((h.mem b).mp mark).resolve_right List.not_mem_nil
  refine ⟨fun member => h.reach a (h.marked_of_done member), fun reached => ?_⟩
  induction reached with
  | refl => exact finished root rootMarked
  | tail _ leads ih => exact finished _ (closed _ ih _ leads)

end Frontier

/-- Elements are taken out and visited until the list is empty; a visit may put in more, or
be undefined. -/
def drain (queue : σ → List α) (setQueue : List α → σ → σ) (visit : α → σ → Option σ) :
    Nat → σ → Option σ
  | 0, _ => none
  | fuel + 1, s =>
    match queue s with
    | [] => some s
    | a :: rest => (visit a (setQueue rest s)).bind (drain queue setQueue visit fuel)

section Drain

variable {queue : σ → List α} {setQueue : List α → σ → σ} {visit : α → σ → Option σ}

/-- What each visit keeps, the loop keeps. -/
theorem drain_keeps {P : σ → Prop}
    (kept : ∀ a rest s s', P s → visit a (setQueue rest s) = some s' → P s')
    {fuel : Nat} {s s' : σ} (holds : P s) (run : drain queue setQueue visit fuel s = some s') :
    P s' := by
  induction fuel generalizing s with
  | zero => exact absurd run (by simp [drain])
  | succ fuel ih =>
    rw [drain] at run
    split at run
    · exact Option.some.inj run ▸ holds
    · obtain ⟨next, visited, run⟩ := Option.bind_eq_some_iff.mp run
      exact ih (kept _ _ _ _ holds visited) run

/-- What the visits of the elements in the list keep holds when the list is empty. -/
theorem drain_ends {P : σ → Prop}
    (kept : ∀ s a rest s', P s → queue s = a :: rest → visit a (setQueue rest s) = some s' → P s')
    {fuel : Nat} {s s' : σ} (holds : P s) (run : drain queue setQueue visit fuel s = some s') :
    queue s' = [] ∧ P s' := by
  induction fuel generalizing s with
  | zero => exact absurd run (by simp [drain])
  | succ fuel ih =>
    rw [drain] at run
    cases front : queue s with
    | nil =>
      rw [front] at run
      obtain rfl := Option.some.inj run
      exact ⟨front, holds⟩
    | cons a rest =>
      rw [front] at run
      obtain ⟨next, visited, run⟩ := Option.bind_eq_some_iff.mp run
      exact ih (kept s a rest next holds front visited) run

/-- With an invariant of the elements taken out, each of them for the first time, the loop
over finitely many elements ends, unless it meets an element whose visit is undefined. -/
theorem drain_spec [Fintype α] [DecidableEq α] {I : Finset α → σ → Prop} {bad : α → Prop}
    (waiting : ∀ done s a rest, I done s → queue s = a :: rest → a ∉ done)
    (visits : ∀ done s a rest, I done s → queue s = a :: rest →
      (∃ s', visit a (setQueue rest s) = some s' ∧ ¬ bad a ∧ I (insert a done) s') ∨
      (visit a (setQueue rest s) = none ∧ bad a))
    {fuel : Nat} {done : Finset α} {s : σ} (enough : Fintype.card α < fuel + done.card)
    (holds : I done s) (sound : ∀ a ∈ done, ¬ bad a) :
    (∃ s' done', drain queue setQueue visit fuel s = some s' ∧ queue s' = [] ∧ I done' s' ∧
      ∀ a ∈ done', ¬ bad a) ∨
    (drain queue setQueue visit fuel s = none ∧
      ∃ done' s' a rest, I done' s' ∧ queue s' = a :: rest ∧ bad a) := by
  induction fuel generalizing done s with
  | zero =>
    have atMost := Finset.card_le_univ done
    omega
  | succ fuel ih =>
    rw [drain]
    cases front : queue s with
    | nil => exact Or.inl ⟨s, done, rfl, front, holds, sound⟩
    | cons a rest =>
      have new := waiting done s a rest holds front
      rcases visits done s a rest holds front with ⟨s', visited, good, kept⟩ | ⟨undefined, isBad⟩
      · simp only [visited, Option.bind_some]
        refine ih ?_ kept fun b member => ?_
        · rw [Finset.card_insert_of_notMem new]
          omega
        · rcases Finset.mem_insert.mp member with rfl | member
          · exact good
          · exact sound b member
      · refine Or.inr ⟨?_, done, s, a, rest, holds, front, isBad⟩
        simp only [undefined, Option.bind_none]

end Drain

section Detour

/-- A path of `r` with a step that is not one of `s`. -/
def Detour (r s : α → α → Prop) (a b : α) : Prop :=
  ∃ u v, ReflTransGen r a u ∧ r u v ∧ ¬ s u v ∧ ReflTransGen r v b

variable {r s : α → α → Prop} {a b : α}

theorem Detour.reach (h : Detour r s a b) : ReflTransGen r a b := by
  obtain ⟨u, v, before, step, -, after⟩ := h
  exact (before.tail step).trans after

/-- What is not on a detour is reached by steps of both kinds. -/
theorem reach_or_detour (h : ReflTransGen r a b) : ReflTransGen s a b ∨ Detour r s a b := by
  induction h with
  | refl => exact Or.inl .refl
  | @tail u v before step ih =>
    rcases ih with reached | ⟨u', v', start, leaves, other, after⟩
    · by_cases also : s u v
      · exact Or.inl (reached.tail also)
      · exact Or.inr ⟨u, v, before, step, also, .refl⟩
    · exact Or.inr ⟨u', v', start, leaves, other, after.tail step⟩

end Detour

end Arthas.Lib.Worklist
