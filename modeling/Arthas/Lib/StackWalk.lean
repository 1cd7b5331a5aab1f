import Arthas.Lib.Batching

/-!
A depth-first walk with an explicit stack, whose elements are marked when they are
pushed. A fold over the walk keeps an invariant when each expansion does, and the walk
meets every reachable element once.
-/

set_option autoImplicit false
set_option relaxedAutoImplicit false

namespace Arthas.Lib.StackWalk

open Batching Relation

variable {ν : Type*} [DecidableEq ν]

/-- An element taken from the stack: what was below it, and what it led to first, in the
order of pushing. -/
structure Expansion (ν : Type*) where
  node : ν
  pending : List ν
  found : List ν

/-- The expansions of the walk from a stack of marked elements. -/
def expansions (succ : ν → List ν) : Nat → List ν → List ν → List (Expansion ν)
  | 0, _, _ => []
  | _ + 1, _, [] => []
  | fuel + 1, marked, node :: pending =>
    let found := fresh marked (succ node)
    ⟨node, pending, found⟩ :: expansions succ fuel (found ++ marked) (found.reverse ++ pending)

/-- The walk from one element. -/
def walk (succ : ν → List ν) (fuel : Nat) (root : ν) : List (Expansion ν) :=
  expansions succ fuel [root] [root]

/-- `v` is among the successors of `u`. -/
def Leads (succ : ν → List ν) (u v : ν) : Prop := v ∈ succ u

/-- The state of a walk from `root`, in a finite part of the graph, after the expansions
`es`. -/
structure Walked (succ : ν → List ν) (root : ν) (nodes : List ν) (es : List (Expansion ν))
    (marked stack : List ν) : Prop where
  nodup : (es.map Expansion.node ++ stack).Nodup
  mem : ∀ v, v ∈ marked ↔ v ∈ es.map Expansion.node ∨ v ∈ stack
  closed : ∀ v ∈ es.map Expansion.node, ∀ u ∈ succ v, u ∈ marked
  reach : ∀ v ∈ marked, ReflTransGen (Leads succ) root v
  root_mem : root ∈ marked
  bound : ∀ v ∈ marked, v ∈ nodes

section Walk

variable {succ : ν → List ν} {root : ν} {nodes : List ν}
  (hnodes : ∀ v ∈ nodes, ∀ u ∈ succ v, u ∈ nodes)

omit [DecidableEq ν] in
theorem Walked.start (hroot : root ∈ nodes) : Walked succ root nodes [] [root] [root] where
  nodup := List.nodup_singleton root
  mem v := by simp
  closed := by simp
  reach v hv := List.mem_singleton.mp hv ▸ ReflTransGen.refl
  root_mem := List.mem_singleton_self root
  bound v hv := List.mem_singleton.mp hv ▸ hroot

include hnodes in
theorem Walked.step {es : List (Expansion ν)} {marked pending : List ν} {node : ν}
    (h : Walked succ root nodes es marked (node :: pending)) :
    let found := fresh marked (succ node)
    Walked succ root nodes (es ++ [⟨node, pending, found⟩]) (found ++ marked)
      (found.reverse ++ pending) := by
  intro found
  have hnode : node ∈ marked := (h.mem node).mpr (Or.inr List.mem_cons_self)
  have hmap : (es ++ [(⟨node, pending, found⟩ : Expansion ν)]).map Expansion.node =
      es.map Expansion.node ++ [node] := by rw [List.map_append]; rfl
  have hperm : (es.map Expansion.node ++ [node] ++ (found.reverse ++ pending)).Perm
      (found ++ (es.map Expansion.node ++ node :: pending)) := by
    rw [List.append_assoc, List.singleton_append]
    have hmiddle : (node :: (found.reverse ++ pending)).Perm (found ++ node :: pending) :=
      (((List.reverse_perm found).append_right pending).cons node).trans
        List.perm_middle.symm
    exact (hmiddle.append_left _).trans (List.perm_append_comm_assoc _ _ _)
  refine ⟨?_, fun v => ?_, fun v hv u hu => ?_, fun v hv => ?_, ?_, fun v hv => ?_⟩
  · rw [hmap, hperm.nodup_iff]
    refine List.nodup_append'.mpr ⟨nodup_fresh marked (succ node), h.nodup, fun v hv hold => ?_⟩
    exact (mem_fresh.mp hv).2 ((h.mem v).mpr (List.mem_append.mp hold))
  · rw [hmap, List.mem_append, h.mem v]
    simp only [List.mem_append, List.mem_cons, List.mem_reverse, List.not_mem_nil, or_false]
    tauto
  · rw [hmap, List.mem_append, List.mem_singleton] at hv
    rcases hv with hv | rfl
    · exact List.mem_append_right _ (h.closed v hv u hu)
    · by_cases hold : u ∈ marked
      · exact List.mem_append_right _ hold
      · exact List.mem_append_left _ (mem_fresh.mpr ⟨hu, hold⟩)
  · rcases List.mem_append.mp hv with hv | hv
    · exact (h.reach node hnode).tail (mem_fresh.mp hv).1
    · exact h.reach v hv
  · exact List.mem_append_right _ h.root_mem
  · rcases List.mem_append.mp hv with hv | hv
    · exact hnodes node (h.bound node hnode) v (mem_fresh.mp hv).1
    · exact h.bound v hv

omit [DecidableEq ν] in
/-- With something on the stack, not all elements have been expanded. -/
theorem Walked.length_lt {es : List (Expansion ν)} {marked pending : List ν} {node : ν}
    (h : Walked succ root nodes es marked (node :: pending)) : es.length < nodes.length := by
  have hsub : (es.map Expansion.node ++ node :: pending) ⊆ nodes := fun v hv =>
    h.bound v ((h.mem v).mpr (List.mem_append.mp hv))
  have hle := (h.nodup.subperm hsub).length_le
  rw [List.length_append, List.length_map, List.length_cons] at hle
  omega

include hnodes in
/-- A fold over the walk keeps what every expansion keeps, and the walk ends. -/
theorem Walked.run {σ : Type*} (place : σ → Expansion ν → σ)
    {I : List (Expansion ν) → List ν → List ν → σ → Prop}
    (hstep : ∀ es marked pending node s, Walked succ root nodes es marked (node :: pending) →
      I es marked (node :: pending) s →
      let found := fresh marked (succ node)
      I (es ++ [⟨node, pending, found⟩]) (found ++ marked) (found.reverse ++ pending)
        (place s ⟨node, pending, found⟩))
    (fuel : Nat) {es : List (Expansion ν)} {marked stack : List ν} (s : σ)
    (hfuel : nodes.length ≤ es.length + fuel)
    (h : Walked succ root nodes es marked stack) (hI : I es marked stack s) :
    ∃ marked', Walked succ root nodes (es ++ expansions succ fuel marked stack) marked' [] ∧
      I (es ++ expansions succ fuel marked stack) marked' []
        ((expansions succ fuel marked stack).foldl place s) := by
  induction fuel generalizing es marked stack s with
  | zero =>
    cases stack with
    | nil => exact ⟨marked, by simpa [expansions] using h, by simpa [expansions] using hI⟩
    | cons node pending =>
      have := h.length_lt
      omega
  | succ fuel ih =>
    cases stack with
    | nil => exact ⟨marked, by simpa [expansions] using h, by simpa [expansions] using hI⟩
    | cons node pending =>
      obtain ⟨marked', hwalked, hkept⟩ := ih _ (by rw [List.length_append, List.length_singleton]; omega)
        (h.step hnodes) (hstep es marked pending node s h hI)
      rw [List.append_assoc] at hwalked hkept
      exact ⟨marked', hwalked, hkept⟩

include hnodes in
/-- More fuel than there are elements changes nothing. -/
theorem Walked.expansions_eq {fuel fuel' : Nat} {es : List (Expansion ν)}
    {marked stack : List ν} (hfuel : nodes.length ≤ es.length + fuel)
    (hfuel' : nodes.length ≤ es.length + fuel') (h : Walked succ root nodes es marked stack) :
    expansions succ fuel marked stack = expansions succ fuel' marked stack := by
  induction fuel generalizing fuel' es marked stack with
  | zero =>
    cases stack with
    | nil => cases fuel' <;> rfl
    | cons node pending =>
      have := h.length_lt
      omega
  | succ fuel ih =>
    cases stack with
    | nil => cases fuel' <;> rfl
    | cons node pending =>
      cases fuel' with
      | zero =>
        have := h.length_lt
        omega
      | succ fuel' =>
        rw [expansions, expansions]
        congr 1
        refine ih ?_ ?_ (h.step hnodes) <;>
        · rw [List.length_append, List.length_singleton]
          omega

include hnodes in
/-- The walk expands every reachable element, and each once. -/
theorem walk_spec (hroot : root ∈ nodes) {fuel : Nat} (hfuel : nodes.length ≤ fuel) :
    ((walk succ fuel root).map Expansion.node).Nodup ∧
      ∀ v, v ∈ (walk succ fuel root).map Expansion.node ↔
        ReflTransGen (Leads succ) root v := by
  obtain ⟨marked, hwalked, -⟩ := Walked.run hnodes (fun s _ => s)
    (I := fun _ _ _ (_ : Unit) => True) (fun _ _ _ _ _ _ _ => trivial) fuel () (by simpa using hfuel)
    (Walked.start hroot) trivial
  rw [List.nil_append] at hwalked
  have hnodup := hwalked.nodup
  rw [List.append_nil] at hnodup
  refine ⟨hnodup, fun v => ⟨fun hv => hwalked.reach v ((hwalked.mem v).mpr (Or.inl hv)), ?_⟩⟩
  intro hreach
  have hmarked : v ∈ marked := by
    induction hreach with
    | refl => exact hwalked.root_mem
    | tail _ hlead ih =>
      refine hwalked.closed _ (((hwalked.mem _).mp ih).resolve_right List.not_mem_nil) _ hlead
  exact ((hwalked.mem v).mp hmarked).resolve_right List.not_mem_nil

end Walk

end Arthas.Lib.StackWalk
