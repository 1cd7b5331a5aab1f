import Arthas.Dg.DefUseEdges
import Arthas.Dg.LastWriters
import Arthas.Slicing.Dependences

/-!
The data that flows in an execution, and the edges of the dependence graph. A value comes
out of an operand, out of a function that was called, or out of memory, from the node that
wrote it last. A backward slice has every instruction that such a flow comes from.
-/

set_option autoImplicit false
set_option relaxedAutoImplicit false

namespace Arthas.Dg

open Lib Slicing Relation

variable {δ β γ υ ν κ ι φ : Type*} [DecidableEq ν]

/-- A point of an execution: the accesses up to it, from the last one back, and a node of the
dependence graphs. -/
abbrev Point (ν κ δ : Type*) := List (Access ν κ) × δ

/-- What flows into a node at a point comes from another one at a point not later. -/
inductive Flow (L : LLVMGraphs δ β γ υ) (R : LLVMDefinitions ν υ) (place : κ → ν × Nat) :
    Point ν κ δ → Point ν κ δ → Prop where
  | memory {a b : Access ν κ} {past before : List (Access ν κ)} {k : κ} {n m : δ} {val : υ}
    (here : R.getNode (L.getKey n) = some a.node) (reads : k ∈ a.reads)
    (kept : ∀ ds ∈ R.graph.overwrites a.node, ¬ ds.Fills R.graph.toObjects (place k))
    (last : LastWrite k past (b :: before)) (written : R.getUserData b.node = some val)
    (found : L.findNode val = some m) : Flow L R place (a :: past, n) (b :: before, m)
  | operand {t t' : List (Access ν κ)} {n m : δ} {op : υ} (earlier : t' <:+ t)
    (operand : op ∈ L.operands (L.getKey n)) (found : L.getNode (L.getDG n) op = some m) :
    Flow L R place (t, n) (t', m)
  | result {t t' : List (Access ν κ)} {n : δ} {subgraph : γ} (earlier : t' <:+ t)
    (call : L.isCall (L.getKey n) = true) (returns : L.isVoidTy n = false)
    (called : subgraph ∈ L.getSubgraphs n) : Flow L R place (t, n) (t', L.getExit subgraph)

/-- The dependence graph has the def-use edges, with reaching definitions from an analysis that
has not met its limit. -/
structure DefUseGraph [Fintype ν] [DecidableEq β] [Fintype β] (L : LLVMGraphs δ β γ υ)
    (R : LLVMDefinitions ν υ) (g : DependenceGraph δ β γ ι φ) : Prop where
  tractable : R.graph.Tractable
  analysed : ∃ s, R.graph.run .default = some s ∧ R.maps = s.maps ∧ s.totalNum ≤ visitLimit
  edges : ∃ edges, L.addDefUseEdges R = some edges ∧ ∀ e ∈ edges, e.2.2 ∈ g.edges e.1 e.2.1

/-- Flows through nodes that the def-use analysis gets to and that belong into slices. -/
def Flows (L : LLVMGraphs δ β γ υ) (R : LLVMDefinitions ν υ) (place : κ → ν × Nat)
    (g : DependenceGraph δ β γ ι φ) : Point ν κ δ → Point ν κ δ → Prop :=
  ReflTransGen fun p q => Flow L R place p q ∧ L.Walked q.2 ∧ (g.sliceInst q.2).isSome

section Flows

variable {L : LLVMGraphs δ β γ υ} {R : LLVMDefinitions ν υ} {place : κ → ν × Nat}
  {g : DependenceGraph δ β γ ι φ} {p q : Point ν κ δ} {a : Access ν κ}
  {past t t' write : List (Access ν κ)} {k : κ}

omit [DecidableEq ν] in
theorem LastWrite.suffix (last : LastWrite k past write) : write <:+ past := by
  induction last with
  | here => exact List.suffix_rfl
  | before _ _ _ ih => exact ih.trans (List.suffix_cons _ _)

/-- What comes before an access of an execution is one, if there was something. -/
theorem RDGraph.Execution.suffix {G : RDGraph ν} (run : G.Execution place (a :: past))
    (earlier : t <:+ a :: past) (some : t ≠ []) : G.Execution place t := by
  induction past generalizing a with
  | nil =>
    rcases List.suffix_cons_iff.mp earlier with rfl | earlier
    · exact run
    · exact absurd (List.suffix_nil.mp earlier) some
  | cons b past ih =>
    rcases List.suffix_cons_iff.mp earlier with rfl | earlier
    · exact run
    · exact ih run.tail earlier

theorem Flow.suffix (flow : Flow L R place p q) : q.1 <:+ p.1 := by
  cases flow with
  | memory _ _ _ last => exact last.suffix.trans (List.suffix_cons _ _)
  | operand earlier => exact earlier
  | result earlier => exact earlier

variable [Fintype ν] [DecidableEq β] [Fintype β]

/-- What flows into a node has an edge to it. -/
theorem Flow.edge (flow : Flow L R place p q) (computed : DefUseGraph L R g)
    (run : p.1 ≠ [] → R.graph.Execution place p.1) (walked : L.Walked p.2) :
    p.2 ∈ g.edges .use q.2 ∨ p.2 ∈ g.edges .data q.2 := by
  obtain ⟨edges, added, inGraph⟩ := computed.edges
  have spec := L.addDefUseEdges_spec (R := R)
  rw [added] at spec
  obtain ⟨edges', same, defined, members⟩ := spec.resolve_right fun aborts =>
    Option.some_ne_none edges aborts.1
  obtain rfl := Option.some.inj same
  obtain ⟨ofNode, ran⟩ := defined p.2 walked
  have holds : ∀ e ∈ ofNode, e.2.2 ∈ g.edges e.1 e.2.1 := fun e member =>
    inGraph e ((members e).mpr ⟨p.2, walked, ofNode, ran, member⟩)
  have mem := fun e => LLVMGraphs.mem_runOnNode (e := e) ran
  cases flow with
  | @memory a b past before k n m val here reads kept last written found =>
    obtain ⟨s, finished, sameMaps, below⟩ := computed.analysed
    obtain ⟨s', finished', analysed⟩ := R.graph.run_spec
    obtain rfl : s = s' := Option.some.inj (finished.symm.trans finished')
    have execution := run (List.cons_ne_nil a past)
    have reaching := execution.found computed.tractable analysed.plain
      (analysed.complete below) reads kept last
    obtain ⟨u, used, -⟩ := execution.admits.reads k reads
    obtain ⟨defs, got, -⟩ := Option.bind_eq_some_iff.mp ran
    have answers : (R.graph.getReachingDefinitions R.maps a.node).mapM R.getUserData =
        some defs := by
      rw [LLVMDefinitions.getReachingDefinitions, here] at got
      dsimp only at got
      rwa [if_neg (List.ne_nil_of_mem used)] at got
    have isDef : val ∈ defs := by
      rw [mem_of_mapM_eq_some answers]
      exact ⟨b.node, sameMaps ▸ reaching, written⟩
    exact Or.inr (holds (.data, m, n) ((mem _).mpr
      (Or.inr (Or.inr ⟨defs, got, val, isDef, m, found, rfl⟩))))
  | @operand t t' n m op earlier operand found =>
    exact Or.inl (holds (.use, m, n) ((mem _).mpr (Or.inl ⟨op, operand, m, found, rfl⟩)))
  | @result t t' n subgraph earlier call returns called =>
    exact Or.inr (holds (.data, L.getExit subgraph, n)
      ((mem _).mpr (Or.inr (Or.inl ⟨call, returns, subgraph, called, rfl⟩))))

/-- A backward slice along register and memory dependences has what flows to its start in any
execution. -/
theorem Flows.storeReach {sliceDepFlags : Nat} (flows : Flows L R place g p q)
    (computed : DefUseGraph L R g) (run : p.1 ≠ [] → R.graph.Execution place p.1)
    (walked : L.Walked p.2) (sliced : (g.sliceInst p.2).isSome)
    (registers : sliceDepFlags &&& SliceDependenceFlags.defUse ≠ 0)
    (memory : sliceDepFlags &&& SliceDependenceFlags.memory ≠ 0) :
    g.StoreReach .backward sliceDepFlags p.2 q.2 := by
  have all : g.StoreReach .backward sliceDepFlags p.2 q.2 ∧ L.Walked q.2 ∧
      (g.sliceInst q.2).isSome ∧ (q.1 ≠ [] → R.graph.Execution place q.1) := by
    induction flows with
    | refl => exact ⟨.refl, walked, sliced, run⟩
    | @tail q r _ step ih =>
      obtain ⟨reach, walked, sliced, run⟩ := ih
      obtain ⟨flow, walked', sliced'⟩ := step
      have edge : g.StoreEdge .backward sliceDepFlags q.2 r.2 := by
        rcases flow.edge computed run walked with used | data
        · exact .edge .user ⟨registers, Or.inr rfl⟩ ((g.edges_reverse .use _ _).mp used)
        · exact .edge .revData ⟨memory, Or.inr rfl⟩ ((g.edges_reverse .data _ _).mp data)
      refine ⟨reach.tail ⟨sliced, sliced', edge⟩, walked', sliced', fun some => ?_⟩
      have earlier := flow.suffix
      cases now : q.1 with
      | nil =>
        rw [now] at earlier
        exact absurd (List.suffix_nil.mp earlier) some
      | cons a past =>
        rw [now] at earlier run
        exact (run (List.cons_ne_nil a past)).suffix earlier some
  exact all.1

end Flows

end Arthas.Dg
