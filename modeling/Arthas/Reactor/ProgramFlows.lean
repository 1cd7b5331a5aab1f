import Arthas.Dg.BuiltGraphs
import Arthas.Reactor.FaultFlows

/-!
From a run of the program to the updates that are tried, without assumptions on the sites of
the reaching definitions: they are those of the builder, and the pointer analysis is sound.
-/

set_option autoImplicit false
set_option relaxedAutoImplicit false

namespace Arthas.Reactor

open Arthas.Lib Arthas.Slicing Arthas.Dg Checkpoint

section Programs

variable {δ β γ ι φ υ ω ν κ : Type} [DecidableEq δ] [DecidableEq β] [DecidableEq γ]
  [DecidableEq ι] [DecidableEq φ] [Fintype δ] [Fintype β] [DecidableEq ν] [Fintype ν]
  {G : BuiltGraph ν ω} {g : DependenceGraph δ β γ ι φ} {L : LLVMGraphs δ β γ υ}
  {R : LLVMDefinitions ν υ} {place : κ → ν × Nat} {insts : φ → List ι} {faultInst : ι}
  {sliceCtrl computed : Bool} {sliceFuel walks : Nat} {s s' : SlicerState δ β γ φ}
  {slices : List (List ι)} {env : Env} {state : ReactorState ι} {w w' opened : World}
  {pop : UInt64} {cLog : CheckpointLog} {fuel : Nat} {ret : Int}

/-- The dependence graph of a program: it has the def-use edges, with reaching definitions
found in the graph that the builder makes. -/
structure ProgramGraph (G : BuiltGraph ν ω) (L : LLVMGraphs δ β γ υ) (R : LLVMDefinitions ν υ)
    (g : DependenceGraph δ β γ ι φ) : Prop where
  built : R.graph = G.toRDGraph
  regular : G.Regular
  analysed : ∃ s, G.run .default = some s ∧ R.maps = s.maps ∧ s.totalNum ≤ visitLimit
  edges : ∃ edges, L.addDefUseEdges R = some edges ∧ ∀ e ∈ edges, e.2.2 ∈ g.edges e.1 e.2.1

/-- In some run of the program the instruction came to the node of the fault. -/
def ProgramFlowsFrom (G : BuiltGraph ν ω) (L : LLVMGraphs δ β γ υ) (R : LLVMDefinitions ν υ)
    (place : κ → ν × Nat) (g : DependenceGraph δ β γ ι φ) (node : δ) (i : ι) : Prop :=
  ∃ t q, G.Run place t ∧ Flows L R place g (t, node) q ∧ g.sliceInst q.2 = some i

omit [DecidableEq δ] [DecidableEq γ] [DecidableEq ι] [DecidableEq φ] [Fintype δ] in
theorem ProgramGraph.defUseGraph (graph : ProgramGraph G L R g) : DefUseGraph L R g := by
  refine ⟨?_, ?_, graph.edges⟩
  · rw [graph.built]
    exact BuiltGraph.tractable graph.regular
  · rw [graph.built]
    exact graph.analysed

omit [DecidableEq δ] [DecidableEq γ] [DecidableEq ι] [DecidableEq φ] [Fintype δ] in
theorem ProgramFlowsFrom.flowsFrom {node : δ} {i : ι} (graph : ProgramGraph G L R g)
    (flows : ProgramFlowsFrom G L R place g node i) : FlowsFrom L R place g node i := by
  obtain ⟨t, q, run, flows⟩ := flows
  refine ⟨t, q, ?_, flows⟩
  rw [graph.built]
  exact run.execution graph.regular

end Programs

section Examples

/-- The `realloc` is of null, which is no memory, and the load goes through its result. -/
def flowBuilder : LLVMRDBuilder FlowNode FlowNode :=
  { flowAnalysis.toObjects with
    getLLVMPointsTo
      | .realloc => some ⟨[], false, 1⟩
      | .load => some ⟨[⟨.realloc, 0⟩], false, 0⟩
      | .unknown => none
    isFunction := fun _ => false
    getOperand
      | .realloc => some .realloc
      | _ => none
    forgetLocalsAtReturn := true
    undefinedArePure := false
    getOperand_ne := by
      intro v
      cases v <;> decide }

def flowSource : FlowNode → NodeSource FlowNode
  | .unknown => .plain
  | .realloc => .realloc .realloc 8
  | .load => .load .load 8

def flowBuilt : BuiltGraph FlowNode FlowNode :=
  { flowAnalysis, flowBuilder with
    source := flowSource
    calls_eq := by
      intro n
      cases n <;> rfl }

theorem flowBuilt_regular : flowBuilt.Regular := by
  intro n
  cases n with
  | unknown => trivial
  | realloc => exact Or.inr (by decide : 8 < unknownOffset - 1)
  | load => trivial

theorem flowBuilt_graph :
    ∃ maps, ProgramGraph flowBuilt flowGraphs (flowDefinitions maps) flowGraph := by
  obtain ⟨maps, graph⟩ := flowGraph_defUse
  exact ⟨maps, rfl, flowBuilt_regular, graph.analysed, graph.edges⟩

theorem flowBuilt_run : flowBuilt.Run id flowRun := by
  have site : ∀ k, k = (FlowNode.realloc, 0) → k.1 = .realloc ∧ InInterval 0 8 k.2 := by
    rintro k rfl
    exact ⟨rfl, Nat.le_refl 0, Or.inr (by decide)⟩
  refine .step (.start rfl ⟨Or.inl rfl, site⟩) ?_ ⟨⟨.realloc, 0, Or.inr ?_, site, ?_⟩, rfl⟩
  · exact (List.mem_singleton_self _ : FlowNode.load ∈ [FlowNode.load])
  · exact ⟨_, List.mem_singleton_self _, rfl, Or.inr rfl⟩
  · exact fun stack => absurd rfl stack

example (maps : FlowNode → RDMap FlowNode) :
    ProgramFlowsFrom flowBuilt flowGraphs (flowDefinitions maps) id flowGraph true false :=
  ⟨flowRun, _, flowBuilt_run, flowRun_memory maps, rfl⟩

end Examples

end Arthas.Reactor
