import Arthas.Dg.DynamicSlices
import Arthas.Reactor.FaultSlices

/-!
From an execution to the updates that are tried. Whatever flowed into the fault instruction,
over registers and over memory, came from instructions of its slices, and a reaction that
never succeeds has tried what they wrote into the pool.
-/

set_option autoImplicit false
set_option relaxedAutoImplicit false

namespace Arthas.Reactor

open Arthas.Lib Arthas.Slicing Arthas.Dg Checkpoint

section Flowing

variable {δ β γ ι φ υ ν κ : Type} [DecidableEq δ] [DecidableEq β] [DecidableEq γ] [DecidableEq ι]
  [DecidableEq φ] [Fintype δ] [Fintype β] [DecidableEq ν] [Fintype ν]
  {g : DependenceGraph δ β γ ι φ} {L : LLVMGraphs δ β γ υ} {R : LLVMDefinitions ν υ}
  {place : κ → ν × Nat} {insts : φ → List ι} {faultInst : ι}
  {sliceCtrl computed : Bool} {sliceFuel walks : Nat} {s s' : SlicerState δ β γ φ}
  {slices : List (List ι)} {env : Env} {state : ReactorState ι} {w w' opened : World}
  {pop : UInt64} {cLog : CheckpointLog} {fuel : Nat} {ret : Int}

/-- In some execution the instruction came to the node of the fault, as a value or through
memory, over any number of instructions. -/
def FlowsFrom (L : LLVMGraphs δ β γ υ) (R : LLVMDefinitions ν υ) (place : κ → ν × Nat)
    (g : DependenceGraph δ β γ ι φ) (node : δ) (i : ι) : Prop :=
  ∃ t q, R.graph.Execution place t ∧ Flows L R place g (t, node) q ∧ g.sliceInst q.2 = some i

omit [DecidableEq δ] [DecidableEq γ] [DecidableEq ι] [DecidableEq φ] [Fintype δ] in
theorem FlowsFrom.dependence {node : δ} {i : ι} (flows : FlowsFrom L R place g node i)
    (graph : DefUseGraph L R g) (walked : L.Walked node)
    (held : g.getValue node = .instruction faultInst)
    (sliced : g.shouldSliceInst faultInst = true) (sliceCtrl : Bool) :
    FaultDependence g sliceCtrl faultInst node i := by
  obtain ⟨t, q, run, flows, inst⟩ := flows
  have first : g.sliceInst node = some faultInst := g.sliceInst_eq_some.mpr ⟨held, sliced⟩
  have bits : faultDepFlags sliceCtrl &&& SliceDependenceFlags.defUse ≠ 0 ∧
      faultDepFlags sliceCtrl &&& SliceDependenceFlags.memory ≠ 0 := by
    cases sliceCtrl <;> decide
  exact Or.inr ⟨q.2, flows.storeReach graph (fun _ => run) walked (by rw [first]; rfl) bits.1
    bits.2, inst⟩

end Flowing

section Examples

/-- A `realloc`, which writes all of its memory, and a load of it. -/
inductive FlowNode where
  | unknown
  | realloc
  | load
  deriving DecidableEq

instance : Fintype FlowNode := ⟨{.unknown, .realloc, .load}, fun n => by cases n <;> decide⟩

def flowAnalysis : RDGraph FlowNode where
  unknownMemory := .unknown
  address
    | .unknown => 1
    | .realloc => 2
    | .load => 3
  address_injective := by
    intro m n
    cases m <;> cases n <;> decide
  address_pos := by
    intro n
    cases n <;> decide
  nodeType
    | .unknown => .none
    | .realloc => .dynAlloc
    | .load => .load
  size _ := 0
  root := .realloc
  successors
    | .realloc => [.load]
    | _ => []
  predecessors
    | .load => [.realloc]
    | _ => []
  calls
    | .realloc => [.addDef ⟨some .realloc, 0, 8⟩ false]
    | .load => [.addUse ⟨some .realloc, 0, 8⟩]
    | .unknown => []
  mem_predecessors := by
    intro m n
    cases m <;> cases n <;> decide
  calls_unknownMemory := rfl

theorem flowAnalysis_tractable : flowAnalysis.Tractable where
  orderly n := by
    refine ⟨?_, ?_, Or.inl ?_⟩ <;> cases n <;> decide
  shaped n := by
    cases n <;> decide

/-- Instruction `false` is the `realloc`, and `true` the load. -/
def flowDefinitions (maps : FlowNode → RDMap FlowNode) : LLVMDefinitions FlowNode Bool where
  graph := flowAnalysis
  maps := maps
  getNode
    | false => some .realloc
    | true => some .load
  getUserData
    | .realloc => some false
    | .load => some true
    | .unknown => none

def flowGraphs : LLVMGraphs Bool Unit Unit Bool where
  dg := ()
  getNode _ val := some val
  functionGraph _ := none
  getDG _ := ()
  getKey := id
  operands _ := []
  isCall := not
  isVoidTy _ := false
  getSubgraphs _ := []
  getExit _ := false
  getEntryBB _ := ()
  getNodes _ := [false, true]
  getCallSites _ := []
  successors _ := []

def flowGraph : DependenceGraph Bool Unit Unit Bool Unit :=
  { useGraph with
    edges
      | .revData, true => [false]
      | .data, false => [true]
      | _, _ => []
    edges_reverse := fun k => by cases k <;> decide }

/-- Only the `realloc` is found. -/
theorem flowAnalysis_found {s : RDState FlowNode} (analysed : flowAnalysis.Analysed s)
    {node d : FlowNode} (found : d ∈ flowAnalysis.getReachingDefinitions s.maps node) :
    d = .realloc := by
  obtain ⟨ds, holds, -⟩ := (RDGraph.mem_getReachingDefinitions analysed.plain).mp found
  have writes := (RDGraph.arrives_iff.mp (analysed.sound node (ds, d) holds)).written
  cases d with
  | realloc => rfl
  | unknown => cases writes
  | load => cases writes

/-- The load is told of the `realloc`, and nothing else is told of anything. -/
theorem flowDefinitions_found {s : RDState FlowNode} (analysed : flowAnalysis.Analysed s)
    (val : Bool) : ∃ defs, (flowDefinitions s.maps).getReachingDefinitions val = some defs ∧
      ∀ rdval ∈ defs, rdval = false ∧ val = true := by
  cases val with
  | false => exact ⟨[], rfl, by simp⟩
  | true =>
    refine ⟨(flowAnalysis.getReachingDefinitions s.maps .load).map fun _ => false, ?_, by simp⟩
    exact mapM_eq_map fun d member => by
      rw [flowAnalysis_found analysed member]
      rfl

theorem flowGraph_defUse : ∃ maps, DefUseGraph flowGraphs (flowDefinitions maps) flowGraph := by
  obtain ⟨s, run, analysed⟩ := flowAnalysis.run_spec
  have below : s.totalNum ≤ visitLimit := analysed.total.trans (by decide)
  refine ⟨s.maps, flowAnalysis_tractable, ⟨s, run, rfl, below⟩, ?_⟩
  rcases flowGraphs.addDefUseEdges_spec (R := flowDefinitions s.maps) with
    ⟨edges, added, -, members⟩ | ⟨-, node, -, aborts⟩
  · refine ⟨edges, added, fun e member => ?_⟩
    obtain ⟨node, -, ofNode, ran, inside⟩ := (members e).mp member
    rcases (LLVMGraphs.mem_runOnNode ran).mp inside with
      ⟨op, none, -⟩ | ⟨-, -, subgraph, none, -⟩ | ⟨defs, got, rdval, isDef, m, same, rfl⟩
    · cases none
    · cases none
    · obtain ⟨defs', got', known⟩ := flowDefinitions_found analysed node
      obtain rfl : defs = defs' := Option.some.inj (got.symm.trans got')
      obtain ⟨rfl, rfl⟩ := known rdval isDef
      obtain rfl : false = m := Option.some.inj same
      exact List.mem_singleton_self true
  · obtain ⟨defs, got, -⟩ := flowDefinitions_found analysed node
    have nodes : flowGraphs.addDataDependence node defs =
        some (defs.map fun rdval => (.data, rdval, node)) := mapM_eq_map fun _ _ => rfl
    rw [LLVMGraphs.runOnNode, show flowGraphs.getKey node = node from rfl, got,
      Option.bind_some, nodes] at aborts
    cases aborts

/-- The load reads what the `realloc` wrote. -/
def flowRun : List (Access FlowNode (FlowNode × Nat)) :=
  [⟨.load, {(.realloc, 0)}, ∅, ∅⟩, ⟨.realloc, ∅, {(.realloc, 0)}, ∅⟩]

theorem flowRun_execution : flowAnalysis.Execution id flowRun := by
  have site : (⟨some .realloc, 0, 8⟩ : DefSite FlowNode).Covers flowAnalysis.toObjects
      (.realloc, 0) :=
    Or.inr ⟨rfl, Or.inr ⟨Nat.le_refl 0, Or.inr (by decide)⟩⟩
  refine .step (.start rfl ⟨?_, ?_, ?_⟩) ?_ ⟨?_, ?_, ?_⟩
  · exact fun k none => none.elim
  · rintro k rfl
    exact ⟨_, List.mem_singleton_self _, site⟩
  · exact fun ds none => absurd none List.not_mem_nil
  · exact (List.mem_singleton_self _ : FlowNode.load ∈ [FlowNode.load])
  · rintro k rfl
    exact ⟨_, List.mem_singleton_self _, site⟩
  · exact fun k none => none.elim
  · exact fun ds none => absurd none List.not_mem_nil

/-- What the load reads comes from the `realloc`. -/
theorem flowRun_memory (maps : FlowNode → RDMap FlowNode) :
    Flows flowGraphs (flowDefinitions maps) id flowGraph (flowRun, true)
      (flowRun.drop 1, false) := by
  refine .single ⟨.memory rfl rfl ?_ (.here rfl) rfl rfl, ?_, rfl⟩
  · exact fun ds none => absurd none List.not_mem_nil
  · exact ⟨(), .refl, List.mem_cons_self⟩

theorem flowRun_flows (maps : FlowNode → RDMap FlowNode) :
    FlowsFrom flowGraphs (flowDefinitions maps) id flowGraph true false :=
  ⟨flowRun, _, flowRun_execution, flowRun_memory maps, rfl⟩

theorem flowSlices : ∃ slices s',
    SliceFaultInstr flowGraph (fun _ => [false, true]) true false 3 useSlicer true (some slices)
      s' := by
  let found := useSlicer.sliceInstruction flowGraph true 0 .storing (faultDepFlags false) 3
  have defined : found = some (found.get (by decide)) := (Option.some_get _).symm
  let sg := (found.get (by decide)).1
  have built : sg = some (sg.get (by decide)) := (Option.some_get _).symm
  let placed : PlacedGraph Nat Bool Unit :=
    { (sg.get (by decide)).toSliceGraph with
      insts := fun _ => [false, true]
      mem_insts := by decide
      nodup_insts := by decide }
  have slice : found = some (some (sg.get (by decide)), (found.get (by decide)).2) := by
    rw [← built]
    exact defined
  obtain ⟨slices, sliced⟩ := exists_slices placed slice rfl (by decide) (by decide)
  exact ⟨slices, _, sliced⟩

theorem flowSlicer_unwalked : EarlierWalks flowGraph 0 useSlicer.data := .fresh rfl fun _ => rfl

theorem flowGraphs_walked (node : Bool) (_ : flowGraph.getValue node = .instruction true) :
    flowGraphs.Walked node := by
  refine ⟨(), .refl, ?_⟩
  cases node <;> decide

end Examples

end Arthas.Reactor
