import Arthas.Dg.ReachingRuns
import Arthas.Lib.PartialLoops
import Arthas.Slicing.DependenceGraph

/-!
The def-use edges of the dependence graphs (`DefUse.cpp`, `DataFlowAnalysis.h`). A node gets
edges from its operands, from the exits of the functions that it calls, and from the nodes
that may have written the memory it reads. One walk over the basic blocks adds all of them.
-/

set_option autoImplicit false
set_option relaxedAutoImplicit false

namespace Arthas.Dg

open Lib Slicing Relation

/-- What the analysis reads of the dependence graphs `γ` of a module: their nodes `δ` for the
values `υ`, and their basic blocks `β`. -/
structure LLVMGraphs (δ β γ υ : Type*) where
  dg : γ
  getNode : γ → υ → Option δ
  /-- The graph of the function that an instruction is in. -/
  functionGraph : υ → Option γ
  getDG : δ → γ
  getKey : δ → υ
  /-- The operands of an instruction. -/
  operands : υ → List υ
  isCall : υ → Bool
  isVoidTy : δ → Bool
  getSubgraphs : δ → List γ
  getExit : γ → δ
  getEntryBB : γ → β
  getNodes : β → List δ
  getCallSites : β → List δ
  successors : β → List β

/-- What `LLVMReachingDefinitions` answers for the values. -/
structure LLVMDefinitions (ν υ : Type*) where
  graph : RDGraph ν
  maps : ν → RDMap ν
  getNode : υ → Option ν
  getUserData : ν → Option υ

namespace LLVMDefinitions

variable {ν υ : Type*} [DecidableEq ν] (R : LLVMDefinitions ν υ)

/-- `getLLVMReachingDefinitions`, if the value is a use. Every definition has a value. -/
def getReachingDefinitions (val : υ) : Option (List υ) :=
  match R.getNode val with
  | none => some []
  | some loc =>
    if R.graph.uses loc = [] then some []
    else (R.graph.getReachingDefinitions R.maps loc).mapM R.getUserData

end LLVMDefinitions

/-- An edge that is added from the first node to the second, and back in the reverse kind. -/
abbrev AddedEdge (δ : Type*) := EdgeKind × δ × δ

namespace LLVMGraphs

variable {δ β γ υ ν : Type*} [DecidableEq ν] (L : LLVMGraphs δ β γ υ) (R : LLVMDefinitions ν υ)

def handleOperands (node : δ) : List (AddedEdge δ) :=
  (L.operands (L.getKey node)).filterMap fun op =>
    (L.getNode (L.getDG node) op).map fun op => (.use, op, node)

def addReturnEdge (callNode : δ) (subgraph : γ) : Option (AddedEdge δ) :=
  if L.isVoidTy callNode then none else some (.data, L.getExit subgraph, callNode)

def handleCallInst (node : δ) : List (AddedEdge δ) :=
  (L.getSubgraphs node).filterMap (L.addReturnEdge node)

/-- The node of a value that was found, in the graph of the entry function or in the one of
its own function. -/
def findNode (rdval : υ) : Option δ :=
  match L.getNode L.dg rdval with
  | some rdnode => some rdnode
  | none => (L.functionGraph rdval).bind fun graph => L.getNode graph rdval

/-- `addDataDependence`, which aborts when a value has no node. -/
def addDataDependence (node : δ) (defs : List υ) : Option (List (AddedEdge δ)) :=
  defs.mapM fun rdval => (L.findNode rdval).map fun rdnode => (.data, rdnode, node)

def runOnNode (node : δ) : Option (List (AddedEdge δ)) :=
  let calls := if L.isCall (L.getKey node) then L.handleCallInst node else []
  (R.getReachingDefinitions (L.getKey node)).bind fun defs =>
    (L.addDataDependence node defs).map fun data => L.handleOperands node ++ calls ++ data

def runOnBlock (block : β) : Option (List (AddedEdge δ)) :=
  ((L.getNodes block).mapM (L.runOnNode R)).map List.flatten

/-- The blocks that the walk goes on to: the entries of the functions called, and the
successors. -/
def nextBlocks (block : β) : List β :=
  (L.getCallSites block).flatMap (fun cs => (L.getSubgraphs cs).map L.getEntryBB) ++
    L.successors block

/-- `addDefUseEdges`: a depth-first walk from the entry block, with the edges it adds. No
block is run on again. -/
def addDefUseEdges [DecidableEq β] [Fintype β] : Option (List (AddedEdge δ)) :=
  GraphWalk.walk .lifo L.nextBlocks
    (fun block edges => (L.runOnBlock R block).map fun added => edges ++ added)
    (Fintype.card β + 1) (.start .lifo [L.getEntryBB L.dg]) []

/-- The walk gets to the block of the node. -/
def Walked (node : δ) : Prop :=
  ∃ block, ReflTransGen (fun b c => c ∈ L.nextBlocks b) (L.getEntryBB L.dg) block ∧
    node ∈ L.getNodes block

section Runs

variable {L R} {node : δ} {added : List (AddedEdge δ)} {e : AddedEdge δ}

/-- The edges that the run on a node adds, whatever else it does. -/
theorem mem_runOnNode (run : L.runOnNode R node = some added) : e ∈ added ↔
    (∃ op ∈ L.operands (L.getKey node), ∃ m, L.getNode (L.getDG node) op = some m ∧
      (.use, m, node) = e) ∨
    (L.isCall (L.getKey node) = true ∧ L.isVoidTy node = false ∧
      ∃ subgraph ∈ L.getSubgraphs node, (.data, L.getExit subgraph, node) = e) ∨
    ∃ defs, R.getReachingDefinitions (L.getKey node) = some defs ∧
      ∃ rdval ∈ defs, ∃ m, L.findNode rdval = some m ∧ (.data, m, node) = e := by
  obtain ⟨defs, found, rest⟩ := Option.bind_eq_some_iff.mp run
  obtain ⟨data, nodes, rfl⟩ := Option.map_eq_some_iff.mp rest
  have operands : e ∈ L.handleOperands node ↔ ∃ op ∈ L.operands (L.getKey node), ∃ m,
      L.getNode (L.getDG node) op = some m ∧ (.use, m, node) = e := by
    simp only [handleOperands, List.mem_filterMap, Option.map_eq_some_iff]
  have calls : e ∈ (if L.isCall (L.getKey node) then L.handleCallInst node else []) ↔
      L.isCall (L.getKey node) = true ∧ L.isVoidTy node = false ∧
        ∃ subgraph ∈ L.getSubgraphs node, (.data, L.getExit subgraph, node) = e := by
    cases L.isCall (L.getKey node) <;> cases void : L.isVoidTy node <;>
      simp [handleCallInst, addReturnEdge, void]
  have definitions : e ∈ data ↔ ∃ rdval ∈ defs, ∃ m, L.findNode rdval = some m ∧
      (.data, m, node) = e := by
    rw [mem_of_mapM_eq_some nodes]
    simp only [Option.map_eq_some_iff]
  rw [List.mem_append, List.mem_append, or_assoc, operands, calls, definitions]
  refine or_congr_right (or_congr_right ⟨fun h => ⟨defs, found, h⟩, ?_⟩)
  rintro ⟨defs', found', h⟩
  obtain rfl : defs = defs' := Option.some.inj (found.symm.trans found')
  exact h

theorem runOnBlock_eq_none {block : β} : L.runOnBlock R block = none ↔
    ∃ node ∈ L.getNodes block, L.runOnNode R node = none := by
  rw [runOnBlock, Option.map_eq_none_iff, mapM_eq_none_iff]

theorem mem_runOnBlock {block : β} (run : L.runOnBlock R block = some added) :
    e ∈ added ↔ ∃ node ∈ L.getNodes block, ∃ ofNode, L.runOnNode R node = some ofNode ∧
      e ∈ ofNode := by
  obtain ⟨parts, found, rfl⟩ := Option.map_eq_some_iff.mp run
  rw [List.mem_flatten]
  constructor
  · rintro ⟨ofNode, isPart, inside⟩
    obtain ⟨node, member, ran⟩ := (mem_of_mapM_eq_some found ofNode).mp isPart
    exact ⟨node, member, ofNode, ran, inside⟩
  · rintro ⟨node, member, ofNode, ran, inside⟩
    exact ⟨ofNode, (mem_of_mapM_eq_some found ofNode).mpr ⟨node, member, ran⟩, inside⟩

variable [DecidableEq β] [Fintype β]

/-- The walk is a loop over the blocks that it gets to. -/
theorem addDefUseEdges_eq : ∃ blocks : List β,
    (∀ block, block ∈ blocks ↔
      ReflTransGen (fun b c => c ∈ L.nextBlocks b) (L.getEntryBB L.dg) block) ∧
    L.addDefUseEdges R = (blocks.mapM (L.runOnBlock R)).map List.flatten := by
  obtain ⟨blocks, -, members, same⟩ := GraphWalk.walk_start
    (Nat.lt_succ_self (Fintype.card β)) (List.nodup_singleton (L.getEntryBB L.dg))
  refine ⟨blocks, fun block => ?_, ?_⟩
  · rw [members]
    constructor
    · rintro ⟨u, here, path⟩
      rwa [List.mem_singleton.mp here] at path
    · exact fun path => ⟨_, List.mem_singleton_self _, path⟩
  · rw [addDefUseEdges, same, foldlM_map]
    congr 1
    funext parts
    exact (List.foldl_append_eq_append (f := id)).trans (by simp)

/-- The walk adds the edges of all nodes that it gets to, and aborts only when the run on one
of them does. -/
theorem addDefUseEdges_spec :
    (∃ edges, L.addDefUseEdges R = some edges ∧
      (∀ node, L.Walked node → ∃ added, L.runOnNode R node = some added) ∧
      ∀ e, e ∈ edges ↔
        ∃ node, L.Walked node ∧ ∃ added, L.runOnNode R node = some added ∧ e ∈ added) ∨
    (L.addDefUseEdges R = none ∧ ∃ node, L.Walked node ∧ L.runOnNode R node = none) := by
  obtain ⟨blocks, walked, run⟩ := L.addDefUseEdges_eq (R := R)
  cases all : blocks.mapM (L.runOnBlock R) with
  | none =>
    obtain ⟨block, member, aborted⟩ := mapM_eq_none_iff.mp all
    obtain ⟨node, inBlock, aborts⟩ := runOnBlock_eq_none.mp aborted
    exact Or.inr ⟨by rw [run, all]; rfl, node, ⟨block, (walked block).mp member, inBlock⟩, aborts⟩
  | some parts =>
    have ran : ∀ block ∈ blocks, L.runOnBlock R block ≠ none := fun block member aborts =>
      Option.some_ne_none parts (all.symm.trans (mapM_eq_none_iff.mpr ⟨block, member, aborts⟩))
    refine Or.inl ⟨parts.flatten, by rw [run, all]; rfl, fun node => ?_, fun e => ?_⟩
    · rintro ⟨block, path, inBlock⟩
      apply Option.ne_none_iff_exists'.mp
      intro aborts
      exact ran block ((walked block).mpr path) (runOnBlock_eq_none.mpr ⟨node, inBlock, aborts⟩)
    · rw [List.mem_flatten]
      constructor
      · rintro ⟨part, isPart, inside⟩
        obtain ⟨block, member, ofBlock⟩ := (mem_of_mapM_eq_some all part).mp isPart
        obtain ⟨node, inBlock, found⟩ := (mem_runOnBlock ofBlock).mp inside
        exact ⟨node, ⟨block, (walked block).mp member, inBlock⟩, found⟩
      · rintro ⟨node, ⟨block, path, inBlock⟩, found⟩
        have member := (walked block).mpr path
        obtain ⟨part, ofBlock⟩ := Option.ne_none_iff_exists'.mp (ran block member)
        exact ⟨part, (mem_of_mapM_eq_some all part).mpr ⟨block, member, ofBlock⟩,
          (mem_runOnBlock ofBlock).mpr ⟨node, inBlock, found⟩⟩

end Runs

end LLVMGraphs

end Arthas.Dg
