import Arthas.Slicing.SliceGraph

/-!
A slice graph while it is built (`SliceGraph.cpp`): nodes are made for instructions as they
are met, and edges are added between them. What a reader of the graph sees is which
instructions have a node, and between which of them there is an edge.
-/

set_option autoImplicit false
set_option relaxedAutoImplicit false

namespace Arthas.Slicing

variable {ι φ : Type*}

/-- A slice graph with its node map; nodes are numbered as they are created. -/
structure GrowingGraph (ι φ : Type*) extends SliceGraph Nat ι φ where
  nodeMap : ι → Option Nat
  numbered : nodes = List.range nodes.length
  nodeMap_eq_some : ∀ val n, nodeMap val = some n ↔ n ∈ nodes ∧ value n = val

namespace GrowingGraph

variable [DecidableEq ι]

/-- The constructor of `SliceGraph`, which adds the root node. -/
def create (rootVal : ι) (dir : SliceDirection) (getFunction : ι → φ) : GrowingGraph ι φ where
  nodes := [0]
  value _ := rootVal
  edges _ := []
  root := 0
  direction := dir
  getFunction := getFunction
  root_mem := List.mem_singleton_self 0
  target_mem _ _ _ member := (List.not_mem_nil member).elim
  value_inj m hm n hn _ := (List.mem_singleton.mp hm).trans (List.mem_singleton.mp hn).symm
  nodeMap val := if val = rootVal then some 0 else none
  numbered := rfl
  nodeMap_eq_some val n := by
    by_cases same : val = rootVal
    · simp [same, eq_comm]
    · simp [same, Ne.symm same]

variable (sg : GrowingGraph ι φ)

omit [DecidableEq ι] in
theorem lt_of_mem {n : Nat} (member : n ∈ sg.nodes) : n < sg.nodes.length := by
  rw [sg.numbered] at member
  exact List.mem_range.mp member

/-- `new SliceNode(val)`, put into the node map and the node list. -/
def insertNode (val : ι) (new : sg.nodeMap val = none) : GrowingGraph ι φ where
  nodes := sg.nodes ++ [sg.nodes.length]
  value := Function.update sg.value sg.nodes.length val
  edges := Function.update sg.edges sg.nodes.length []
  root := sg.root
  direction := sg.direction
  getFunction := sg.getFunction
  root_mem := List.mem_append_left _ sg.root_mem
  target_mem n member e edge := by
    by_cases fresh : n = sg.nodes.length
    · simp [fresh] at edge
    · rw [Function.update_of_ne fresh] at edge
      have old : n ∈ sg.nodes := (List.mem_append.mp member).resolve_right
        (fun last => fresh (List.mem_singleton.mp last))
      exact List.mem_append_left _ (sg.target_mem n old e edge)
  value_inj := by
    have absent : ∀ n ∈ sg.nodes, sg.value n ≠ val := fun n member same => by
      have found := (sg.nodeMap_eq_some val n).mpr ⟨member, same⟩
      rw [new] at found
      exact absurd found (by simp)
    have old : ∀ n ∈ sg.nodes, Function.update sg.value sg.nodes.length val n = sg.value n :=
      fun n member => Function.update_of_ne (sg.lt_of_mem member).ne _ _
    intro m hm n hn same
    rcases List.mem_append.mp hm with hm | hm <;> rcases List.mem_append.mp hn with hn | hn
    · rw [old m hm, old n hn] at same
      exact sg.value_inj m hm n hn same
    · rw [old m hm, List.mem_singleton.mp hn, Function.update_self] at same
      exact absurd same (absent m hm)
    · rw [old n hn, List.mem_singleton.mp hm, Function.update_self] at same
      exact absurd same.symm (absent n hn)
    · rw [List.mem_singleton.mp hm, List.mem_singleton.mp hn]
  nodeMap := Function.update sg.nodeMap val (some sg.nodes.length)
  numbered := by
    rw [List.length_append, List.length_singleton, List.range_succ, ← sg.numbered]
  nodeMap_eq_some :=
    nodeMap_update sg.nodeMap_eq_some new fun member => (sg.lt_of_mem member).false

/-- `SliceGraph::getOrCreateNode`. -/
def getOrCreateNode (val : ι) : GrowingGraph ι φ × Nat :=
  match found : sg.nodeMap val with
  | none => (sg.insertNode val found, sg.nodes.length)
  | some node => (sg, node)

/-- `SliceNode::hasEdgeTo`. -/
def hasEdgeTo (node1 node2 : Nat) : Bool :=
  (sg.edges node1).any fun edge => edge.targetNode = node2

/-- The node handed out is a node of the graph. -/
theorem getOrCreateNode_mem (val : ι) :
    (sg.getOrCreateNode val).2 ∈ (sg.getOrCreateNode val).1.nodes := by
  rw [getOrCreateNode]
  split
  · exact List.mem_append_right _ (List.mem_singleton_self _)
  · rename_i node found
    exact ((sg.nodeMap_eq_some val node).mp found).1

/-- `node1->addEdge(new SliceEdge(node2, kind))`. -/
def addEdge (node1 : Nat) (edge : SliceEdge Nat) (mem : edge.targetNode ∈ sg.nodes) :
    GrowingGraph ι φ :=
  { sg with
    edges := Function.update sg.edges node1 (sg.edges node1 ++ [edge])
    target_mem := fun n member e edgeOf => by
      by_cases here : n = node1
      · subst here
        rw [Function.update_self] at edgeOf
        rcases List.mem_append.mp edgeOf with edgeOf | last
        · exact sg.target_mem n member e edgeOf
        · exact List.mem_singleton.mp last ▸ mem
      · rw [Function.update_of_ne here] at edgeOf
        exact sg.target_mem n member e edgeOf }

/-- `SliceGraph::connect`; whether an edge was added is not looked at. -/
def connect (node1 node2 : Nat) (kind : SliceDependence) (mem : node2 ∈ sg.nodes) :
    GrowingGraph ι φ :=
  if node1 = node2 ∨ sg.value node1 = sg.value node2 then sg
  else if sg.hasEdgeTo node1 node2 then sg
  else sg.addEdge node1 ⟨node2, kind⟩ mem

section Content

variable {sg : GrowingGraph ι φ}

/-- Some node of the graph holds the instruction. -/
def HasValue (sg : GrowingGraph ι φ) (i : ι) : Prop := ∃ n ∈ sg.nodes, sg.value n = i

/-- An edge leads from the node of the first instruction to the node of the second. -/
def HasEdge (sg : GrowingGraph ι φ) (i j : ι) : Prop :=
  ∃ n ∈ sg.nodes, sg.value n = i ∧ ∃ e ∈ sg.edges n, sg.value e.targetNode = j

/-- Nodes stay and keep their instructions. -/
structure Extends (sg sg' : GrowingGraph ι φ) : Prop where
  nodes : ∀ n ∈ sg.nodes, n ∈ sg'.nodes
  value : ∀ n ∈ sg.nodes, sg'.value n = sg.value n

omit [DecidableEq ι]

theorem Extends.refl (sg : GrowingGraph ι φ) : Extends sg sg := ⟨fun _ h => h, fun _ _ => rfl⟩

theorem Extends.trans {sg sg' sg'' : GrowingGraph ι φ} (h : Extends sg sg')
    (h' : Extends sg' sg'') : Extends sg sg'' where
  nodes n member := h'.nodes n (h.nodes n member)
  value n member := (h'.value n (h.nodes n member)).trans (h.value n member)

theorem mem_edges_addEdge {node1 : Nat} {edge : SliceEdge Nat}
    {target : edge.targetNode ∈ sg.nodes} {n : Nat} {e : SliceEdge Nat} :
    e ∈ (sg.addEdge node1 edge target).edges n ↔
      e ∈ sg.edges n ∨ n = node1 ∧ e = edge := by
  change e ∈ Function.update sg.edges node1 (sg.edges node1 ++ [edge]) n ↔ _
  by_cases here : n = node1
  · subst here
    simp
  · simp [here]

theorem hasEdge_addEdge {node1 : Nat} (member : node1 ∈ sg.nodes) (edge : SliceEdge Nat)
    (target : edge.targetNode ∈ sg.nodes) (i j : ι) :
    (sg.addEdge node1 edge target).HasEdge i j ↔
      sg.HasEdge i j ∨ i = sg.value node1 ∧ j = sg.value edge.targetNode := by
  constructor
  · rintro ⟨n, inGraph, rfl, e, edgeOf, rfl⟩
    rcases mem_edges_addEdge.mp edgeOf with edgeOf | ⟨rfl, rfl⟩
    · exact Or.inl ⟨n, inGraph, rfl, e, edgeOf, rfl⟩
    · exact Or.inr ⟨rfl, rfl⟩
  · rintro (⟨n, inGraph, rfl, e, edgeOf, rfl⟩ | ⟨rfl, rfl⟩)
    · exact ⟨n, inGraph, rfl, e, mem_edges_addEdge.mpr (Or.inl edgeOf), rfl⟩
    · exact ⟨node1, member, rfl, edge, mem_edges_addEdge.mpr (Or.inr ⟨rfl, rfl⟩), rfl⟩

variable [DecidableEq ι]

theorem extends_insertNode (val : ι) (new : sg.nodeMap val = none) :
    Extends sg (sg.insertNode val new) where
  nodes _ member := List.mem_append_left _ member
  value _ member := Function.update_of_ne (sg.lt_of_mem member).ne _ _

theorem hasValue_insertNode (val : ι) (new : sg.nodeMap val = none) (i : ι) :
    (sg.insertNode val new).HasValue i ↔ sg.HasValue i ∨ i = val := by
  have old := extends_insertNode val new
  constructor
  · rintro ⟨n, member, rfl⟩
    rcases List.mem_append.mp member with member | last
    · exact Or.inl ⟨n, member, (old.value n member).symm⟩
    · obtain rfl := List.mem_singleton.mp last
      exact Or.inr (Function.update_self _ _ _)
  · rintro (⟨n, member, rfl⟩ | rfl)
    · exact ⟨n, old.nodes n member, old.value n member⟩
    · exact ⟨_, List.mem_append_right _ (List.mem_singleton_self _), Function.update_self _ _ _⟩

/-- A new node has no edges. -/
theorem hasEdge_insertNode (val : ι) (new : sg.nodeMap val = none) (i j : ι) :
    (sg.insertNode val new).HasEdge i j ↔ sg.HasEdge i j := by
  have old := extends_insertNode val new
  have edges : ∀ n ∈ sg.nodes, (sg.insertNode val new).edges n = sg.edges n := fun n member =>
    Function.update_of_ne (sg.lt_of_mem member).ne _ _
  constructor
  · rintro ⟨n, member, rfl, e, edge, rfl⟩
    rcases List.mem_append.mp member with member | last
    · rw [edges n member] at edge
      exact ⟨n, member, (old.value n member).symm, e, edge,
        (old.value _ (sg.target_mem n member e edge)).symm⟩
    · obtain rfl := List.mem_singleton.mp last
      rw [show (sg.insertNode val new).edges sg.nodes.length = [] from
        Function.update_self _ _ _] at edge
      exact absurd edge List.not_mem_nil
  · rintro ⟨n, member, rfl, e, edge, rfl⟩
    exact ⟨n, old.nodes n member, old.value n member, e, (edges n member).symm ▸ edge,
      old.value _ (sg.target_mem n member e edge)⟩

theorem extends_getOrCreateNode (val : ι) : Extends sg (sg.getOrCreateNode val).1 := by
  rw [getOrCreateNode]
  split
  · rename_i new
    exact extends_insertNode val new
  · exact Extends.refl sg

theorem value_getOrCreateNode (val : ι) :
    (sg.getOrCreateNode val).1.value (sg.getOrCreateNode val).2 = val := by
  rw [getOrCreateNode]
  split
  · exact Function.update_self _ _ _
  · rename_i node found
    exact ((sg.nodeMap_eq_some val node).mp found).2

theorem hasValue_getOrCreateNode (val i : ι) :
    (sg.getOrCreateNode val).1.HasValue i ↔ sg.HasValue i ∨ i = val := by
  rw [getOrCreateNode]
  split
  · rename_i new
    exact hasValue_insertNode val new i
  · rename_i node found
    refine ⟨Or.inl, fun h => h.elim id ?_⟩
    rintro rfl
    exact ⟨node, (sg.nodeMap_eq_some i node).mp found⟩

theorem hasEdge_getOrCreateNode (val i j : ι) :
    (sg.getOrCreateNode val).1.HasEdge i j ↔ sg.HasEdge i j := by
  rw [getOrCreateNode]
  split
  · rename_i new
    exact hasEdge_insertNode val new i j
  · exact Iff.rfl

theorem extends_connect (node1 node2 : Nat) (kind : SliceDependence)
    (target : node2 ∈ sg.nodes) : Extends sg (sg.connect node1 node2 kind target) := by
  rw [connect]
  split_ifs
  · exact Extends.refl sg
  · exact Extends.refl sg
  · exact ⟨fun _ member => member, fun _ _ => rfl⟩

theorem hasValue_connect (node1 node2 : Nat) (kind : SliceDependence)
    (target : node2 ∈ sg.nodes) (i : ι) :
    (sg.connect node1 node2 kind target).HasValue i ↔ sg.HasValue i := by
  rw [connect]
  split_ifs <;> exact Iff.rfl

/-- Afterwards two different instructions have an edge. -/
theorem hasEdge_connect {node1 node2 : Nat} (member : node1 ∈ sg.nodes)
    (kind : SliceDependence) (target : node2 ∈ sg.nodes) {i j : ι} (differ : i ≠ j) :
    (sg.connect node1 node2 kind target).HasEdge i j ↔
      sg.HasEdge i j ∨ i = sg.value node1 ∧ j = sg.value node2 := by
  rw [connect]
  split_ifs with same old
  · refine ⟨Or.inl, fun h => h.elim id fun ⟨first, second⟩ => absurd ?_ differ⟩
    rw [first, second]
    exact same.elim (congrArg sg.value) id
  · refine ⟨Or.inl, fun h => h.elim id fun ⟨first, second⟩ => ?_⟩
    obtain ⟨e, edge, leads⟩ := List.any_eq_true.mp old
    exact ⟨node1, member, first.symm, e, edge,
      (congrArg sg.value (of_decide_eq_true leads)).trans second.symm⟩
  · exact hasEdge_addEdge member ⟨node2, kind⟩ target i j

end Content

section Kinds

/-- Every edge was made for one of the four dependences. -/
def KindsKnown (sg : GrowingGraph ι φ) : Prop := ∀ n, ∀ e ∈ sg.edges n, e.kind ≠ .unknown

theorem kindsKnown_create (rootVal : ι) (dir : SliceDirection) (getFunction : ι → φ) :
    (create rootVal dir getFunction).KindsKnown :=
  fun _ _ member => absurd member List.not_mem_nil

variable {sg : GrowingGraph ι φ}

theorem KindsKnown.getOrCreateNode (known : sg.KindsKnown) (val : ι) :
    (sg.getOrCreateNode val).1.KindsKnown := by
  rw [GrowingGraph.getOrCreateNode]
  split
  · intro n e member
    change e ∈ Function.update sg.edges sg.nodes.length [] n at member
    by_cases last : n = sg.nodes.length
    · subst last
      rw [Function.update_self] at member
      exact absurd member List.not_mem_nil
    · rw [Function.update_of_ne last] at member
      exact known n e member
  · exact known

omit [DecidableEq ι] in
theorem KindsKnown.addEdge (known : sg.KindsKnown) {node1 : Nat} {edge : SliceEdge Nat}
    (target : edge.targetNode ∈ sg.nodes) (kind : edge.kind ≠ .unknown) :
    (sg.addEdge node1 edge target).KindsKnown := by
  intro n e member
  rcases mem_edges_addEdge.mp member with old | ⟨-, rfl⟩
  · exact known n e old
  · exact kind

theorem KindsKnown.connect (known : sg.KindsKnown) (node1 : Nat) {node2 : Nat}
    {kind : SliceDependence} (target : node2 ∈ sg.nodes) (named : kind ≠ .unknown) :
    (sg.connect node1 node2 kind target).KindsKnown := by
  rw [GrowingGraph.connect]
  split_ifs
  · exact known
  · exact known
  · exact known.addEdge target named

end Kinds

end GrowingGraph

end Arthas.Slicing
