import Arthas.Slicing.SliceGraph

/-!
The operations that change a slice graph (`SliceGraph.cpp`), with the objects they create
and delete. Nodes and edges are referred to by the number of their creation. An operation
without a result touches an object that was deleted, or reads through a reference that no
longer refers to anything.
-/

set_option autoImplicit false
set_option relaxedAutoImplicit false

namespace Arthas.Slicing

inductive NodeKind where
  | singleInstruction
  | multiInstruction
  deriving DecidableEq

/-- `SliceGraph` with its `SliceNode` and `SliceEdge` objects; `capacity` is the size of the
buffer that holds the edge list of a node. -/
structure GraphMemory (ι : Type) where
  nodes : List Nat
  edges : List Nat
  root : Nat
  nodeMap : ι → Option Nat
  value : Nat → ι
  valueList : Nat → List ι
  nodeKind : Nat → NodeKind
  edgesOf : Nat → List Nat
  capacity : Nat → Nat
  target : Nat → Nat
  kind : Nat → SliceDependence
  nextNode : Nat
  nextEdge : Nat
  deletedNodes : Finset Nat
  deletedEdges : Finset Nat

namespace GraphMemory

variable {ι : Type}

/-- The elements that a `SmallVector<SliceEdge *, 8>` holds in place. -/
def inlineElements : Nat := 8

section Objects

variable (st : GraphMemory ι)

/-- `node->getValue()`. -/
def getValue (node : Nat) : Option ι :=
  if node ∈ st.deletedNodes then none else some (st.value node)

/-- `node->edges()`. -/
def edgesAt (node : Nat) : Option (List Nat) :=
  if node ∈ st.deletedNodes then none else some (st.edgesOf node)

/-- `edge->getTargetNode()`. -/
def getTargetNode (edge : Nat) : Option Nat :=
  if edge ∈ st.deletedEdges then none else some (st.target edge)

/-- `delete edge`. -/
def deleteEdge (edge : Nat) : Option (GraphMemory ι) :=
  if edge ∈ st.deletedEdges then none
  else some { st with deletedEdges := insert edge st.deletedEdges }

/-- The position of the first edge to a node, as the loops of `hasEdgeTo` and `disconnect`
look for it. -/
def findEdge (node : Nat) : List Nat → Option (Option Nat)
  | [] => some none
  | edge :: rest => do
    let target ← st.getTargetNode edge
    if target = node then some (some 0) else (findEdge node rest).map (Option.map (· + 1))

/-- `SliceNode::destroyEdges`. -/
def destroyEdges (node : Nat) : Option (GraphMemory ι) := do
  let es ← st.edgesAt node
  let destroyed ← es.foldlM deleteEdge st
  some { destroyed with edgesOf := Function.update destroyed.edgesOf node [] }

/-- `A->appendValues(B->getValues())`. -/
def appendValues (a b : Nat) : GraphMemory ι :=
  { st with
    valueList := Function.update st.valueList a (st.valueList a ++ st.valueList b)
    nodeKind := Function.update st.nodeKind a .multiInstruction }

end Objects

variable [DecidableEq ι]

/-- A graph with its root node only. -/
def create (rootVal : ι) : GraphMemory ι where
  nodes := [0]
  edges := []
  root := 0
  nodeMap val := if val = rootVal then some 0 else none
  value _ := rootVal
  valueList _ := [rootVal]
  nodeKind _ := .singleInstruction
  edgesOf _ := []
  capacity _ := inlineElements
  target _ := 0
  kind _ := .unknown
  nextNode := 1
  nextEdge := 0
  deletedNodes := ∅
  deletedEdges := ∅

/-- `new SliceNode(val)`, put into the node map and the node list. -/
def insertNode (st : GraphMemory ι) (val : ι) : GraphMemory ι :=
  { st with
    nodes := st.nodes ++ [st.nextNode]
    nodeMap := Function.update st.nodeMap val (some st.nextNode)
    value := Function.update st.value st.nextNode val
    valueList := Function.update st.valueList st.nextNode [val]
    nodeKind := Function.update st.nodeKind st.nextNode .singleInstruction
    edgesOf := Function.update st.edgesOf st.nextNode []
    capacity := Function.update st.capacity st.nextNode inlineElements
    nextNode := st.nextNode + 1 }

/-- `SliceGraph::getOrCreateNode`. -/
def getOrCreateNode (st : GraphMemory ι) (val : ι) : GraphMemory ι × Nat :=
  match st.nodeMap val with
  | none => (st.insertNode val, st.nextNode)
  | some node => (st, node)

omit [DecidableEq ι] in
/-- A new edge at the end of the edge list of a node and of the list of all edges. A full
buffer is replaced by one whose size `grow` tells. -/
def addEdge (grow : Nat → Nat) (st : GraphMemory ι) (node1 node2 : Nat) (kind : SliceDependence) :
    GraphMemory ι :=
  { st with
    edges := st.edges ++ [st.nextEdge]
    edgesOf := Function.update st.edgesOf node1 (st.edgesOf node1 ++ [st.nextEdge])
    capacity :=
      if (st.edgesOf node1).length < st.capacity node1 then st.capacity
      else Function.update st.capacity node1 (grow (st.capacity node1))
    target := Function.update st.target st.nextEdge node2
    kind := Function.update st.kind st.nextEdge kind
    nextEdge := st.nextEdge + 1 }

/-- `SliceGraph::connect`. -/
def connect (grow : Nat → Nat) (st : GraphMemory ι) (node1 node2 : Nat) (kind : SliceDependence) :
    Option (Bool × GraphMemory ι) :=
  if node1 = node2 then some (false, st)
  else do
    let value1 ← st.getValue node1
    let value2 ← st.getValue node2
    if value1 = value2 then some (false, st)
    else do
      let found ← st.findEdge node2 (st.edgesOf node1)
      if found.isSome then some (false, st) else some (true, st.addEdge grow node1 node2 kind)

section Removal

variable (st : GraphMemory ι)

/-- What `*it` reads after `erase(it)`: the edge that moved up, or, behind the last one, the
pointer that is still there. -/
def readErased (es : List Nat) (i : Nat) : Option Nat := (es.eraseIdx i)[i]?.or es[i]?

/-- `SliceGraph::disconnect`. The iterator is read again after the erase. -/
def disconnect (node1 node2 : Nat) : Option (Bool × GraphMemory ι) := do
  let es ← st.edgesAt node1
  let found ← st.findEdge node2 es
  match found with
  | none => some (false, st)
  | some i =>
    let edge ← readErased es i
    let erased ← { st with
      edgesOf := Function.update st.edgesOf node1 (es.eraseIdx i)
      edges := st.edges.erase edge }.deleteEdge edge
    some (true, erased)

/-- The inner loop of `removeNode`, over the edges of another node: those that stay, and the
graph without the others. -/
def dropEdges (node : Nat) : List Nat → GraphMemory ι → Option (List Nat × GraphMemory ι)
  | [], st => some ([], st)
  | edge :: rest, st => do
    let target ← st.getTargetNode edge
    if target = node then do
      let deleted ← st.deleteEdge edge
      dropEdges node rest deleted
    else do
      let (kept, dropped) ← dropEdges node rest st
      some (edge :: kept, dropped)

/-- The body of the outer loop of `removeNode`. -/
def removeEdgesTo (node : Nat) (st : GraphMemory ι) (n : Nat) : Option (GraphMemory ι) :=
  if n = node then some st
  else do
    let es ← st.edgesAt n
    let (kept, dropped) ← dropEdges node es st
    some { dropped with edgesOf := Function.update dropped.edgesOf n kept }

/-- `SliceGraph::removeNode`. The node map and the list of all edges stay as they are. -/
def removeNode (node : Nat) : Option (Bool × GraphMemory ι) :=
  if node ∉ st.nodes then some (false, st)
  else do
    let unreached ← st.nodes.foldlM (removeEdgesTo node) st
    let destroyed ← unreached.destroyEdges node
    some (true, { destroyed with nodes := destroyed.nodes.erase node })

/-- The loop of `mergeNodes` over the edges of the merged node. -/
def moveEdge (grow : Nat → Nat) (a : Nat) (st : GraphMemory ι) (edge : Nat) :
    Option (GraphMemory ι) := do
  let target ← st.getTargetNode edge
  let (_, connected) ← st.connect grow a target (st.kind edge)
  some connected

/-- `delete B`. -/
def deleteNode (node : Nat) : Option (GraphMemory ι) := do
  let destroyed ← st.destroyEdges node
  some { destroyed with deletedNodes := insert node destroyed.deletedNodes }

/-- `SliceGraph::mergeNodes`. The reference `edgeToFold` stays at its place in the buffer: it
is undefined once the buffer was replaced, and after `A->removeEdge` it refers to the edge
that moved up, if there is one. -/
def mergeNodes (grow : Nat → Nat) (a b : Nat) : Option (GraphMemory ι) := do
  let es ← st.edgesAt a
  let edgeToFold ← es.getLast?
  let target ← st.getTargetNode edgeToFold
  if target ≠ b then some st
  else do
    let moving ← st.edgesAt b
    let connected ← moving.foldlM (moveEdge grow a) (st.appendValues a b)
    if connected.capacity a ≠ st.capacity a then none
    else do
      let kept := (connected.edgesOf a).erase edgeToFold
      let edge := kept.getD (es.length - 1) edgeToFold
      let folded ← { connected with
        edgesOf := Function.update connected.edgesOf a kept
        edges := connected.edges.erase edge }.deleteEdge edge
      let (_, removed) ← folded.removeNode b
      removed.deleteNode b

end Removal

end GraphMemory

inductive GraphEdit (ι : Type) where
  | getOrCreateNode (val : ι)
  | connect (node1 node2 : Nat) (kind : SliceDependence)
  | disconnect (node1 node2 : Nat)
  | removeNode (node : Nat)
  | mergeNodes (a b : Nat)

/-- One operation on the graph. -/
def GraphMemory.edit {ι : Type} [DecidableEq ι] (grow : Nat → Nat) (st : GraphMemory ι) :
    GraphEdit ι → Option (GraphMemory ι)
  | .getOrCreateNode val => some (st.getOrCreateNode val).1
  | .connect node1 node2 kind => (st.connect grow node1 node2 kind).map Prod.snd
  | .disconnect node1 node2 => (st.disconnect node1 node2).map Prod.snd
  | .removeNode node => (st.removeNode node).map Prod.snd
  | .mergeNodes a b => st.mergeNodes grow a b

end Arthas.Slicing
