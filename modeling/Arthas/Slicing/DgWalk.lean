import Arthas.Slicing.DependenceGraph
import Arthas.Slicing.GrowingGraph

/-!
The two slicing approaches (`DgWalk.h`, `DgWalk.cpp`, `Slicer.cpp`): one builds a slice graph
while it walks the dependence graph, the other sets the slice id of the nodes it meets.
-/

set_option autoImplicit false
set_option relaxedAutoImplicit false

namespace Arthas.Slicing

open Lib.Worklist

variable {δ β γ ι φ : Type*}

namespace SliceDependenceFlags

def defUse : Nat := 2 ^ 0
def memory : Nat := 2 ^ 1
def control : Nat := 2 ^ 2
def interference : Nat := 2 ^ 3

end SliceDependenceFlags

/-- The bits of some kinds, when the dependence flags ask for them. -/
def addRelation (sliceDepFlags flags : Nat) (kinds : Nat × List EdgeKind) : Nat :=
  if sliceDepFlags &&& kinds.1 = 0 then flags
  else flags ||| kinds.2.foldl (fun set k => set ||| k.walkFlag) 0

/-- The bits of all the kinds that the dependence flags ask for. -/
def relationOpts (sliceDepFlags : Nat) (kinds : List (Nat × List EdgeKind)) : Nat :=
  kinds.foldl (addRelation sliceDepFlags) 0

/-- `DgWalkBase::sliceRelationOpts`. -/
def sliceRelationOpts (dir : SliceDirection) (sliceDepFlags : Nat) : Nat :=
  match dir with
  | .backward => relationOpts sliceDepFlags
      [(SliceDependenceFlags.defUse, [.user]), (SliceDependenceFlags.memory, [.revData]),
        (SliceDependenceFlags.control, [.revControl]),
        (SliceDependenceFlags.interference, [.revInterference])]
  | .forward => relationOpts sliceDepFlags
      [(SliceDependenceFlags.defUse, [.use]), (SliceDependenceFlags.memory, [.data]),
        (SliceDependenceFlags.control, [.control]),
        (SliceDependenceFlags.interference, [.interference])]
  | .full => relationOpts sliceDepFlags
      [(SliceDependenceFlags.defUse, [.use, .user]),
        (SliceDependenceFlags.memory, [.data, .revData]),
        (SliceDependenceFlags.control, [.control, .revControl]),
        (SliceDependenceFlags.interference, [.interference, .revInterference])]

section Walks

variable [DecidableEq δ] [DecidableEq β] [DecidableEq γ] [DecidableEq ι]
  (g : DependenceGraph δ β γ ι φ)

/-- `DgWalkAndMark::mark`, breadth first, with `markSlice`. The set of the marked blocks is
left out: the code that reads it follows a return. -/
def markSlice (dir : SliceDirection) (sliceDepFlags : Nat) (start : δ) (sliceId fuel : Nat)
    (data : WalkData δ β γ) : Option (WalkData δ β γ) :=
  (NodesWalk.walk g .fifo (sliceRelationOpts dir sliceDepFlags) (NodesWalk.setSlice g sliceId)
    [start] fuel data).map NodesWalk.toWalkData

/-- The variables of `DgWalkAndBuildSliceGraph::build`. -/
structure Building (δ β γ ι φ : Type*) where
  walk : NodesWalk δ β γ
  sg : GrowingGraph ι φ

namespace Building

def setQueue (queue : List δ) (st : Building δ β γ ι φ) : Building δ β γ ι φ :=
  { st with walk := st.walk.setQueue queue }

/-- The body of the loop of `processSliceEdges`: an edge to a node. -/
def sliceEdge (snCurr : Nat) (kind : SliceDependence) (st : Building δ β γ ι φ) (dnNext : δ) :
    Building δ β γ ι φ :=
  match g.sliceInst dnNext with
  | none => st
  | some inst =>
    let made := st.sg.getOrCreateNode inst
    { walk := st.walk.enqueue .lifo dnNext
      sg := made.1.connect snCurr made.2 kind (st.sg.getOrCreateNode_mem inst) }

def processSliceEdges (snCurr : Nat) (kind : SliceDependence) (edges : List δ)
    (st : Building δ β γ ι φ) : Building δ β γ ι φ :=
  edges.foldl (sliceEdge g snCurr kind) st

/-- The loop over the blocks; a block without nodes is skipped, and the last node of another
one is treated as the end of an edge. -/
def processControlBlocks (snCurr : Nat) (blocks : List β) (st : Building δ β γ ι φ) :
    Building δ β γ ι φ :=
  blocks.foldl (fun st depBlock =>
    match g.getLastNode depBlock with
    | none => st
    | some lastNode => sliceEdge g snCurr .controlDependence st lastNode) st

/-- From `begin` to `end`, or from `rbegin` to `rend`. -/
def inOrder {α : Type*} (dir : SliceDirection) (l : List α) : List α :=
  if dir = .backward then l.reverse else l

/-- The order in which `build` looks at the kinds. -/
def buildOrder : List EdgeKind :=
  [.use, .user, .data, .revData, .control, .revControl, .interference, .revInterference]

/-- One of the tests of the options in `build`. The block of the node is dereferenced for
the control edges. -/
def processKind (dir : SliceDirection) (options : Nat) (dnCurr : δ) (snCurr : Nat)
    (st : Building δ β γ ι φ) (k : EdgeKind) : Option (Building δ β γ ι φ) :=
  if options &&& k.walkFlag = 0 then some st
  else
    let st := processSliceEdges g snCurr k.sliceDependence (inOrder dir (g.edges k dnCurr)) st
    match k with
    | .control => (g.getBBlock dnCurr).map fun block =>
        processControlBlocks g snCurr (inOrder dir (g.blockControl block)) st
    | .revControl => (g.getBBlock dnCurr).map fun block =>
        processControlBlocks g snCurr (inOrder dir (g.blockRevControl block)) st
    | _ => some st

/-- The body of the loop: what is not an instruction that belongs into a slice is left
alone. -/
def visit (dir : SliceDirection) (options sliceId : Nat) (dnCurr : δ)
    (st : Building δ β γ ι φ) : Option (Building δ β γ ι φ) :=
  if options = 0 then some st
  else
    match g.sliceInst dnCurr with
    | none => some st
    | some inst =>
      let made := st.sg.getOrCreateNode inst
      buildOrder.foldlM (processKind g dir options dnCurr made.2)
        { walk := st.walk.setSlice g sliceId dnCurr, sg := made.1 }

end Building

/-- `DgWalkAndBuildSliceGraph::build`, depth first. Without an instruction at the start there
is no graph and no walk. -/
def buildSliceGraph (dir : SliceDirection) (sliceDepFlags : Nat) (start : δ)
    (sliceId fuel : Nat) (data : WalkData δ β γ) :
    Option (Option (GrowingGraph ι φ) × WalkData δ β γ) :=
  match (g.getValue start).dynCast with
  | none => some (none, data)
  | some rootVal =>
    (drain (fun st => st.walk.queue) Building.setQueue
      (Building.visit g dir (sliceRelationOpts dir sliceDepFlags) sliceId) fuel
      { walk := (NodesWalk.start data).enqueue .lifo start
        sg := .create rootVal dir g.getFunction }).map
      fun st => (some st.sg, st.walk.toWalkData)

inductive SlicingApproachKind where
  | storing
  | marking

/-- `DgSlicer`, without the statistics that `slice` brings up to date at its end. -/
structure DgSlicer where
  direction : SliceDirection
  lastSliceId : Nat

/-- What `DgSlicer::slice` leaves: its result, the slice id, the slicer and the graph's
data. -/
structure Sliced (δ β γ ι φ : Type*) where
  result : Option (GrowingGraph ι φ)
  sliceId : Nat
  slicer : DgSlicer
  data : WalkData δ β γ

/-- `if (slice_id == 0) slice_id = ++_last_slice_id`. -/
def DgSlicer.supply (slicer : DgSlicer) (sliceId : Nat) : Nat × DgSlicer :=
  if sliceId = 0 then
    let next := (slicer.lastSliceId + 1) % 2 ^ 32
    (next, { slicer with lastSliceId := next })
  else (sliceId, slicer)

/-- `DgSlicer::slice`, with `markSliceId`, in which nothing after the first walk is reached. -/
def DgSlicer.slice (slicer : DgSlicer) (start : δ) (sliceId : Nat) (kind : SlicingApproachKind)
    (sliceDepFlags fuel : Nat) (data : WalkData δ β γ) : Option (Sliced δ β γ ι φ) :=
  let supplied := slicer.supply sliceId
  match kind with
  | .storing =>
    (buildSliceGraph g slicer.direction sliceDepFlags start supplied.1 fuel data).map
      fun built => ⟨built.1, supplied.1, supplied.2, built.2⟩
  | .marking =>
    (markSlice g slicer.direction sliceDepFlags start supplied.1 fuel data).map
      fun marked => ⟨none, supplied.1, supplied.2, marked⟩

end Walks

end Arthas.Slicing
