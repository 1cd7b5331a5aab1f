import Mathlib

/-!
Slices and the slice graph (`Slice.h`, `Slice.cpp`, `SliceGraph.h`), and the computation
of the slices of a graph (`SliceGraph::computeSlices`). Slices are objects that grow
after they were added to the result, so they live in a heap and are referred to by the
number of their creation.
-/

set_option autoImplicit false
set_option relaxedAutoImplicit false

namespace Arthas.Slicing

variable {ν ι φ : Type*} [DecidableEq ν] [DecidableEq ι] [DecidableEq φ]

inductive SlicePersistence where
  | na
  | persistent
  | volatile
  | mixed
  deriving DecidableEq

inductive SliceDirection where
  | backward
  | forward
  | full
  deriving DecidableEq

inductive SliceDependence where
  | unknown
  | registerDefUse
  | memoryDependence
  | controlDependence
  | interfereDependence
  deriving DecidableEq

/-- `Slice`; the distances kept with the values are all 0 and left out. -/
structure Slice (ι : Type*) where
  id : Nat
  root : ι
  direction : SliceDirection
  persistence : SlicePersistence
  dependence : SliceDependence
  depVals : List ι
  depVals_ne : depVals ≠ []

/-- The constructor: the root value depends on itself. -/
def Slice.create (sliceId : Nat) (rootVal : ι) (dir : SliceDirection) (kind : SlicePersistence)
    (dep : SliceDependence) : Slice ι where
  id := sliceId
  root := rootVal
  direction := dir
  persistence := kind
  dependence := dep
  depVals := [rootVal]
  depVals_ne := List.cons_ne_nil _ _

def Slice.add (s : Slice ι) (inst : ι) : Slice ι :=
  { s with depVals := s.depVals ++ [inst], depVals_ne := by simp }

def Slice.begin (s : Slice ι) : ι := s.depVals.head s.depVals_ne

/-- `Slice::fork`: the root has been inserted by the constructor and is skipped. -/
def Slice.fork (s : Slice ι) : Slice ι :=
  (s.depVals.filter (· ≠ s.root)).foldl Slice.add
    (Slice.create s.id s.root s.direction s.persistence s.dependence)

/-- `Slices`: the list of the slices and the map from their ids. -/
structure Slices where
  slices : List Nat
  sliceMap : Nat → Option Nat

def Slices.empty : Slices := ⟨[], fun _ => none⟩

def Slices.get (s : Slices) (sliceId : Nat) : Option Nat := s.sliceMap sliceId

def Slices.has (s : Slices) (sliceId : Nat) : Bool := (s.sliceMap sliceId).isSome

/-- `Slices::add`, of the slice at an address with its id; an id that is in the map stays
with the slice it has. -/
def Slices.add (s : Slices) (slice sliceId : Nat) : Slices where
  slices := s.slices ++ [slice]
  sliceMap := if s.has sliceId then s.sliceMap
    else Function.update s.sliceMap sliceId (some slice)

structure SliceEdge (ν : Type*) where
  targetNode : ν
  kind : SliceDependence

/-- `SliceGraph`, by the addresses of its nodes, with the function of each instruction. The
node map has one node for an instruction, and edges lead to nodes of the graph. -/
structure SliceGraph (ν ι φ : Type*) where
  nodes : List ν
  value : ν → ι
  edges : ν → List (SliceEdge ν)
  root : ν
  direction : SliceDirection
  getFunction : ι → φ
  root_mem : root ∈ nodes
  target_mem : ∀ n ∈ nodes, ∀ e ∈ edges n, e.targetNode ∈ nodes
  value_inj : ∀ m ∈ nodes, ∀ n ∈ nodes, value m = value n → m = n

/-- The variables of `computeSlices`. The last one records each node taken from the stack
with its `unexplored_edges`; the code never reads it. -/
structure SlicingState (ν ι : Type*) where
  heap : Nat → Slice ι
  created : Nat
  slices : Slices
  visited : Finset ν
  vstack : List ν
  currSlice : Nat
  currSliceId : Nat
  unexploredEdges : Nat
  explored : List (ν × Nat)

namespace SlicingState

/-- `curr_slice`, dereferenced. -/
def curr (st : SlicingState ν ι) : Slice ι := st.heap st.currSlice

def modifyCurr (st : SlicingState ν ι) (f : Slice ι → Slice ι) : SlicingState ν ι :=
  { st with heap := Function.update st.heap st.currSlice (f st.curr) }

/-- A new slice is created and added. -/
def addNew (st : SlicingState ν ι) (s : Slice ι) : SlicingState ν ι :=
  { st with
    heap := Function.update st.heap st.created s
    created := st.created + 1
    slices := st.slices.add st.created s.id }

end SlicingState

/-- The fork of the current slice for an edge beyond the first. -/
def forkSlice (separateDependence currentDependenceUnknown : Bool) (kind : SliceDependence)
    (st : SlicingState ν ι) : SlicingState ν ι :=
  let forkedSlice := st.curr.fork
  let forkedSlice :=
    if separateDependence ∧ currentDependenceUnknown then { forkedSlice with dependence := kind }
    else forkedSlice
  let st := { st with currSliceId := st.currSliceId + 1 }
  st.addNew { forkedSlice with id := st.currSliceId }

/-- The body of the loop over the edges of a node. -/
def exploreEdge (g : SliceGraph ν ι φ) (interProcedurual separateDependence
    currentDependenceUnknown : Bool) (st : SlicingState ν ι) (edge : SliceEdge ν) :
    SlicingState ν ι :=
  if separateDependence ∧ ¬ currentDependenceUnknown ∧ edge.kind = st.curr.dependence then st
  else if ¬ interProcedurual ∧
      g.getFunction (g.value edge.targetNode) ≠ g.getFunction st.curr.begin then st
  else
    let next := edge.targetNode
    if next ∈ st.visited then st
    else
      let st := { st with visited := insert next st.visited }
      let st :=
        if separateDependence ∧ st.curr.dependence = .unknown then
          st.modifyCurr fun s => { s with dependence := edge.kind }
        else st
      let st := { st with
        vstack := next :: st.vstack
        unexploredEdges := st.unexploredEdges + 1 }
      if st.unexploredEdges > 1 then
        forkSlice separateDependence currentDependenceUnknown edge.kind st
      else st

/-- The body of the loop over the stack up to the test for a leaf. -/
def visitNode (g : SliceGraph ν ι φ) (interProcedurual separateDependence : Bool) (elem : ν)
    (st : SlicingState ν ι) : SlicingState ν ι :=
  let st := { st with visited := insert elem st.visited }
  let st := if elem ≠ g.root then st.modifyCurr fun s => s.add (g.value elem) else st
  let st := { st with unexploredEdges := 0 }
  let currentDependenceUnknown := decide (st.curr.dependence = .unknown)
  let st := (g.edges elem).reverse.foldl
    (exploreEdge g interProcedurual separateDependence currentDependenceUnknown) st
  { st with explored := st.explored ++ [(elem, st.unexploredEdges)] }

/-- The current slice is added if it has not been added before. -/
def addCurr (st : SlicingState ν ι) : SlicingState ν ι :=
  if ¬ st.slices.has st.curr.id then { st with slices := st.slices.add st.currSlice st.curr.id }
  else st

/-- The loop over the stack. -/
def slicingLoop (g : SliceGraph ν ι φ) (interProcedurual separateDependence : Bool) :
    Nat → SlicingState ν ι → Option (SlicingState ν ι)
  | 0, _ => none
  | fuel + 1, st =>
    match st.vstack with
    | [] => some st
    | elem :: vstack =>
      let st := visitNode g interProcedurual separateDependence elem { st with vstack := vstack }
      if st.unexploredEdges = 0 then
        let st := addCurr st
        match st.slices.get (st.curr.id + 1) with
        | none => some st
        | some nextSlice =>
          slicingLoop g interProcedurual separateDependence fuel { st with currSlice := nextSlice }
      else slicingLoop g interProcedurual separateDependence fuel st

/-- The variables before the loop. -/
def SlicingState.start (g : SliceGraph ν ι φ) : SlicingState ν ι where
  heap _ := Slice.create 1 (g.value g.root) g.direction .na .unknown
  created := 1
  slices := Slices.empty.add 0 1
  visited := ∅
  vstack := [g.root]
  currSlice := 0
  currSliceId := 1
  unexploredEdges := 0
  explored := []

/-- `SliceGraph::computeSlices`; it always returns `true`. The last slice is added if it
was not. -/
def computeSlices (g : SliceGraph ν ι φ) (interProcedurual separateDependence : Bool)
    (fuel : Nat) : Option (SlicingState ν ι) :=
  (slicingLoop g interProcedurual separateDependence fuel (SlicingState.start g)).map addCurr

/-- The slices in the result. -/
def SlicingState.result (st : SlicingState ν ι) : List (Slice ι) := st.slices.slices.map st.heap

omit [DecidableEq φ] in
/-- A node map stays right when a new node is made for an instruction that had none. -/
theorem nodeMap_update {nodeMap : ι → Option Nat} {nodes : List Nat} {value : Nat → ι}
    (mapped : ∀ val n, nodeMap val = some n ↔ n ∈ nodes ∧ value n = val) {val : ι}
    (new : nodeMap val = none) {next : Nat} (fresh : next ∉ nodes) (other : ι) (n : Nat) :
    Function.update nodeMap val (some next) other = some n ↔
      n ∈ nodes ++ [next] ∧ Function.update value next val n = other := by
  rw [List.mem_append, List.mem_singleton]
  by_cases here : n = next
  · subst here
    have unmapped : nodeMap other ≠ some n := fun found => fresh ((mapped other n).mp found).1
    by_cases same : other = val
    · simp [same]
    · simp [Function.update_of_ne same, unmapped, Ne.symm same]
  · rw [or_iff_left here, Function.update_of_ne here, ← mapped]
    by_cases same : other = val
    · subst same
      simp [new, Ne.symm here]
    · rw [Function.update_of_ne same]

end Arthas.Slicing
