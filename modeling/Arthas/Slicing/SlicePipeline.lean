import Arthas.Slicing.Approaches
import Arthas.Slicing.EdgeOrder
import Arthas.Slicing.SlicePaths

/-!
From the dependence graph to the slices: the slice graph is built, its edges are sorted, and
its slices are computed. Sorting moves edges within a node, so the slices have the values of
the graph that was built, and these are what the dependences reach.
-/

set_option autoImplicit false
set_option relaxedAutoImplicit false

namespace Arthas.Slicing

open Arthas.Lib Worklist Relation

section Root

variable {ι φ : Type*}

/-- The root holds the instruction that the graph was created for. -/
structure GrowingGraph.Rooted (sg : GrowingGraph ι φ) (rootVal : ι) (dir : SliceDirection)
    (getFunction : ι → φ) : Prop where
  value : sg.value sg.root = rootVal
  direction : sg.direction = dir
  getFunction : sg.getFunction = getFunction

namespace GrowingGraph.Rooted

variable [DecidableEq ι] {sg : GrowingGraph ι φ} {rootVal : ι} {dir : SliceDirection}
  {getFunction : ι → φ}

theorem create (rootVal : ι) (dir : SliceDirection) (getFunction : ι → φ) :
    (GrowingGraph.create rootVal dir getFunction).Rooted rootVal dir getFunction :=
  ⟨rfl, rfl, rfl⟩

theorem getOrCreateNode (rooted : sg.Rooted rootVal dir getFunction) (val : ι) :
    (sg.getOrCreateNode val).1.Rooted rootVal dir getFunction := by
  have extended : sg.Extends (sg.getOrCreateNode val).1 := extends_getOrCreateNode val
  have kept := extended.value sg.root sg.root_mem
  have same : (sg.getOrCreateNode val).1.root = sg.root ∧
      (sg.getOrCreateNode val).1.direction = sg.direction ∧
      (sg.getOrCreateNode val).1.getFunction = sg.getFunction := by
    rw [GrowingGraph.getOrCreateNode]
    split <;> exact ⟨rfl, rfl, rfl⟩
  obtain ⟨root, direction, function⟩ := same
  exact ⟨by rw [root, kept, rooted.value], direction.trans rooted.direction,
    function.trans rooted.getFunction⟩

theorem connect (rooted : sg.Rooted rootVal dir getFunction) (node1 : Nat) {node2 : Nat}
    (kind : SliceDependence) (target : node2 ∈ sg.nodes) :
    (sg.connect node1 node2 kind target).Rooted rootVal dir getFunction := by
  rw [GrowingGraph.connect]
  split_ifs
  · exact rooted
  · exact rooted
  · exact ⟨rooted.value, rooted.direction, rooted.getFunction⟩

end GrowingGraph.Rooted

variable {δ β γ : Type*} {g : DependenceGraph δ β γ ι φ} [DecidableEq δ] [DecidableEq β]
  [DecidableEq γ] [DecidableEq ι] {dir way : SliceDirection} {sliceDepFlags sliceId fuel : Nat}
  {start : δ} {rootVal : ι} {getFunction : ι → φ}

namespace Building

omit [DecidableEq β] [DecidableEq γ] in
theorem rooted_foldl {snCurr : Nat} (ends : List (SliceDependence × δ))
    {st : Building δ β γ ι φ} (rooted : st.sg.Rooted rootVal way getFunction) :
    (ends.foldl (fun st p => sliceEdge g snCurr p.1 st p.2) st).sg.Rooted rootVal way
      getFunction := by
  induction ends generalizing st with
  | nil => exact rooted
  | cons p ends ih =>
    have one : (sliceEdge g snCurr p.1 st p.2).sg.Rooted rootVal way getFunction := by
      rw [sliceEdge]
      split
      · exact rooted
      · exact (rooted.getOrCreateNode _).connect snCurr _ _
    exact ih one

theorem rooted_visit {n : δ} {st st' : Building δ β γ ι φ}
    (rooted : st.sg.Rooted rootVal way getFunction)
    (visited : visit g dir (sliceRelationOpts dir sliceDepFlags) sliceId n st = some st') :
    st'.sg.Rooted rootVal way getFunction := by
  by_cases off : sliceRelationOpts dir sliceDepFlags = 0
  · rw [visit, if_pos off] at visited
    exact Option.some.inj visited ▸ rooted
  · cases accepted : g.sliceInst n with
    | none =>
      rw [visit, if_neg off] at visited
      simp only [accepted] at visited
      exact Option.some.inj visited ▸ rooted
    | some inst =>
      rw [visit_eq accepted off] at visited
      obtain ⟨found, -, rfl⟩ := Option.map_eq_some_iff.mp visited
      have began : (beginNode g sliceId n inst st).sg.Rooted rootVal way getFunction :=
        rooted.getOrCreateNode inst
      exact rooted_foldl found began

end Building

/-- The graph that was built is rooted in the instruction of the start. -/
theorem rooted_buildSliceGraph {data data' : WalkData δ β γ} {sg : GrowingGraph ι φ}
    (holds : g.getValue start = .instruction rootVal)
    (run : buildSliceGraph g dir sliceDepFlags start sliceId fuel data = some (some sg, data')) :
    sg.Rooted rootVal dir g.getFunction := by
  have isInst : (g.getValue start).dynCast = some rootVal := by rw [holds, Value.dynCast]
  rw [buildSliceGraph] at run
  simp only [isInst] at run
  obtain ⟨st, drained, same⟩ := Option.map_eq_some_iff.mp run
  rw [← Option.some.inj (Prod.mk.inj same).1]
  refine drain_keeps (P := fun st => st.sg.Rooted rootVal dir g.getFunction)
    (fun n rest st st' before visited => ?_) (.create rootVal dir g.getFunction) drained
  have dequeued : (st.setQueue rest).sg.Rooted rootVal dir g.getFunction := before
  exact Building.rooted_visit dequeued visited

end Root

section Sorting

variable {ν ι φ : Type} [DecidableEq ν] [DecidableEq ι] [DecidableEq φ]

/-- What `SliceGraph::sort` makes of a graph: the edges of every node come out in an order of
the comparator. Where that is no strict weak order on the edges of a node, sorting them is
undefined. -/
structure PlacedGraph.Sorted (placed : PlacedGraph ν ι φ) (sorted : SliceGraph ν ι φ) : Prop where
  nodes : sorted.nodes = placed.nodes
  value : sorted.value = placed.value
  root : sorted.root = placed.root
  direction : sorted.direction = placed.direction
  getFunction : sorted.getFunction = placed.getFunction
  edges : ∃ order, placed.SortOutcome order ∧ ∀ n ∈ placed.nodes,
    sliceEdgeComparator.StrictWeak {e | e ∈ placed.distanced n} ∧
      sorted.edges n = (order n).map DistancedEdge.toSliceEdge

variable {placed : PlacedGraph ν ι φ} {sorted : SliceGraph ν ι φ}

omit [DecidableEq ν] in
/-- Every node has its edges. -/
theorem PlacedGraph.Sorted.perm (sort : placed.Sorted sorted)
    (backward : placed.direction = .backward) {n : ν} (member : n ∈ placed.nodes) :
    (sorted.edges n).Perm (placed.edges n) := by
  obtain ⟨order, outcome, each⟩ := sort.edges
  obtain ⟨valid, edges⟩ := each n member
  have perm : (order n).Perm (placed.distanced n) :=
    ((sortOutcome_iff backward).mp outcome n member valid).1
  have bare : (placed.distanced n).map DistancedEdge.toSliceEdge = placed.edges n := by
    rw [distanced, List.map_map]
    exact List.map_id _
  rw [edges, ← bare]
  exact perm.map DistancedEdge.toSliceEdge

omit [DecidableEq ν] in
/-- Sorting succeeds where the comparator orders the edges of every node. -/
theorem PlacedGraph.exists_sorted (backward : placed.direction = .backward)
    (valid : ∀ n ∈ placed.nodes, sliceEdgeComparator.StrictWeak {e | e ∈ placed.distanced n}) :
    ∃ sorted, placed.Sorted sorted := by
  obtain ⟨order, outcome⟩ := placed.exists_sortOutcome backward
  have member : ∀ n ∈ placed.nodes, ∀ e ∈ (order n).map DistancedEdge.toSliceEdge,
      e ∈ placed.edges n := by
    intro n inside e listed
    obtain ⟨d, among, rfl⟩ := List.mem_map.mp listed
    have perm := ((sortOutcome_iff backward).mp outcome n inside (valid n inside)).1
    obtain ⟨edge, old, rfl⟩ := List.mem_map.mp (perm.mem_iff.mp among)
    exact old
  refine ⟨{ placed.toSliceGraph with
    edges := fun n => (order n).map DistancedEdge.toSliceEdge
    target_mem := fun n inside e listed =>
      placed.target_mem n inside e (member n inside e listed) }, rfl, rfl, rfl, rfl, rfl, order,
    outcome, fun n inside => ⟨valid n inside, rfl⟩⟩

end Sorting

section Slices

variable {ι φ : Type} [DecidableEq ι] [DecidableEq φ]

/-- What may come out of sorting a slice graph and computing its slices: the values of each
slice, in order. `insts` lists the instructions of each function. -/
def SlicesOf (insts : φ → List ι) (sg : GrowingGraph ι φ) (slices : List (List ι)) : Prop :=
  ∃ placed : PlacedGraph Nat ι φ, placed.toSliceGraph = sg.toSliceGraph ∧ placed.insts = insts ∧
    ∃ sorted : SliceGraph Nat ι φ, placed.Sorted sorted ∧
      ∃ st, computeSlices sorted true false sorted.nodes.length = some st ∧
        slices = st.result.map Slice.depVals

/-- The slices are computed whenever the edges can be sorted. -/
theorem exists_slicesOf {sg : GrowingGraph ι φ} {placed : PlacedGraph Nat ι φ}
    (same : placed.toSliceGraph = sg.toSliceGraph) (backward : sg.direction = .backward)
    (valid : ∀ n ∈ placed.nodes, sliceEdgeComparator.StrictWeak {e | e ∈ placed.distanced n}) :
    ∃ slices, SlicesOf placed.insts sg slices := by
  obtain ⟨sorted, sort⟩ := placed.exists_sorted (same ▸ backward) valid
  obtain ⟨st, run, -⟩ := computeSlices_walk sorted true le_rfl
  exact ⟨_, placed, same, rfl, sorted, sort, st, run, rfl⟩

variable {δ β γ : Type} [DecidableEq δ] [DecidableEq β] [DecidableEq γ] [Fintype δ]
  {g : DependenceGraph δ β γ ι φ}

omit [DecidableEq δ] [DecidableEq β] [DecidableEq γ] [Fintype δ] in
/-- The nodes of the sorted graph that its slices go through hold what storing reaches. -/
theorem reaches_sorted {sg : GrowingGraph ι φ} {sliceDepFlags : Nat} {start : δ} {rootVal : ι}
    (holds : g.getValue start = .instruction rootVal)
    (rooted : sg.Rooted rootVal .backward g.getFunction)
    (values : ∀ i, sg.HasValue i ↔ i = rootVal ∨ g.Stored .backward sliceDepFlags start i)
    (edges : ∀ i j, i ≠ j → (sg.HasEdge i j ↔ ∃ u v, g.StoreReach .backward sliceDepFlags start u ∧
      g.sliceInst u = some i ∧ g.StoreEdge .backward sliceDepFlags u v ∧ g.sliceInst v = some j))
    {placed : PlacedGraph Nat ι φ} (same : placed.toSliceGraph = sg.toSliceGraph)
    {sorted : SliceGraph Nat ι φ} (sort : placed.Sorted sorted) (i : ι) :
    (∃ n, sorted.Reaches true n ∧ sorted.value n = i) ↔
      i = rootVal ∨ g.Stored .backward sliceDepFlags start i := by
  have nodes : sorted.nodes = sg.nodes := by rw [sort.nodes, same]
  have value : sorted.value = sg.value := by rw [sort.value, same]
  have root : sorted.root = sg.root := by rw [sort.root, same]
  have backward : placed.direction = .backward := by rw [same, rooted.direction]
  have rootReached : ∃ n, sorted.Reaches true n ∧ sorted.value n = rootVal :=
    ⟨sorted.root, .refl, by rw [value, root, rooted.value]⟩
  constructor
  · rintro ⟨n, reached, rfl⟩
    refine (values _).mp ⟨n, nodes ▸ reached.mem_nodes, ?_⟩
    rw [value]
  · rintro (rfl | ⟨v, reached, accepted⟩)
    · exact rootReached
    · induction reached generalizing i with
      | refl =>
        have isRoot := ((g.sliceInst_eq_some).mp accepted).1
        obtain rfl := Value.instruction.inj (isRoot.symm.trans holds)
        exact rootReached
      | @tail u v earlier step ih =>
        obtain ⟨fromInst, -, edge⟩ := step
        obtain ⟨a, here⟩ := Option.isSome_iff_exists.mp fromInst
        obtain ⟨m, before, holdsA⟩ := ih a here
        by_cases unchanged : a = i
        · exact ⟨m, before, holdsA.trans unchanged⟩
        obtain ⟨n, member, valueN, e, leads, target⟩ :=
          (edges a i unchanged).mpr ⟨u, v, earlier, here, edge, accepted⟩
        obtain rfl : n = m := sg.value_inj n member m (nodes ▸ before.mem_nodes)
          (valueN.trans (by rw [← holdsA, value]))
        have member' : n ∈ placed.nodes := by rwa [same]
        have edgesOf : placed.edges n = sg.edges n := by rw [same]
        have leads' : e ∈ sorted.edges n :=
          (sort.perm backward member').mem_iff.mpr (edgesOf ▸ leads)
        exact ⟨e.targetNode, before.tail ⟨⟨e, leads', rfl⟩, Or.inl rfl⟩, by rw [value, target]⟩

/-- The slices have the instruction of the start and those that storing reaches; each one
begins with the instruction of the start and repeats none. -/
theorem mem_slicesOf {data data' : WalkData δ β γ} {sliceDepFlags sliceId fuel : Nat} {start : δ}
    {rootVal : ι} {sg : GrowingGraph ι φ} (holds : g.getValue start = .instruction rootVal)
    (unmarked : ∀ v, ¬ (NodesWalk.start data).Marked v) (enough : Fintype.card δ < fuel)
    (run : buildSliceGraph g .backward sliceDepFlags start sliceId fuel data =
      some (some sg, data')) {insts : φ → List ι} {slices : List (List ι)}
    (computed : SlicesOf insts sg slices) :
    (∀ i, i ∈ slices.flatten ↔ i = rootVal ∨ g.Stored .backward sliceDepFlags start i) ∧
      ∀ slice ∈ slices, slice.head? = some rootVal ∧ slice.Nodup := by
  rcases buildSliceGraph_spec holds unmarked enough with
    ⟨built, left, again, -, values, edges⟩ | ⟨undefined, -⟩
  swap
  · exact absurd (undefined.symm.trans run) (by simp)
  obtain rfl : built = sg :=
    Option.some.inj (Prod.mk.inj (Option.some.inj (again.symm.trans run))).1
  have rooted := rooted_buildSliceGraph holds run
  obtain ⟨placed, same, -, sorted, sort, st, walked, rfl⟩ := computed
  have reached := reaches_sorted holds rooted values edges same sort
  have rootVal' : sorted.value sorted.root = rootVal := by
    rw [sort.value, sort.root, same, rooted.value]
  obtain ⟨st', walked', -, -, result, -⟩ := computeSlices_walk sorted true le_rfl
  obtain rfl := Option.some.inj (walked.symm.trans walked')
  constructor
  · intro i
    rw [← reached i, ← mem_depVals sorted true le_rfl result]
    constructor
    · intro member
      obtain ⟨slice, listed, inside⟩ := List.mem_flatten.mp member
      obtain ⟨s, isSlice, rfl⟩ := List.mem_map.mp listed
      exact ⟨s, isSlice, inside⟩
    · rintro ⟨s, isSlice, inside⟩
      exact List.mem_flatten.mpr ⟨_, List.mem_map_of_mem isSlice, inside⟩
  · intro slice listed
    obtain ⟨s, isSlice, rfl⟩ := List.mem_map.mp listed
    obtain ⟨k, p, walks, -, rfl⟩ := (mem_result sorted result).mp isSlice
    obtain ⟨head, nodup, through⟩ := threads sorted true le_rfl walks
    rw [SliceGraph.depVals_sliceOf (k + 1) head, List.head?_map, head, Option.map_some, rootVal']
    exact ⟨rfl, nodup.map_on fun m hm n hn =>
      sorted.value_inj m (through m hm).mem_nodes n (through n hn).mem_nodes⟩

end Slices

end Arthas.Slicing
