import Arthas.Slicing.SlicingWalk

/-!
`computeSlices` with the dependences separated. The test for an edge of another kind is the
wrong way round, and a slice keeps the kind of the first edge of the root while it goes on
with the node that was pushed last; the slices are of one kind each only on graphs whose
root edges lead to leaves and have kinds that read the same from both ends.
-/

set_option autoImplicit false
set_option relaxedAutoImplicit false

namespace Arthas.Slicing

variable {ν ι φ : Type*} [DecidableEq ν] [DecidableEq ι] [DecidableEq φ]

/-- What becomes of an edge in the loop over the edges of a node. -/
inductive EdgeFate where
  | skipped
  | otherFunction
  | visited
  | pushed
  deriving DecidableEq

/-- An edge that was tested, with the dependence that the current slice had when its node
was entered. -/
structure EdgeTest (ν : Type*) where
  edge : SliceEdge ν
  dependence : SliceDependence
  fate : EdgeFate

/-- The branch that `exploreEdge` takes. -/
def edgeFate (g : SliceGraph ν ι φ) (interProcedurual separateDependence
    currentDependenceUnknown : Bool) (st : SlicingState ν ι) (edge : SliceEdge ν) : EdgeFate :=
  if separateDependence ∧ ¬ currentDependenceUnknown ∧ edge.kind = st.curr.dependence then .skipped
  else if ¬ interProcedurual ∧
      g.getFunction (g.value edge.targetNode) ≠ g.getFunction st.curr.begin then .otherFunction
  else if edge.targetNode ∈ st.visited then .visited
  else .pushed

/-- The tests of the loop over the edges of a node, entered with a dependence. -/
def edgeTests (g : SliceGraph ν ι φ) (interProcedurual separateDependence : Bool)
    (dependence : SliceDependence) : SlicingState ν ι → List (SliceEdge ν) → List (EdgeTest ν)
  | _, [] => []
  | st, edge :: edges =>
    let unknown := decide (dependence = .unknown)
    ⟨edge, dependence, edgeFate g interProcedurual separateDependence unknown st edge⟩ ::
      edgeTests g interProcedurual separateDependence dependence
        (exploreEdge g interProcedurual separateDependence unknown st edge) edges

/-- The state in which the loop over the edges of a node starts. -/
def enterNode (g : SliceGraph ν ι φ) (elem : ν) (st : SlicingState ν ι) : SlicingState ν ι :=
  let st := { st with visited := insert elem st.visited }
  let st := if elem ≠ g.root then st.modifyCurr fun s => s.add (g.value elem) else st
  { st with unexploredEdges := 0 }

/-- The tests of a run of `slicingLoop`, in order. -/
def slicingTests (g : SliceGraph ν ι φ) (interProcedurual separateDependence : Bool) :
    Nat → SlicingState ν ι → List (EdgeTest ν)
  | 0, _ => []
  | fuel + 1, st =>
    match st.vstack with
    | [] => []
    | elem :: vstack =>
      let entered := enterNode g elem { st with vstack := vstack }
      let st := visitNode g interProcedurual separateDependence elem { st with vstack := vstack }
      edgeTests g interProcedurual separateDependence entered.curr.dependence entered
          (g.edges elem).reverse ++
        if st.unexploredEdges = 0 then
          let st := addCurr st
          match st.slices.get (st.curr.id + 1) with
          | none => []
          | some nextSlice =>
            slicingTests g interProcedurual separateDependence fuel { st with currSlice := nextSlice }
        else slicingTests g interProcedurual separateDependence fuel st

/-- Every value of the slice after the root was pushed along an edge of the slice's kind. -/
def Homogeneous (g : SliceGraph ν ι φ) (tests : List (EdgeTest ν)) (s : Slice ι) : Prop :=
  s.dependence ≠ .unknown → ∀ v ∈ s.depVals.tail, ∃ t ∈ tests,
    t.fate = .pushed ∧ g.value t.edge.targetNode = v ∧ t.edge.kind = s.dependence

/-- A slice of a known dependence skips the edges of other kinds and no others. -/
def SkipsOtherKinds (tests : List (EdgeTest ν)) : Prop :=
  ∀ t ∈ tests, t.dependence ≠ .unknown → (t.fate = .skipped ↔ t.edge.kind ≠ t.dependence)

namespace SliceGraph

/-- The edges found so far, with one more if it leads to a new node. -/
def addFirst (g : SliceGraph ν ι φ) (es : List (SliceEdge ν)) (edge : SliceEdge ν) :
    List (SliceEdge ν) :=
  if edge.targetNode = g.root ∨ edge.targetNode ∈ es.map SliceEdge.targetNode then es
  else es ++ [edge]

/-- The edges of the root that are followed, the first to each node, from the last edge on. -/
def rootEdges (g : SliceGraph ν ι φ) (interProcedurual : Bool) : List (SliceEdge ν) :=
  ((g.edges g.root).reverse.filter (g.follows interProcedurual)).foldl g.addFirst []

/-- The root's edges lead to nodes without edges, and their kinds read the same from both
ends. -/
structure Mirrored (g : SliceGraph ν ι φ) (interProcedurual : Bool) : Prop where
  leaves : ∀ e ∈ g.rootEdges interProcedurual, g.edges e.targetNode = []
  kinds : ((g.rootEdges interProcedurual).map SliceEdge.kind).reverse =
    (g.rootEdges interProcedurual).map SliceEdge.kind

end SliceGraph

/-- A new node is pushed; the first edge of a slice of no dependence gives it its kind. -/
def SlicingState.push (separateDependence : Bool) (edge : SliceEdge ν) (st : SlicingState ν ι) :
    SlicingState ν ι :=
  let st' := if separateDependence ∧ st.curr.dependence = .unknown then
    st.modifyCurr fun s => { s with dependence := edge.kind } else st
  { st' with
    visited := insert edge.targetNode st.visited
    vstack := edge.targetNode :: st.vstack
    unexploredEdges := st.unexploredEdges + 1 }

section Visit

variable {g : SliceGraph ν ι φ} {interProcedurual separateDependence : Bool}

omit [DecidableEq ι] [DecidableEq φ] in
variable (g) in
/-- Entering a node only changes the current slice and the set of visited nodes. -/
theorem enterNode_frame (elem : ν) (st : SlicingState ν ι) :
    (enterNode g elem st).currSlice = st.currSlice ∧ (enterNode g elem st).vstack = st.vstack ∧
      (enterNode g elem st).visited = insert elem st.visited ∧
      (enterNode g elem st).explored = st.explored := by
  unfold enterNode
  simp only
  split <;> exact ⟨rfl, rfl, rfl, rfl⟩

/-- Visiting a node is the loop over its edges from where it was entered. -/
theorem visitNode_eq (elem : ν) (st : SlicingState ν ι) :
    visitNode g interProcedurual separateDependence elem st =
      let entered := enterNode g elem st
      let st := (g.edges elem).reverse.foldl (exploreEdge g interProcedurual separateDependence
        (decide (entered.curr.dependence = .unknown))) entered
      { st with explored := st.explored ++ [(elem, st.unexploredEdges)] } := rfl

/-- Only an edge that is pushed changes the state. -/
theorem exploreEdge_eq (unknown : Bool) (st : SlicingState ν ι) (edge : SliceEdge ν) :
    exploreEdge g interProcedurual separateDependence unknown st edge =
      if edgeFate g interProcedurual separateDependence unknown st edge = .pushed then
        if st.unexploredEdges = 0 then st.push separateDependence edge
        else forkSlice separateDependence unknown edge.kind (st.push separateDependence edge)
      else st := by
  unfold exploreEdge edgeFate
  split
  · rfl
  split
  · rfl
  by_cases hseen : edge.targetNode ∈ st.visited
  · simp only [if_pos hseen]
    rfl
  · simp only [if_neg hseen]
    -- The two ways in which the pushed state is built.
    unfold SlicingState.push
    by_cases hfirst : separateDependence = true ∧ st.curr.dependence = .unknown
    · have hfirst' : separateDependence = true ∧
          { st with visited := insert edge.targetNode st.visited }.curr.dependence = .unknown := hfirst
      simp only [if_pos hfirst, if_pos hfirst', if_true]
      by_cases hzero : st.unexploredEdges = 0
      · rw [if_pos hzero]
        exact if_neg (show ¬ st.unexploredEdges + 1 > 1 by omega)
      · rw [if_neg hzero]
        exact if_pos (show st.unexploredEdges + 1 > 1 by omega)
    · have hfirst' : ¬ (separateDependence = true ∧
          { st with visited := insert edge.targetNode st.visited }.curr.dependence = .unknown) := hfirst
      simp only [if_neg hfirst, if_neg hfirst', if_true]
      by_cases hzero : st.unexploredEdges = 0
      · rw [if_pos hzero]
        exact if_neg (show ¬ st.unexploredEdges + 1 > 1 by omega)
      · rw [if_neg hzero]
        exact if_pos (show st.unexploredEdges + 1 > 1 by omega)

end Visit

/-- The slice of an id after some turns at leaves: it has the kind of an edge of the root,
from the first on, and the value of a target, from the last on. -/
def leafSlice (g : SliceGraph ν ι φ) (es : List (SliceEdge ν)) (turns i : Nat) : Slice ι where
  id := i + 1
  root := g.value g.root
  direction := g.direction
  persistence := .na
  dependence := (es[i]?.map SliceEdge.kind).getD .unknown
  depVals := g.value g.root ::
    if i < turns then (es.reverse[i]?.map fun e => g.value e.targetNode).toList else []
  depVals_ne := List.cons_ne_nil _ _

/-- The slices of the edges of the root after some turns at leaves. -/
structure LeafSlices (g : SliceGraph ν ι φ) (es : List (SliceEdge ν)) (turns : Nat)
    (st : SlicingState ν ι) : Prop where
  heap : ∀ i < max 1 es.length, st.heap i = leafSlice g es turns i
  slices : st.slices.slices = List.range (max 1 es.length)
  sliceMap : ∀ sliceId, st.slices.get sliceId =
    if 1 ≤ sliceId ∧ sliceId ≤ max 1 es.length then some (sliceId - 1) else none

/-- The state of the loop over the edges of the root, with the edges that were pushed. -/
structure Rooted (g : SliceGraph ν ι φ) (es : List (SliceEdge ν)) (st : SlicingState ν ι) : Prop
    extends LeafSlices g es 0 st where
  created : st.created = max 1 es.length
  currSlice : st.currSlice = 0
  currSliceId : st.currSliceId = max 1 es.length
  visited : ∀ v, v ∈ st.visited ↔ v = g.root ∨ v ∈ es.map SliceEdge.targetNode
  vstack : st.vstack = (es.map SliceEdge.targetNode).reverse
  unexploredEdges : st.unexploredEdges = es.length
  known : ∀ e ∈ es, e.kind ≠ .unknown

section Root

variable {g : SliceGraph ν ι φ} {interProcedurual : Bool} {es : List (SliceEdge ν)}
  {st : SlicingState ν ι}

omit [DecidableEq ν] [DecidableEq ι] [DecidableEq φ] in
theorem Rooted.curr (h : Rooted g es st) : st.curr = leafSlice g es 0 0 := by
  rw [SlicingState.curr, h.currSlice]
  exact h.heap 0 (by omega)

omit [DecidableEq ν] [DecidableEq ι] [DecidableEq φ] in
theorem leafSlice_append (edge : SliceEdge ν) {i : Nat} (hi : i < es.length) :
    leafSlice g (es ++ [edge]) 0 i = leafSlice g es 0 i := by
  simp only [leafSlice, Nat.not_lt_zero, if_false]
  rw [List.getElem?_append_left hi]

omit [DecidableEq ν] [DecidableEq φ] in
/-- Before the first leaf a fork has only the root. -/
theorem fork_leafSlice : (leafSlice g es 0 0).fork = leafSlice g es 0 0 := by
  have hnone : (leafSlice g es 0 0).depVals.filter (· ≠ (leafSlice g es 0 0).root) = [] := by
    simp [leafSlice]
  unfold Slice.fork
  rw [hnone]
  rfl

omit [DecidableEq ι] [DecidableEq φ] in
/-- The first edge of the root gives the first slice its kind and is pushed. -/
theorem Rooted.pushFirst (h : Rooted g [] st) {edge : SliceEdge ν} (hkind : edge.kind ≠ .unknown) :
    Rooted g [edge] (st.push true edge) := by
  have hpush : st.push true edge = { st.modifyCurr (fun s => { s with dependence := edge.kind }) with
      visited := insert edge.targetNode st.visited
      vstack := edge.targetNode :: st.vstack
      unexploredEdges := st.unexploredEdges + 1 } := by
    unfold SlicingState.push
    rw [if_pos ⟨rfl, by rw [h.curr]; rfl⟩]
  rw [hpush]
  refine ⟨⟨fun i hi => ?_, h.slices, h.sliceMap⟩, h.created, h.currSlice, h.currSliceId,
    fun v => ?_, ?_, ?_, ?_⟩
  · have hi' : i = 0 := by
      simp at hi
      omega
    subst hi'
    simp only [SlicingState.modifyCurr, h.currSlice, Function.update_self, h.curr]
    rfl
  · simp [h.visited, or_comm]
  · simp [h.vstack]
  · simp [h.unexploredEdges]
  · simpa using hkind

omit [DecidableEq φ] in
/-- Every other edge of the root forks a slice of its own kind. -/
theorem Rooted.pushNext (h : Rooted g es st) (hes : es ≠ []) {edge : SliceEdge ν}
    (hkind : edge.kind ≠ .unknown) :
    Rooted g (es ++ [edge]) (forkSlice true true edge.kind (st.push true edge)) := by
  have hpush : st.push true edge = { st with
      visited := insert edge.targetNode st.visited
      vstack := edge.targetNode :: st.vstack
      unexploredEdges := st.unexploredEdges + 1 } := by
    have hdep : st.curr.dependence ≠ .unknown := by
      obtain ⟨first, rest, rfl⟩ := List.exists_cons_of_ne_nil hes
      rw [h.curr]
      exact h.known first List.mem_cons_self
    unfold SlicingState.push
    rw [if_neg fun hor => hdep hor.2]
  have hpos : 0 < es.length := List.length_pos_iff.mpr hes
  have hlen : max 1 es.length = es.length := by omega
  have hlen' : max 1 (es ++ [edge]).length = es.length + 1 := by simp
  have hforked : ({ st.curr.fork with dependence := edge.kind, id := st.currSliceId + 1 } : Slice ι) =
      leafSlice g (es ++ [edge]) 0 es.length := by
    rw [h.curr, fork_leafSlice, h.currSliceId, hlen]
    simp [leafSlice]
  have hfork : forkSlice true true edge.kind (st.push true edge) =
      { st with
        visited := insert edge.targetNode st.visited
        vstack := edge.targetNode :: st.vstack
        unexploredEdges := st.unexploredEdges + 1
        currSliceId := st.currSliceId + 1 }.addNew (leafSlice g (es ++ [edge]) 0 es.length) := by
    rw [← hforked, hpush]
    rfl
  rw [hfork]
  refine ⟨⟨fun i hi => ?_, ?_, fun sliceId => ?_⟩, ?_, h.currSlice, ?_, fun v => ?_, ?_, ?_, ?_⟩
  · rw [hlen'] at hi
    simp only [SlicingState.addNew, h.created, hlen]
    by_cases hlast : i = es.length
    · rw [hlast, Function.update_self]
    · rw [Function.update_of_ne hlast, leafSlice_append edge (by omega)]
      exact h.heap i (by omega)
  · rw [hlen', List.range_succ]
    change st.slices.slices ++ [st.created] = _
    rw [h.slices, h.created, hlen]
  · rw [hlen']
    change (st.slices.add st.created (es.length + 1)).get sliceId = _
    rw [h.created, hlen]
    exact Slices.get_add_next (hlen ▸ h.sliceMap) sliceId
  · rw [hlen']
    exact congrArg (· + 1) (h.created.trans hlen)
  · rw [hlen']
    exact congrArg (· + 1) (h.currSliceId.trans hlen)
  · change v ∈ insert edge.targetNode st.visited ↔ _
    rw [Finset.mem_insert, h.visited, List.map_append, List.mem_append, List.map_singleton,
      List.mem_singleton]
    tauto
  · change edge.targetNode :: st.vstack = _
    rw [h.vstack]
    simp
  · change st.unexploredEdges + 1 = _
    rw [h.unexploredEdges]
    simp
  · intro e he
    rcases List.mem_append.mp he with he | he
    · exact h.known e he
    · exact List.mem_singleton.mp he ▸ hkind

variable (interProcedurual) in
/-- An edge of the root is pushed if it is followed and leads to a new node. -/
theorem Rooted.explore (h : Rooted g es st) {edge : SliceEdge ν} (hkind : edge.kind ≠ .unknown) :
    let found := if g.follows interProcedurual edge then g.addFirst es edge else es
    Rooted g found (exploreEdge g interProcedurual true true st edge) ∧
      found = if edgeFate g interProcedurual true true st edge = .pushed then es ++ [edge] else es := by
  intro found
  have hbegin : st.curr.begin = g.value g.root := by
    rw [h.curr]
    rfl
  have hfate : edgeFate g interProcedurual true true st edge =
      if g.follows interProcedurual edge then
        if edge.targetNode ∈ st.visited then .visited else .pushed
      else .otherFunction := by
    unfold edgeFate
    rw [if_neg (by simp), hbegin]
    by_cases hfollows : g.follows interProcedurual edge = true
    · rw [if_pos hfollows]
      apply if_neg
      simpa [SliceGraph.follows, Bool.not_eq_true, or_iff_not_imp_left] using hfollows
    · rw [if_neg hfollows]
      apply if_pos
      simpa [SliceGraph.follows] using hfollows
  rw [exploreEdge_eq, hfate]
  by_cases hfollows : g.follows interProcedurual edge = true
  · have hfound : found = g.addFirst es edge := if_pos hfollows
    rw [if_pos hfollows]
    by_cases hseen : edge.targetNode ∈ st.visited
    · have hadd : g.addFirst es edge = es := if_pos ((h.visited _).mp hseen)
      rw [if_pos hseen, hfound, hadd]
      exact ⟨h, rfl⟩
    · have hadd : g.addFirst es edge = es ++ [edge] :=
        if_neg fun hold => hseen ((h.visited _).mpr hold)
      rw [if_neg hseen, if_pos rfl, if_pos rfl, hfound, hadd]
      refine ⟨?_, rfl⟩
      rw [h.unexploredEdges]
      cases es with
      | nil => exact h.pushFirst hkind
      | cons first es => exact h.pushNext (List.cons_ne_nil _ _) hkind
  · have hfound : found = es := if_neg hfollows
    rw [if_neg hfollows, hfound]
    exact ⟨h, rfl⟩

variable (interProcedurual) in
/-- The edges of the root that are pushed are the first to each node. -/
theorem Rooted.exploreAll (h : Rooted g es st) {edges : List (SliceEdge ν)}
    (hkinds : ∀ e ∈ edges, e.kind ≠ .unknown) :
    let found := (edges.filter (g.follows interProcedurual)).foldl g.addFirst es
    Rooted g found (edges.foldl (exploreEdge g interProcedurual true true) st) ∧
      found = es ++ ((edgeTests g interProcedurual true .unknown st edges).filter
        (fun t => t.fate = .pushed)).map EdgeTest.edge := by
  induction edges generalizing es st with
  | nil => exact ⟨h, by simp [edgeTests]⟩
  | cons edge edges ih =>
    intro found
    obtain ⟨hstep, hfound⟩ := h.explore interProcedurual (hkinds edge List.mem_cons_self)
    obtain ⟨hall, htests⟩ := ih hstep fun e he => hkinds e (List.mem_cons_of_mem _ he)
    have hcons : found = (edges.filter (g.follows interProcedurual)).foldl g.addFirst
        (if g.follows interProcedurual edge then g.addFirst es edge else es) := by
      simp only [found, List.filter_cons]
      split <;> rfl
    rw [hcons, List.foldl_cons]
    refine ⟨hall, ?_⟩
    rw [htests, hfound, edgeTests, List.filter_cons]
    simp only [decide_true, decide_eq_true_eq]
    split <;> simp

end Root

/-- The edges of the root lead to different nodes, none of them the root, and have known
kinds. -/
structure FirstEdges (g : SliceGraph ν ι φ) (es : List (SliceEdge ν)) : Prop where
  known : ∀ e ∈ es, e.kind ≠ .unknown
  ne_root : ∀ e ∈ es, e.targetNode ≠ g.root
  nodup : (es.map SliceEdge.targetNode).Nodup
  mem : ∀ e ∈ es, e.targetNode ∈ g.nodes

/-- The state of the loop at the next target, after some turns at leaves. -/
structure Turning (g : SliceGraph ν ι φ) (es : List (SliceEdge ν)) (turns : Nat)
    (st : SlicingState ν ι) : Prop extends LeafSlices g es turns st where
  vstack : st.vstack = (es.reverse.drop turns).map SliceEdge.targetNode
  currSlice : st.currSlice = turns

section Leaves

variable {g : SliceGraph ν ι φ} {interProcedurual : Bool} {es : List (SliceEdge ν)}
  {st : SlicingState ν ι} {turns : Nat}

omit [DecidableEq ν] [DecidableEq ι] [DecidableEq φ] in
theorem Turning.curr (h : Turning g es turns st) (hturns : turns < es.length) :
    st.curr = leafSlice g es turns turns := by
  rw [SlicingState.curr, h.currSlice]
  exact h.heap turns (by omega)

omit [DecidableEq ι] [DecidableEq φ] in
/-- The current slice takes the value of the next target. -/
theorem Turning.enter (h : Turning g es turns st) {edge : SliceEdge ν}
    (hedge : es.reverse[turns]? = some edge) (hroot : edge.targetNode ≠ g.root)
    (pending : List ν) :
    LeafSlices g es (turns + 1) (enterNode g edge.targetNode { st with vstack := pending }) := by
  have hturns : turns < es.length := by
    obtain ⟨hlt, -⟩ := List.getElem?_eq_some_iff.mp hedge
    rwa [List.length_reverse] at hlt
  simp only [enterNode, if_pos hroot]
  refine ⟨fun i hi => ?_, h.slices, h.sliceMap⟩
  simp only [SlicingState.modifyCurr, h.currSlice]
  by_cases hlast : i = turns
  · subst hlast
    rw [Function.update_self]
    change (st.heap i).add _ = _
    rw [h.heap i hi]
    simp [leafSlice, Slice.add, hedge]
  · rw [Function.update_of_ne hlast, h.heap i hi]
    have hsame : (i < turns) = (i < turns + 1) := by
      apply propext
      omega
    simp only [leafSlice, hsame]

omit [DecidableEq ν] [DecidableEq ι] [DecidableEq φ] in
/-- The slices of the edges have been added, and the last one has no successor. -/
theorem LeafSlices.addCurr (h : LeafSlices g es turns st) {curr : Nat} (hcurr : st.currSlice = curr)
    (hlt : curr < max 1 es.length) :
    Slicing.addCurr st = st ∧ st.slices.get (st.curr.id + 1) =
      if curr + 1 < max 1 es.length then some (curr + 1) else none := by
  have hid : st.curr.id = curr + 1 := by
    rw [SlicingState.curr, hcurr, h.heap curr hlt]
    rfl
  have hhas : st.slices.has st.curr.id = true := by
    have hget := h.sliceMap st.curr.id
    rw [hid, if_pos (by omega)] at hget
    rw [hid]
    exact congrArg Option.isSome hget
  constructor
  · unfold Slicing.addCurr
    rw [hhas]
    rfl
  · rw [h.sliceMap, hid]
    exact if_congr (by omega) rfl rfl

/-- A node without edges is entered and left. -/
theorem visitNode_leaf {elem : ν} (hleaf : g.edges elem = []) (separateDependence : Bool)
    (st : SlicingState ν ι) :
    visitNode g interProcedurual separateDependence elem st =
      { enterNode g elem st with explored := st.explored ++ [(elem, 0)] } := by
  rw [visitNode_eq, hleaf]
  simp only [List.reverse_nil, List.foldl_nil, (enterNode_frame g elem st).2.2.2]
  rfl

section Iteration

variable {visited : SlicingState ν ι} {node : ν} {pending : List ν} {separateDependence : Bool}
  (hstack : st.vstack = node :: pending)
  (hvisit : visitNode g interProcedurual separateDependence node { st with vstack := pending } =
    visited)

/-- The tests at a node that is entered in a state. -/
def testsAt (g : SliceGraph ν ι φ) (interProcedurual separateDependence : Bool) (node : ν)
    (st : SlicingState ν ι) : List (EdgeTest ν) :=
  edgeTests g interProcedurual separateDependence (enterNode g node st).curr.dependence
    (enterNode g node st) (g.edges node).reverse

include hstack

/-- The tests of a run begin with those at the node on top of the stack. -/
theorem mem_slicingTests (fuel : Nat) {t : EdgeTest ν}
    (ht : t ∈ testsAt g interProcedurual separateDependence node { st with vstack := pending }) :
    t ∈ slicingTests g interProcedurual separateDependence (fuel + 1) st := by
  rw [slicingTests]
  simp only [hstack]
  exact List.mem_append_left _ ht

include hvisit

theorem slicingTests_inner (hmore : visited.unexploredEdges ≠ 0) (fuel : Nat) :
    slicingTests g interProcedurual separateDependence (fuel + 1) st =
      testsAt g interProcedurual separateDependence node { st with vstack := pending } ++
        slicingTests g interProcedurual separateDependence fuel visited := by
  rw [slicingTests]
  simp only [hstack, hvisit]
  rw [if_neg hmore]
  rfl

theorem slicingTests_leaf (hleaf : visited.unexploredEdges = 0) (hadd : addCurr visited = visited)
    {nextSlice : Nat} (hnext : visited.slices.get (visited.curr.id + 1) = some nextSlice)
    (fuel : Nat) :
    slicingTests g interProcedurual separateDependence (fuel + 1) st =
      testsAt g interProcedurual separateDependence node { st with vstack := pending } ++
        slicingTests g interProcedurual separateDependence fuel
          { visited with currSlice := nextSlice } := by
  rw [slicingTests]
  simp only [hstack, hvisit]
  rw [if_pos hleaf, hadd, hnext]
  rfl

theorem slicingTests_last (hleaf : visited.unexploredEdges = 0) (hadd : addCurr visited = visited)
    (hnext : visited.slices.get (visited.curr.id + 1) = none) (fuel : Nat) :
    slicingTests g interProcedurual separateDependence (fuel + 1) st =
      testsAt g interProcedurual separateDependence node { st with vstack := pending } := by
  rw [slicingTests]
  simp only [hstack, hvisit]
  rw [if_pos hleaf, hadd, hnext]
  exact List.append_nil _

end Iteration

/-- At a target with an edge, the first test is the wrong way round. -/
theorem Turning.inverted (h : Turning g es turns st) (hes : FirstEdges g es)
    {edge : SliceEdge ν} (hedge : es.reverse[turns]? = some edge)
    (hinner : g.edges edge.targetNode ≠ []) (fuel : Nat) :
    ∃ t ∈ slicingTests g interProcedurual true (fuel + 1) st,
      t.dependence ≠ .unknown ∧ (t.fate = .skipped ↔ t.edge.kind = t.dependence) := by
  have hturns : turns < es.length := by
    obtain ⟨hlt, -⟩ := List.getElem?_eq_some_iff.mp hedge
    rwa [List.length_reverse] at hlt
  have hmem : edge ∈ es := List.mem_reverse.mp (List.mem_of_getElem? hedge)
  have hstack : st.vstack = edge.targetNode :: (es.reverse.drop (turns + 1)).map
      SliceEdge.targetNode := by
    rw [h.vstack, List.drop_eq_getElem?_toList_append, hedge]
    rfl
  let entered := enterNode g edge.targetNode
    { st with vstack := (es.reverse.drop (turns + 1)).map SliceEdge.targetNode }
  have hcurr : entered.curr = leafSlice g es (turns + 1) turns := by
    rw [SlicingState.curr, (enterNode_frame g _ _).1]
    change entered.heap st.currSlice = _
    rw [h.currSlice]
    exact (h.enter hedge (hes.ne_root edge hmem) _).heap turns (by omega)
  obtain ⟨first, rest, hrest⟩ := List.exists_cons_of_ne_nil
    (show (g.edges edge.targetNode).reverse ≠ [] by simpa using hinner)
  have hdep : entered.curr.dependence ≠ .unknown := by
    rw [hcurr]
    simp only [leafSlice, List.getElem?_eq_getElem hturns]
    exact hes.known _ (List.getElem_mem hturns)
  refine ⟨⟨first, entered.curr.dependence, edgeFate g interProcedurual true
    (decide (entered.curr.dependence = .unknown)) entered first⟩, ?_, hdep, ?_⟩
  · apply mem_slicingTests hstack
    rw [testsAt, hrest, edgeTests]
    exact List.mem_cons_self
  · simp only [edgeFate, hdep]
    by_cases hkind : first.kind = entered.curr.dependence
    · simp [hkind]
    · simp only [hkind, and_false, if_false, iff_false]
      split
      · exact EdgeFate.noConfusion
      split
      · exact EdgeFate.noConfusion
      · exact EdgeFate.noConfusion

omit [DecidableEq ν] [DecidableEq ι] [DecidableEq φ] in
theorem LeafSlices.turning (h : LeafSlices g es turns st)
    (hstack : st.vstack = (es.reverse.drop turns).map SliceEdge.targetNode) :
    Turning g es turns { st with currSlice := turns } :=
  ⟨⟨h.heap, h.slices, h.sliceMap⟩, hstack, rfl⟩

variable (interProcedurual) in
/-- A turn at a leaf extends the current slice, tests no edge and leaves the rest of the
stack. -/
theorem Turning.leaf (h : Turning g es turns st) (hes : FirstEdges g es) {edge : SliceEdge ν}
    (hedge : es.reverse[turns]? = some edge) (hleaf : g.edges edge.targetNode = [])
    (pending : List ν) :
    let visited := visitNode g interProcedurual true edge.targetNode { st with vstack := pending }
    LeafSlices g es (turns + 1) visited ∧ visited.vstack = pending ∧ visited.currSlice = turns ∧
      visited.unexploredEdges = 0 ∧
      testsAt g interProcedurual true edge.targetNode { st with vstack := pending } = [] := by
  intro visited
  have hmem : edge ∈ es := List.mem_reverse.mp (List.mem_of_getElem? hedge)
  have hentered := h.enter hedge (hes.ne_root edge hmem) pending
  obtain ⟨hcurr, hstack, -, -⟩ := enterNode_frame g edge.targetNode
    { st with vstack := pending }
  have hvisit : visited = _ := visitNode_leaf hleaf true { st with vstack := pending }
  rw [hvisit, testsAt, hleaf]
  exact ⟨⟨hentered.heap, hentered.slices, hentered.sliceMap⟩, hstack, hcurr.trans h.currSlice, rfl, rfl⟩

variable (interProcedurual) in
/-- When every target is a leaf, the loop makes its turns and tests no more edges. -/
theorem Turning.run (h : Turning g es turns st) (hes : FirstEdges g es)
    (hleaves : ∀ e ∈ es.reverse.drop turns, g.edges e.targetNode = []) (hturns : turns < es.length)
    {fuel : Nat} (hfuel : es.length ≤ turns + fuel) :
    ∃ st', slicingLoop g interProcedurual true fuel st = some st' ∧
      LeafSlices g es es.length st' ∧ st'.currSlice < es.length ∧
      slicingTests g interProcedurual true fuel st = [] := by
  induction fuel generalizing turns st with
  | zero => omega
  | succ fuel ih =>
    obtain ⟨edge, hedge⟩ : ∃ edge, es.reverse[turns]? = some edge :=
      ⟨_, List.getElem?_eq_getElem (by simpa using hturns)⟩
    have hdrop : es.reverse.drop turns = edge :: es.reverse.drop (turns + 1) := by
      rw [List.drop_eq_getElem?_toList_append, hedge]
      rfl
    rw [hdrop] at hleaves
    have hstack := h.vstack
    rw [hdrop, List.map_cons] at hstack
    obtain ⟨hslices, hpending, hcurr, hzero, htests⟩ := h.leaf interProcedurual hes hedge
      (hleaves edge List.mem_cons_self) ((es.reverse.drop (turns + 1)).map
        SliceEdge.targetNode)
    obtain ⟨hadd, hnext⟩ := hslices.addCurr hcurr (by omega)
    by_cases hmore : turns + 1 < es.length
    · rw [if_pos (by omega)] at hnext
      obtain ⟨st', hrun, hdone, hlast, hrest⟩ := ih (hslices.turning hpending)
        (fun e he => hleaves e (List.mem_cons_of_mem _ he)) hmore (by omega)
      refine ⟨st', (slicingLoop_leaf interProcedurual hstack rfl hzero hadd hnext fuel).trans hrun,
        hdone, hlast, ?_⟩
      rw [slicingTests_leaf hstack rfl hzero hadd hnext, htests, hrest]
      rfl
    · rw [if_neg (by omega)] at hnext
      have hall : turns + 1 = es.length := by omega
      refine ⟨_, slicingLoop_last interProcedurual hstack rfl hzero hadd hnext fuel, ?_,
        by rw [hcurr]; exact hturns, ?_⟩
      · rw [← hall]
        exact hslices
      · rw [slicingTests_last hstack rfl hzero hadd hnext, htests]

variable (interProcedurual) in
/-- When a target is no leaf, a test of the loop is the wrong way round. -/
theorem Turning.run_inverted (h : Turning g es turns st) (hes : FirstEdges g es)
    (hinner : ∃ e ∈ es.reverse.drop turns, g.edges e.targetNode ≠ []) {fuel : Nat}
    (hfuel : es.length ≤ turns + fuel) :
    ∃ t ∈ slicingTests g interProcedurual true fuel st,
      t.dependence ≠ .unknown ∧ (t.fate = .skipped ↔ t.edge.kind = t.dependence) := by
  have hturns : turns < es.length := by
    obtain ⟨e, he, -⟩ := hinner
    have hpos := List.length_pos_of_mem he
    rw [List.length_drop, List.length_reverse] at hpos
    omega
  induction fuel generalizing turns st with
  | zero => omega
  | succ fuel ih =>
    obtain ⟨edge, hedge⟩ : ∃ edge, es.reverse[turns]? = some edge :=
      ⟨_, List.getElem?_eq_getElem (by simpa using hturns)⟩
    by_cases hleaf : g.edges edge.targetNode = []
    · have hdrop : es.reverse.drop turns = edge :: es.reverse.drop (turns + 1) := by
        rw [List.drop_eq_getElem?_toList_append, hedge]
        rfl
      have hstack := h.vstack
      rw [hdrop, List.map_cons] at hstack
      have hinner' : ∃ e ∈ es.reverse.drop (turns + 1), g.edges e.targetNode ≠ [] := by
        obtain ⟨e, he, hne⟩ := hinner
        rw [hdrop] at he
        rcases List.mem_cons.mp he with rfl | he
        · exact absurd hleaf hne
        · exact ⟨e, he, hne⟩
      have hmore : turns + 1 < es.length := by
        obtain ⟨e, he, -⟩ := hinner'
        have hpos := List.length_pos_of_mem he
        rw [List.length_drop, List.length_reverse] at hpos
        omega
      obtain ⟨hslices, hpending, hcurr, hzero, htests⟩ := h.leaf interProcedurual
        hes hedge hleaf ((es.reverse.drop (turns + 1)).map SliceEdge.targetNode)
      obtain ⟨hadd, hnext⟩ := hslices.addCurr hcurr (by omega)
      rw [if_pos (by omega)] at hnext
      rw [slicingTests_leaf hstack rfl hzero hadd hnext, htests, List.nil_append]
      exact ih (hslices.turning hpending) hinner' (by omega)
        hmore
    · exact h.inverted hes hedge hleaf fuel

end Leaves

/-- The nodes that are not visited, and those that wait. -/
def SlicingState.potential (g : SliceGraph ν ι φ) (st : SlicingState ν ι) : Nat :=
  (g.nodes.toFinset \ st.visited).card + st.vstack.length

section Ends

variable {g : SliceGraph ν ι φ} {interProcedurual separateDependence : Bool}

variable (interProcedurual separateDependence) in
/-- An edge moves at most one node from those not visited to the stack. -/
theorem exploreEdge_potential (unknown : Bool) {st : SlicingState ν ι} {edge : SliceEdge ν}
    (hstack : ∀ v ∈ st.vstack, v ∈ g.nodes) (hedge : edge.targetNode ∈ g.nodes) :
    let st' := exploreEdge g interProcedurual separateDependence unknown st edge
    st'.potential g ≤ st.potential g ∧ ∀ v ∈ st'.vstack, v ∈ g.nodes := by
  intro st'
  have hst' : st' = _ := exploreEdge_eq unknown st edge
  by_cases hpushed : edgeFate g interProcedurual separateDependence unknown st edge = .pushed
  · have hnew : edge.targetNode ∉ st.visited := by
      intro hseen
      unfold edgeFate at hpushed
      split at hpushed
      · cases hpushed
      split at hpushed
      · cases hpushed
      · cases hpushed
    have hgrown : st'.visited = insert edge.targetNode st.visited ∧
        st'.vstack = edge.targetNode :: st.vstack := by
      rw [hst', if_pos hpushed]
      split <;> exact ⟨rfl, rfl⟩
    have hmem : edge.targetNode ∈ g.nodes.toFinset \ st.visited := by
      simp [hedge, hnew]
    have hsmaller := Finset.card_erase_of_mem hmem
    have hpos := Finset.card_pos.mpr ⟨_, hmem⟩
    constructor
    · rw [SlicingState.potential, hgrown.1, hgrown.2, Finset.sdiff_insert, hsmaller, List.length_cons,
        SlicingState.potential]
      omega
    · rw [hgrown.2]
      intro v hv
      rcases List.mem_cons.mp hv with rfl | hv
      · exact hedge
      · exact hstack v hv
  · rw [hst', if_neg hpushed]
    exact ⟨le_refl _, hstack⟩

variable (interProcedurual separateDependence) in
theorem exploreEdges_potential (unknown : Bool) {edges : List (SliceEdge ν)}
    {st : SlicingState ν ι} (hstack : ∀ v ∈ st.vstack, v ∈ g.nodes)
    (hedges : ∀ e ∈ edges, e.targetNode ∈ g.nodes) :
    let st' := edges.foldl (exploreEdge g interProcedurual separateDependence unknown) st
    st'.potential g ≤ st.potential g ∧ ∀ v ∈ st'.vstack, v ∈ g.nodes := by
  induction edges generalizing st with
  | nil => exact ⟨le_refl _, hstack⟩
  | cons edge edges ih =>
    obtain ⟨hle, hstep⟩ := exploreEdge_potential interProcedurual separateDependence unknown hstack
      (hedges edge List.mem_cons_self)
    obtain ⟨hle', hall⟩ := ih hstep fun e he => hedges e (List.mem_cons_of_mem _ he)
    exact ⟨hle'.trans hle, hall⟩

variable (interProcedurual separateDependence) in
/-- A turn of the loop takes a node from the stack. -/
theorem visitNode_potential {st : SlicingState ν ι} {node : ν} {pending : List ν}
    (hstack : ∀ v ∈ node :: pending, v ∈ g.nodes) (hvstack : st.vstack = node :: pending) :
    let st' := visitNode g interProcedurual separateDependence node { st with vstack := pending }
    st'.potential g < st.potential g ∧ ∀ v ∈ st'.vstack, v ∈ g.nodes := by
  intro st'
  obtain ⟨-, hpending, hvisited, -⟩ := enterNode_frame g node { st with vstack := pending }
  have hentered : (enterNode g node { st with vstack := pending }).potential g < st.potential g := by
    have hcard := Finset.card_le_card (Finset.sdiff_subset_sdiff (Finset.Subset.refl g.nodes.toFinset)
      (Finset.subset_insert node st.visited))
    rw [SlicingState.potential, SlicingState.potential, hpending, hvisited, hvstack, List.length_cons]
    exact Nat.add_lt_add_of_le_of_lt hcard (Nat.lt_succ_self _)
  have hwaiting : ∀ v ∈ (enterNode g node { st with vstack := pending }).vstack, v ∈ g.nodes := by
    rw [hpending]
    exact fun v hv => hstack v (List.mem_cons_of_mem _ hv)
  obtain ⟨hle, hall⟩ := exploreEdges_potential interProcedurual separateDependence
    (decide ((enterNode g node { st with vstack := pending }).curr.dependence = .unknown)) hwaiting
    fun e he => g.target_mem node (hstack node List.mem_cons_self) e (List.mem_reverse.mp he)
  exact ⟨hle.trans_lt hentered, hall⟩

omit [DecidableEq ν] [DecidableEq ι] [DecidableEq φ] in
theorem addCurr_frame (st : SlicingState ν ι) :
    (addCurr st).vstack = st.vstack ∧ (addCurr st).visited = st.visited := by
  unfold addCurr
  split <;> exact ⟨rfl, rfl⟩

variable (interProcedurual separateDependence) in
/-- The loop ends. -/
theorem slicingLoop_total {fuel : Nat} {st : SlicingState ν ι}
    (hstack : ∀ v ∈ st.vstack, v ∈ g.nodes) (hfuel : st.potential g < fuel) :
    ∃ st', slicingLoop g interProcedurual separateDependence fuel st = some st' := by
  induction fuel generalizing st with
  | zero => omega
  | succ fuel ih =>
    rw [slicingLoop]
    cases hvstack : st.vstack with
    | nil => exact ⟨st, rfl⟩
    | cons node pending =>
      obtain ⟨hlt, hall⟩ := visitNode_potential interProcedurual separateDependence
        (hvstack ▸ hstack) hvstack
      simp only
      split
      · split
        · exact ⟨_, rfl⟩
        · obtain ⟨hsame, hseen⟩ := addCurr_frame (visitNode g interProcedurual separateDependence node
            { st with vstack := pending })
          apply ih
          · rw [hsame]
            exact hall
          · rw [SlicingState.potential, hsame, hseen]
            exact hlt.trans_le (Nat.le_of_lt_succ hfuel)
      · exact ih hall (by omega)

end Ends

section Main

variable (g : SliceGraph ν ι φ) (interProcedurual : Bool)

omit [DecidableEq ι] [DecidableEq φ] in
/-- The edges that are kept lead to different nodes, none of them the root. -/
theorem addFirst_distinct (edges : List (SliceEdge ν)) {es : List (SliceEdge ν)}
    (hroot : ∀ e ∈ es, e.targetNode ≠ g.root) (hnodup : (es.map SliceEdge.targetNode).Nodup) :
    (∀ e ∈ edges.foldl g.addFirst es, e.targetNode ≠ g.root ∧ (e ∈ es ∨ e ∈ edges)) ∧
      ((edges.foldl g.addFirst es).map SliceEdge.targetNode).Nodup := by
  induction edges generalizing es with
  | nil => exact ⟨fun e he => ⟨hroot e he, Or.inl he⟩, hnodup⟩
  | cons edge edges ih =>
    rw [List.foldl_cons]
    by_cases hold : edge.targetNode = g.root ∨ edge.targetNode ∈ es.map SliceEdge.targetNode
    · have hadd : g.addFirst es edge = es := if_pos hold
      rw [hadd]
      obtain ⟨hmem, hdistinct⟩ := ih hroot hnodup
      exact ⟨fun e he => ⟨(hmem e he).1, (hmem e he).2.imp_right (List.mem_cons_of_mem _)⟩, hdistinct⟩
    · have hadd : g.addFirst es edge = es ++ [edge] := if_neg hold
      rw [hadd]
      obtain ⟨hne, hfresh⟩ := not_or.mp hold
      have hroot' : ∀ e ∈ es ++ [edge], e.targetNode ≠ g.root := by
        intro e he
        rcases List.mem_append.mp he with he | he
        · exact hroot e he
        · exact List.mem_singleton.mp he ▸ hne
      have hnodup' : ((es ++ [edge]).map SliceEdge.targetNode).Nodup := by
        rw [List.map_append, List.map_singleton]
        exact List.concat_eq_append ▸ hnodup.concat hfresh
      obtain ⟨hmem, hdistinct⟩ := ih hroot' hnodup'
      refine ⟨fun e he => ⟨(hmem e he).1, ?_⟩, hdistinct⟩
      rcases (hmem e he).2 with he | he
      · rcases List.mem_append.mp he with he | he
        · exact Or.inl he
        · exact Or.inr (List.mem_singleton.mp he ▸ List.mem_cons_self)
      · exact Or.inr (List.mem_cons_of_mem _ he)

omit [DecidableEq ι] in
theorem firstEdges_rootEdges (hkinds : ∀ e ∈ g.edges g.root, e.kind ≠ .unknown) :
    FirstEdges g (g.rootEdges interProcedurual) := by
  obtain ⟨hmem, hnodup⟩ := addFirst_distinct g
    ((g.edges g.root).reverse.filter (g.follows interProcedurual))
    (fun e he => absurd he List.not_mem_nil) List.nodup_nil
  have hedge : ∀ e ∈ g.rootEdges interProcedurual, e ∈ g.edges g.root := by
    intro e he
    have hin := (hmem e he).2.resolve_left List.not_mem_nil
    exact List.mem_reverse.mp (List.mem_filter.mp hin).1
  exact ⟨fun e he => hkinds e (hedge e he), fun e he => (hmem e he).1, hnodup,
    fun e he => g.target_mem g.root g.root_mem e (hedge e he)⟩

theorem edgeTests_dependence (separateDependence : Bool) (dependence : SliceDependence)
    (edges : List (SliceEdge ν)) (st : SlicingState ν ι) :
    ∀ t ∈ edgeTests g interProcedurual separateDependence dependence st edges,
      t.dependence = dependence := by
  induction edges generalizing st with
  | nil => exact fun t ht => absurd ht List.not_mem_nil
  | cons edge edges ih =>
    intro t ht
    rcases List.mem_cons.mp ht with rfl | ht
    · rfl
    · exact ih _ t ht

/-- The turn at the root. -/
theorem visitRoot (hkinds : ∀ e ∈ g.edges g.root, e.kind ≠ .unknown) :
    let start : SlicingState ν ι := { SlicingState.start g with vstack := [] }
    Rooted g (g.rootEdges interProcedurual) (visitNode g interProcedurual true g.root start) ∧
      g.rootEdges interProcedurual = ((testsAt g interProcedurual true g.root start).filter
        (fun t => t.fate = .pushed)).map EdgeTest.edge ∧
      ∀ t ∈ testsAt g interProcedurual true g.root start, t.dependence = .unknown := by
  intro start
  have hentered : Rooted g [] (enterNode g g.root start) := by
    have hroot : enterNode g g.root start = { start with visited := insert g.root ∅ } := by
      unfold enterNode
      simp only [ne_eq, not_true_eq_false, if_false]
      rfl
    rw [hroot]
    refine ⟨⟨fun i hi => ?_, rfl, fun sliceId => ?_⟩, rfl, rfl, rfl, fun v => ?_, rfl, rfl, ?_⟩
    · have hi' : i = 0 := by
        simp at hi
        omega
      subst hi'
      rfl
    · by_cases hid : sliceId = 1
      · subst hid
        rfl
      · rw [if_neg (by simp; omega)]
        exact Function.update_of_ne hid _ _
    · simp
    · exact fun e he => absurd he List.not_mem_nil
  have hdep : (enterNode g g.root start).curr.dependence = .unknown := by
    rw [hentered.curr]
    rfl
  have hreverse : ∀ e ∈ (g.edges g.root).reverse, e.kind ≠ .unknown :=
    fun e he => hkinds e (List.mem_reverse.mp he)
  obtain ⟨hrooted, hpushed⟩ := hentered.exploreAll interProcedurual hreverse
  simp only [visitNode_eq, testsAt, hdep, decide_true]
  refine ⟨?_, hpushed, edgeTests_dependence g interProcedurual true _ _ _⟩
  exact ⟨⟨hrooted.heap, hrooted.slices, hrooted.sliceMap⟩, hrooted.created, hrooted.currSlice,
    hrooted.currSliceId, hrooted.visited, hrooted.vstack, hrooted.unexploredEdges, hrooted.known⟩

omit [DecidableEq ν] [DecidableEq ι] [DecidableEq φ] in
/-- A slice is of one kind if its edge has the kind of the edge whose target it takes. -/
theorem homogeneous_leafSlice {es : List (SliceEdge ν)} {tests : List (EdgeTest ν)}
    (hes : FirstEdges g es)
    (htests : es = (tests.filter (fun t => t.fate = .pushed)).map EdgeTest.edge) {i : Nat}
    (hi : i < es.length) :
    Homogeneous g tests (leafSlice g es es.length i) ↔
      (es.map SliceEdge.kind).reverse[i]? = (es.map SliceEdge.kind)[i]? := by
  obtain ⟨first, hfirst⟩ : ∃ e, es[i]? = some e := ⟨_, List.getElem?_eq_getElem hi⟩
  obtain ⟨taken, htaken⟩ : ∃ e, es.reverse[i]? = some e :=
    ⟨_, List.getElem?_eq_getElem (by simpa using hi)⟩
  have hmem : taken ∈ es := List.mem_reverse.mp (List.mem_of_getElem? htaken)
  have hdep : (leafSlice g es es.length i).dependence = first.kind := by simp [leafSlice, hfirst]
  have hvals : (leafSlice g es es.length i).depVals.tail = [g.value taken.targetNode] := by
    simp only [leafSlice, if_pos hi, htaken]
    rfl
  have hkinds : (es.map SliceEdge.kind).reverse[i]? = (es.map SliceEdge.kind)[i]? ↔
      taken.kind = first.kind := by
    rw [← List.map_reverse, List.getElem?_map, List.getElem?_map, htaken, hfirst]
    simp
  rw [hkinds, Homogeneous, hdep, hvals]
  constructor
  · intro hpushed
    obtain ⟨t, ht, hfate, hvalue, hkind⟩ := hpushed
      (hes.known first (List.mem_of_getElem? hfirst)) _ List.mem_cons_self
    have htest : t.edge ∈ es := by
      rw [htests]
      exact List.mem_map_of_mem (List.mem_filter.mpr ⟨ht, by simpa using hfate⟩)
    have htarget := g.value_inj _ (hes.mem _ htest) _ (hes.mem _ hmem) hvalue
    have hsame : t.edge = taken := List.inj_on_of_nodup_map hes.nodup htest hmem htarget
    rw [← hsame, hkind]
  · intro hkind _ v hv
    rw [List.mem_singleton.mp hv]
    rw [htests] at hmem
    obtain ⟨t, ht, hedge⟩ := List.mem_map.mp hmem
    obtain ⟨ht, hfate⟩ := List.mem_filter.mp ht
    exact ⟨t, ht, by simpa using hfate, by rw [hedge], by rw [hedge, hkind]⟩

omit [DecidableEq ν] [DecidableEq ι] [DecidableEq φ] in
/-- The slices are of one kind if the kinds of the edges read the same from both ends. -/
theorem homogeneous_iff {es : List (SliceEdge ν)} {st : SlicingState ν ι}
    {tests : List (EdgeTest ν)} (hes : FirstEdges g es) (h : LeafSlices g es es.length st)
    (htests : es = (tests.filter (fun t => t.fate = .pushed)).map EdgeTest.edge) :
    (∀ s ∈ st.result, Homogeneous g tests s) ↔
      (es.map SliceEdge.kind).reverse = es.map SliceEdge.kind := by
  have hresult : (∀ s ∈ st.result, Homogeneous g tests s) ↔
      ∀ i < max 1 es.length, Homogeneous g tests (leafSlice g es es.length i) := by
    rw [SlicingState.result, h.slices]
    constructor
    · intro hall i hi
      rw [← h.heap i hi]
      exact hall _ (List.mem_map_of_mem (List.mem_range.mpr hi))
    · intro hall s hs
      obtain ⟨i, hi, rfl⟩ := List.mem_map.mp hs
      rw [h.heap i (List.mem_range.mp hi)]
      exact hall i (List.mem_range.mp hi)
  rw [hresult]
  constructor
  · intro hall
    apply List.ext_getElem?
    intro i
    by_cases hi : i < es.length
    · exact (homogeneous_leafSlice g hes htests hi).mp (hall i (by omega))
    · rw [List.getElem?_eq_none (by simpa using hi), List.getElem?_eq_none (by simpa using hi)]
  · intro hkinds i hi
    by_cases hlt : i < es.length
    · exact (homogeneous_leafSlice g hes htests hlt).mpr (by rw [hkinds])
    · have hnone : (leafSlice g es es.length i).dependence = .unknown := by
        simp only [leafSlice, List.getElem?_eq_none (Nat.le_of_not_lt hlt)]
        rfl
      exact fun hknown => absurd hnone hknown

/-- After the root the loop turns to the edges of the root. -/
theorem turning_root (hkinds : ∀ e ∈ g.edges g.root, e.kind ≠ .unknown)
    (hne : g.rootEdges interProcedurual ≠ []) (fuel : Nat) :
    ∃ st : SlicingState ν ι, Turning g (g.rootEdges interProcedurual) 0 st ∧
      slicingLoop g interProcedurual true (fuel + 1) (SlicingState.start g) =
        slicingLoop g interProcedurual true fuel st ∧
      slicingTests g interProcedurual true (fuel + 1) (SlicingState.start g) =
        testsAt g interProcedurual true g.root { SlicingState.start g with vstack := [] } ++
          slicingTests g interProcedurual true fuel st := by
  obtain ⟨hrooted, -, -⟩ := visitRoot g interProcedurual hkinds
  have hstack : (SlicingState.start g).vstack = g.root :: [] := rfl
  have hmore : (visitNode g interProcedurual true g.root
      { SlicingState.start g with vstack := [] }).unexploredEdges ≠ 0 := by
    rw [hrooted.unexploredEdges]
    exact fun hnil => hne (List.length_eq_zero_iff.mp hnil)
  refine ⟨_, ⟨hrooted.toLeafSlices, ?_, hrooted.currSlice⟩,
    slicingLoop_inner interProcedurual hstack rfl hmore fuel,
    slicingTests_inner hstack rfl hmore fuel⟩
  rw [hrooted.vstack, List.drop_zero, List.map_reverse]

/-- When the edges of the root lead to leaves, only the edges of the root are tested. -/
theorem slicingLoop_leaves (hkinds : ∀ e ∈ g.edges g.root, e.kind ≠ .unknown)
    (hleaves : ∀ e ∈ g.rootEdges interProcedurual, g.edges e.targetNode = []) {fuel : Nat}
    (hfuel : (g.rootEdges interProcedurual).length < fuel) :
    ∃ st, slicingLoop g interProcedurual true fuel (SlicingState.start g) = some st ∧
      LeafSlices g (g.rootEdges interProcedurual) (g.rootEdges interProcedurual).length st ∧
      st.currSlice < max 1 (g.rootEdges interProcedurual).length ∧
      slicingTests g interProcedurual true fuel (SlicingState.start g) =
        testsAt g interProcedurual true g.root { SlicingState.start g with vstack := [] } := by
  obtain ⟨fuel, rfl⟩ : ∃ n, fuel = n + 1 := ⟨fuel - 1, by omega⟩
  by_cases hne : g.rootEdges interProcedurual = []
  · obtain ⟨hrooted, -, -⟩ := visitRoot g interProcedurual hkinds
    rw [hne] at hrooted ⊢
    have hstack : (SlicingState.start g).vstack = g.root :: [] := rfl
    obtain ⟨hadd, hnext⟩ := hrooted.addCurr hrooted.currSlice (by simp)
    rw [if_neg (by simp)] at hnext
    refine ⟨_, slicingLoop_last interProcedurual hstack rfl hrooted.unexploredEdges hadd hnext fuel,
      hrooted.toLeafSlices, ?_, slicingTests_last hstack rfl hrooted.unexploredEdges hadd hnext fuel⟩
    rw [hrooted.currSlice]
    simp
  · have hpos : 0 < (g.rootEdges interProcedurual).length := List.length_pos_iff.mpr hne
    obtain ⟨st, hturning, hrun, htests⟩ := turning_root g interProcedurual hkinds hne fuel
    obtain ⟨st', hrun', hslices, hcurr, hnone⟩ := hturning.run interProcedurual
      (firstEdges_rootEdges g interProcedurual hkinds)
      (fun e he => hleaves e (List.mem_reverse.mp he)) hpos (show _ ≤ 0 + fuel by omega)
    refine ⟨st', hrun.trans hrun', hslices, by omega, ?_⟩
    rw [htests, hnone, List.append_nil]

end Main

/-- A definition whose user depends on it through memory. -/
def twoKinds : SliceGraph Nat Nat Unit where
  nodes := [0, 1, 2]
  value := id
  edges n := if n = 0 then [⟨1, .registerDefUse⟩] else if n = 1 then [⟨2, .memoryDependence⟩] else []
  root := 0
  direction := .forward
  getFunction _ := ()
  root_mem := by decide
  target_mem := by decide
  value_inj _ _ _ _ := id

end Arthas.Slicing
