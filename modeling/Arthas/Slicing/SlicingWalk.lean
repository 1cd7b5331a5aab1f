import Arthas.Lib.PathQueue
import Arthas.Slicing.SliceGraph

/-!
`computeSlices`, without separating the dependences, makes the depth-first walk of the
graph, and its slices are the paths that this walk splits into.
-/

set_option autoImplicit false
set_option relaxedAutoImplicit false

namespace Arthas.Slicing

open Arthas.Lib Batching StackWalk

variable {ν ι φ : Type*}

namespace SliceGraph

/-- An edge that the computation follows: to any function, or only within that of the
root. -/
def follows [DecidableEq φ] (g : SliceGraph ν ι φ) (interProcedurual : Bool) (edge : SliceEdge ν) : Bool :=
  interProcedurual || g.getFunction (g.value edge.targetNode) = g.getFunction (g.value g.root)

/-- The targets in the order in which they are pushed. -/
def targets [DecidableEq φ] (g : SliceGraph ν ι φ) (interProcedurual : Bool) (n : ν) : List ν :=
  ((g.edges n).reverse.filter (g.follows interProcedurual)).map SliceEdge.targetNode

/-- The slice for a path of the walk; it has the root value from the start. -/
def sliceOf (g : SliceGraph ν ι φ) (sliceId : Nat) (p : List ν) : Slice ι where
  id := sliceId
  root := g.value g.root
  direction := g.direction
  persistence := .na
  dependence := .unknown
  depVals := g.value g.root :: p.tail.map g.value
  depVals_ne := List.cons_ne_nil _ _

theorem targets_mem [DecidableEq φ] (g : SliceGraph ν ι φ) (interProcedurual : Bool) :
    ∀ n ∈ g.nodes, ∀ m ∈ g.targets interProcedurual n, m ∈ g.nodes := by
  intro n hn m hm
  obtain ⟨edge, hedge, rfl⟩ := List.mem_map.mp hm
  exact g.target_mem n hn edge (List.mem_reverse.mp (List.mem_filter.mp hedge).1)

end SliceGraph

/-- Adding values one after the other appends them. -/
theorem foldl_add (s : Slice ι) (xs : List ι) :
    xs.foldl Slice.add s =
      { s with depVals := s.depVals ++ xs, depVals_ne := by simp [s.depVals_ne] } := by
  induction xs generalizing s with
  | nil => simp
  | cons x xs ih =>
    rw [List.foldl_cons, ih]
    simp [Slice.add]

/-- A slice whose other values are not the root's is forked whole. -/
theorem fork_sliceOf [DecidableEq ι] (g : SliceGraph ν ι φ) (sliceId : Nat) {p : List ν}
    (hp : ∀ v ∈ p.tail, g.value v ≠ g.value g.root) :
    (g.sliceOf sliceId p).fork = g.sliceOf sliceId p := by
  have hfilter : (g.sliceOf sliceId p).depVals.filter (· ≠ g.value g.root) =
      p.tail.map g.value := by
    change (g.value g.root :: p.tail.map g.value).filter (· ≠ g.value g.root) = _
    rw [List.filter_cons_of_neg (by simp), List.filter_eq_self]
    intro i hi
    obtain ⟨v, hv, rfl⟩ := List.mem_map.mp hi
    simpa using hp v hv
  unfold Slice.fork
  rw [show (g.sliceOf sliceId p).root = g.value g.root from rfl, hfilter, foldl_add]
  rfl

/-- A slice is added under the id after the ids 1 to `n` of the slices before it. -/
theorem Slices.get_add_next {s : Slices} {n : Nat}
    (hmap : ∀ sliceId, s.get sliceId =
      if 1 ≤ sliceId ∧ sliceId ≤ n then some (sliceId - 1) else none) (sliceId : Nat) :
    (s.add n (n + 1)).get sliceId =
      if 1 ≤ sliceId ∧ sliceId ≤ n + 1 then some (sliceId - 1) else none := by
  have hfresh : s.has (n + 1) = false := by
    have hget := hmap (n + 1)
    rw [if_neg (by omega)] at hget
    exact congrArg Option.isSome hget
  have hold := hmap sliceId
  unfold Slices.get Slices.add at *
  rw [hfresh]
  simp only [Bool.false_eq_true, if_false]
  by_cases hid : sliceId = n + 1
  · rw [hid, Function.update_self, if_pos (by omega)]
    rfl
  · rw [Function.update_of_ne hid, hold]
    exact if_congr (by omega) rfl rfl

section Sync

variable {g : SliceGraph ν ι φ} {st : SlicingState ν ι} {ps : Paths ν}

/-- The slices are those of the paths, in the order of their creation. -/
structure Renders (g : SliceGraph ν ι φ) (st : SlicingState ν ι) (ps : Paths ν) : Prop where
  heap : ∀ i p, ps.all[i]? = some p → st.heap i = g.sliceOf (i + 1) p
  created : st.created = ps.all.length
  slices : st.slices.slices = List.range ps.all.length
  sliceMap : ∀ sliceId, st.slices.get sliceId =
    if 1 ≤ sliceId ∧ sliceId ≤ ps.all.length then some (sliceId - 1) else none
  currSlice : st.currSlice = ps.done.length
  currSliceId : st.currSliceId = ps.all.length

theorem Renders.curr (h : Renders g st ps) :
    st.curr = g.sliceOf (ps.done.length + 1) ps.current := by
  rw [SlicingState.curr, h.currSlice]
  exact h.heap _ _ (by simp [Paths.all])

/-- The rendering only looks at the slices. -/
theorem Renders.congr (h : Renders g st ps) {st' : SlicingState ν ι} (hheap : st'.heap = st.heap)
    (hcreated : st'.created = st.created) (hslices : st'.slices = st.slices)
    (hcurr : st'.currSlice = st.currSlice) (hid : st'.currSliceId = st.currSliceId) :
    Renders g st' ps := by
  constructor
  · rw [hheap]
    exact h.heap
  · rw [hcreated, h.created]
  · rw [hslices, h.slices]
  · rw [hslices]
    exact h.sliceMap
  · rw [hcurr, h.currSlice]
  · rw [hid, h.currSliceId]

/-- Only the path that grows is at its place. -/
theorem getElem?_all_ne {done waiting : List (List ν)} {p q : List ν} {i : Nat}
    (hi : i ≠ done.length) :
    (Paths.mk done p waiting).all[i]? = (Paths.mk done q waiting).all[i]? := by
  simp only [Paths.all]
  by_cases hlt : i < done.length
  · rw [List.getElem?_append_left hlt, List.getElem?_append_left hlt]
  · have hle : done.length ≤ i := by omega
    obtain ⟨j, hj⟩ : ∃ j, i - done.length = j + 1 := ⟨i - done.length - 1, by omega⟩
    rw [List.getElem?_append_right hle, List.getElem?_append_right hle, hj, List.getElem?_cons_succ,
      List.getElem?_cons_succ]

/-- The current slice takes the value of an element, unless it is the root's, which it has. -/
theorem Renders.take [DecidableEq ν] (h : Renders g st ps) {node : ν}
    (hnode : ps.current = [] ↔ node = g.root) :
    Renders g (if node ≠ g.root then st.modifyCurr fun s => s.add (g.value node) else st)
      ⟨ps.done, ps.current ++ [node], ps.waiting⟩ := by
  have hlen : (Paths.mk ps.done (ps.current ++ [node]) ps.waiting).all.length = ps.all.length := by
    simp [Paths.all]
  have hplace : (Paths.mk ps.done (ps.current ++ [node]) ps.waiting).all[ps.done.length]? =
      some (ps.current ++ [node]) := by simp [Paths.all]
  by_cases hroot : node = g.root
  · have hnil := hnode.mpr hroot
    rw [if_neg (not_not.mpr hroot)]
    refine ⟨fun i p hp => ?_, hlen ▸ h.created, hlen ▸ h.slices, hlen ▸ h.sliceMap, h.currSlice,
      hlen ▸ h.currSliceId⟩
    by_cases hi : i = ps.done.length
    · rw [hi, hplace] at hp
      rw [← Option.some.inj hp, hi, ← h.currSlice]
      change st.curr = _
      rw [h.curr, hnil, h.currSlice]
      rfl
    · rw [@getElem?_all_ne ν ps.done ps.waiting (ps.current ++ [node]) ps.current i hi] at hp
      exact h.heap i p hp
  · have hne : ps.current ≠ [] := fun hnil => hroot (hnode.mp hnil)
    rw [if_pos hroot]
    refine ⟨fun i p hp => ?_, hlen ▸ h.created, hlen ▸ h.slices, hlen ▸ h.sliceMap, h.currSlice,
      hlen ▸ h.currSliceId⟩
    simp only [SlicingState.modifyCurr, h.currSlice]
    by_cases hi : i = ps.done.length
    · rw [hi, hplace] at hp
      rw [← Option.some.inj hp, hi, Function.update_self, h.curr]
      simp [Slice.add, SliceGraph.sliceOf, List.tail_append_of_ne_nil hne]
    · rw [@getElem?_all_ne ν ps.done ps.waiting (ps.current ++ [node]) ps.current i hi] at hp
      rw [Function.update_of_ne hi]
      exact h.heap i p hp

/-- A fork of the current slice is queued. -/
theorem Renders.fork [DecidableEq ι] (h : Renders g st ps) (kind : SliceDependence) (unknown : Bool)
    (hcur : ∀ v ∈ ps.current.tail, g.value v ≠ g.value g.root) :
    Renders g (forkSlice false unknown kind st)
      ⟨ps.done, ps.current, ps.waiting ++ [ps.current]⟩ := by
  have hall : (Paths.mk ps.done ps.current (ps.waiting ++ [ps.current])).all =
      ps.all ++ [ps.current] := by simp [Paths.all]
  have hforked : ({ st.curr.fork with id := st.currSliceId + 1 } : Slice ι) =
      g.sliceOf (ps.all.length + 1) ps.current := by
    rw [h.curr, fork_sliceOf g _ hcur, h.currSliceId]
    rfl
  have hfork : forkSlice false unknown kind st =
      { st with currSliceId := st.currSliceId + 1 }.addNew
        (g.sliceOf (ps.all.length + 1) ps.current) := by
    rw [← hforked]
    rfl
  rw [hfork]
  refine ⟨fun i p hp => ?_, ?_, ?_, fun sliceId => ?_, h.currSlice, ?_⟩
  · rw [hall] at hp
    simp only [SlicingState.addNew, h.created]
    by_cases hi : i = ps.all.length
    · rw [hi, List.getElem?_append_right (le_refl _), Nat.sub_self] at hp
      rw [← Option.some.inj hp, hi, Function.update_self]
    · rw [Function.update_of_ne hi]
      have hlt : i < ps.all.length := by
        obtain ⟨hbound, -⟩ := List.getElem?_eq_some_iff.mp hp
        rw [List.length_append, List.length_singleton] at hbound
        omega
      rw [List.getElem?_append_left hlt] at hp
      exact h.heap i p hp
  · rw [hall, List.length_append]
    exact congrArg (· + 1) h.created
  · rw [hall, List.length_append]
    change st.slices.slices ++ [st.created] = _
    rw [h.slices, h.created, List.length_singleton, List.range_succ]
  · rw [hall, List.length_append]
    change (st.slices.add st.created (ps.all.length + 1)).get sliceId = _
    rw [h.created, Slices.get_add_next h.sliceMap, List.length_singleton]
  · rw [hall, List.length_append]
    exact congrArg (· + 1) h.currSliceId

/-- The slice of the first path that waits becomes the current one. -/
theorem Renders.turn {done waiting : List (List ν)} {current p : List ν}
    (h : Renders g st ⟨done, current, p :: waiting⟩) :
    Renders g { st with currSlice := done.length + 1 } ⟨done ++ [current], p, waiting⟩ := by
  have hall : (Paths.mk (done ++ [current]) p waiting).all =
      (Paths.mk done current (p :: waiting)).all := by simp [Paths.all]
  refine ⟨?_, ?_, ?_, ?_, by simp, ?_⟩
  · rw [hall]
    exact h.heap
  · rw [hall]
    exact h.created
  · rw [hall]
    exact h.slices
  · rw [hall]
    exact h.sliceMap
  · rw [hall]
    exact h.currSliceId

theorem Renders.begin (h : Renders g st ps) : st.curr.begin = g.value g.root := by
  rw [h.curr]
  rfl

variable [DecidableEq ν] [DecidableEq ι] [DecidableEq φ]

/-- The edge is skipped, or leads to a node that was visited. -/
theorem exploreEdge_skip (h : Renders g st ps) (interProcedurual unknown : Bool)
    {edge : SliceEdge ν}
    (hskip : g.follows interProcedurual edge = false ∨ edge.targetNode ∈ st.visited) :
    exploreEdge g interProcedurual false unknown st edge = st := by
  unfold exploreEdge
  rw [h.begin]
  by_cases hfollow : g.follows interProcedurual edge = true
  · have hvisited := hskip.resolve_left (by simp [hfollow])
    simp [hvisited]
  · have hnot : ¬ interProcedurual ∧
        g.getFunction (g.value edge.targetNode) ≠ g.getFunction (g.value g.root) := by
      simpa [SliceGraph.follows] using hfollow
    simp [hnot]

/-- The variables once a node was found, before a fork. -/
def pushed (st : SlicingState ν ι) (next : ν) : SlicingState ν ι :=
  { st with
    visited := insert next st.visited
    vstack := next :: st.vstack
    unexploredEdges := st.unexploredEdges + 1 }

theorem exploreEdge_found (h : Renders g st ps) (interProcedurual unknown : Bool)
    {edge : SliceEdge ν} (hfollow : g.follows interProcedurual edge = true)
    (hnew : edge.targetNode ∉ st.visited) :
    exploreEdge g interProcedurual false unknown st edge =
      if st.unexploredEdges = 0 then pushed st edge.targetNode
      else forkSlice false unknown edge.kind (pushed st edge.targetNode) := by
  have hnot : ¬ (¬ interProcedurual ∧
      g.getFunction (g.value edge.targetNode) ≠ g.getFunction (g.value g.root)) := by
    simpa [SliceGraph.follows, imp_iff_not_or] using hfollow
  unfold exploreEdge
  rw [h.begin]
  simp only [Bool.false_eq_true, false_and, if_false, hnot, hnew]
  by_cases hzero : st.unexploredEdges = 0
  · simp [pushed, hzero]
  · have hpos : st.unexploredEdges + 1 > 1 := by omega
    simp only [hzero, hpos, if_true, if_false]
    rfl

/-- An edge to a new node pushes it, and forks unless it is the first one. -/
theorem exploreEdge_new (interProcedurual unknown : Bool) {done waiting : List (List ν)}
    {current : List ν} (h : Renders g st ⟨done, current, waiting⟩)
    (hcur : ∀ v ∈ current.tail, g.value v ≠ g.value g.root) {edge : SliceEdge ν}
    (hfollow : g.follows interProcedurual edge = true) (hnew : edge.targetNode ∉ st.visited) :
    let st' := exploreEdge g interProcedurual false unknown st edge
    Renders g st' ⟨done, current,
        waiting ++ List.replicate (min 1 st.unexploredEdges) current⟩ ∧
      st'.visited = insert edge.targetNode st.visited ∧
      st'.vstack = edge.targetNode :: st.vstack ∧
      st'.unexploredEdges = st.unexploredEdges + 1 ∧ st'.explored = st.explored := by
  intro st'
  have hstep : st' = _ := exploreEdge_found h interProcedurual unknown hfollow hnew
  have hpushed : Renders g (pushed st edge.targetNode) ⟨done, current, waiting⟩ :=
    h.congr rfl rfl rfl rfl rfl
  rw [hstep]
  by_cases hzero : st.unexploredEdges = 0
  · rw [if_pos hzero, hzero, Nat.min_zero, List.replicate_zero, List.append_nil]
    exact ⟨hpushed, rfl, rfl, congrArg (· + 1) hzero, rfl⟩
  · rw [if_neg hzero, show min 1 st.unexploredEdges = 1 by omega]
    exact ⟨hpushed.fork edge.kind unknown hcur, rfl, rfl, rfl, rfl⟩

/-- The loop over the edges of a node pushes the targets that are new, and forks once for
each of them but the first. -/
theorem exploreEdges_spec (interProcedurual unknown : Bool) (edges : List (SliceEdge ν))
    {done waiting : List (List ν)} {current : List ν} (marked : List ν) (st : SlicingState ν ι)
    (h : Renders g st ⟨done, current, waiting⟩)
    (hcur : ∀ v ∈ current.tail, g.value v ≠ g.value g.root)
    (hvisited : ∀ v, v ∈ st.visited ↔ v ∈ marked) :
    let found := fresh marked
      ((edges.filter (g.follows interProcedurual)).map SliceEdge.targetNode)
    let st' := edges.foldl (exploreEdge g interProcedurual false unknown) st
    let forks := st.unexploredEdges + found.length - 1 - (st.unexploredEdges - 1)
    Renders g st' ⟨done, current, waiting ++ List.replicate forks current⟩ ∧
      (∀ v, v ∈ st'.visited ↔ v ∈ found ++ marked) ∧ st'.vstack = found.reverse ++ st.vstack ∧
      st'.unexploredEdges = st.unexploredEdges + found.length ∧ st'.explored = st.explored := by
  induction edges generalizing st marked waiting with
  | nil => simpa [fresh] using ⟨h, hvisited⟩
  | cons edge edges ih =>
    by_cases hfollow : g.follows interProcedurual edge = true
    · by_cases hold : edge.targetNode ∈ marked
      · have hskip := exploreEdge_skip h interProcedurual unknown
          (Or.inr ((hvisited edge.targetNode).mpr hold))
        simpa [List.filter_cons, hfollow, fresh, hold, hskip] using ih marked st h hvisited
      · let x := edge.targetNode
        let rest := fresh (x :: marked)
          ((edges.filter (g.follows interProcedurual)).map SliceEdge.targetNode)
        have hfound : fresh marked (((edge :: edges).filter
            (g.follows interProcedurual)).map SliceEdge.targetNode) = x :: rest := by
          rw [List.filter_cons, if_pos hfollow, List.map_cons, fresh, if_neg hold]
        have hnew : x ∉ st.visited := fun hmem => hold ((hvisited x).mp hmem)
        have hmem : ∀ v, v ∈ rest ++ x :: marked ↔ v ∈ (x :: rest) ++ marked := fun v => by
          simp only [List.mem_append, List.mem_cons]
          tauto
        obtain ⟨hstep, hvisit, hpush, hone, hsame⟩ :=
          exploreEdge_new interProcedurual unknown h hcur hfollow hnew
        obtain ⟨hrenders, hvis, hstack, hcount, hexplored⟩ := ih (x :: marked) _ hstep fun v => by
          rw [hvisit, Finset.mem_insert, List.mem_cons, hvisited v]
        rw [hfound, List.foldl_cons]
        refine ⟨?_, fun v => (hvis v).trans (hmem v), ?_, ?_, hexplored.trans hsame⟩
        · have hforks : st.unexploredEdges + (x :: rest).length - 1 - (st.unexploredEdges - 1) =
              min 1 st.unexploredEdges +
                (st.unexploredEdges + 1 + rest.length - 1 - (st.unexploredEdges + 1 - 1)) := by
            rw [List.length_cons]
            omega
          rw [hone, List.append_assoc, ← List.replicate_add] at hrenders
          rw [hforks]
          exact hrenders
        · rw [hstack, hpush, List.reverse_cons, List.append_assoc]
          rfl
        · rw [hcount, hone, List.length_cons]
          change st.unexploredEdges + 1 + rest.length = _
          omega
    · have hskip := exploreEdge_skip h interProcedurual unknown (Or.inl (by simpa using hfollow))
      simpa [List.filter_cons, hfollow, hskip] using ih marked st h hvisited

end Sync

/-- What the computation records of an expansion. -/
def entry (e : Expansion ν) : ν × Nat := (e.node, e.found.length)

/-- The variables at the top of the loop, where the walk is about to expand `node`. -/
structure Simulates [DecidableEq ν] (g : SliceGraph ν ι φ) (st : SlicingState ν ι)
    (es : List (Expansion ν)) (marked : List ν) (node : ν) (pending : List ν) (ps : Paths ν) : Prop where
  renders : Renders g st ps
  visited : ∀ v, v ∈ insert node st.visited ↔ v ∈ marked
  vstack : st.vstack = node :: pending
  explored : st.explored = es.map entry

/-- The variables when the loop has ended: the stack is empty. -/
structure Finished (g : SliceGraph ν ι φ) (st : SlicingState ν ι) (es : List (Expansion ν))
    (ps : Paths ν) : Prop where
  renders : Renders g st ps
  vstack : st.vstack = []
  explored : st.explored = es.map entry

section Loop

variable {g : SliceGraph ν ι φ}

/-- In a thread only the head has the root's value. -/
theorem value_ne_root {es : List (Expansion ν)} {p : List ν} (hp : Thread g.root es p)
    (hnodes : ∀ v ∈ es.map Expansion.node, v ∈ g.nodes) :
    ∀ v ∈ p.tail, g.value v ≠ g.value g.root := by
  intro v hv heq
  cases p with
  | nil => simp at hv
  | cons u p =>
    have hu : u = g.root := Option.some.inj hp.head
    have hvroot := g.value_inj v (hnodes v (hp.expanded v (List.mem_cons_of_mem _ hv))) g.root
      g.root_mem heq
    have hnot := (List.nodup_cons.mp hp.nodup).1
    rw [hu, ← hvroot] at hnot
    exact hnot hv

/-- The current slice has been added, and the slice with the next id is that of the first
path that waits. -/
theorem Renders.addCurr {st : SlicingState ν ι} {ps : Paths ν} (h : Renders g st ps) :
    addCurr st = st ∧ st.slices.get (st.curr.id + 1) =
      if ps.waiting = [] then none else some (ps.done.length + 1) := by
  have hid : st.curr.id = ps.done.length + 1 := by
    rw [h.curr]
    rfl
  have hlen : ps.all.length = ps.done.length + 1 + ps.waiting.length := by
    simp [Paths.all, Nat.add_assoc, Nat.add_comm 1]
  have hhas : st.slices.has st.curr.id = true := by
    have hget := h.sliceMap st.curr.id
    rw [if_pos (by omega)] at hget
    exact congrArg Option.isSome hget
  refine ⟨if_neg (not_not.mpr hhas), ?_⟩
  rw [h.sliceMap, hid]
  by_cases hnil : ps.waiting = []
  · rw [if_pos hnil, if_neg (by rw [hlen, hnil, List.length_nil]; omega)]
  · have hpos : 0 < ps.waiting.length := List.length_pos_iff.mpr hnil
    rw [if_neg hnil, if_pos (by omega)]
    rfl

variable [DecidableEq ν] [DecidableEq ι] [DecidableEq φ] (interProcedurual : Bool)

/-- Visiting a node expands it. -/
theorem visitNode_spec {st : SlicingState ν ι} {es : List (Expansion ν)}
    {marked pending : List ν} {node : ν} {ps : Paths ν}
    (hw : Walked (g.targets interProcedurual) g.root g.nodes es marked (node :: pending))
    (ht : Threaded g.root es (node :: pending) ps) (h : Simulates g st es marked node pending ps) :
    let found := fresh marked (g.targets interProcedurual node)
    let e : Expansion ν := ⟨node, pending, found⟩
    let st' := visitNode g interProcedurual false node { st with vstack := pending }
    Renders g st' ⟨ps.done, ps.current ++ [node],
        ps.waiting ++ List.replicate (found.length - 1) (ps.current ++ [node])⟩ ∧
      (∀ v, v ∈ st'.visited ↔ v ∈ found ++ marked) ∧ st'.vstack = found.reverse ++ pending ∧
      st'.unexploredEdges = found.length ∧ st'.explored = (es ++ [e]).map entry := by
  intro found e st'
  have hgrown : Thread g.root (es ++ [e]) (ps.current ++ [node]) := ht.grown hw
  have hexpanded : ∀ v ∈ (es ++ [e]).map Expansion.node, v ∈ g.nodes := by
    intro v hv
    rw [List.map_append, List.mem_append] at hv
    refine hw.bound v ((hw.mem v).mpr (hv.imp_right fun hv => ?_))
    exact List.mem_singleton.mp hv ▸ List.mem_cons_self
  have hnode : ps.current = [] ↔ node = g.root := by
    rcases ht.current with hcur | ⟨hnil, hstack⟩
    · have hne : ps.current ≠ [] := fun hnil => by
        have hhead := hcur.head
        rw [hnil] at hhead
        cases hhead
      apply iff_of_false hne
      intro hroot
      have hmem := hcur.expanded g.root (List.mem_of_head? hcur.head)
      exact (List.nodup_append'.mp hw.nodup).2.2 hmem (hroot ▸ List.mem_cons_self)
    · exact iff_of_true hnil (List.cons.inj hstack).1
  let entered : SlicingState ν ι :=
    { st with vstack := pending, visited := insert node st.visited }
  let taken := if node ≠ g.root then entered.modifyCurr fun s => s.add (g.value node) else entered
  have hentered : Renders g entered ps := h.renders.congr rfl rfl rfl rfl rfl
  have hkept : taken.visited = insert node st.visited ∧ taken.vstack = pending ∧
      taken.explored = st.explored := by
    simp only [taken]
    split <;> exact ⟨rfl, rfl, rfl⟩
  obtain ⟨hrenders, hvisited, hstack, hcount, hexplored⟩ := exploreEdges_spec interProcedurual
    (decide (taken.curr.dependence = .unknown)) (g.edges node).reverse marked
    { taken with unexploredEdges := 0 }
    ((hentered.take hnode).congr rfl rfl rfl rfl rfl) (value_ne_root hgrown hexpanded)
    (fun v => by rw [hkept.1]; exact h.visited v)
  simp only [Nat.zero_add, Nat.zero_sub, Nat.sub_zero] at hrenders hcount
  refine ⟨hrenders.congr rfl rfl rfl rfl rfl, hvisited, hstack.trans (by rw [hkept.2.1]; rfl), hcount,
    ?_⟩
  rw [List.map_append, ← h.explored, ← hkept.2.2]
  exact congrArg₂ (fun explored count => explored ++ [(node, count)]) hexplored hcount

section Iteration

variable {st visited : SlicingState ν ι} {node : ν} {pending : List ν} {separateDependence : Bool}
  (hstack : st.vstack = node :: pending)
  (hvisit : visitNode g interProcedurual separateDependence node { st with vstack := pending } =
    visited)

include hstack hvisit

/-- A node with new edges leaves the current slice as it is. -/
theorem slicingLoop_inner (hmore : visited.unexploredEdges ≠ 0) (fuel : Nat) :
    slicingLoop g interProcedurual separateDependence (fuel + 1) st =
      slicingLoop g interProcedurual separateDependence fuel visited := by
  rw [slicingLoop]
  simp only [hstack, hvisit]
  exact if_neg hmore

/-- A node without new edges closes the current slice, and the loop goes on with the slice
of the next id. -/
theorem slicingLoop_leaf (hleaf : visited.unexploredEdges = 0) (hadd : addCurr visited = visited)
    {nextSlice : Nat} (hnext : visited.slices.get (visited.curr.id + 1) = some nextSlice)
    (fuel : Nat) :
    slicingLoop g interProcedurual separateDependence (fuel + 1) st =
      slicingLoop g interProcedurual separateDependence fuel
        { visited with currSlice := nextSlice } := by
  rw [slicingLoop]
  simp only [hstack, hvisit]
  rw [if_pos hleaf, hadd, hnext]

/-- Without a slice of the next id the loop ends. -/
theorem slicingLoop_last (hleaf : visited.unexploredEdges = 0) (hadd : addCurr visited = visited)
    (hnext : visited.slices.get (visited.curr.id + 1) = none) (fuel : Nat) :
    slicingLoop g interProcedurual separateDependence (fuel + 1) st = some visited := by
  rw [slicingLoop]
  simp only [hstack, hvisit]
  rw [if_pos hleaf, hadd, hnext]

end Iteration

omit [DecidableEq ι] in
/-- The node on top of the stack after an expansion has been visited. -/
theorem visited_next {st : SlicingState ν ι} {es : List (Expansion ν)}
    {marked pending found rest : List ν} {node next : ν}
    (hw : Walked (g.targets interProcedurual) g.root g.nodes es marked (node :: pending))
    (hvisited : ∀ v, v ∈ st.visited ↔ v ∈ found ++ marked)
    (heq : found.reverse ++ pending = next :: rest) (v : ν) :
    v ∈ insert next st.visited ↔ v ∈ found ++ marked := by
  have hnext : next ∈ found ++ marked := by
    have hmem : next ∈ found.reverse ++ pending := heq ▸ List.mem_cons_self
    rcases List.mem_append.mp hmem with hmem | hmem
    · exact List.mem_append_left _ (List.mem_reverse.mp hmem)
    · exact List.mem_append_right _ ((hw.mem next).mpr (Or.inr (List.mem_cons_of_mem _ hmem)))
  rw [Finset.mem_insert, hvisited v]
  exact ⟨fun hor => hor.elim (fun heq => heq ▸ hnext) id, Or.inr⟩

/-- One iteration expands the node on top of the stack, and ends the loop only when the
stack is empty. -/
theorem slicingLoop_step {st : SlicingState ν ι} {es : List (Expansion ν)}
    {marked pending : List ν} {node : ν} {ps : Paths ν}
    (hw : Walked (g.targets interProcedurual) g.root g.nodes es marked (node :: pending))
    (ht : Threaded g.root es (node :: pending) ps) (h : Simulates g st es marked node pending ps)
    (fuel : Nat) :
    let found := fresh marked (g.targets interProcedurual node)
    let e : Expansion ν := ⟨node, pending, found⟩
    (found.reverse ++ pending = [] ∧ ∃ st',
      slicingLoop g interProcedurual false (fuel + 1) st = some st' ∧
        Finished g st' (es ++ [e]) (ps.place e)) ∨
    ∃ next rest st', found.reverse ++ pending = next :: rest ∧
      slicingLoop g interProcedurual false (fuel + 1) st =
        slicingLoop g interProcedurual false fuel st' ∧
      Simulates g st' (es ++ [e]) (found ++ marked) next rest (ps.place e) := by
  intro found e
  let visited := visitNode g interProcedurual false node { st with vstack := pending }
  obtain ⟨hrenders, hvisited, hstack, hcount, hexplored⟩ : Renders g visited ⟨ps.done,
      ps.current ++ [node], ps.waiting ++ List.replicate (found.length - 1) (ps.current ++ [node])⟩ ∧
      (∀ v, v ∈ visited.visited ↔ v ∈ found ++ marked) ∧ visited.vstack = found.reverse ++ pending ∧
      visited.unexploredEdges = found.length ∧ visited.explored = (es ++ [e]).map entry :=
    visitNode_spec interProcedurual hw ht h
  obtain ⟨hadd, hnext⟩ := hrenders.addCurr
  have hbalanced : pending.length = ps.waiting.length :=
    Nat.succ.inj (ht.balanced (List.cons_ne_nil _ _))
  have hin : ∀ next rest, found.reverse ++ pending = next :: rest →
      ∀ v, v ∈ insert next visited.visited ↔ v ∈ found ++ marked :=
    fun _ _ heq v => visited_next interProcedurual hw hvisited heq v
  by_cases hfound : found = []
  · have hzero : visited.unexploredEdges = 0 := by rw [hcount, hfound]; rfl
    have hleaf : ps.waiting ++ List.replicate (found.length - 1) (ps.current ++ [node]) =
        ps.waiting := by simp [hfound]
    rw [hleaf] at hrenders hnext
    cases hps : ps.waiting with
    | nil =>
      -- No slice has the next id, and no node is left.
      have hpending : pending = [] := List.length_eq_zero_iff.mp (by rw [hbalanced, hps]; rfl)
      have hempty : found.reverse ++ pending = [] := by rw [hfound, hpending]; rfl
      rw [hps] at hnext
      refine Or.inl ⟨hempty, visited, slicingLoop_last interProcedurual h.vstack rfl hzero hadd hnext
        fuel, ?_, hstack.trans hempty, hexplored⟩
      rw [Paths.place_leaf_last hfound hps, ← hps]
      exact hrenders
    | cons p waiting =>
      have hpending : pending ≠ [] := fun hnil => by
        rw [hnil, hps] at hbalanced
        cases hbalanced
      obtain ⟨next, rest, hrest⟩ := List.exists_cons_of_ne_nil hpending
      have hstack' : found.reverse ++ pending = next :: rest := by rw [hfound, hrest]; rfl
      rw [hps] at hnext
      refine Or.inr ⟨next, rest, { visited with currSlice := ps.done.length + 1 }, hstack',
        slicingLoop_leaf interProcedurual h.vstack rfl hzero hadd hnext fuel,
        ?_, hin next rest hstack', hstack.trans hstack', hexplored⟩
      rw [hps] at hrenders
      rw [Paths.place_leaf hfound hps]
      exact hrenders.turn
  · have hpos : 0 < found.length := List.length_pos_iff.mpr hfound
    have hnonzero : visited.unexploredEdges ≠ 0 := by omega
    obtain ⟨next, rest, hrest⟩ := List.exists_cons_of_ne_nil
      (show found.reverse ++ pending ≠ [] by simp [hfound])
    refine Or.inr ⟨next, rest, visited, hrest,
      slicingLoop_inner interProcedurual h.vstack rfl hnonzero fuel, ?_, hin next rest hrest,
      hstack.trans hrest, hexplored⟩
    rw [Paths.place_inner ps hfound]
    exact hrenders

/-- The loop makes the whole walk. -/
theorem slicingLoop_walk {fuel : Nat} {st : SlicingState ν ι} {es : List (Expansion ν)}
    {marked pending : List ν} {node : ν} {ps : Paths ν}
    (hfuel : g.nodes.length ≤ es.length + fuel)
    (hw : Walked (g.targets interProcedurual) g.root g.nodes es marked (node :: pending))
    (ht : Threaded g.root es (node :: pending) ps)
    (h : Simulates g st es marked node pending ps) :
    ∃ st', slicingLoop g interProcedurual false fuel st = some st' ∧
      Finished g st' (es ++ expansions (g.targets interProcedurual) fuel marked (node :: pending))
        ((expansions (g.targets interProcedurual) fuel marked (node :: pending)).foldl
          Paths.place ps) := by
  induction fuel generalizing st es marked node pending ps with
  | zero =>
    have := hw.length_lt
    omega
  | succ fuel ih =>
    have hw' := hw.step (g.targets_mem interProcedurual)
    have ht' := ht.step hw
    rw [expansions]
    rcases slicingLoop_step interProcedurual hw ht h fuel with ⟨hempty, st', hrun, hfinished⟩ |
      ⟨next, rest, st', hstack, hrun, hsim⟩
    · have hlast : expansions (g.targets interProcedurual) fuel
          (fresh marked (g.targets interProcedurual node) ++ marked) [] = [] := by
        cases fuel <;> rfl
      simp only [hempty, hlast]
      exact ⟨st', hrun, hfinished⟩
    · simp only [hstack] at hw' ht' ⊢
      obtain ⟨st'', hrun', hfinished⟩ := ih (by rw [List.length_append, List.length_singleton]; omega)
        hw' ht' hsim
      rw [List.append_assoc] at hfinished
      exact ⟨st'', hrun.trans hrun', hfinished⟩

omit [DecidableEq ι] [DecidableEq φ] in
theorem simulates_start (g : SliceGraph ν ι φ) :
    Simulates g (SlicingState.start g) [] [g.root] g.root [] (Paths.start ν) := by
  refine ⟨⟨fun i p hp => ?_, rfl, rfl, fun sliceId => ?_, rfl, rfl⟩, fun v => ?_, rfl, rfl⟩
  · have hstart : (Paths.start ν).all = [[]] := rfl
    rw [hstart] at hp
    cases i with
    | zero =>
      cases hp
      rfl
    | succ i => simp at hp
  · have hlen : (Paths.start ν).all.length = 1 := rfl
    rw [hlen]
    by_cases hid : sliceId = 1
    · rw [hid]
      rfl
    · rw [if_neg (by omega)]
      exact Function.update_of_ne hid _ _
  · simp [SlicingState.start]

/-- The computation ends, with the stack empty and one slice for each path of the walk. -/
theorem computeSlices_walk (g : SliceGraph ν ι φ) (interProcedurual : Bool) {fuel : Nat}
    (hfuel : g.nodes.length ≤ fuel) :
    let succ := g.targets interProcedurual
    ∃ st, computeSlices g interProcedurual false fuel = some st ∧ st.vstack = [] ∧
      st.slices.slices = List.range (paths succ fuel g.root).length ∧
      st.result = (paths succ fuel g.root).mapIdx (fun i p => g.sliceOf (i + 1) p) ∧
      st.explored = (walk succ fuel g.root).map entry := by
  obtain ⟨st, hrun, hfinished⟩ := slicingLoop_walk interProcedurual (by simpa using hfuel)
    (Walked.start g.root_mem) Threaded.start (simulates_start g)
  rw [List.nil_append] at hfinished
  refine ⟨st, ?_, hfinished.vstack, hfinished.renders.slices, ?_, hfinished.explored⟩
  · rw [computeSlices, hrun, Option.map_some, hfinished.renders.addCurr.1]
  · have hslices : st.slices.slices =
        List.range (paths (g.targets interProcedurual) fuel g.root).length :=
      hfinished.renders.slices
    rw [SlicingState.result, hslices]
    apply List.ext_getElem?
    intro i
    rw [List.getElem?_map, List.getElem?_mapIdx]
    cases hp : (paths (g.targets interProcedurual) fuel g.root)[i]? with
    | none =>
      have hle := List.getElem?_eq_none_iff.mp hp
      rw [List.getElem?_eq_none (by rw [List.length_range]; exact hle)]
      rfl
    | some p =>
      obtain ⟨hlt, -⟩ := List.getElem?_eq_some_iff.mp hp
      rw [List.getElem?_range hlt, Option.map_some, Option.map_some]
      exact congrArg some (hfinished.renders.heap i p hp)

end Loop

end Arthas.Slicing
