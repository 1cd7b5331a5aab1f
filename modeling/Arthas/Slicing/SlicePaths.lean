import Arthas.Slicing.SlicingWalk

/-!
What the slices are: together they have the values of the nodes that can be reached, each
starts with the root and repeats nothing, and they are paths of the graph exactly when no
node is pending where the walk branches.
-/

set_option autoImplicit false
set_option relaxedAutoImplicit false

namespace Arthas.Slicing

open Arthas.Lib StackWalk Relation

variable {ν ι φ : Type*}

namespace SliceGraph

variable (g : SliceGraph ν ι φ)

def Edge (a b : ν) : Prop := ∃ e ∈ g.edges a, e.targetNode = b

/-- The node is reached from the root, through nodes of the root's function only unless
the slices go across functions. -/
def Reaches (interProcedurual : Bool) (n : ν) : Prop :=
  ReflTransGen (fun a b => g.Edge a b ∧ (interProcedurual = true ∨
    g.getFunction (g.value b) = g.getFunction (g.value g.root))) g.root n

/-- There is an edge from the node of the first value to that of the second. -/
def Linked (v w : ι) : Prop :=
  ∃ m ∈ g.nodes, ∃ n ∈ g.nodes, g.value m = v ∧ g.value n = w ∧ g.Edge m n

/-- The slice is a path of the graph from the root, without repetitions. -/
structure IsPath (s : Slice ι) : Prop where
  head : s.depVals.head? = some (g.value g.root)
  nodup : s.depVals.Nodup
  linked : s.depVals.IsChain g.Linked

/-- In the walk of the graph no node is pending where two nodes or more are newly found. -/
def BranchesAlone [DecidableEq ν] [DecidableEq φ] : Prop :=
  ∀ e ∈ walk (g.targets true) g.nodes.length g.root, Alone e

variable {g}

theorem leads_iff [DecidableEq φ] {interProcedurual : Bool} {a b : ν} :
    Leads (g.targets interProcedurual) a b ↔ g.Edge a b ∧ (interProcedurual = true ∨
      g.getFunction (g.value b) = g.getFunction (g.value g.root)) := by
  simp only [Leads, targets, List.mem_map, List.mem_filter, List.mem_reverse, follows,
    Bool.or_eq_true, decide_eq_true_eq, Edge]
  constructor
  · rintro ⟨e, ⟨he, hfollow⟩, rfl⟩
    exact ⟨⟨e, he, rfl⟩, hfollow⟩
  · rintro ⟨⟨e, he, rfl⟩, hfollow⟩
    exact ⟨e, ⟨he, hfollow⟩, rfl⟩

theorem reaches_iff [DecidableEq φ] {interProcedurual : Bool} {n : ν} :
    g.Reaches interProcedurual n ↔ ReflTransGen (Leads (g.targets interProcedurual)) g.root n := by
  have hrel : Leads (g.targets interProcedurual) = fun a b => g.Edge a b ∧
      (interProcedurual = true ∨
        g.getFunction (g.value b) = g.getFunction (g.value g.root)) := by
    funext a b
    exact propext leads_iff
  rw [hrel]
  rfl

theorem Reaches.mem_nodes {interProcedurual : Bool} {n : ν} (h : g.Reaches interProcedurual n) :
    n ∈ g.nodes := by
  induction h with
  | refl => exact g.root_mem
  | tail _ hstep ih =>
    obtain ⟨⟨e, he, rfl⟩, -⟩ := hstep
    exact g.target_mem _ ih e he

theorem linked_iff {m n : ν} (hm : m ∈ g.nodes) (hn : n ∈ g.nodes) :
    g.Linked (g.value m) (g.value n) ↔ g.Edge m n := by
  constructor
  · rintro ⟨m', hm', n', hn', heq, heq', hedge⟩
    rw [← g.value_inj m' hm' m hm heq, ← g.value_inj n' hn' n hn heq']
    exact hedge
  · exact fun hedge => ⟨m, hm, n, hn, rfl, rfl, hedge⟩

/-- The values of a path that starts at the root. -/
theorem depVals_sliceOf (sliceId : Nat) {p : List ν} (hp : p.head? = some g.root) :
    (g.sliceOf sliceId p).depVals = p.map g.value := by
  cases p with
  | nil => cases hp
  | cons v p =>
    rw [show v = g.root from Option.some.inj hp]
    rfl

theorem isPath_sliceOf_iff [DecidableEq φ] (sliceId : Nat) {p : List ν}
    (hp : p.head? = some g.root) (hnodup : p.Nodup) (hnodes : ∀ v ∈ p, v ∈ g.nodes) :
    g.IsPath (g.sliceOf sliceId p) ↔ Follows (g.targets true) p := by
  have hvals := depVals_sliceOf sliceId hp
  have hchain : (p.map g.value).IsChain g.Linked ↔ Follows (g.targets true) p := by
    rw [List.isChain_map]
    apply List.IsChain.iff_of_mem_imp
    intro m n hm hn
    rw [linked_iff (hnodes m hm) (hnodes n hn), leads_iff]
    simp
  constructor
  · intro hpath
    exact hchain.mp (hvals ▸ hpath.linked)
  · intro hfollow
    refine ⟨rfl, ?_, hvals ▸ hchain.mpr hfollow⟩
    rw [hvals]
    exact List.Nodup.map_on (fun m hm n hn => g.value_inj m (hnodes m hm) n (hnodes n hn)) hnodup

end SliceGraph

section Slices

variable (g : SliceGraph ν ι φ)

/-- What is in the result is what the paths of the walk give. -/
theorem mem_result {st : SlicingState ν ι} {ps : List (List ν)}
    (hresult : st.result = ps.mapIdx fun i p => g.sliceOf (i + 1) p) {s : Slice ι} :
    s ∈ st.result ↔ ∃ i, ∃ p ∈ ps, ps[i]? = some p ∧ s = g.sliceOf (i + 1) p := by
  rw [hresult, List.mem_mapIdx]
  constructor
  · rintro ⟨i, hi, rfl⟩
    exact ⟨i, ps[i], List.getElem_mem hi, List.getElem?_eq_getElem hi, rfl⟩
  · rintro ⟨i, p, -, hp, rfl⟩
    obtain ⟨hi, rfl⟩ := List.getElem?_eq_some_iff.mp hp
    exact ⟨i, hi, rfl⟩

variable [DecidableEq ν] [DecidableEq φ]

/-- The paths of the walk start at the root, repeat no node and meet what is reached. -/
theorem threads (interProcedurual : Bool) {fuel : Nat} (hfuel : g.nodes.length ≤ fuel) {p : List ν}
    (hp : p ∈ paths (g.targets interProcedurual) fuel g.root) :
    p.head? = some g.root ∧ p.Nodup ∧ ∀ v ∈ p, g.Reaches interProcedurual v := by
  have hthread := (paths_spec (g.targets_mem interProcedurual) g.root_mem hfuel).1 p hp
  refine ⟨hthread.head, hthread.nodup, fun v hv => SliceGraph.reaches_iff.mpr ?_⟩
  exact ((walk_spec (g.targets_mem interProcedurual) g.root_mem hfuel).2 v).mp
    (hthread.expanded v hv)

/-- The values of the slices are those of the nodes that are reached. -/
theorem mem_depVals (interProcedurual : Bool) {fuel : Nat} (hfuel : g.nodes.length ≤ fuel)
    {st : SlicingState ν ι} (hresult : st.result =
      (paths (g.targets interProcedurual) fuel g.root).mapIdx fun i p => g.sliceOf (i + 1) p)
    (v : ι) :
    (∃ s ∈ st.result, v ∈ s.depVals) ↔ ∃ n, g.Reaches interProcedurual n ∧ g.value n = v := by
  constructor
  · rintro ⟨s, hs, hv⟩
    obtain ⟨i, p, hp, -, rfl⟩ := (mem_result g hresult).mp hs
    obtain ⟨hhead, -, hreach⟩ := threads g interProcedurual hfuel hp
    rw [SliceGraph.depVals_sliceOf (i + 1) hhead] at hv
    obtain ⟨n, hn, rfl⟩ := List.mem_map.mp hv
    exact ⟨n, hreach n hn, rfl⟩
  · rintro ⟨n, hn, rfl⟩
    have hwalked := ((walk_spec (g.targets_mem interProcedurual) g.root_mem hfuel).2 n).mpr
      (SliceGraph.reaches_iff.mp hn)
    obtain ⟨p, hp, hnp⟩ :=
      (paths_spec (g.targets_mem interProcedurual) g.root_mem hfuel).2 n hwalked
    obtain ⟨i, hi⟩ := List.mem_iff_getElem?.mp hp
    refine ⟨_, (mem_result g hresult).mpr ⟨i, p, hp, hi, rfl⟩, ?_⟩
    rw [SliceGraph.depVals_sliceOf (i + 1) (threads g interProcedurual hfuel hp).1]
    exact List.mem_map_of_mem hnp

variable [DecidableEq ι]

/-- The computation ends with an empty stack. The slices have the values of the nodes that
are reached, each starts with the root value and repeats none, their ids count from 1, each
is listed once, and there is one more for every child found beside the first. -/
theorem computeSlices_complete (interProcedurual : Bool) {fuel : Nat}
    (hfuel : g.nodes.length ≤ fuel) :
    ∃ st, computeSlices g interProcedurual false fuel = some st ∧ st.vstack = [] ∧
      (∀ v, (∃ s ∈ st.result, v ∈ s.depVals) ↔ ∃ n, g.Reaches interProcedurual n ∧ g.value n = v) ∧
      (∀ s ∈ st.result, s.depVals.head? = some (g.value g.root) ∧ s.depVals.Nodup) ∧
      st.result.map Slice.id = List.range' 1 st.result.length ∧ st.slices.slices.Nodup ∧
      (st.explored.map Prod.fst).Nodup ∧
      (∀ n, n ∈ st.explored.map Prod.fst ↔ g.Reaches interProcedurual n) ∧
      st.result.length = 1 + (st.explored.map fun p => p.2 - 1).sum := by
  obtain ⟨st, hrun, hstack, hslices, hresult, hexplored⟩ :=
    computeSlices_walk g interProcedurual hfuel
  obtain ⟨hnodup, hreached⟩ := walk_spec (g.targets_mem interProcedurual) g.root_mem hfuel
  have hnodes : st.explored.map Prod.fst =
      (walk (g.targets interProcedurual) fuel g.root).map Expansion.node := by
    rw [hexplored, List.map_map]
    rfl
  refine ⟨st, hrun, hstack, mem_depVals g interProcedurual hfuel hresult, fun s hs => ?_, ?_,
    hslices ▸ List.nodup_range, hnodes ▸ hnodup, fun n => ?_, ?_⟩
  · obtain ⟨i, p, hp, -, rfl⟩ := (mem_result g hresult).mp hs
    obtain ⟨hhead, hpnodup, hreach⟩ := threads g interProcedurual hfuel hp
    refine ⟨rfl, ?_⟩
    rw [SliceGraph.depVals_sliceOf (i + 1) hhead]
    exact hpnodup.map_on fun m hm n hn =>
      g.value_inj m (hreach m hm).mem_nodes n (hreach n hn).mem_nodes
  · rw [hresult]
    apply List.ext_getElem (by simp)
    intro i hi _
    rw [List.getElem_map, List.getElem_mapIdx, List.getElem_range']
    simp only [SliceGraph.sliceOf]
    omega
  · rw [hnodes, hreached n, SliceGraph.reaches_iff]
  · rw [hresult, List.length_mapIdx, paths, Paths.length_all_foldl, hexplored, List.map_map]
    rfl

/-- The slices are paths of the graph exactly when no node is pending where the walk
branches. -/
theorem computeSlices_paths_iff {fuel : Nat} (hfuel : g.nodes.length ≤ fuel) :
    ∃ st, computeSlices g true false fuel = some st ∧
      ((∀ s ∈ st.result, g.IsPath s) ↔ g.BranchesAlone) := by
  obtain ⟨st, hrun, -, -, hresult, -⟩ := computeSlices_walk g true hfuel
  refine ⟨st, hrun, ?_⟩
  have hwalk : walk (g.targets true) g.nodes.length g.root = walk (g.targets true) fuel g.root :=
    (Walked.start g.root_mem).expansions_eq (g.targets_mem true) (by simp) (by simpa using hfuel)
  rw [SliceGraph.BranchesAlone, hwalk,
    ← paths_follow_iff (g.targets_mem true) g.root_mem hfuel]
  have hpath : ∀ i, ∀ p ∈ paths (g.targets true) fuel g.root,
      (g.IsPath (g.sliceOf (i + 1) p) ↔ Follows (g.targets true) p) := by
    intro i p hp
    obtain ⟨hhead, hnodup, hreach⟩ := threads g true hfuel hp
    exact SliceGraph.isPath_sliceOf_iff (i + 1) hhead hnodup fun v hv => (hreach v hv).mem_nodes
  constructor
  · intro hall p hp
    obtain ⟨i, hi⟩ := List.mem_iff_getElem?.mp hp
    exact (hpath i p hp).mp (hall _ ((mem_result g hresult).mpr ⟨i, p, hp, hi, rfl⟩))
  · intro hfollow s hs
    obtain ⟨i, p, hp, -, rfl⟩ := (mem_result g hresult).mp hs
    exact (hpath i p hp).mpr (hfollow p hp)

end Slices

/-- The root leads to 1 and 2, and 1 to 3 and 4. -/
def branchGraph : SliceGraph Nat Nat Nat where
  nodes := [0, 1, 2, 3, 4]
  value := id
  edges n :=
    if n = 0 then [⟨1, .registerDefUse⟩, ⟨2, .registerDefUse⟩]
    else if n = 1 then [⟨3, .memoryDependence⟩, ⟨4, .memoryDependence⟩]
    else []
  root := 0
  direction := .backward
  getFunction _ := 0
  root_mem := by decide
  target_mem := by decide
  value_inj := by decide

/-- Node 4, found from node 1, goes on the slice that was forked for node 2. -/
theorem computeSlices_strays : ¬ ∀ (g : SliceGraph Nat Nat Nat) (fuel : Nat)
    (st : SlicingState Nat Nat), g.nodes.length ≤ fuel → computeSlices g true false fuel = some st →
    ∀ s ∈ st.result, g.IsPath s := by
  intro h
  have hvals : (computeSlices branchGraph true false 5).map
      (fun st => st.result.map Slice.depVals) = some [[0, 1, 3], [0, 4], [0, 1, 2]] := by
    decide +kernel
  obtain ⟨st, hrun, hst⟩ := Option.map_eq_some_iff.mp hvals
  have hmem : [0, 4] ∈ st.result.map Slice.depVals := by
    rw [hst]
    decide
  obtain ⟨s, hs, hdep⟩ := List.mem_map.mp hmem
  have hlinked := (h branchGraph 5 st (by decide) hrun s hs).linked
  rw [hdep, List.isChain_pair] at hlinked
  obtain ⟨m, -, n, -, rfl, rfl, e, he, htarget⟩ := hlinked
  have hnone : ∀ e ∈ branchGraph.edges 0, e.targetNode ≠ 4 := by decide
  exact hnone e he htarget

theorem computeSlices_paths_iff_branch :
    ∃ st, computeSlices branchGraph true false 5 = some st ∧
      ((∀ s ∈ st.result, branchGraph.IsPath s) ↔ branchGraph.BranchesAlone) :=
  computeSlices_paths_iff branchGraph (by decide)

theorem computeSlices_complete_branch :
    ∃ st, computeSlices branchGraph false false 5 = some st ∧ st.vstack = [] ∧
      (∀ v, (∃ s ∈ st.result, v ∈ s.depVals) ↔
        ∃ n, branchGraph.Reaches false n ∧ branchGraph.value n = v) ∧
      (∀ s ∈ st.result, s.depVals.head? = some (branchGraph.value branchGraph.root) ∧
        s.depVals.Nodup) ∧
      st.result.map Slice.id = List.range' 1 st.result.length ∧ st.slices.slices.Nodup ∧
      (st.explored.map Prod.fst).Nodup ∧
      (∀ n, n ∈ st.explored.map Prod.fst ↔ branchGraph.Reaches false n) ∧
      st.result.length = 1 + (st.explored.map fun p => p.2 - 1).sum :=
  computeSlices_complete branchGraph false (by decide)

end Arthas.Slicing
