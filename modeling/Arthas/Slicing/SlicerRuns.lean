import Arthas.Lib.Stamps
import Arthas.Slicing.Approaches

/-!
A slicer in use (`Slicer.cpp`): one slice after the other, by either approach, on the graphs
of the functions. What a slice leaves in the graphs is its id on the nodes that it reaches and
on their blocks and functions; the statistics are counted from these ids, and `walkSliceId`
looks them up again.

The function of an entry node is marked with it; entry nodes are global nodes and in no
graph's own map, so nothing here looks at their ids.
-/

set_option autoImplicit false
set_option relaxedAutoImplicit false

namespace Arthas.Slicing

open Lib Lib.Worklist Lib.Stamps Relation

variable {δ β γ ι φ : Type*}

/-- The dependence graph of a function: the nodes of its own map, its exit node, its blocks. -/
structure FunctionGraph (δ β γ : Type*) where
  graph : γ
  nodes : List δ
  exit : Option δ
  blocks : List β

/-- `dg::analysis::SlicerStatistics` -/
structure SlicerStatistics where
  nodesTotal : UInt64
  nodesRemoved : UInt64
  blocksTotal : UInt32
  blocksRemoved : UInt32
  funcsTotal : UInt32
  funcsRemoved : UInt32

def SlicerStatistics.zero : SlicerStatistics := ⟨0, 0, 0, 0, 0, 0⟩

/-- What `walkSliceId` hands to one of its functions. -/
inductive Visit (δ β γ : Type*) where
  | node (n : δ)
  | block (b : β)
  | function (f : γ)

/-- `DgSlicer` with the map of the functions' graphs, which is null before they have been
built, and with the data of the nodes, the blocks and the graphs. -/
structure SlicerState (δ β γ φ : Type*) where
  slicer : DgSlicer
  funcDgMap : Option (List (φ × FunctionGraph δ β γ))
  statistics : SlicerStatistics
  data : WalkData δ β γ

section Code

variable [DecidableEq δ]

/-- The body of the loop over the nodes in `updateStatsSliceId`. -/
def countNode (data : WalkData δ β γ) (sliceId : Nat) (exit : Option δ) (st : SlicerStatistics)
    (n : δ) : SlicerStatistics :=
  if some n = exit then st
  else
    let st := { st with nodesTotal := st.nodesTotal + 1 }
    if data.nodeSlice n ≠ sliceId then { st with nodesRemoved := st.nodesRemoved + 1 } else st

def countBlock (data : WalkData δ β γ) (sliceId : Nat) (st : SlicerStatistics) (b : β) :
    SlicerStatistics :=
  let st := { st with blocksTotal := st.blocksTotal + 1 }
  if data.blockSlice b ≠ sliceId then { st with blocksRemoved := st.blocksRemoved + 1 } else st

/-- `DgSlicer::updateStatsSliceId` -/
def updateStatsSliceId (data : WalkData δ β γ) (sliceId : Nat) (st : SlicerStatistics)
    (graph : FunctionGraph δ β γ) : SlicerStatistics :=
  let st := graph.nodes.foldl (countNode data sliceId graph.exit) st
  let st := graph.blocks.foldl (countBlock data sliceId) st
  let st := { st with funcsTotal := st.funcsTotal + 1 }
  if data.graphSlice graph.graph ≠ sliceId then { st with funcsRemoved := st.funcsRemoved + 1 }
  else st

/-- `DgSlicer::walkNodeSliceId`: the nodes that the function is called for. -/
def walkNodeSliceId (data : WalkData δ β γ) (sliceId : Nat) (graph : FunctionGraph δ β γ) : List δ :=
  graph.nodes.filter fun n => some n ≠ graph.exit ∧ data.nodeSlice n = sliceId

omit [DecidableEq δ] in
/-- `DgSlicer::walkBasicBlockSliceId` -/
def walkBasicBlockSliceId (data : WalkData δ β γ) (sliceId : Nat) (graph : FunctionGraph δ β γ) :
    List β :=
  graph.blocks.filter fun b => data.blockSlice b = sliceId

omit [DecidableEq δ] in
/-- `DgSlicer::walkFunctionSliceId` -/
def walkFunctionSliceId (data : WalkData δ β γ) (sliceId : Nat) (graph : FunctionGraph δ β γ) :
    List γ :=
  if data.graphSlice graph.graph = sliceId then [graph.graph] else []

/-- The walks over one graph; a function that is null is not called. -/
def walkGraph (data : WalkData δ β γ) (sliceId : Nat) (nodeFunc bbFunc fnFunc : Bool)
    (graph : FunctionGraph δ β γ) : List (Visit δ β γ) :=
  (if nodeFunc then (walkNodeSliceId data sliceId graph).map .node else []) ++
    (if bbFunc then (walkBasicBlockSliceId data sliceId graph).map .block else []) ++
    (if fnFunc then (walkFunctionSliceId data sliceId graph).map .function else [])

namespace SlicerState

/-- `DgSlicer::walkSliceId`: the calls, in order. Without a graph it goes through the map. -/
def walkSliceId (s : SlicerState δ β γ φ) (sliceId : Nat) (graph : Option (FunctionGraph δ β γ))
    (nodeFunc bbFunc fnFunc : Bool) : Option (List (Visit δ β γ)) :=
  match graph with
  | some graph => some (walkGraph s.data sliceId nodeFunc bbFunc fnFunc graph)
  | none => s.funcDgMap.map fun graphs =>
      graphs.flatMap fun entry => walkGraph s.data sliceId nodeFunc bbFunc fnFunc entry.2

omit [DecidableEq δ] in
/-- `DgSlicer::getDependenceGraph`: null without a map. For a function that is not in the map
the end iterator is dereferenced. -/
def getDependenceGraph [DecidableEq φ] (s : SlicerState δ β γ φ) (func : φ) :
    Option (Option (FunctionGraph δ β γ)) :=
  match s.funcDgMap with
  | none => some none
  | some graphs => (graphs.find? fun entry => entry.1 = func).map fun entry => some entry.2

variable [DecidableEq β] [DecidableEq γ] [DecidableEq ι]

/-- `DgSlicer::slice` from a node: the result, the id and the slicer. -/
def sliceNode (g : DependenceGraph δ β γ ι φ) (s : SlicerState δ β γ φ) (start : δ)
    (sliceId : Nat) (kind : SlicingApproachKind) (sliceDepFlags fuel : Nat) :
    Option (Option (GrowingGraph ι φ) × Nat × SlicerState δ β γ φ) :=
  (s.slicer.slice g start sliceId kind sliceDepFlags fuel s.data).bind fun sliced =>
    s.funcDgMap.map fun graphs =>
      (sliced.result, sliced.sliceId,
        { slicer := sliced.slicer
          funcDgMap := s.funcDgMap
          statistics := graphs.foldl (fun st entry =>
            updateStatsSliceId sliced.data sliced.sliceId st entry.2) s.statistics
          data := sliced.data })

/-- `DgSlicer::slice` from an instruction, through `findNode` in the graph of its function. -/
def sliceInstruction [DecidableEq φ] (g : DependenceGraph δ β γ ι φ) (s : SlicerState δ β γ φ)
    (start : ι) (sliceId : Nat) (kind : SlicingApproachKind) (sliceDepFlags fuel : Nat) :
    Option (Option (GrowingGraph ι φ) × Nat × SlicerState δ β γ φ) :=
  (s.getDependenceGraph (g.getFunction start)).bind fun subdg =>
    match subdg with
    | none => some (none, sliceId, s)
    | some subdg =>
      match subdg.nodes.find? fun n => (g.getValue n).dynCast = some start with
      | none => some (none, sliceId, s)
      | some node => s.sliceNode g node sliceId kind sliceDepFlags fuel

end SlicerState

end Code

section Ids

/-- The slice ids of the nodes, the blocks and the graphs. -/
def WalkData.sliceIds (data : WalkData δ β γ) : (δ → Nat) × (β → Nat) × (γ → Nat) :=
  (data.nodeSlice, data.blockSlice, data.graphSlice)

/-- What some nodes belong to. -/
def owners {κ : Type*} (owner : δ → Option κ) (nodes : Set δ) : Set κ :=
  {k | ∃ n ∈ nodes, owner n = some k}

/-- The ids after a slice with some nodes. -/
noncomputable def stampIds (g : DependenceGraph δ β γ ι φ) (marks : Set δ) (sliceId : Nat)
    (ids : (δ → Nat) × (β → Nat) × (γ → Nat)) : (δ → Nat) × (β → Nat) × (γ → Nat) :=
  (stamp marks sliceId ids.1, stamp (owners g.getBBlock marks) sliceId ids.2.1,
    stamp (owners g.getDG marks) sliceId ids.2.2)

theorem owners_empty {κ : Type*} (owner : δ → Option κ) : owners owner ∅ = ∅ := by
  simp [owners]

theorem stampIds_empty (g : DependenceGraph δ β γ ι φ) (sliceId : Nat)
    (ids : (δ → Nat) × (β → Nat) × (γ → Nat)) : stampIds g ∅ sliceId ids = ids := by
  simp only [stampIds, owners_empty, stamp_empty]

/-- The owner of one more node is marked, where it has one. -/
theorem stamp_owners_insert {κ : Type*} [DecidableEq κ] (owner : δ → Option κ) (marks : Set δ)
    (sliceId : Nat) (old : κ → Nat) (n : δ) :
    (match owner n with
      | none => stamp (owners owner marks) sliceId old
      | some k => Function.update (stamp (owners owner marks) sliceId old) k sliceId) =
      stamp (owners owner (insert n marks)) sliceId old := by
  cases here : owner n with
  | none =>
    have same : owners owner (insert n marks) = owners owner marks := by
      ext k
      simp [owners, here]
    rw [same]
  | some k =>
    have same : owners owner (insert n marks) = insert k (owners owner marks) := by
      ext k'
      simp [owners, here, eq_comm]
    rw [same]
    exact update_stamp _ sliceId old k

namespace NodesWalk

variable [DecidableEq δ]

@[simp]
theorem sliceIds_enqueue (d : Discipline δ) (w : NodesWalk δ β γ) (n : δ) :
    (enqueue d w n).sliceIds = w.sliceIds := by
  rw [enqueue]
  split_ifs <;> rfl

theorem sliceIds_processEdges (d : Discipline δ) (edges : List δ) (w : NodesWalk δ β γ) :
    (processEdges d edges w).sliceIds = w.sliceIds := by
  induction edges generalizing w with
  | nil => rfl
  | cons n edges ih => exact (ih (enqueue d w n)).trans (sliceIds_enqueue d w n)

variable [DecidableEq β] [DecidableEq γ] (g : DependenceGraph δ β γ ι φ)

omit [DecidableEq β] [DecidableEq γ] in
/-- The visit of a node changes the ids as its function does. -/
theorem sliceIds_visit {d : Discipline δ} {options : Nat}
    {func : δ → NodesWalk δ β γ → NodesWalk δ β γ} {n : δ} {w w' : NodesWalk δ β γ}
    (visited : visit g d options func n w = some w') : w'.sliceIds = (func n w).sliceIds := by
  rw [visit] at visited
  split_ifs at visited
  · exact Option.some.inj visited ▸ rfl
  · rw [foldlM_processKind] at visited
    obtain ⟨nodes, -, rfl⟩ := Option.map_eq_some_iff.mp visited
    exact sliceIds_processEdges d nodes _

/-- One more node carries the id. -/
theorem sliceIds_setSlice {marks : Set δ} {sliceId : Nat} {w : NodesWalk δ β γ}
    {ids : (δ → Nat) × (β → Nat) × (γ → Nat)} (before : w.sliceIds = stampIds g marks sliceId ids)
    (n : δ) : (setSlice g sliceId n w).sliceIds = stampIds g (insert n marks) sliceId ids := by
  obtain ⟨node, rest⟩ := Prod.mk.inj before
  obtain ⟨block, graph⟩ := Prod.mk.inj rest
  have nodes : (setSlice g sliceId n w).nodeSlice = stamp (insert n marks) sliceId ids.1 := by
    rw [setSlice_nodeSlice, node]
    exact update_stamp marks sliceId ids.1 n
  have blocks := stamp_owners_insert g.getBBlock marks sliceId ids.2.1 n
  have graphs := stamp_owners_insert g.getDG marks sliceId ids.2.2 n
  rw [WalkData.sliceIds, stampIds, nodes, ← blocks, ← graphs, ← block, ← graph]
  rfl

end NodesWalk

section Walks

variable {g : DependenceGraph δ β γ ι φ} [DecidableEq δ] [DecidableEq β] [DecidableEq γ]
  {dir : SliceDirection} {sliceDepFlags sliceId fuel : Nat} {start : δ} {data : WalkData δ β γ}

omit [DecidableEq β] [DecidableEq γ] in
theorem NodesWalk.marking_start (unmarked : ∀ v, ¬ (NodesWalk.start data).Marked v) :
    NodesWalk.Marking g dir sliceDepFlags start sliceId data ∅
      (NodesWalk.processEdges .fifo [start] (NodesWalk.start data)) where
  frontier := NodesWalk.frontier_enqueue _ _ ReflTransGen.refl (Frontier.empty unmarked)
  closed u member := absurd member (Finset.notMem_empty u)
  marked_start := (NodesWalk.marked_enqueue _ _ _ _).mpr (Or.inr rfl)
  slices v := by
    rw [(NodesWalk.queued_processEdges _ _ _).nodeSlice]
    simp [NodesWalk.start]

/-- Marking puts the id on what it reaches and leaves the other ids as they are. -/
theorem markSlice_sliceIds (unmarked : ∀ v, ¬ (NodesWalk.start data).Marked v)
    {data' : WalkData δ β γ}
    (run : markSlice g dir sliceDepFlags start sliceId fuel data = some data') :
    data'.sliceIds = stampIds g {v | g.MarkReach dir sliceDepFlags start v} sliceId data.sliceIds := by
  obtain ⟨w, drained, rfl⟩ := Option.map_eq_some_iff.mp run
  let P := fun w : NodesWalk δ β γ => ∃ done : Finset δ,
    NodesWalk.Marking g dir sliceDepFlags start sliceId data done w ∧
      w.sliceIds = stampIds g (done : Set δ) sliceId data.sliceIds
  have first : P (NodesWalk.processEdges .fifo [start] (NodesWalk.start data)) := by
    refine ⟨∅, NodesWalk.marking_start unmarked, ?_⟩
    rw [NodesWalk.sliceIds_processEdges, Finset.coe_empty, stampIds_empty]
    rfl
  have kept : ∀ w n rest w', P w → w.queue = n :: rest → NodesWalk.visit g .fifo
      (sliceRelationOpts dir sliceDepFlags) (NodesWalk.setSlice g sliceId) n (w.setQueue rest) =
        some w' → P w' := by
    rintro w n rest w' ⟨done, marking, ids⟩ front visited
    rcases marking.visit front with ⟨next, run, -, kept⟩ | ⟨undefined, -⟩
    · obtain rfl := Option.some.inj (visited.symm.trans run)
      refine ⟨insert n done, kept, ?_⟩
      rw [NodesWalk.sliceIds_visit g visited, Finset.coe_insert]
      exact NodesWalk.sliceIds_setSlice g ids n
    · exact absurd (undefined.symm.trans visited) (by simp)
  obtain ⟨empty, done, marking, ids⟩ := drain_ends kept first drained
  have frontier := marking.frontier
  rw [empty] at frontier
  have complete : (done : Set δ) = {v | g.MarkReach dir sliceDepFlags start v} :=
    Set.ext fun v => frontier.complete marking.closed marking.marked_start v
  rw [← complete]
  exact ids

variable [DecidableEq ι]

namespace Building

omit [DecidableEq β] [DecidableEq γ] in
theorem sliceIds_sliceEdge (snCurr : Nat) (kind : SliceDependence) (st : Building δ β γ ι φ)
    (dnNext : δ) : (sliceEdge g snCurr kind st dnNext).walk.sliceIds = st.walk.sliceIds := by
  rw [sliceEdge]
  split
  · rfl
  · exact NodesWalk.sliceIds_enqueue _ _ _

omit [DecidableEq β] [DecidableEq γ] in
theorem sliceIds_foldl (snCurr : Nat) (ends : List (SliceDependence × δ))
    (st : Building δ β γ ι φ) :
    (ends.foldl (fun st p => sliceEdge g snCurr p.1 st p.2) st).walk.sliceIds =
      st.walk.sliceIds := by
  induction ends generalizing st with
  | nil => rfl
  | cons p ends ih => exact (ih _).trans (sliceIds_sliceEdge snCurr p.1 st p.2)

/-- What the visit of a node puts the id on: the node, when something is followed at all and
it holds an instruction that belongs into the slice. -/
def marks (g : DependenceGraph δ β γ ι φ) (options : Nat) (n : δ) : Prop :=
  options ≠ 0 ∧ (g.sliceInst n).isSome

theorem sliceIds_visit {options : Nat} {n : δ} {st st' : Building δ β γ ι φ} {done : Set δ}
    {ids : (δ → Nat) × (β → Nat) × (γ → Nat)}
    (before : st.walk.sliceIds = stampIds g {v ∈ done | marks g options v} sliceId ids)
    (visited : visit g dir options sliceId n st = some st') :
    st'.walk.sliceIds = stampIds g {v ∈ insert n done | marks g options v} sliceId ids := by
  have skipped : ¬ marks g options n →
      {v ∈ insert n done | marks g options v} = {v ∈ done | marks g options v} := fun other =>
    Set.insert_inter_of_notMem other
  rw [visit] at visited
  by_cases off : options = 0
  · rw [if_pos off] at visited
    obtain rfl := Option.some.inj visited
    rw [skipped fun marked => marked.1 off]
    exact before
  · rw [if_neg off] at visited
    cases accepted : g.sliceInst n with
    | none =>
      simp only [accepted] at visited
      obtain rfl := Option.some.inj visited
      rw [skipped fun marked => by simp [marks, accepted] at marked]
      exact before
    | some inst =>
      have marked : marks g options n := ⟨off, accepted ▸ rfl⟩
      simp only [accepted, foldlM_processKind] at visited
      obtain ⟨found, -, rfl⟩ := Option.map_eq_some_iff.mp visited
      have inserted : {v ∈ insert n done | marks g options v} =
          insert n {v ∈ done | marks g options v} := Set.insert_inter_of_mem marked
      rw [sliceIds_foldl, inserted]
      exact NodesWalk.sliceIds_setSlice g before n

end Building

/-- Building puts the id on the nodes of the slice and leaves the other ids as they are. -/
theorem buildSliceGraph_sliceIds (unmarked : ∀ v, ¬ (NodesWalk.start data).Marked v)
    {result : Option (GrowingGraph ι φ)} {data' : WalkData δ β γ}
    (run : buildSliceGraph g dir sliceDepFlags start sliceId fuel data = some (result, data')) :
    data'.sliceIds = stampIds g {v | g.StoreReach dir sliceDepFlags start v ∧
      Building.marks g (sliceRelationOpts dir sliceDepFlags) v} sliceId data.sliceIds := by
  rw [buildSliceGraph] at run
  cases value : g.getValue start with
  | other =>
    simp only [value, Value.dynCast, Option.some.injEq, Prod.mk.injEq] at run
    obtain ⟨-, rfl⟩ := run
    have nothing : {v | g.StoreReach dir sliceDepFlags start v ∧
        Building.marks g (sliceRelationOpts dir sliceDepFlags) v} = ∅ := by
      apply Set.eq_empty_of_forall_notMem
      rintro v ⟨reached, -, accepted⟩
      have notInst : ¬ (g.sliceInst start).isSome := by
        simp [DependenceGraph.sliceInst, value, Value.dynCast]
      rcases reached.cases_head with rfl | ⟨w, step, -⟩
      · exact notInst accepted
      · exact notInst step.1
    rw [nothing, stampIds_empty]
  | instruction rootVal =>
    simp only [value, Value.dynCast] at run
    obtain ⟨st, drained, same⟩ := Option.map_eq_some_iff.mp run
    obtain rfl := (Prod.mk.inj same).2
    let P := fun st : Building δ β γ ι φ => ∃ done : Finset δ,
      Building.Built g dir sliceDepFlags start rootVal done st ∧
        st.walk.sliceIds = stampIds g {v ∈ (done : Set δ) | Building.marks g
          (sliceRelationOpts dir sliceDepFlags) v} sliceId data.sliceIds
    have first : P { walk := (NodesWalk.start data).enqueue .lifo start
                     sg := .create rootVal dir g.getFunction } := by
      refine ⟨∅, Building.built_start unmarked value, ?_⟩
      rw [Finset.coe_empty, Set.sep_empty, stampIds_empty]
      exact NodesWalk.sliceIds_enqueue _ _ _
    have kept : ∀ st n rest st', P st → st.walk.queue = n :: rest →
        Building.visit g dir (sliceRelationOpts dir sliceDepFlags) sliceId n (st.setQueue rest) =
          some st' → P st' := by
      rintro st n rest st' ⟨done, built, ids⟩ front visited
      rcases built.visit front with ⟨next, run, -, kept⟩ | ⟨undefined, -⟩
      · obtain rfl := Option.some.inj (visited.symm.trans run)
        refine ⟨insert n done, kept, ?_⟩
        have popped : (st.setQueue rest).walk.sliceIds = st.walk.sliceIds := rfl
        rw [Finset.coe_insert]
        exact Building.sliceIds_visit (popped.trans ids) visited
      · exact absurd (undefined.symm.trans visited) (by simp)
    obtain ⟨empty, done, built, ids⟩ := drain_ends kept first drained
    have frontier := built.frontier
    rw [empty] at frontier
    have complete : {v | g.StoreReach dir sliceDepFlags start v ∧
        Building.marks g (sliceRelationOpts dir sliceDepFlags) v} =
        {v ∈ (done : Set δ) | Building.marks g (sliceRelationOpts dir sliceDepFlags) v} :=
      Set.ext fun v => and_congr_left' (frontier.complete built.closed built.marked_start v).symm
    rw [complete]
    exact ids

/-- Without a graph there was no walk. -/
theorem buildSliceGraph_none {data' : WalkData δ β γ}
    (run : buildSliceGraph g dir sliceDepFlags start sliceId fuel data = some (none, data')) :
    data = data' := by
  rw [buildSliceGraph] at run
  split at run
  · exact (Prod.mk.inj (Option.some.inj run)).2
  · obtain ⟨st, -, same⟩ := Option.map_eq_some_iff.mp run
    exact absurd (Prod.mk.inj same).1 (by simp)

end Walks

end Ids

section Runs

variable [DecidableEq δ] [DecidableEq β] [DecidableEq γ] [DecidableEq ι]
  (g : DependenceGraph δ β γ ι φ)

/-- The nodes that a slice is put on: all that marking reaches, and of what storing reaches
the instructions that belong into the slice. -/
def sliceMarks (dir : SliceDirection) (kind : SlicingApproachKind) (sliceDepFlags : Nat)
    (start : δ) : Set δ :=
  match kind with
  | .marking => {v | g.MarkReach dir sliceDepFlags start v}
  | .storing => {v | g.StoreReach dir sliceDepFlags start v ∧
      Building.marks g (sliceRelationOpts dir sliceDepFlags) v}

/-- A slicer that has the graphs of the functions and has made no slice of them. -/
structure SlicerState.Unused (s : SlicerState δ β γ φ) (graphs : List (φ × FunctionGraph δ β γ)) :
    Prop where
  funcDgMap : s.funcDgMap = some graphs
  lastSliceId : s.slicer.lastSliceId = 0
  statistics : s.statistics = .zero
  counter : s.data.walkRunCounter = 0
  lastwalkid : ∀ n, s.data.lastwalkid n = 0
  sliceIds : s.data.sliceIds = (fun _ => 0, fun _ => 0, fun _ => 0)

/-- One slice after the other; with the id of each and the nodes that it is put on. -/
inductive SlicerRun (s₀ : SlicerState δ β γ φ) :
    List (Nat × Set δ) → SlicerState δ β γ φ → Prop
  | unused : SlicerRun s₀ [] s₀
  | slice {rounds : List (Nat × Set δ)} {s s' : SlicerState δ β γ φ} {start : δ}
      {sliceId used : Nat} {kind : SlicingApproachKind} {sliceDepFlags fuel : Nat}
      {result : Option (GrowingGraph ι φ)} (run : SlicerRun s₀ rounds s)
      (sliced : s.sliceNode g start sliceId kind sliceDepFlags fuel = some (result, used, s')) :
      SlicerRun s₀
        (rounds ++ [(used, sliceMarks g s.slicer.direction kind sliceDepFlags start)]) s'

/-- The blocks, or the functions, of the nodes of each round. -/
def roundsOf {κ : Type*} (owner : δ → Option κ) (rounds : List (Nat × Set δ)) :
    List (Nat × Set κ) :=
  rounds.map fun round => (round.1, owners owner round.2)

variable {g}

/-- What a slice leaves. -/
theorem SlicerState.sliceNode_spec {s s' : SlicerState δ β γ φ} {start : δ} {sliceId used : Nat}
    {kind : SlicingApproachKind} {sliceDepFlags fuel : Nat} {result : Option (GrowingGraph ι φ)}
    {walks : Nat} (earlier : EarlierWalks g walks s.data) (few : walks < 2 ^ 32 - 1)
    (sliced : s.sliceNode g start sliceId kind sliceDepFlags fuel = some (result, used, s')) :
    used = (s.slicer.supply sliceId).1 ∧ s'.slicer = (s.slicer.supply sliceId).2 ∧
      s'.funcDgMap = s.funcDgMap ∧
      (∃ walks' ≤ walks + 1, EarlierWalks g walks' s'.data) ∧
      s'.data.sliceIds = stampIds g (sliceMarks g s.slicer.direction kind sliceDepFlags start) used
        s.data.sliceIds ∧
      ∃ graphs, s.funcDgMap = some graphs ∧ s'.statistics = graphs.foldl (fun st entry =>
        updateStatsSliceId s'.data used st entry.2) s.statistics := by
  obtain ⟨left, made, rest⟩ := Option.bind_eq_some_iff.mp sliced
  obtain ⟨graphs, found, same⟩ := Option.map_eq_some_iff.mp rest
  obtain ⟨-, rfl, rfl⟩ := same
  have unmarked := earlier.unmarked few
  cases kind with
  | storing =>
    obtain ⟨⟨built, data'⟩, run, rfl⟩ := Option.map_eq_some_iff.mp made
    refine ⟨rfl, rfl, rfl, ?_, buildSliceGraph_sliceIds unmarked run, graphs, found, rfl⟩
    cases built with
    | some sg => exact ⟨walks + 1, le_rfl, earlier.build run⟩
    | none => exact ⟨walks, Nat.le_succ walks, buildSliceGraph_none run ▸ earlier⟩
  | marking =>
    obtain ⟨data', run, rfl⟩ := Option.map_eq_some_iff.mp made
    exact ⟨rfl, rfl, rfl, ⟨walks + 1, le_rfl, earlier.mark run⟩, markSlice_sliceIds unmarked run,
      graphs, found, rfl⟩

theorem supply_lastSliceId {slicer : DgSlicer} {n : Nat} (atMost : slicer.lastSliceId ≤ n)
    (few : n + 1 < 2 ^ 32) (sliceId : Nat) :
    (slicer.supply sliceId).1 ≠ 0 ∧ (slicer.supply sliceId).2.lastSliceId ≤ n + 1 := by
  rw [DgSlicer.supply]
  split_ifs with zero
  · have next : (slicer.lastSliceId + 1) % 2 ^ 32 = slicer.lastSliceId + 1 :=
      Nat.mod_eq_of_lt (by omega)
    simp only [next]
    omega
  · exact ⟨zero, atMost.trans (Nat.le_succ n)⟩

/-- The state of a slicer after some slices. -/
structure Ran (g : DependenceGraph δ β γ ι φ) (graphs : List (φ × FunctionGraph δ β γ))
    (rounds : List (Nat × Set δ)) (s : SlicerState δ β γ φ) : Prop where
  walks : ∃ walks ≤ rounds.length, EarlierWalks g walks s.data
  lastSliceId : s.slicer.lastSliceId ≤ rounds.length
  funcDgMap : s.funcDgMap = some graphs
  ids : ∀ round ∈ rounds, round.1 ≠ 0
  nodes : s.data.nodeSlice = stampAll rounds fun _ => 0
  blocks : s.data.blockSlice = stampAll (roundsOf g.getBBlock rounds) fun _ => 0
  graphs : s.data.graphSlice = stampAll (roundsOf g.getDG rounds) fun _ => 0

variable {graphs : List (φ × FunctionGraph δ β γ)} {rounds : List (Nat × Set δ)}
  {s₀ s : SlicerState δ β γ φ}

omit [DecidableEq δ] in
theorem roundsOf_concat {κ : Type*} (owner : δ → Option κ) (round : Nat × Set δ) :
    roundsOf owner (rounds ++ [round]) =
      roundsOf owner rounds ++ [(round.1, owners owner round.2)] := by
  rw [roundsOf, List.map_append]
  rfl

/-- One more slice: the step of a run. -/
theorem Ran.slice (ran : Ran g graphs rounds s) (few : rounds.length + 1 < 2 ^ 32)
    {s' : SlicerState δ β γ φ} {start : δ} {sliceId used : Nat} {kind : SlicingApproachKind}
    {sliceDepFlags fuel : Nat} {result : Option (GrowingGraph ι φ)}
    (sliced : s.sliceNode g start sliceId kind sliceDepFlags fuel = some (result, used, s')) :
    Ran g graphs
      (rounds ++ [(used, sliceMarks g s.slicer.direction kind sliceDepFlags start)]) s' := by
  obtain ⟨walks, atMost, earlier⟩ := ran.walks
  obtain ⟨rfl, slicer, funcDgMap, ⟨walks', more, earlier'⟩, ids, -⟩ :=
    SlicerState.sliceNode_spec earlier (by omega) sliced
  obtain ⟨nonzero, last⟩ := supply_lastSliceId ran.lastSliceId few sliceId
  obtain ⟨nodes, rest⟩ := Prod.mk.inj ids
  obtain ⟨blocks, graphSlices⟩ := Prod.mk.inj rest
  have length : ∀ round : Nat × Set δ, (rounds ++ [round]).length = rounds.length + 1 :=
    fun round => List.length_append
  refine ⟨⟨walks', ?_, earlier'⟩, ?_, funcDgMap.trans ran.funcDgMap, ?_, ?_, ?_, ?_⟩
  · rw [length]
    omega
  · rw [length, slicer]
    exact last
  · intro round member
    rcases List.mem_append.mp member with early | isLast
    · exact ran.ids round early
    · rw [List.mem_singleton.mp isLast]
      exact nonzero
  · rw [nodes, stampAll_concat, ← ran.nodes]
    rfl
  · rw [blocks, roundsOf_concat, stampAll_concat, ← ran.blocks]
    rfl
  · rw [graphSlices, roundsOf_concat, stampAll_concat, ← ran.graphs]
    rfl

/-- The state after a run. -/
theorem SlicerRun.ran (unused : s₀.Unused graphs) (run : SlicerRun g s₀ rounds s)
    (few : rounds.length < 2 ^ 32 - 1) : Ran g graphs rounds s := by
  induction run with
  | unused =>
    obtain ⟨nodes, rest⟩ := Prod.mk.inj unused.sliceIds
    obtain ⟨blocks, graphs⟩ := Prod.mk.inj rest
    exact ⟨⟨0, le_rfl, .fresh unused.counter unused.lastwalkid⟩, unused.lastSliceId.le,
      unused.funcDgMap, fun _ absurd => (List.not_mem_nil absurd).elim, nodes, blocks, graphs⟩
  | slice run sliced ih =>
    rw [List.length_append, List.length_singleton] at few
    exact (ih (by omega)).slice (by omega) sliced

omit [DecidableEq β] [DecidableEq γ] in
theorem mem_walkGraph {data : WalkData δ β γ} {sliceId : Nat} {nodeFunc bbFunc fnFunc : Bool}
    {graph : FunctionGraph δ β γ} {visit : Visit δ β γ} :
    visit ∈ walkGraph data sliceId nodeFunc bbFunc fnFunc graph ↔
      match visit with
      | .node n => nodeFunc ∧ (n ∈ graph.nodes ∧ some n ≠ graph.exit) ∧ data.nodeSlice n = sliceId
      | .block b => bbFunc ∧ b ∈ graph.blocks ∧ data.blockSlice b = sliceId
      | .function f => fnFunc ∧ data.graphSlice graph.graph = sliceId ∧ graph.graph = f := by
  have isGraph : ∀ f, graph.graph = f ↔ f = graph.graph := fun f => eq_comm
  cases visit <;> cases nodeFunc <;> cases bbFunc <;> cases fnFunc <;>
    simp [walkGraph, walkNodeSliceId, walkBasicBlockSliceId, walkFunctionSliceId, and_assoc,
      isGraph]

/-- What is called for a slice id after some slices: the things of the graphs that the slice
with the id was put on, and none of the later ones. -/
def Visited (g : DependenceGraph δ β γ ι φ) (graphs : List (φ × FunctionGraph δ β γ))
    (rounds : List (Nat × Set δ)) (sliceId : Nat) (nodeFunc bbFunc fnFunc : Bool) :
    Visit δ β γ → Prop
  | .node n => nodeFunc ∧ (∃ entry ∈ graphs, n ∈ entry.2.nodes ∧ some n ≠ entry.2.exit) ∧
      Last rounds sliceId n
  | .block b => bbFunc ∧ (∃ entry ∈ graphs, b ∈ entry.2.blocks) ∧
      Last (roundsOf g.getBBlock rounds) sliceId b
  | .function f => fnFunc ∧ (∃ entry ∈ graphs, entry.2.graph = f) ∧
      Last (roundsOf g.getDG rounds) sliceId f

/-- After any slices of either kind, the walk for a slice id meets what the last slice that
was put on it had as its id. -/
theorem walkSliceId_run (unused : s₀.Unused graphs) (run : SlicerRun g s₀ rounds s)
    (few : rounds.length < 2 ^ 32 - 1) {sliceId : Nat} (nonzero : sliceId ≠ 0)
    (nodeFunc bbFunc fnFunc : Bool) :
    ∃ visits, s.walkSliceId sliceId none nodeFunc bbFunc fnFunc = some visits ∧
      ∀ visit, visit ∈ visits ↔ Visited g graphs rounds sliceId nodeFunc bbFunc fnFunc visit := by
  have ran := run.ran unused few
  refine ⟨graphs.flatMap fun entry => walkGraph s.data sliceId nodeFunc bbFunc fnFunc entry.2,
    by rw [SlicerState.walkSliceId, ran.funcDgMap, Option.map_some], fun visit => ?_⟩
  rw [List.mem_flatMap]
  simp only [mem_walkGraph]
  cases visit with
  | node n =>
    have carried : s.data.nodeSlice n = sliceId ↔ Last rounds sliceId n := by
      rw [ran.nodes]
      exact stampAll_zero_iff nonzero rounds n
    simp only [Visited, carried]
    tauto
  | block b =>
    have carried : s.data.blockSlice b = sliceId ↔
        Last (roundsOf g.getBBlock rounds) sliceId b := by
      rw [ran.blocks]
      exact stampAll_zero_iff nonzero _ b
    simp only [Visited, carried]
    tauto
  | function f =>
    have carried : s.data.graphSlice f = sliceId ↔ Last (roundsOf g.getDG rounds) sliceId f := by
      rw [ran.graphs]
      exact stampAll_zero_iff nonzero _ f
    simp only [Visited, ← carried]
    constructor
    · rintro ⟨entry, member, called, slice, rfl⟩
      exact ⟨called, ⟨entry, member, rfl⟩, slice⟩
    · rintro ⟨called, ⟨entry, member, rfl⟩, slice⟩
      exact ⟨entry, member, called, slice, rfl⟩

end Runs

section Statistics

variable [DecidableEq δ]

/-- The nodes that the statistics are about. -/
def countedNodes (graphs : List (φ × FunctionGraph δ β γ)) : List δ :=
  graphs.flatMap fun entry => entry.2.nodes.filter fun n => some n ≠ entry.2.exit

omit [DecidableEq δ] in
def countedBlocks (graphs : List (φ × FunctionGraph δ β γ)) : List β :=
  graphs.flatMap fun entry => entry.2.blocks

omit [DecidableEq δ] in
def countedGraphs (graphs : List (φ × FunctionGraph δ β γ)) : List γ :=
  graphs.map fun entry => entry.2.graph

/-- The counters go up. -/
def SlicerStatistics.add (st : SlicerStatistics)
    (nodes nodesOut blocks blocksOut funcs funcsOut : Nat) : SlicerStatistics where
  nodesTotal := st.nodesTotal + .ofNat nodes
  nodesRemoved := st.nodesRemoved + .ofNat nodesOut
  blocksTotal := st.blocksTotal + .ofNat blocks
  blocksRemoved := st.blocksRemoved + .ofNat blocksOut
  funcsTotal := st.funcsTotal + .ofNat funcs
  funcsRemoved := st.funcsRemoved + .ofNat funcsOut

theorem SlicerStatistics.add_add (st : SlicerStatistics) (a b c d e f a' b' c' d' e' f' : Nat) :
    (st.add a b c d e f).add a' b' c' d' e' f' =
      st.add (a + a') (b + b') (c + c') (d + d') (e + e') (f + f') := by
  simp only [add, UInt64.ofNat_add, UInt32.ofNat_add, UInt64.add_assoc, UInt32.add_assoc]

theorem SlicerStatistics.add_zero (st : SlicerStatistics) : st.add 0 0 0 0 0 0 = st := by
  cases st
  simp [add]

/-- A count that goes up by one thing. -/
def one (outside : Bool) : Nat := if outside then 1 else 0

theorem countNode_eq (data : WalkData δ β γ) (sliceId : Nat) {exit : Option δ}
    (st : SlicerStatistics) {n : δ} (inside : some n ≠ exit) :
    countNode data sliceId exit st n = st.add 1 (one (data.nodeSlice n ≠ sliceId)) 0 0 0 0 := by
  rw [countNode, if_neg inside]
  by_cases carries : data.nodeSlice n = sliceId <;> simp [SlicerStatistics.add, one, carries]

omit [DecidableEq δ] in
theorem countBlock_eq (data : WalkData δ β γ) (sliceId : Nat) (st : SlicerStatistics) (b : β) :
    countBlock data sliceId st b = st.add 0 0 1 (one (data.blockSlice b ≠ sliceId)) 0 0 := by
  rw [countBlock]
  by_cases carries : data.blockSlice b = sliceId <;> simp [SlicerStatistics.add, one, carries]

theorem countP_cons_one {α : Type*} (p : α → Bool) (a : α) (l : List α) :
    (a :: l).countP p = one (p a) + l.countP p := by
  rw [List.countP_cons, Nat.add_comm, one]

theorem foldl_countNode (data : WalkData δ β γ) (sliceId : Nat) (exit : Option δ)
    (nodes : List δ) (st : SlicerStatistics) :
    nodes.foldl (countNode data sliceId exit) st =
      st.add (nodes.filter fun n => some n ≠ exit).length
        ((nodes.filter fun n => some n ≠ exit).countP fun n => data.nodeSlice n ≠ sliceId)
        0 0 0 0 := by
  induction nodes generalizing st with
  | nil => exact st.add_zero.symm
  | cons n nodes ih =>
    rw [List.foldl_cons, ih]
    by_cases isExit : some n = exit
    · simp [countNode, isExit]
    · have kept : (n :: nodes).filter (fun n => some n ≠ exit) =
          n :: nodes.filter fun n => some n ≠ exit :=
        List.filter_cons_of_pos (decide_eq_true isExit)
      rw [countNode_eq data sliceId st isExit, SlicerStatistics.add_add, kept, List.length_cons,
        countP_cons_one, Nat.add_comm 1]

omit [DecidableEq δ] in
theorem foldl_countBlock (data : WalkData δ β γ) (sliceId : Nat) (blocks : List β)
    (st : SlicerStatistics) :
    blocks.foldl (countBlock data sliceId) st = st.add 0 0 blocks.length
      (blocks.countP fun b => data.blockSlice b ≠ sliceId) 0 0 := by
  induction blocks generalizing st with
  | nil => exact st.add_zero.symm
  | cons b blocks ih =>
    rw [List.foldl_cons, ih, countBlock_eq, SlicerStatistics.add_add, List.length_cons,
      countP_cons_one, Nat.add_comm 1]

/-- What one slice adds to the statistics, for all the graphs. -/
theorem foldl_updateStatsSliceId (data : WalkData δ β γ) (sliceId : Nat)
    (graphs : List (φ × FunctionGraph δ β γ)) (st : SlicerStatistics) :
    graphs.foldl (fun st entry => updateStatsSliceId data sliceId st entry.2) st =
      st.add (countedNodes graphs).length
        ((countedNodes graphs).countP fun n => data.nodeSlice n ≠ sliceId)
        (countedBlocks graphs).length
        ((countedBlocks graphs).countP fun b => data.blockSlice b ≠ sliceId)
        (countedGraphs graphs).length
        ((countedGraphs graphs).countP fun f => data.graphSlice f ≠ sliceId) := by
  induction graphs generalizing st with
  | nil => exact st.add_zero.symm
  | cons entry graphs ih =>
    have function : ∀ st : SlicerStatistics,
        (if data.graphSlice entry.2.graph ≠ sliceId then
          { st with funcsTotal := st.funcsTotal + 1, funcsRemoved := st.funcsRemoved + 1 }
          else { st with funcsTotal := st.funcsTotal + 1 }) =
        st.add 0 0 0 0 1 (one (data.graphSlice entry.2.graph ≠ sliceId)) := by
      intro st
      by_cases carries : data.graphSlice entry.2.graph = sliceId <;>
        simp [SlicerStatistics.add, one, carries]
    have first : updateStatsSliceId data sliceId st entry.2 =
        st.add (entry.2.nodes.filter fun n => some n ≠ entry.2.exit).length
          ((entry.2.nodes.filter fun n => some n ≠ entry.2.exit).countP fun n =>
            data.nodeSlice n ≠ sliceId) entry.2.blocks.length
          (entry.2.blocks.countP fun b => data.blockSlice b ≠ sliceId) 1
          (one (data.graphSlice entry.2.graph ≠ sliceId)) := by
      refine (function _).trans ?_
      rw [foldl_countNode, foldl_countBlock, SlicerStatistics.add_add, SlicerStatistics.add_add]
      simp
    rw [List.foldl_cons, ih, first, SlicerStatistics.add_add]
    simp only [countedNodes, countedBlocks, countedGraphs, List.flatMap_cons, List.map_cons,
      List.length_append, List.countP_append, List.length_cons, countP_cons_one, Nat.add_comm 1]

open Classical in
/-- How many of the things are not in the set. -/
noncomputable def outside {α : Type*} (things : List α) (marks : Set α) : Nat :=
  things.countP fun a => a ∉ marks

/-- Each slice adds all there is to the totals, and what it is not put on to the rest. -/
structure Tallied (g : DependenceGraph δ β γ ι φ) (graphs : List (φ × FunctionGraph δ β γ))
    (rounds : List (Nat × Set δ)) (st : SlicerStatistics) : Prop where
  nodesTotal : st.nodesTotal = .ofNat (rounds.length * (countedNodes graphs).length)
  nodesRemoved : st.nodesRemoved =
    .ofNat (rounds.map fun round => outside (countedNodes graphs) round.2).sum
  blocksTotal : st.blocksTotal = .ofNat (rounds.length * (countedBlocks graphs).length)
  blocksRemoved : st.blocksRemoved = .ofNat
    (rounds.map fun round => outside (countedBlocks graphs) (owners g.getBBlock round.2)).sum
  funcsTotal : st.funcsTotal = .ofNat (rounds.length * (countedGraphs graphs).length)
  funcsRemoved : st.funcsRemoved = .ofNat
    (rounds.map fun round => outside (countedGraphs graphs) (owners g.getDG round.2)).sum

omit [DecidableEq δ] in
theorem countP_eq_outside {α : Type*} {things : List α} {carried : α → Nat} {sliceId : Nat}
    {marks : Set α} (isMarked : ∀ a, carried a = sliceId ↔ a ∈ marks) :
    things.countP (fun a => carried a ≠ sliceId) = outside things marks := by
  rw [outside]
  refine List.countP_congr fun a _ => ?_
  simp [isMarked a]

omit [DecidableEq δ] in
theorem map_fst_roundsOf {κ : Type*} (owner : δ → Option κ) (rounds : List (Nat × Set δ)) :
    (roundsOf owner rounds).map Prod.fst = rounds.map Prod.fst := by
  rw [roundsOf, List.map_map]
  rfl

omit [DecidableEq δ] in
theorem sum_map_concat (f : Nat × Set δ → Nat) (rounds : List (Nat × Set δ))
    (round : Nat × Set δ) :
    ((rounds ++ [round]).map f).sum = (rounds.map f).sum + f round := by
  rw [List.map_append, List.sum_append, List.map_singleton, List.sum_singleton]

variable [DecidableEq β] [DecidableEq γ] [DecidableEq ι] {g : DependenceGraph δ β γ ι φ}
  {graphs : List (φ × FunctionGraph δ β γ)} {rounds : List (Nat × Set δ)}
  {s₀ s : SlicerState δ β γ φ}

/-- A slice with an id that none before it had. -/
theorem Tallied.slice (tallied : Tallied g graphs rounds s.statistics)
    (ran : Ran g graphs rounds s) (few : rounds.length + 1 < 2 ^ 32)
    {s' : SlicerState δ β γ φ} {start : δ} {sliceId used : Nat} {kind : SlicingApproachKind}
    {sliceDepFlags fuel : Nat} {result : Option (GrowingGraph ι φ)}
    (sliced : s.sliceNode g start sliceId kind sliceDepFlags fuel = some (result, used, s'))
    (other : used ∉ rounds.map Prod.fst) :
    Tallied g graphs
      (rounds ++ [(used, sliceMarks g s.slicer.direction kind sliceDepFlags start)])
      s'.statistics := by
  obtain ⟨walks, atMost, earlier⟩ := ran.walks
  obtain ⟨-, -, -, -, -, found, funcDgMap, statistics⟩ :=
    SlicerState.sliceNode_spec earlier (by omega) sliced
  obtain rfl := Option.some.inj (funcDgMap.symm.trans ran.funcDgMap)
  have after := ran.slice few sliced
  have nonzero : 0 ≠ used := (after.ids _ List.mem_concat_self).symm
  have node : ∀ n, s'.data.nodeSlice n = used ↔
      n ∈ sliceMarks g s.slicer.direction kind sliceDepFlags start := fun n => by
    rw [after.nodes]
    exact stampAll_concat_iff nonzero other
  have block : ∀ b, s'.data.blockSlice b = used ↔
      b ∈ owners g.getBBlock (sliceMarks g s.slicer.direction kind sliceDepFlags start) :=
    fun b => by
      rw [after.blocks, roundsOf_concat]
      exact stampAll_concat_iff nonzero (map_fst_roundsOf g.getBBlock rounds ▸ other)
  have function : ∀ f, s'.data.graphSlice f = used ↔
      f ∈ owners g.getDG (sliceMarks g s.slicer.direction kind sliceDepFlags start) :=
    fun f => by
      rw [after.graphs, roundsOf_concat]
      exact stampAll_concat_iff nonzero (map_fst_roundsOf g.getDG rounds ▸ other)
  rw [foldl_updateStatsSliceId, countP_eq_outside node, countP_eq_outside block,
    countP_eq_outside function] at statistics
  have total : ∀ n, (rounds ++ [(used, sliceMarks g s.slicer.direction kind sliceDepFlags
      start)]).length * n = rounds.length * n + n := fun n => by
    rw [List.length_append, List.length_singleton, Nat.add_mul, Nat.one_mul]
  constructor <;> simp only [statistics, SlicerStatistics.add, total, sum_map_concat,
    UInt64.ofNat_add, UInt32.ofNat_add, tallied.nodesTotal, tallied.nodesRemoved,
    tallied.blocksTotal, tallied.blocksRemoved, tallied.funcsTotal, tallied.funcsRemoved]

/-- After slices with different ids, the statistics have counted for each of them all the
nodes, blocks and functions, and as removed those that the slice was not put on, whatever
later slices have put on them since. -/
theorem statistics_run (unused : s₀.Unused graphs) (run : SlicerRun g s₀ rounds s)
    (few : rounds.length < 2 ^ 32 - 1) (different : (rounds.map Prod.fst).Nodup) :
    Tallied g graphs rounds s.statistics := by
  induction run with
  | unused =>
    rw [unused.statistics]
    constructor <;> simp [SlicerStatistics.zero]
  | slice run sliced ih =>
    rw [List.length_append, List.length_singleton] at few
    rw [List.map_append, List.map_singleton, List.nodup_append] at different
    have other := fun member => different.2.2 _ member _ (List.mem_singleton_self _) rfl
    exact (ih (by omega) different.1).slice (run.ran unused (by omega)) (by omega) sliced other

end Statistics

section Examples

/-- The one function of `paramGraph`. -/
def sampleGraphs : List (Nat × FunctionGraph (Fin 3) (Fin 1) (Fin 1)) :=
  [(0, ⟨Fin.last 0, List.finRange 3, none, List.finRange 1⟩)]

/-- A slicer for `paramGraph` that has made no slice. -/
def sampleSlicer : SlicerState (Fin 3) (Fin 1) (Fin 1) Nat where
  slicer := ⟨.backward, 0⟩
  funcDgMap := some sampleGraphs
  statistics := .zero
  data := unwalked

theorem sampleSlicer_unused : sampleSlicer.Unused sampleGraphs :=
  ⟨rfl, rfl, rfl, rfl, fun _ => rfl, rfl⟩

/-- A slice graph is built, then the same slice is marked. -/
theorem sampleSlicer_run : ∃ rounds s, SlicerRun paramGraph sampleSlicer rounds s ∧
    rounds.map Prod.fst = [1, 2] := by
  let built := sampleSlicer.sliceNode paramGraph 0 0 .storing SliceDependenceFlags.memory 4
  have first : built = some (built.get (by decide)) := (Option.some_get _).symm
  let marked := (built.get (by decide)).2.2.sliceNode paramGraph 0 0 .marking
    SliceDependenceFlags.memory 4
  have second : marked = some (marked.get (by decide)) := (Option.some_get _).symm
  exact ⟨_, _, (SlicerRun.unused.slice first).slice second, by decide⟩

theorem walkSliceId_sampleSlicer : ∃ rounds s, SlicerRun paramGraph sampleSlicer rounds s ∧
    rounds.map Prod.fst = [1, 2] ∧ ∃ visits, s.walkSliceId 2 none true true true = some visits ∧
      ∀ visit, visit ∈ visits ↔ Visited paramGraph sampleGraphs rounds 2
        true true true visit := by
  obtain ⟨rounds, s, run, ids⟩ := sampleSlicer_run
  have two : rounds.length = 2 := by rw [← List.length_map, ids]; rfl
  exact ⟨rounds, s, run, ids, walkSliceId_run sampleSlicer_unused run (by omega) (by decide)
    true true true⟩

theorem statistics_sampleSlicer : ∃ rounds s, SlicerRun paramGraph sampleSlicer rounds s ∧
    rounds.map Prod.fst = [1, 2] ∧
    Tallied paramGraph sampleGraphs rounds s.statistics := by
  obtain ⟨rounds, s, run, ids⟩ := sampleSlicer_run
  have two : rounds.length = 2 := by rw [← List.length_map, ids]; rfl
  exact ⟨rounds, s, run, ids, statistics_run sampleSlicer_unused run (by omega)
    (by rw [ids]; decide)⟩

end Examples

end Arthas.Slicing
