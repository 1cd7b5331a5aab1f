import Arthas.Slicing.Storing

/-!
The two approaches on one input. Marking goes through every node that a selected dependence
leads to; storing stops at values that are not instructions and at instructions that do not
belong into a slice, and stands a block on its last node where marking enters it at its
first one. They give the same slice exactly when none of that changes what is reached.
-/

set_option autoImplicit false
set_option relaxedAutoImplicit false

namespace Arthas.Slicing

open Lib.Worklist Relation

variable {δ β γ ι φ : Type*} (g : DependenceGraph δ β γ ι φ)

section Marking

variable (dir : SliceDirection) (sliceDepFlags : Nat) (start : δ) (sliceId : Nat)
  (data : WalkData δ β γ)

/-- A control-dependent block of the node has no nodes. -/
def DependenceGraph.EmptyBlock (n : δ) : Prop :=
  ∃ k b, g.ControlBlock dir sliceDepFlags k n b ∧ g.getNodes b = []

namespace NodesWalk

/-- The state of marking after some nodes have been taken from the queue. -/
structure Marking [DecidableEq δ] (done : Finset δ) (w : NodesWalk δ β γ) : Prop where
  frontier : Frontier (g.MarkReach dir sliceDepFlags start) w.Marked done w.queue
  closed : Closed (g.MarkEdge dir sliceDepFlags) w.Marked done
  marked_start : w.Marked start
  slices : ∀ n, w.nodeSlice n = sliceId ↔ n ∈ done ∨ data.nodeSlice n = sliceId

variable {g dir sliceDepFlags start sliceId data} [DecidableEq δ] {done : Finset δ}
  {w : NodesWalk δ β γ} {n : δ} {rest : List δ}

theorem Marking.waiting (h : Marking g dir sliceDepFlags start sliceId data done w)
    (front : w.queue = n :: rest) : n ∉ done :=
  h.frontier.waiting n (front ▸ List.mem_cons_self)

variable [DecidableEq β] [DecidableEq γ]

/-- A node is done with when it carries the slice id and what it leads to is queued. -/
theorem Marking.follow (h : Marking g dir sliceDepFlags start sliceId data done w)
    (front : w.queue = n :: rest) {nodes : List δ}
    (target : ∀ v, v ∈ nodes ↔ g.MarkEdge dir sliceDepFlags n v) :
    Marking g dir sliceDepFlags start sliceId data (insert n done)
      (processEdges .fifo nodes ((w.setQueue rest).setSlice g sliceId n)) := by
  have marked : ∀ v, (processEdges .fifo nodes ((w.setQueue rest).setSlice g sliceId n)).Marked v ↔
      w.Marked v ∨ v ∈ nodes := marked_processEdges _ _ nodes
  have reached := h.frontier.reach n
    ((h.frontier.mem n).mpr (Or.inr (front ▸ List.mem_cons_self)))
  refine ⟨?_, fun u member v edge => ?_, (marked start).mpr (Or.inl h.marked_start), fun v => ?_⟩
  · exact frontier_processEdges _ _ (fun v member => reached.tail ((target v).mp member))
      (front ▸ h.frontier).pop
  · rw [marked]
    rcases Finset.mem_insert.mp member with rfl | member
    · exact Or.inr ((target v).mpr edge)
    · exact Or.inl (h.closed u member v edge)
  · rw [(queued_processEdges _ _ nodes).nodeSlice, setSlice_nodeSlice]
    by_cases here : v = n
    · subst here
      simp
    · rw [Function.update_of_ne here, Finset.mem_insert, or_iff_right here]
      exact h.slices v

/-- One turn of the loop keeps the state, unless the node leads to a block without nodes. -/
theorem Marking.visit (h : Marking g dir sliceDepFlags start sliceId data done w)
    (front : w.queue = n :: rest) :
    (∃ w', visit g .fifo (sliceRelationOpts dir sliceDepFlags) (setSlice g sliceId) n
        (w.setQueue rest) = some w' ∧ ¬ g.EmptyBlock dir sliceDepFlags n ∧
      Marking g dir sliceDepFlags start sliceId data (insert n done) w') ∨
    (visit g .fifo (sliceRelationOpts dir sliceDepFlags) (setSlice g sliceId) n
        (w.setQueue rest) = none ∧ g.EmptyBlock dir sliceDepFlags n) := by
  rw [NodesWalk.visit]
  split_ifs with off
  · have nothing : ∀ v, v ∈ ([] : List δ) ↔ g.MarkEdge dir sliceDepFlags n v := fun v =>
      ⟨fun member => absurd member List.not_mem_nil, fun edge => edge.enabled.elim
        fun k enabled => absurd off (enabled_options enabled)⟩
    refine Or.inl ⟨_, rfl, ?_, h.follow front nothing⟩
    rintro ⟨k, b, ⟨enabled, -⟩, -⟩
    exact enabled_options enabled off
  · rw [foldlM_processKind]
    cases found : targets g (sliceRelationOpts dir sliceDepFlags) n with
    | none => exact Or.inr ⟨rfl, (targets_eq_none g).mp found⟩
    | some nodes =>
      refine Or.inl ⟨_, rfl, fun empty => ?_, h.follow front (mem_targets g found)⟩
      rw [(targets_eq_none g).mpr empty] at found
      exact absurd found (by simp)

end NodesWalk

variable {g dir sliceDepFlags start sliceId data} [DecidableEq δ] [DecidableEq β] [DecidableEq γ]

/-- Marking ends, with the slice id on the nodes that it reaches, unless it comes to a block
without nodes. -/
theorem markSlice_spec [Fintype δ] (unmarked : ∀ v, ¬ (NodesWalk.start data).Marked v) {fuel : Nat}
    (enough : Fintype.card δ < fuel) :
    (∃ data', markSlice g dir sliceDepFlags start sliceId fuel data = some data' ∧
      (∀ v, g.MarkReach dir sliceDepFlags start v → ¬ g.EmptyBlock dir sliceDepFlags v) ∧
      ∀ v, data'.nodeSlice v = sliceId ↔
        g.MarkReach dir sliceDepFlags start v ∨ data.nodeSlice v = sliceId) ∨
    (markSlice g dir sliceDepFlags start sliceId fuel data = none ∧
      ∃ v, g.MarkReach dir sliceDepFlags start v ∧ g.EmptyBlock dir sliceDepFlags v) := by
  have first : NodesWalk.Marking g dir sliceDepFlags start sliceId data ∅
      (NodesWalk.processEdges .fifo [start] (NodesWalk.start data)) :=
    { frontier := NodesWalk.frontier_enqueue _ _ ReflTransGen.refl (Frontier.empty unmarked)
      closed := fun u member => absurd member (Finset.notMem_empty u)
      marked_start := (NodesWalk.marked_enqueue _ _ _ _).mpr (Or.inr rfl)
      slices := fun v => by
        rw [(NodesWalk.queued_processEdges _ _ _).nodeSlice]
        simp [NodesWalk.start] }
  rw [markSlice, NodesWalk.walk]
  rcases drain_spec (I := NodesWalk.Marking g dir sliceDepFlags start sliceId data)
    (fun _ _ _ _ marking => marking.waiting) (fun _ _ _ _ marking => marking.visit)
    (by rw [Finset.card_empty]; exact enough) first
    (fun v member => absurd member (Finset.notMem_empty v)) with
    ⟨w, done, run, empty, marking, nonempty⟩ | ⟨run, done, w, v, rest, marking, front, isEmpty⟩
  · have frontier := marking.frontier
    rw [empty] at frontier
    have complete : ∀ v, v ∈ done ↔ g.MarkReach dir sliceDepFlags start v :=
      frontier.complete marking.closed marking.marked_start
    refine Or.inl ⟨w.toWalkData, by rw [run, Option.map_some],
      fun v reached => nonempty v ((complete v).mpr reached), fun v => ?_⟩
    rw [← complete v]
    exact marking.slices v
  · refine Or.inr ⟨by rw [run, Option.map_none], v, marking.frontier.reach v ?_, isEmpty⟩
    exact (marking.frontier.mem v).mpr (Or.inr (front ▸ List.mem_cons_self))

end Marking

section Condition

/-- The instruction is held by a node that storing reaches. -/
def DependenceGraph.Stored (dir : SliceDirection) (sliceDepFlags : Nat) (start : δ) (i : ι) :
    Prop :=
  ∃ v, g.StoreReach dir sliceDepFlags start v ∧ g.sliceInst v = some i

/-- What the approaches do differently makes no difference: the start belongs into the slice,
no block on the way is missing or empty, and what only one approach goes through leads to no
instruction that the other one does not have. -/
structure SameSlice (dir : SliceDirection) (sliceDepFlags : Nat) (start : δ) (sliceId : Nat)
    (data : WalkData δ β γ) : Prop where
  accepted : (g.sliceInst start).isSome
  blocks : ∀ v, g.StoreReach dir sliceDepFlags start v → ¬ g.Blockless sliceDepFlags v
  nonempty : ∀ v, g.MarkReach dir sliceDepFlags start v → ¬ g.EmptyBlock dir sliceDepFlags v
  detours : ∀ v i, Detour (g.MarkEdge dir sliceDepFlags) (g.StoreStep dir sliceDepFlags) start v →
    g.sliceInst v = some i → g.Stored dir sliceDepFlags start i
  shortcuts : ∀ v i,
    Detour (g.StoreStep dir sliceDepFlags) (g.MarkEdge dir sliceDepFlags) start v →
    g.sliceInst v = some i → ∃ w, (g.MarkReach dir sliceDepFlags start w ∨
      data.nodeSlice w = sliceId) ∧ g.sliceInst w = some i
  before : ∀ v i, data.nodeSlice v = sliceId → g.sliceInst v = some i →
    g.Stored dir sliceDepFlags start i

variable {g}

/-- They make none in a graph of instructions that belong into a slice, when control
dependences are not asked for and no node carries the slice id yet. -/
theorem sameSlice_of_instructions {dir : SliceDirection} {sliceDepFlags sliceId : Nat}
    {data : WalkData δ β γ} (instructions : ∀ n, (g.sliceInst n).isSome)
    (noControl : sliceDepFlags &&& SliceDependenceFlags.control = 0)
    (unused : ∀ n, data.nodeSlice n ≠ sliceId) (start : δ) :
    SameSlice g dir sliceDepFlags start sliceId data := by
  have noBlock : ∀ k u b, ¬ g.ControlBlock dir sliceDepFlags k u b := by
    rintro k u b ⟨enabled, block, -, member⟩
    cases k
    case control | revControl => exact enabled.1 noControl
    all_goals exact absurd member List.not_mem_nil
  have sameStep : ∀ u v, g.StoreStep dir sliceDepFlags u v ↔ g.MarkEdge dir sliceDepFlags u v := by
    intro u v
    constructor
    · rintro ⟨-, -, ⟨k, enabled, member⟩ | ⟨k, b, control, -⟩⟩
      · exact .edge k enabled member
      · exact absurd control (noBlock k u b)
    · rintro (⟨k, enabled, member⟩ | ⟨k, b, control, -⟩)
      · exact ⟨instructions u, instructions v, .edge k enabled member⟩
      · exact absurd control (noBlock k u b)
  exact
    { accepted := instructions start
      blocks := fun v _ blockless => blockless.1 noControl
      nonempty := fun v _ ⟨k, b, control, _⟩ => noBlock k v b control
      detours := fun v i ⟨u, w, _, step, other, _⟩ _ => absurd ((sameStep u w).mpr step) other
      shortcuts := fun v i ⟨u, w, _, step, other, _⟩ _ => absurd ((sameStep u w).mp step) other
      before := fun v i carried _ => absurd carried (unused v) }

end Condition

section Agreement

variable [DecidableEq δ] [DecidableEq β] [DecidableEq γ] [DecidableEq ι]

/-- Both approaches end, and the instructions of the slice graph are the ones that belong
into a slice and are held by a node with the slice id. -/
def SlicesAgree (slicer : DgSlicer) (start : δ) (sliceId sliceDepFlags fuel : Nat)
    (data : WalkData δ β γ) : Prop :=
  ∃ stored marked sg,
    slicer.slice g start sliceId .storing sliceDepFlags fuel data = some stored ∧
    slicer.slice g start sliceId .marking sliceDepFlags fuel data = some marked ∧
    stored.result = some sg ∧
    ∀ i, sg.HasValue i ↔ g.shouldSliceInst i ∧
      ∃ n, g.getValue n = .instruction i ∧ marked.data.nodeSlice n = marked.sliceId

variable {g}

/-- What both approaches compute, when they compute something. -/
theorem slicesAgree_iff_spec [Fintype δ] {data : WalkData δ β γ}
    (unmarked : ∀ v, ¬ (NodesWalk.start data).Marked v) {start : δ} {rootVal : ι}
    (holds : g.getValue start = .instruction rootVal) (slicer : DgSlicer)
    (sliceId sliceDepFlags : Nat) {fuel : Nat} (enough : Fintype.card δ < fuel) :
    SlicesAgree g slicer start sliceId sliceDepFlags fuel data ↔
      (∀ v, g.StoreReach slicer.direction sliceDepFlags start v →
        ¬ g.Blockless sliceDepFlags v) ∧
      (∀ v, g.MarkReach slicer.direction sliceDepFlags start v →
        ¬ g.EmptyBlock slicer.direction sliceDepFlags v) ∧
      ∀ i, (i = rootVal ∨ g.Stored slicer.direction sliceDepFlags start i) ↔
        ∃ w, (g.MarkReach slicer.direction sliceDepFlags start w ∨
          data.nodeSlice w = (slicer.supply sliceId).1) ∧ g.sliceInst w = some i := by
  have carried : ∀ {data' : WalkData δ β γ} {id : Nat} i, (g.shouldSliceInst i ∧
      ∃ n, g.getValue n = .instruction i ∧ data'.nodeSlice n = id) ↔
      ∃ n, data'.nodeSlice n = id ∧ g.sliceInst n = some i := by
    intro data' id i
    simp only [g.sliceInst_eq_some]
    constructor
    · rintro ⟨accepted, n, value, slice⟩
      exact ⟨n, slice, value, accepted⟩
    · rintro ⟨n, slice, value, accepted⟩
      exact ⟨accepted, n, value, slice⟩
  constructor
  · rintro ⟨stored, marked, sg, storing, marking, result, agree⟩
    obtain ⟨built, building, rfl⟩ := Option.map_eq_some_iff.mp storing
    obtain ⟨data', walked, rfl⟩ := Option.map_eq_some_iff.mp marking
    rcases buildSliceGraph_spec holds unmarked enough with
      ⟨sg', left, run, blocks, values, -⟩ | ⟨undefined, -⟩
    · rcases markSlice_spec unmarked enough with ⟨data'', run', nonempty, slices⟩ | ⟨undefined, -⟩
      · obtain rfl := Option.some.inj (run.symm.trans building)
        obtain rfl := Option.some.inj (run'.symm.trans walked)
        obtain rfl := Option.some.inj result
        refine ⟨blocks, nonempty, fun i => (values i).symm.trans ((agree i).trans ?_)⟩
        rw [carried]
        simp only [slices]
      · exact absurd (undefined.symm.trans walked) (by simp)
    · exact absurd (undefined.symm.trans building) (by simp)
  · rintro ⟨blocks, nonempty, agree⟩
    rcases buildSliceGraph_spec holds unmarked enough with
      ⟨sg, left, run, -, values, -⟩ | ⟨-, v, reached, blockless⟩
    · rcases markSlice_spec unmarked enough with
        ⟨data', run', -, slices⟩ | ⟨-, v, reached, isEmpty⟩
      · refine ⟨_, _, sg, by rw [DgSlicer.slice, run, Option.map_some],
          by rw [DgSlicer.slice, run', Option.map_some], rfl, fun i => ?_⟩
        rw [carried, values i]
        simp only [slices]
        exact agree i
      · exact absurd isEmpty (nonempty v reached)
    · exact absurd blockless (blocks v reached)

end Agreement

end Arthas.Slicing
