import Arthas.Slicing.NodesWalks

/-!
Building a slice graph. An edge that is followed makes a node for the instruction it leads
to, connects it and queues it; a node taken from the stack follows its selected
dependences. When the stack is empty, the slice graph has exactly the instructions
and the edges of the part of the dependence graph that a slice is made of.
-/

set_option autoImplicit false
set_option relaxedAutoImplicit false

namespace Arthas.Slicing

open Lib Lib.Worklist Relation

variable {δ β γ ι φ : Type*} (g : DependenceGraph δ β γ ι φ)

/-- Control dependences are asked for, and the node has no block to find them in. -/
def DependenceGraph.Blockless (sliceDepFlags : Nat) (n : δ) : Prop :=
  sliceDepFlags &&& SliceDependenceFlags.control ≠ 0 ∧ (g.sliceInst n).isSome ∧
    g.getBBlock n = none

namespace Building

section Edges

/-- What following edges to certain nodes adds. -/
structure Followed (snCurr : Nat) (ends : δ → Prop) (st st' : Building δ β γ ι φ) : Prop where
  queued : NodesWalk.Queued st.walk st'.walk
  extends_sg : GrowingGraph.Extends st.sg st'.sg
  marked : ∀ v, st'.walk.Marked v ↔ st.walk.Marked v ∨ ends v ∧ (g.sliceInst v).isSome
  values : ∀ i, st'.sg.HasValue i ↔
    st.sg.HasValue i ∨ ∃ v, ends v ∧ g.sliceInst v = some i
  edges : ∀ i j, i ≠ j → (st'.sg.HasEdge i j ↔
    st.sg.HasEdge i j ∨ i = st.sg.value snCurr ∧ ∃ v, ends v ∧ g.sliceInst v = some j)
  frontier : ∀ reach done, (∀ v, ends v → (g.sliceInst v).isSome → reach v) →
    Frontier reach st.walk.Marked done st.walk.queue →
    Frontier reach st'.walk.Marked done st'.walk.queue

variable {g}

theorem Followed.none {snCurr : Nat} {ends : δ → Prop} (st : Building δ β γ ι φ)
    (nothing : ∀ v, ends v → g.sliceInst v = none) : Followed g snCurr ends st st where
  queued := .refl _
  extends_sg := .refl _
  marked v := by
    refine ⟨Or.inl, fun h => h.elim id fun ⟨isEnd, accepted⟩ => ?_⟩
    simp [nothing v isEnd] at accepted
  values i := by
    refine ⟨Or.inl, fun h => h.elim id fun ⟨v, isEnd, accepted⟩ => ?_⟩
    simp [nothing v isEnd] at accepted
  edges i j _ := by
    refine ⟨Or.inl, fun h => h.elim id fun ⟨_, v, isEnd, accepted⟩ => ?_⟩
    simp [nothing v isEnd] at accepted
  frontier _ _ _ h := h

theorem Followed.trans {snCurr : Nat} {ends ends' : δ → Prop} {st st' st'' : Building δ β γ ι φ}
    (member : snCurr ∈ st.sg.nodes) (h : Followed g snCurr ends st st')
    (h' : Followed g snCurr ends' st' st'') :
    Followed g snCurr (fun v => ends v ∨ ends' v) st st'' where
  queued := h.queued.trans h'.queued
  extends_sg := h.extends_sg.trans h'.extends_sg
  marked v := by
    rw [h'.marked, h.marked, or_assoc, ← or_and_right]
  values i := by
    simp only [h'.values, h.values, or_assoc, or_and_right, exists_or]
  edges i j differ := by
    rw [h'.edges i j differ, h.edges i j differ, h.extends_sg.value snCurr member, or_assoc,
      ← and_or_left]
    simp only [or_and_right, exists_or]
  frontier reach done reached before :=
    h'.frontier reach done (fun v isEnd => reached v (Or.inr isEnd))
      (h.frontier reach done (fun v isEnd => reached v (Or.inl isEnd)) before)

variable [DecidableEq δ] [DecidableEq ι]

theorem followed_sliceEdge {snCurr : Nat} {st : Building δ β γ ι φ}
    (member : snCurr ∈ st.sg.nodes) (kind : SliceDependence) (dnNext : δ) :
    Followed g snCurr (fun v => v = dnNext) st (sliceEdge g snCurr kind st dnNext) := by
  rw [sliceEdge]
  cases accepted : g.sliceInst dnNext with
  | none => exact Followed.none st fun v same => same ▸ accepted
  | some inst =>
    have made : GrowingGraph.Extends st.sg (st.sg.getOrCreateNode inst).1 :=
      GrowingGraph.extends_getOrCreateNode inst
    refine ⟨NodesWalk.queued_enqueue _ _ _,
      made.trans (GrowingGraph.extends_connect _ _ kind _), fun v => ?_, fun i => ?_,
      fun i j differ => ?_, fun reach done reached before => ?_⟩
    · rw [NodesWalk.marked_enqueue]
      refine or_congr_right ⟨?_, And.left⟩
      rintro rfl
      exact ⟨rfl, accepted ▸ rfl⟩
    · rw [GrowingGraph.hasValue_connect, GrowingGraph.hasValue_getOrCreateNode]
      simp [accepted, eq_comm]
    · rw [GrowingGraph.hasEdge_connect (made.nodes snCurr member) kind _ differ,
        GrowingGraph.hasEdge_getOrCreateNode, made.value snCurr member,
        GrowingGraph.value_getOrCreateNode]
      simp [accepted, eq_comm]
    · exact NodesWalk.frontier_enqueue _ _ (reached dnNext rfl (accepted ▸ rfl)) before

/-- Going through edges adds what each of them adds. -/
theorem followed_foldl {snCurr : Nat} (ends : List (SliceDependence × δ))
    {st : Building δ β γ ι φ} (member : snCurr ∈ st.sg.nodes) :
    Followed g snCurr (fun v => ∃ k, (k, v) ∈ ends) st
      (ends.foldl (fun st p => sliceEdge g snCurr p.1 st p.2) st) := by
  induction ends generalizing st with
  | nil => exact Followed.none st fun v isEnd => absurd isEnd (by simp)
  | cons p ends ih =>
    have first := followed_sliceEdge (g := g) member p.1 p.2
    have rest := ih (first.extends_sg.nodes snCurr member)
    have both := first.trans member rest
    have same : (fun v => v = p.2 ∨ ∃ k, (k, v) ∈ ends) = fun v => ∃ k, (k, v) ∈ p :: ends := by
      funext v
      simp only [List.mem_cons, exists_or, Prod.ext_iff, exists_eq_left]
    rw [same] at both
    exact both

theorem kindsKnown_foldl {snCurr : Nat} (ends : List (SliceDependence × δ))
    {st : Building δ β γ ι φ} (known : st.sg.KindsKnown) (kinds : ∀ p ∈ ends, p.1 ≠ .unknown) :
    (ends.foldl (fun st p => sliceEdge g snCurr p.1 st p.2) st).sg.KindsKnown := by
  induction ends generalizing st with
  | nil => exact known
  | cons p ends ih =>
    have one : (sliceEdge g snCurr p.1 st p.2).sg.KindsKnown := by
      rw [sliceEdge]
      split
      · exact known
      · exact (known.getOrCreateNode _).connect snCurr _ (kinds p List.mem_cons_self)
    exact ih one fun q member => kinds q (List.mem_cons_of_mem _ member)

end Edges

section Ends

/-- The nodes that the control edges of a node's block lead to, with the kind of the slice
edges. -/
def blockEnds (dir : SliceDirection) (n : δ) : EdgeKind → Option (List (SliceDependence × δ))
  | .control => (g.getBBlock n).map fun block =>
    ((inOrder dir (g.blockControl block)).filterMap g.getLastNode).map (Prod.mk .controlDependence)
  | .revControl => (g.getBBlock n).map fun block =>
    ((inOrder dir (g.blockRevControl block)).filterMap g.getLastNode).map
      (Prod.mk .controlDependence)
  | _ => some []

/-- The edges followed from a node. -/
def ends (dir : SliceDirection) (options : Nat) (n : δ) : Option (List (SliceDependence × δ)) :=
  gather options (fun k => (inOrder dir (g.edges k n)).map (Prod.mk k.sliceDependence))
    (blockEnds g dir n) buildOrder

theorem mem_buildOrder (k : EdgeKind) : k ∈ buildOrder := by
  cases k <;> decide

theorem mem_inOrder {α : Type*} {dir : SliceDirection} {l : List α} {a : α} :
    a ∈ inOrder dir l ↔ a ∈ l := by
  rw [inOrder]
  split_ifs <;> simp

section Fold

variable [DecidableEq δ] [DecidableEq ι] (snCurr : Nat) (st : Building δ β γ ι φ)

theorem processSliceEdges_eq (kind : SliceDependence) (edges : List δ) :
    processSliceEdges g snCurr kind edges st =
      (edges.map (Prod.mk kind)).foldl (fun st p => sliceEdge g snCurr p.1 st p.2) st := by
  rw [processSliceEdges, List.foldl_map]

theorem processControlBlocks_eq (blocks : List β) :
    processControlBlocks g snCurr blocks st =
      ((blocks.filterMap g.getLastNode).map (Prod.mk .controlDependence)).foldl
        (fun st p => sliceEdge g snCurr p.1 st p.2) st := by
  rw [List.foldl_map, List.foldl_filterMap, processControlBlocks]
  congr 1
  funext st depBlock
  cases g.getLastNode depBlock <;> rfl

/-- Following a node goes through its edges in a row. -/
theorem foldlM_processKind (dir : SliceDirection) (options : Nat) (n : δ) :
    buildOrder.foldlM (processKind g dir options n snCurr) st =
      (ends g dir options n).map fun found =>
        found.foldl (fun st p => sliceEdge g snCurr p.1 st p.2) st := by
  refine foldlM_gather (fun st k => ?_) buildOrder st
  rw [processKind, gatherKind]
  split_ifs
  · rfl
  · cases k <;> simp only [blockEnds, processSliceEdges_eq, processControlBlocks_eq,
      Option.map_map, Function.comp_def, List.foldl_append, Option.map_some, List.foldl_nil]

end Fold

variable {dir : SliceDirection} {sliceDepFlags : Nat} {n : δ}

/-- The edges followed are of one of the four dependences. -/
theorem kind_of_mem_ends {found : List (SliceDependence × δ)}
    (gathered : ends g dir (sliceRelationOpts dir sliceDepFlags) n = some found) :
    ∀ p ∈ found, p.1 ≠ .unknown := by
  intro p member
  obtain ⟨k, -, isEnd | ⟨others, there, isEnd⟩⟩ := (mem_gather mem_buildOrder gathered p).mp member
  · obtain ⟨v, -, rfl⟩ := List.mem_map.mp isEnd
    cases k <;> simp [EdgeKind.sliceDependence]
  · cases k <;> simp only [blockEnds, Option.map_eq_some_iff, Option.some.injEq] at there
    case control | revControl =>
      obtain ⟨block, -, rfl⟩ := there
      obtain ⟨v, -, rfl⟩ := List.mem_map.mp isEnd
      simp
    all_goals exact absurd (there ▸ isEnd) List.not_mem_nil

/-- The edges followed are what `StoreEdge` says. -/
theorem mem_ends {found : List (SliceDependence × δ)}
    (gathered : ends g dir (sliceRelationOpts dir sliceDepFlags) n = some found) (v : δ) :
    (∃ kind, (kind, v) ∈ found) ↔ g.StoreEdge dir sliceDepFlags n v := by
  have member := mem_gather mem_buildOrder gathered
  have blockEnd : ∀ k others, blockEnds g dir n k = some others →
      ((∃ kind, (kind, v) ∈ others) ↔ ∃ block b, g.getBBlock n = some block ∧
        b ∈ g.controlBlocks k block ∧ g.getLastNode b = some v) := by
    intro k others there
    cases k <;> simp only [blockEnds, Option.map_eq_some_iff, Option.some.injEq] at there
    case control | revControl =>
      obtain ⟨block, inBlock, rfl⟩ := there
      simp [inBlock, mem_inOrder, DependenceGraph.controlBlocks]
    all_goals simp [← there, DependenceGraph.controlBlocks]
  constructor
  · rintro ⟨kind, isEnd⟩
    obtain ⟨k, enabled, isEnd | ⟨others, there, isEnd⟩⟩ := (member _).mp isEnd
    · obtain ⟨w, inEdges, same⟩ := List.mem_map.mp isEnd
      obtain rfl := (Prod.mk.inj same).2
      exact .edge k enabled (mem_inOrder.mp inEdges)
    · obtain ⟨block, b, inBlock, control, last⟩ := (blockEnd k others there).mp ⟨kind, isEnd⟩
      exact .block k b ⟨enabled, block, inBlock, control⟩ last
  · rintro (⟨k, enabled, inEdges⟩ | ⟨k, b, ⟨enabled, block, inBlock, control⟩, last⟩)
    · exact ⟨_, (member _).mpr ⟨k, enabled, Or.inl
        (List.mem_map.mpr ⟨v, mem_inOrder.mpr inEdges, rfl⟩)⟩⟩
    · obtain ⟨others, there⟩ := blocks_of_gather mem_buildOrder gathered enabled
      obtain ⟨kind, isEnd⟩ := (blockEnd k others there).mpr ⟨block, b, inBlock, control, last⟩
      exact ⟨kind, (member _).mpr ⟨k, enabled, Or.inr ⟨others, there, isEnd⟩⟩⟩

/-- Following is undefined where the block of the node is missing. -/
theorem ends_eq_none : ends g dir (sliceRelationOpts dir sliceDepFlags) n = none ↔
    sliceDepFlags &&& SliceDependenceFlags.control ≠ 0 ∧ g.getBBlock n = none := by
  rw [ends, gather_eq_none mem_buildOrder]
  constructor
  · rintro ⟨k, ⟨asked, -⟩, missing⟩
    cases k <;> simp only [blockEnds, Option.map_eq_none_iff, reduceCtorEq] at missing
    all_goals exact ⟨asked, missing⟩
  · rintro ⟨asked, missing⟩
    cases dir
    · exact ⟨.revControl, ⟨asked, Or.inr rfl⟩, Option.map_eq_none_iff.mpr missing⟩
    · exact ⟨.control, ⟨asked, Or.inr rfl⟩, Option.map_eq_none_iff.mpr missing⟩
    · exact ⟨.control, ⟨asked, Or.inl rfl⟩, Option.map_eq_none_iff.mpr missing⟩

end Ends

section Run

variable (dir : SliceDirection) (sliceDepFlags : Nat) (start : δ) (rootVal : ι)

/-- The state of a run after some nodes have been taken from the stack. -/
structure Built (done : Finset δ) (st : Building δ β γ ι φ) : Prop where
  frontier : Frontier (g.StoreReach dir sliceDepFlags start) st.walk.Marked done st.walk.queue
  closed : Closed (g.StoreStep dir sliceDepFlags) st.walk.Marked done
  marked_start : st.walk.Marked start
  values : ∀ i, st.sg.HasValue i ↔
    i = rootVal ∨ ∃ v, st.walk.Marked v ∧ g.sliceInst v = some i
  edges : ∀ i j, i ≠ j → (st.sg.HasEdge i j ↔ ∃ u ∈ done, g.sliceInst u = some i ∧
    ∃ v, g.StoreEdge dir sliceDepFlags u v ∧ g.sliceInst v = some j)

variable {g dir sliceDepFlags start rootVal} {done : Finset δ} {st : Building δ β γ ι φ} {n : δ}
  {rest : List δ}

theorem Built.waiting (h : Built g dir sliceDepFlags start rootVal done st)
    (front : st.walk.queue = n :: rest) : n ∉ done :=
  h.frontier.waiting n (front ▸ List.mem_cons_self)

variable [DecidableEq δ]

/-- A node that no step of storing leaves is done with when it is taken. -/
theorem Built.skip (h : Built g dir sliceDepFlags start rootVal done st)
    (front : st.walk.queue = n :: rest)
    (nothing : ∀ v, (g.sliceInst n).isSome → ¬ g.StoreEdge dir sliceDepFlags n v) :
    Built g dir sliceDepFlags start rootVal (insert n done) (st.setQueue rest) where
  frontier := (front ▸ h.frontier).pop
  closed u member v step := by
    rcases Finset.mem_insert.mp member with rfl | member
    · exact absurd step.2.2 (nothing v step.1)
    · exact h.closed u member v step
  marked_start := h.marked_start
  values := h.values
  edges i j differ := by
    refine (h.edges i j differ).trans ⟨fun ⟨u, member, leads⟩ =>
      ⟨u, Finset.mem_insert_of_mem member, leads⟩, ?_⟩
    rintro ⟨u, member, accepted, v, edge, isEnd⟩
    rcases Finset.mem_insert.mp member with rfl | member
    · exact absurd edge (nothing v (accepted ▸ rfl))
    · exact ⟨u, member, accepted, v, edge, isEnd⟩

variable [DecidableEq ι]

/-- The loop starts with the start on the stack and its instruction in the graph. -/
theorem built_start {data : WalkData δ β γ}
    (unmarked : ∀ v, ¬ (NodesWalk.start data).Marked v)
    (holds : g.getValue start = .instruction rootVal) :
    Built g dir sliceDepFlags start rootVal ∅
      { walk := (NodesWalk.start data).enqueue .lifo start
        sg := .create rootVal dir g.getFunction } where
  frontier := NodesWalk.frontier_enqueue _ _ ReflTransGen.refl (Frontier.empty unmarked)
  closed u member := absurd member (Finset.notMem_empty u)
  marked_start := (NodesWalk.marked_enqueue _ _ _ _).mpr (Or.inr rfl)
  values i := by
    have marks : ∀ v, ((NodesWalk.start data).enqueue .lifo start).Marked v ↔ v = start :=
      fun v => (NodesWalk.marked_enqueue _ _ _ _).trans (or_iff_right (unmarked v))
    simp only [marks, exists_eq_left, GrowingGraph.HasValue, GrowingGraph.create,
      List.mem_singleton, g.sliceInst_eq_some, holds, Value.instruction.injEq]
    tauto
  edges i j _ := by simp [GrowingGraph.HasEdge, GrowingGraph.create]

variable [DecidableEq β] [DecidableEq γ] {inst : ι} {sliceId : Nat}

/-- What the body of the loop has done to the state before it follows the edges. -/
def beginNode (g : DependenceGraph δ β γ ι φ) (sliceId : Nat) (n : δ) (inst : ι)
    (st : Building δ β γ ι φ) : Building δ β γ ι φ where
  walk := st.walk.setSlice g sliceId n
  sg := (st.sg.getOrCreateNode inst).1

/-- A node of the slice is done with when its edges have been followed. -/
theorem Built.follow {found : δ → Prop} {st' : Building δ β γ ι φ}
    (h : Built g dir sliceDepFlags start rootVal done st) (front : st.walk.queue = n :: rest)
    (accepted : g.sliceInst n = some inst)
    (isEnd : ∀ v, found v ↔ g.StoreEdge dir sliceDepFlags n v)
    (followed : Followed g (st.sg.getOrCreateNode inst).2 found
      (beginNode g sliceId n inst (st.setQueue rest)) st') :
    Built g dir sliceDepFlags start rootVal (insert n done) st' := by
  have marked : ∀ v, st'.walk.Marked v ↔ st.walk.Marked v ∨ found v ∧ (g.sliceInst v).isSome :=
    followed.marked
  have values : ∀ i, st'.sg.HasValue i ↔ (st.sg.HasValue i ∨ i = inst) ∨
      ∃ v, found v ∧ g.sliceInst v = some i := fun i =>
    (followed.values i).trans (or_congr_left (GrowingGraph.hasValue_getOrCreateNode inst i))
  have edges : ∀ i j, i ≠ j → (st'.sg.HasEdge i j ↔ st.sg.HasEdge i j ∨
      i = inst ∧ ∃ v, found v ∧ g.sliceInst v = some j) := fun i j differ => by
    have before : (st.sg.getOrCreateNode inst).1.HasEdge i j ↔ st.sg.HasEdge i j :=
      GrowingGraph.hasEdge_getOrCreateNode inst i j
    have current : (beginNode g sliceId n inst (st.setQueue rest)).sg.value
        (st.sg.getOrCreateNode inst).2 = inst := GrowingGraph.value_getOrCreateNode inst
    exact (followed.edges i j differ).trans (or_congr before (by rw [current]))
  have popped := (front ▸ h.frontier).pop
  have markedNode : st.walk.Marked n :=
    (h.frontier.mem n).mpr (Or.inr (front ▸ List.mem_cons_self))
  have reached := h.frontier.reach n markedNode
  refine ⟨?_, fun u member v step => ?_, ?_, fun i => ?_, fun i j differ => ?_⟩
  · exact followed.frontier _ _ (fun v isFound isInst =>
      reached.tail ⟨accepted ▸ rfl, isInst, (isEnd v).mp isFound⟩) popped
  · rw [marked]
    rcases Finset.mem_insert.mp member with rfl | member
    · exact Or.inr ⟨(isEnd v).mpr step.2.2, step.2.1⟩
    · exact Or.inl (h.closed u member v step)
  · exact (marked start).mpr (Or.inl h.marked_start)
  · simp only [values, marked, h.values]
    constructor
    · rintro (((same | ⟨v, before, isInst⟩) | rfl) | ⟨v, isFound, isInst⟩)
      · exact Or.inl same
      · exact Or.inr ⟨v, Or.inl before, isInst⟩
      · exact Or.inr ⟨n, Or.inl markedNode, accepted⟩
      · exact Or.inr ⟨v, Or.inr ⟨isFound, isInst ▸ rfl⟩, isInst⟩
    · rintro (same | ⟨v, before | ⟨isFound, -⟩, isInst⟩)
      · exact Or.inl (Or.inl (Or.inl same))
      · exact Or.inl (Or.inl (Or.inr ⟨v, before, isInst⟩))
      · exact Or.inr ⟨v, isFound, isInst⟩
  · rw [edges i j differ, h.edges i j differ]
    simp only [Finset.exists_mem_insert, isEnd, accepted, Option.some.injEq]
    rw [or_comm, eq_comm (a := inst)]

theorem visit_eq (accepted : g.sliceInst n = some inst)
    (some_option : sliceRelationOpts dir sliceDepFlags ≠ 0) :
    visit g dir (sliceRelationOpts dir sliceDepFlags) sliceId n st =
      (ends g dir (sliceRelationOpts dir sliceDepFlags) n).map fun found =>
        found.foldl (fun st' p => sliceEdge g (st.sg.getOrCreateNode inst).2 p.1 st' p.2)
          (beginNode g sliceId n inst st) := by
  rw [visit, if_neg some_option]
  simp only [accepted]
  exact foldlM_processKind g _ _ dir _ n

/-- One turn of the loop keeps the state, unless the block of the node is missing. -/
theorem Built.visit (h : Built g dir sliceDepFlags start rootVal done st)
    (front : st.walk.queue = n :: rest) :
    (∃ st', visit g dir (sliceRelationOpts dir sliceDepFlags) sliceId n (st.setQueue rest) =
      some st' ∧ ¬ g.Blockless sliceDepFlags n ∧
      Built g dir sliceDepFlags start rootVal (insert n done) st') ∨
    (visit g dir (sliceRelationOpts dir sliceDepFlags) sliceId n (st.setQueue rest) = none ∧
      g.Blockless sliceDepFlags n) := by
  by_cases off : sliceRelationOpts dir sliceDepFlags = 0
  · refine Or.inl ⟨st.setQueue rest, by rw [Building.visit, if_pos off], fun blockless => ?_,
      h.skip front fun v _ edge => edge.enabled.elim fun k enabled => enabled_options enabled off⟩
    obtain ⟨k, enabled⟩ := exists_enabled dir blockless.1
    exact enabled_options enabled off
  · cases accepted : g.sliceInst n with
    | none =>
      have visited : Building.visit g dir (sliceRelationOpts dir sliceDepFlags) sliceId n
          (st.setQueue rest) = some (st.setQueue rest) := by
        rw [Building.visit, if_neg off]
        simp only [accepted]
      refine Or.inl ⟨_, visited, fun blockless => ?_, h.skip front fun v isInst => ?_⟩
      · simp [DependenceGraph.Blockless, accepted] at blockless
      · simp [accepted] at isInst
    | some inst =>
      rw [visit_eq accepted off]
      cases gathered : ends g dir (sliceRelationOpts dir sliceDepFlags) n with
      | none =>
        obtain ⟨asked, missing⟩ := (ends_eq_none g).mp gathered
        exact Or.inr ⟨rfl, asked, accepted ▸ rfl, missing⟩
      | some found =>
        refine Or.inl ⟨_, rfl, fun blockless => ?_, ?_⟩
        · rw [(ends_eq_none g).mpr ⟨blockless.1, blockless.2.2⟩] at gathered
          exact absurd gathered (by simp)
        · exact h.follow front accepted (mem_ends g gathered)
            (followed_foldl found (st.sg.getOrCreateNode_mem inst))

/-- The loop ends, unless it meets a node without a block. -/
theorem built_drain [Fintype δ] (sliceId : Nat) {fuel : Nat}
    (first : Built g dir sliceDepFlags start rootVal ∅ st) (enough : Fintype.card δ < fuel) :
    (∃ st' done, drain (fun st => st.walk.queue) setQueue
        (Building.visit g dir (sliceRelationOpts dir sliceDepFlags) sliceId) fuel st = some st' ∧
      st'.walk.queue = [] ∧ Built g dir sliceDepFlags start rootVal done st' ∧
      ∀ v ∈ done, ¬ g.Blockless sliceDepFlags v) ∨
    (drain (fun st => st.walk.queue) setQueue
        (Building.visit g dir (sliceRelationOpts dir sliceDepFlags) sliceId) fuel st = none ∧
      ∃ done st' v rest, Built g dir sliceDepFlags start rootVal done st' ∧
        st'.walk.queue = v :: rest ∧ g.Blockless sliceDepFlags v) :=
  drain_spec (fun _ st _ _ (built : Built g dir sliceDepFlags start rootVal _ st) => built.waiting)
    (fun _ _ _ _ built => built.visit) (by rw [Finset.card_empty]; exact enough) first
    fun v member => absurd member (Finset.notMem_empty v)

end Run

section Frame

variable [DecidableEq δ] [DecidableEq β] [DecidableEq γ] [DecidableEq ι]
  {data : WalkData δ β γ} {dir : SliceDirection} {sliceDepFlags sliceId : Nat}

theorem within_visit {n : δ} {st st' : Building δ β γ ι φ}
    (before : NodesWalk.Within data st.walk)
    (visited : visit g dir (sliceRelationOpts dir sliceDepFlags) sliceId n st = some st') :
    NodesWalk.Within data st'.walk := by
  by_cases off : sliceRelationOpts dir sliceDepFlags = 0
  · rw [visit, if_pos off] at visited
    exact Option.some.inj visited ▸ before
  · cases accepted : g.sliceInst n with
    | none =>
      rw [visit, if_neg off] at visited
      simp only [accepted] at visited
      exact Option.some.inj visited ▸ before
    | some inst =>
      rw [visit_eq accepted off] at visited
      obtain ⟨found, -, rfl⟩ := Option.map_eq_some_iff.mp visited
      have began : NodesWalk.Within data (beginNode g sliceId n inst st).walk :=
        before.setSlice g sliceId n
      exact began.queued (followed_foldl found (st.sg.getOrCreateNode_mem inst)).queued

theorem kindsKnown_visit {n : δ} {st st' : Building δ β γ ι φ} (known : st.sg.KindsKnown)
    (visited : visit g dir (sliceRelationOpts dir sliceDepFlags) sliceId n st = some st') :
    st'.sg.KindsKnown := by
  by_cases off : sliceRelationOpts dir sliceDepFlags = 0
  · rw [visit, if_pos off] at visited
    exact Option.some.inj visited ▸ known
  · cases accepted : g.sliceInst n with
    | none =>
      rw [visit, if_neg off] at visited
      simp only [accepted] at visited
      exact Option.some.inj visited ▸ known
    | some inst =>
      rw [visit_eq accepted off] at visited
      obtain ⟨found, gathered, rfl⟩ := Option.map_eq_some_iff.mp visited
      have began : (beginNode g sliceId n inst st).sg.KindsKnown := known.getOrCreateNode inst
      exact kindsKnown_foldl found began (kind_of_mem_ends g gathered)

end Frame

end Building

section Build

variable {g} [DecidableEq δ] [DecidableEq β] [DecidableEq γ] [DecidableEq ι]
  {dir : SliceDirection} {sliceDepFlags sliceId fuel : Nat} {start : δ} {rootVal : ι}
  {data : WalkData δ β γ}

/-- Building ends, with the part of the graph that storing reaches, unless a block is
missing there. -/
theorem buildSliceGraph_spec [Fintype δ] (holds : g.getValue start = .instruction rootVal)
    (unmarked : ∀ v, ¬ (NodesWalk.start data).Marked v) (enough : Fintype.card δ < fuel) :
    (∃ sg data', buildSliceGraph g dir sliceDepFlags start sliceId fuel data =
        some (some sg, data') ∧
      (∀ v, g.StoreReach dir sliceDepFlags start v → ¬ g.Blockless sliceDepFlags v) ∧
      (∀ i, sg.HasValue i ↔ i = rootVal ∨
        ∃ v, g.StoreReach dir sliceDepFlags start v ∧ g.sliceInst v = some i) ∧
      ∀ i j, i ≠ j → (sg.HasEdge i j ↔
        ∃ u v, g.StoreReach dir sliceDepFlags start u ∧ g.sliceInst u = some i ∧
          g.StoreEdge dir sliceDepFlags u v ∧ g.sliceInst v = some j)) ∨
    (buildSliceGraph g dir sliceDepFlags start sliceId fuel data = none ∧
      ∃ v, g.StoreReach dir sliceDepFlags start v ∧ g.Blockless sliceDepFlags v) := by
  have isInst : (g.getValue start).dynCast = some rootVal := by rw [holds, Value.dynCast]
  rw [buildSliceGraph]
  simp only [isInst]
  have first : Building.Built g dir sliceDepFlags start rootVal ∅ _ :=
    Building.built_start unmarked holds
  rcases Building.built_drain sliceId first enough with
    ⟨st, done, run, empty, built, blocks⟩ | ⟨run, done, st, v, rest, built, front, blockless⟩
  · have frontier := built.frontier
    rw [empty] at frontier
    have complete : ∀ v, v ∈ done ↔ g.StoreReach dir sliceDepFlags start v :=
      frontier.complete built.closed built.marked_start
    have marked : ∀ v, st.walk.Marked v ↔ g.StoreReach dir sliceDepFlags start v := fun v => by
      rw [frontier.mem, or_iff_left List.not_mem_nil, complete]
    refine Or.inl ⟨st.sg, st.walk.toWalkData, by rw [run, Option.map_some],
      fun v reached => blocks v ((complete v).mpr reached), fun i => ?_, fun i j differ => ?_⟩
    · simp only [built.values, marked]
    · rw [built.edges i j differ]
      constructor
      · rintro ⟨u, member, accepted, v, edge, isEnd⟩
        exact ⟨u, v, (complete u).mp member, accepted, edge, isEnd⟩
      · rintro ⟨u, v, reached, accepted, edge, isEnd⟩
        exact ⟨u, (complete u).mpr reached, accepted, v, edge, isEnd⟩
  · refine Or.inr ⟨by rw [run, Option.map_none], v, built.frontier.reach v ?_, blockless⟩
    exact (built.frontier.mem v).mpr (Or.inr (front ▸ List.mem_cons_self))

theorem within_buildSliceGraph {sg : GrowingGraph ι φ} {data' : WalkData δ β γ}
    (run : buildSliceGraph g dir sliceDepFlags start sliceId fuel data = some (some sg, data')) :
    ∃ w, NodesWalk.Within data w ∧ w.toWalkData = data' := by
  rw [buildSliceGraph] at run
  split at run
  · exact absurd run (by simp)
  · obtain ⟨st, drained, same⟩ := Option.map_eq_some_iff.mp run
    refine ⟨st.walk, ?_, (Prod.mk.inj same).2⟩
    refine drain_keeps (P := fun st => NodesWalk.Within data st.walk)
      (fun n rest st st' before visited => ?_) ?_ drained
    · exact Building.within_visit g (before.setQueue rest) visited
    · exact (NodesWalk.within_start data).queued (NodesWalk.queued_enqueue _ _ _)

/-- No edge of a graph that was built has the kind `Unknown`. -/
theorem kindsKnown_buildSliceGraph {sg : GrowingGraph ι φ} {data' : WalkData δ β γ}
    (run : buildSliceGraph g dir sliceDepFlags start sliceId fuel data = some (some sg, data')) :
    sg.KindsKnown := by
  rw [buildSliceGraph] at run
  split at run
  · exact absurd run (by simp)
  · obtain ⟨st, drained, same⟩ := Option.map_eq_some_iff.mp run
    rw [← Option.some.inj (Prod.mk.inj same).1]
    refine drain_keeps (P := fun st => GrowingGraph.KindsKnown st.sg)
      (fun n rest st st' before visited => ?_) ?_ drained
    · have dequeued : (st.setQueue rest).sg.KindsKnown := before
      exact Building.kindsKnown_visit g dequeued visited
    · exact GrowingGraph.kindsKnown_create _ dir g.getFunction

end Build

section Reachable

variable [DecidableEq δ] [DecidableEq β] [DecidableEq γ] [DecidableEq ι]

/-- The data of a graph after a number of walks of either kind. -/
inductive EarlierWalks : Nat → WalkData δ β γ → Prop
  | fresh {data : WalkData δ β γ} (counter : data.walkRunCounter = 0)
      (lastwalkid : ∀ n, data.lastwalkid n = 0) : EarlierWalks 0 data
  | build {walks : Nat} {data data' : WalkData δ β γ} {dir : SliceDirection}
      {sliceDepFlags sliceId fuel : Nat} {start : δ} {sg : GrowingGraph ι φ}
      (earlier : EarlierWalks walks data)
      (run : buildSliceGraph g dir sliceDepFlags start sliceId fuel data =
        some (some sg, data')) : EarlierWalks (walks + 1) data'
  | mark {walks : Nat} {data data' : WalkData δ β γ} {dir : SliceDirection}
      {sliceDepFlags sliceId fuel : Nat} {start : δ} (earlier : EarlierWalks walks data)
      (run : markSlice g dir sliceDepFlags start sliceId fuel data = some data') :
      EarlierWalks (walks + 1) data'

variable {g}

theorem EarlierWalks.counted {walks : Nat} {data : WalkData δ β γ}
    (earlier : EarlierWalks g walks data) (few : walks < 2 ^ 32) :
    NodesWalk.Counted walks data := by
  induction earlier with
  | fresh counter lastwalkid => exact ⟨counter, fun n => (lastwalkid n).le⟩
  | build earlier run ih =>
    obtain ⟨w, within, rfl⟩ := within_buildSliceGraph run
    exact (ih (by omega)).within few within
  | mark earlier run ih =>
    obtain ⟨w, within, rfl⟩ := within_markSlice run
    exact (ih (by omega)).within few within

theorem EarlierWalks.unmarked {walks : Nat} {data : WalkData δ β γ}
    (earlier : EarlierWalks g walks data) (few : walks < 2 ^ 32 - 1) (n : δ) :
    ¬ (NodesWalk.start data).Marked n :=
  (earlier.counted (by omega)).unmarked (by omega) n

/-- After fewer walks than the counter has numbers, the slice graph has the root instruction
and the instructions that dependences of the selected kinds reach through instructions that
belong into a slice, and an edge for each of these dependences between two of them. -/
theorem buildSliceGraph_reachable [Fintype δ] {walks : Nat} {data : WalkData δ β γ}
    (earlier : EarlierWalks g walks data) (few : walks < 2 ^ 32 - 1) {start : δ} {rootVal : ι}
    (holds : g.getValue start = .instruction rootVal) (dir : SliceDirection)
    (sliceDepFlags sliceId : Nat)
    (inBlock : sliceDepFlags &&& SliceDependenceFlags.control ≠ 0 →
      ∀ n inst, g.getValue n = .instruction inst → ∃ block, g.getBBlock n = some block)
    {fuel : Nat} (enough : Fintype.card δ < fuel) :
    ∃ sg data', buildSliceGraph g dir sliceDepFlags start sliceId fuel data =
        some (some sg, data') ∧
      (∀ i, sg.HasValue i ↔ i = rootVal ∨
        ∃ v, g.StoreReach dir sliceDepFlags start v ∧ g.sliceInst v = some i) ∧
      ∀ i j, i ≠ j → (sg.HasEdge i j ↔
        ∃ u v, g.StoreReach dir sliceDepFlags start u ∧ g.sliceInst u = some i ∧
          g.StoreEdge dir sliceDepFlags u v ∧ g.sliceInst v = some j) := by
  rcases buildSliceGraph_spec holds (earlier.unmarked few) enough with
    ⟨sg, data', run, -, values, edges⟩ | ⟨-, v, -, asked, isInst, missing⟩
  · exact ⟨sg, data', run, values, edges⟩
  · obtain ⟨inst, accepted⟩ := Option.isSome_iff_exists.mp isInst
    obtain ⟨block, found⟩ := inBlock asked v inst ((g.sliceInst_eq_some).mp accepted).1
    rw [missing] at found
    exact absurd found (by simp)

end Reachable

section Examples

/-- A node reads what another one wrote through a parameter: the nodes 0 and 2 hold
instructions, the node 1 a value of another kind. -/
def paramGraph : DependenceGraph (Fin 3) (Fin 1) (Fin 1) Nat Nat where
  getValue n := if n = 1 then .other else .instruction n
  getOpcode _ := .other
  getFunction _ := 0
  getBBlock n := if n = 1 then none else some 0
  getDG _ := some 0
  edges
    | .revData, 0 => [1]
    | .revData, 1 => [2]
    | .data, 1 => [0]
    | .data, 2 => [1]
    | .revData, 2 | .data, 0 => []
    | _, _ => []
  blockControl _ := []
  blockRevControl _ := []
  getNodes _ := [2, 0]
  edges_reverse k := by cases k <;> decide
  blockControl_reverse := by decide
  getBBlock_of_mem := by decide

/-- The data of a graph nothing has walked over. -/
def unwalked : WalkData (Fin 3) (Fin 1) (Fin 1) :=
  ⟨0, fun _ => 0, fun _ => 0, fun _ => 0, fun _ => 0⟩

theorem buildSliceGraph_paramGraph :
    ∃ sg data', buildSliceGraph paramGraph .backward SliceDependenceFlags.memory 0 1 4 unwalked =
        some (some sg, data') ∧ ∀ i, sg.HasValue i ↔ i = 0 ∨ ∃ v,
          paramGraph.StoreReach .backward SliceDependenceFlags.memory 0 v ∧
            paramGraph.sliceInst v = some i := by
  have fresh : EarlierWalks paramGraph 0 unwalked := .fresh rfl fun _ => rfl
  obtain ⟨sg, data', run, values, -⟩ := buildSliceGraph_reachable fresh (by decide)
    (by decide : paramGraph.getValue 0 = .instruction 0) .backward SliceDependenceFlags.memory 1
    (fun asked => absurd asked (by decide)) (by decide : Fintype.card (Fin 3) < 4)
  exact ⟨sg, data', run, values⟩

end Examples

end Arthas.Slicing
