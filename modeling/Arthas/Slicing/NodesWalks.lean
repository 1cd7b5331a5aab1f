import Arthas.Slicing.Dependences

/-!
Walks over the dependence graph, one after the other. A walk marks with a number that no
node carries yet, as long as the counter has not come round; within a walk, the nodes
queued, the nodes followed and the nodes marked fit together as in any worklist.
-/

set_option autoImplicit false
set_option relaxedAutoImplicit false

namespace Arthas.Slicing

open Lib Lib.Worklist Relation

variable {δ β γ ι φ : Type*}

namespace NodesWalk

/-- The node has been queued in this walk. -/
def Marked (w : NodesWalk δ β γ) (n : δ) : Prop := w.lastwalkid n = w.runId

/-- What queueing leaves alone, and which marks it may set. -/
structure Queued (w w' : NodesWalk δ β γ) : Prop where
  runId : w'.runId = w.runId
  counter : w'.walkRunCounter = w.walkRunCounter
  nodeSlice : w'.nodeSlice = w.nodeSlice
  lastwalkid : ∀ n, w'.lastwalkid n = w.lastwalkid n ∨ w'.lastwalkid n = w.runId

theorem Queued.refl (w : NodesWalk δ β γ) : Queued w w := ⟨rfl, rfl, rfl, fun _ => Or.inl rfl⟩

theorem Queued.trans {w w' w'' : NodesWalk δ β γ} (h : Queued w w') (h' : Queued w' w'') :
    Queued w w'' where
  runId := h'.runId.trans h.runId
  counter := h'.counter.trans h.counter
  nodeSlice := h'.nodeSlice.trans h.nodeSlice
  lastwalkid n := by
    rcases h'.lastwalkid n with same | mark
    · rw [same]
      exact h.lastwalkid n
    · exact Or.inr (mark.trans h.runId)

section Enqueue

variable [DecidableEq δ] (d : Discipline δ) (w : NodesWalk δ β γ)

theorem queued_enqueue (n : δ) : Queued w (enqueue d w n) := by
  rw [enqueue]
  split_ifs
  · exact Queued.refl w
  · refine ⟨rfl, rfl, rfl, fun v => ?_⟩
    by_cases here : v = n
    · subst here
      exact Or.inr (Function.update_self _ _ _)
    · exact Or.inl (Function.update_of_ne here _ _)

theorem marked_enqueue (n v : δ) : (enqueue d w n).Marked v ↔ w.Marked v ∨ v = n := by
  rw [enqueue]
  split_ifs with already
  · exact ⟨Or.inl, fun h => h.elim id fun same => same ▸ already⟩
  · by_cases here : v = n
    · subst here
      simp [Marked]
    · simp [Marked, here]

theorem frontier_enqueue {reach : δ → Prop} {done : Finset δ} {n : δ} (reached : reach n)
    (h : Frontier reach w.Marked done w.queue) :
    Frontier reach (enqueue d w n).Marked done (enqueue d w n).queue := by
  by_cases already : w.lastwalkid n = w.runId
  · rw [enqueue, if_pos already]
    exact h
  · have marks := marked_enqueue d w n
    have queue : (enqueue d w n).queue = d.push n w.queue := by rw [enqueue, if_neg already]
    rw [queue]
    exact h.enqueue d reached already marks

theorem queued_processEdges (edges : List δ) : Queued w (processEdges d edges w) := by
  induction edges generalizing w with
  | nil => exact Queued.refl w
  | cons n edges ih => exact (queued_enqueue d w n).trans (ih (enqueue d w n))

theorem marked_processEdges (edges : List δ) (v : δ) :
    (processEdges d edges w).Marked v ↔ w.Marked v ∨ v ∈ edges := by
  induction edges generalizing w with
  | nil => simp [processEdges]
  | cons n edges ih =>
    rw [List.mem_cons, ← or_assoc, ← marked_enqueue d w n v]
    exact ih (enqueue d w n)

theorem frontier_processEdges {reach : δ → Prop} {done : Finset δ} {edges : List δ}
    (reached : ∀ n ∈ edges, reach n) (h : Frontier reach w.Marked done w.queue) :
    Frontier reach (processEdges d edges w).Marked done (processEdges d edges w).queue := by
  induction edges generalizing w with
  | nil => exact h
  | cons n edges ih =>
    exact ih (enqueue d w n) (fun m member => reached m (List.mem_cons_of_mem n member))
      (frontier_enqueue d w (reached n List.mem_cons_self) h)

end Enqueue

section Within

/-- A walk that started on the data: it has the next number, and the marks are old ones or
its own. -/
structure Within (data : WalkData δ β γ) (w : NodesWalk δ β γ) : Prop where
  runId : w.runId = (data.walkRunCounter + 1) % 2 ^ 32
  counter : w.walkRunCounter = w.runId
  lastwalkid : ∀ n, w.lastwalkid n = data.lastwalkid n ∨ w.lastwalkid n = w.runId

theorem within_start (data : WalkData δ β γ) : Within data (start data) :=
  ⟨rfl, rfl, fun _ => Or.inl rfl⟩

theorem Within.queued {data : WalkData δ β γ} {w w' : NodesWalk δ β γ} (h : Within data w)
    (q : Queued w w') : Within data w' where
  runId := q.runId.trans h.runId
  counter := q.counter.trans (h.counter.trans q.runId.symm)
  lastwalkid n := by
    rw [q.runId]
    rcases q.lastwalkid n with same | mark
    · rw [same]
      exact h.lastwalkid n
    · exact Or.inr mark

/-- After so many walks no node carries a number above. -/
def Counted (walks : Nat) (data : WalkData δ β γ) : Prop :=
  data.walkRunCounter = walks ∧ ∀ n, data.lastwalkid n ≤ walks

theorem Counted.within {walks : Nat} {data : WalkData δ β γ} {w : NodesWalk δ β γ}
    (counted : Counted walks data) (few : walks + 1 < 2 ^ 32) (h : Within data w) :
    Counted (walks + 1) w.toWalkData := by
  have runId : w.runId = walks + 1 := by
    rw [h.runId, counted.1, Nat.mod_eq_of_lt few]
  refine ⟨h.counter.trans runId, fun n => ?_⟩
  rcases h.lastwalkid n with old | own
  · exact old.le.trans ((counted.2 n).trans (Nat.le_succ walks))
  · exact (own.trans runId).le

/-- The next walk finds no node marked. -/
theorem Counted.unmarked {walks : Nat} {data : WalkData δ β γ} (counted : Counted walks data)
    (few : walks + 1 < 2 ^ 32) (n : δ) : ¬ (start data).Marked n := by
  intro marked
  have number : data.lastwalkid n = (data.walkRunCounter + 1) % 2 ^ 32 := marked
  rw [counted.1, Nat.mod_eq_of_lt few] at number
  exact absurd (counted.2 n) (by omega)

end Within

section SetSlice

variable [DecidableEq δ] [DecidableEq β] [DecidableEq γ] (g : DependenceGraph δ β γ ι φ)
  (sliceId : Nat) (n : δ) (w : NodesWalk δ β γ)

@[simp]
theorem setSlice_nodeSlice :
    (setSlice g sliceId n w).nodeSlice = Function.update w.nodeSlice n sliceId := rfl

end SetSlice

section Following

variable (g : DependenceGraph δ β γ ι φ)

/-- The nodes that the control edges of a node's block lead to. -/
def blockTargets (n : δ) (k : EdgeKind) : Option (List δ) :=
  match g.getBBlock n with
  | none => some []
  | some BB => (g.controlBlocks k BB).mapM (g.entryNode k)

/-- The nodes queued after a node. -/
def targets (options : Nat) (n : δ) : Option (List δ) :=
  gather options (fun k => g.edges k n) (blockTargets g n) walkOrder

theorem mem_walkOrder (k : EdgeKind) : k ∈ walkOrder := by
  cases k <;> decide

theorem enqueueAll_eq [DecidableEq δ] {κ : Type*} (d : Discipline δ) (node : κ → Option δ)
    (blocks : List κ) (w : NodesWalk δ β γ) : enqueueAll d (blocks.map node) w =
      (blocks.mapM node).map fun nodes => processEdges d nodes w := by
  rw [enqueueAll, List.foldlM_map]
  exact foldlM_map node (enqueue d) blocks w

/-- Following a node queues its targets in a row. -/
theorem foldlM_processKind [DecidableEq δ] (d : Discipline δ) (options : Nat) (n : δ)
    (w : NodesWalk δ β γ) : walkOrder.foldlM (processKind g d options n) w =
      (targets g options n).map fun nodes => processEdges d nodes w := by
  refine foldlM_gather (fun w k => ?_) walkOrder w
  rw [processKind, gatherKind]
  split_ifs
  · rfl
  · have appended : (fun blocks => (g.edges k n ++ blocks).foldl (enqueue d) w) =
        fun blocks => processEdges d blocks (processEdges d (g.edges k n) w) := by
      funext blocks
      exact List.foldl_append
    rw [Option.map_map, Function.comp_def, appended, blockTargets]
    cases k <;> simp only [processBBlockCDs, processBBlockRevCDs, DependenceGraph.controlBlocks,
      DependenceGraph.entryNode] <;> cases g.getBBlock n <;> simp only [enqueueAll_eq] <;> rfl

variable {dir : SliceDirection} {sliceDepFlags : Nat} {n : δ}

/-- The targets of a node are what `MarkEdge` says. -/
theorem mem_targets {nodes : List δ}
    (found : targets g (sliceRelationOpts dir sliceDepFlags) n = some nodes) (v : δ) :
    v ∈ nodes ↔ g.MarkEdge dir sliceDepFlags n v := by
  rw [mem_gather mem_walkOrder found]
  constructor
  · rintro ⟨k, enabled, member | ⟨others, there, member⟩⟩
    · exact .edge k enabled member
    · rw [blockTargets] at there
      cases inBlock : g.getBBlock n with
      | none =>
        obtain rfl : others = [] := by simpa [inBlock] using there.symm
        exact absurd member List.not_mem_nil
      | some block =>
        simp only [inBlock] at there
        obtain ⟨b, control, entry⟩ := (mem_of_mapM_eq_some there v).mp member
        exact .block k b ⟨enabled, block, inBlock, control⟩ entry
  · rintro (⟨k, enabled, member⟩ | ⟨k, b, ⟨enabled, block, inBlock, control⟩, entry⟩)
    · exact ⟨k, enabled, Or.inl member⟩
    · obtain ⟨others, there⟩ := blocks_of_gather mem_walkOrder found enabled
      refine ⟨k, enabled, Or.inr ⟨others, there, ?_⟩⟩
      simp only [blockTargets, inBlock] at there
      exact (mem_of_mapM_eq_some there v).mpr ⟨b, control, entry⟩

/-- Following is undefined where a control-dependent block has no nodes. -/
theorem targets_eq_none :
    targets g (sliceRelationOpts dir sliceDepFlags) n = none ↔
      ∃ k b, g.ControlBlock dir sliceDepFlags k n b ∧ g.getNodes b = [] := by
  have entry_eq_none : ∀ k b, g.entryNode k b = none ↔ g.getNodes b = [] := by
    intro k b
    cases k <;> simp [DependenceGraph.entryNode, DependenceGraph.getFirstNode,
      DependenceGraph.getLastNode]
  rw [targets, gather_eq_none mem_walkOrder]
  apply exists_congr
  intro k
  rw [blockTargets]
  cases inBlock : g.getBBlock n with
  | none => simp [DependenceGraph.ControlBlock, inBlock]
  | some block =>
    simp [DependenceGraph.ControlBlock, inBlock, mapM_eq_none_iff, entry_eq_none, and_assoc]

end Following

section Frame

variable (g : DependenceGraph δ β γ ι φ) {data : WalkData δ β γ}

theorem Within.setQueue {w : NodesWalk δ β γ} (h : Within data w) (queue : List δ) :
    Within data (w.setQueue queue) := ⟨h.runId, h.counter, h.lastwalkid⟩

variable [DecidableEq δ]

theorem Within.setSlice [DecidableEq β] [DecidableEq γ] {w : NodesWalk δ β γ}
    (h : Within data w) (sliceId : Nat) (n : δ) : Within data (w.setSlice g sliceId n) :=
  ⟨h.runId, h.counter, h.lastwalkid⟩

/-- A walk leaves its own marks and those it found. -/
theorem within_walk {d : Discipline δ} {options : Nat}
    {func : δ → NodesWalk δ β γ → NodesWalk δ β γ} {entry : List δ} {fuel : Nat}
    {w : NodesWalk δ β γ} (keeps : ∀ n w, Within data w → Within data (func n w))
    (run : walk g d options func entry fuel data = some w) : Within data w := by
  refine drain_keeps (fun n rest w w' before visited => ?_)
    ((within_start data).queued (queued_processEdges d _ entry)) run
  have called := keeps n _ (before.setQueue rest)
  rw [visit] at visited
  split_ifs at visited
  · exact Option.some.inj visited ▸ called
  · rw [foldlM_processKind] at visited
    obtain ⟨nodes, -, rfl⟩ := Option.map_eq_some_iff.mp visited
    exact called.queued (queued_processEdges d _ nodes)

end Frame

end NodesWalk

theorem within_markSlice [DecidableEq δ] [DecidableEq β] [DecidableEq γ]
    {g : DependenceGraph δ β γ ι φ} {dir : SliceDirection} {sliceDepFlags sliceId fuel : Nat}
    {start : δ} {data data' : WalkData δ β γ}
    (run : markSlice g dir sliceDepFlags start sliceId fuel data = some data') :
    ∃ w, NodesWalk.Within data w ∧ w.toWalkData = data' := by
  obtain ⟨w, walked, same⟩ := Option.map_eq_some_iff.mp run
  exact ⟨w, NodesWalk.within_walk g (fun n _ before => before.setSlice g sliceId n) walked, same⟩

end Arthas.Slicing
