import Arthas.Slicing.GraphMemory

/-!
Which operations keep a slice graph well formed: those that only add, and disconnecting
along the last edge of a node. Removing a node leaves it in the node map.
-/

set_option autoImplicit false
set_option relaxedAutoImplicit false

namespace Arthas.Slicing

variable {ι : Type}

namespace GraphMemory

/-- The three structures agree, and the edges are those of a simple graph without loops. -/
structure WellFormed (st : GraphMemory ι) : Prop where
  nodes_nodup : st.nodes.Nodup
  mapped : ∀ val n, st.nodeMap val = some n ↔ n ∈ st.nodes ∧ st.value n = val
  listed : st.edges.Perm (st.nodes.flatMap st.edgesOf)
  once : st.edges.Nodup
  target_mem : ∀ n ∈ st.nodes, ∀ e ∈ st.edgesOf n, st.target e ∈ st.nodes
  loopless : ∀ n ∈ st.nodes, ∀ e ∈ st.edgesOf n, st.target e ≠ n
  simple : ∀ n ∈ st.nodes, ((st.edgesOf n).map st.target).Nodup

/-- A well-formed graph all of whose objects are alive and older than the next ones. -/
structure Sound (st : GraphMemory ι) : Prop extends WellFormed st where
  root_mem : st.root ∈ st.nodes
  node_lt : ∀ n ∈ st.nodes, n < st.nextNode
  edge_lt : ∀ e ∈ st.edges, e < st.nextEdge
  node_live : ∀ n ∈ st.nodes, n ∉ st.deletedNodes
  edge_live : ∀ e ∈ st.edges, e ∉ st.deletedEdges
  unused : ∀ n ∈ st.deletedNodes, n < st.nextNode
  unused_edge : ∀ e ∈ st.deletedEdges, e < st.nextEdge

/-- The operations of a client: on nodes of the graph, never removing the root, and merging
along the last edge of a node. -/
def Valid (st : GraphMemory ι) : GraphEdit ι → Prop
  | .getOrCreateNode _ => True
  | .connect node1 node2 _ => node1 ∈ st.nodes ∧ node2 ∈ st.nodes
  | .disconnect node1 node2 => node1 ∈ st.nodes ∧ node2 ∈ st.nodes
  | .removeNode node => node ∈ st.nodes ∧ node ≠ st.root
  | .mergeNodes a b => a ∈ st.nodes ∧ b ∈ st.nodes ∧ b ≠ st.root ∧
      ∃ e, (st.edgesOf a).getLast? = some e ∧ st.target e = b

/-- No node is removed, and an edge is only removed from the end of an edge list. -/
def Harmless (st : GraphMemory ι) : GraphEdit ι → Prop
  | .getOrCreateNode _ => True
  | .connect _ _ _ => True
  | .disconnect node1 node2 => ∀ e ∈ (st.edgesOf node1).dropLast, st.target e ≠ node2
  | .removeNode _ => False
  | .mergeNodes _ _ => False

/-- Different nodes have different instructions. -/
theorem WellFormed.value_inj {st : GraphMemory ι} (formed : st.WellFormed) {m n : Nat}
    (left : m ∈ st.nodes) (right : n ∈ st.nodes) (same : st.value m = st.value n) : m = n := by
  have entry := (formed.mapped (st.value n) m).mpr ⟨left, same⟩
  rw [(formed.mapped (st.value n) n).mpr ⟨right, rfl⟩] at entry
  exact (Option.some.inj entry).symm

section Lists

variable {α : Type} [DecidableEq α]

/-- The edges of all nodes, with those of one node in front. -/
theorem flatMap_perm_of_mem {β : Type} {l : List α} {a : α} (member : a ∈ l) (f : α → List β) :
    (l.flatMap f).Perm (f a ++ (l.erase a).flatMap f) := by
  have split := (List.perm_cons_erase member).flatMap_right f
  rwa [List.flatMap_cons] at split

/-- Changing the edges of one node leaves those of the others. -/
theorem flatMap_update_perm {β : Type} {l : List α} {a : α} (nodup : l.Nodup) (member : a ∈ l)
    (f : α → List β) (new : List β) :
    (l.flatMap (Function.update f a new)).Perm (new ++ (l.erase a).flatMap f) := by
  have split := flatMap_perm_of_mem member (Function.update f a new)
  rw [Function.update_self] at split
  have others : (l.erase a).flatMap (Function.update f a new) = (l.erase a).flatMap f := by
    refine List.flatMap_congr fun b other => Function.update_of_ne ?_ _ _
    rintro rfl
    exact nodup.not_mem_erase other
  rwa [others] at split

end Lists

namespace Sound

variable {st : GraphMemory ι} (sound : st.Sound) {n : Nat} (member : n ∈ st.nodes)

include sound member

theorem edges_perm : st.edges.Perm (st.edgesOf n ++ (st.nodes.erase n).flatMap st.edgesOf) :=
  sound.listed.trans (flatMap_perm_of_mem member st.edgesOf)

theorem edges_nodup : (st.edgesOf n ++ (st.nodes.erase n).flatMap st.edgesOf).Nodup :=
  (sound.edges_perm member).nodup_iff.mp sound.once

theorem mem_edges {e : Nat} (edge : e ∈ st.edgesOf n) : e ∈ st.edges :=
  (sound.edges_perm member).mem_iff.mpr (List.mem_append_left _ edge)

theorem live {e : Nat} (edge : e ∈ st.edgesOf n) : e ∉ st.deletedEdges :=
  sound.edge_live e (sound.mem_edges member edge)

theorem edgesAt_eq : st.edgesAt n = some (st.edgesOf n) := if_neg (sound.node_live n member)

theorem getValue_eq : st.getValue n = some (st.value n) := if_neg (sound.node_live n member)

omit sound member in
/-- Among live edges the search finds the first one that leads to the node. -/
theorem findEdge_eq {es : List Nat} (live : ∀ e ∈ es, e ∉ st.deletedEdges) (node : Nat) :
    st.findEdge node es = some (es.findIdx? fun e => st.target e = node) := by
  induction es with
  | nil => rfl
  | cons e es ih =>
    rw [findEdge, getTargetNode, if_neg (live e List.mem_cons_self), List.findIdx?_cons,
      ih fun e' later => live e' (List.mem_cons_of_mem e later)]
    by_cases here : st.target e = node <;> simp [here]

theorem findEdge_edgesOf (node : Nat) :
    st.findEdge node (st.edgesOf n) =
      some ((st.edgesOf n).findIdx? fun e => st.target e = node) :=
  findEdge_eq (fun _ edge => sound.live member edge) node

end Sound

section Adding

variable {st : GraphMemory ι}

/-- Giving one node another edge list keeps a graph well formed when the list fits. -/
theorem WellFormed.withEdges (formed : st.WellFormed) {n : Nat} (new : List Nat)
    (member : n ∈ st.nodes) {st' : GraphMemory ι} (nodes : st'.nodes = st.nodes)
    (nodeMap : st'.nodeMap = st.nodeMap) (value : st'.value = st.value)
    (edgesOf : st'.edgesOf = Function.update st.edgesOf n new)
    (target : ∀ m ∈ st.nodes, ∀ e ∈ st.edgesOf m, st'.target e = st.target e)
    (listed : st'.edges.Perm (new ++ (st.nodes.erase n).flatMap st.edgesOf)) (once : st'.edges.Nodup)
    (target_mem : ∀ e ∈ new, st'.target e ∈ st.nodes) (loopless : ∀ e ∈ new, st'.target e ≠ n)
    (simple : (new.map st'.target).Nodup) : st'.WellFormed := by
  have here : st'.edgesOf n = new := by rw [edgesOf, Function.update_self]
  have other : ∀ m, m ≠ n → st'.edgesOf m = st.edgesOf m := fun m different => by
    rw [edgesOf, Function.update_of_ne different]
  refine ⟨nodes ▸ formed.nodes_nodup, fun val m => ?_, ?_, once, ?_, ?_, ?_⟩
  · rw [nodeMap, nodes, value, formed.mapped]
  · rw [nodes, edgesOf]
    exact listed.trans (flatMap_update_perm formed.nodes_nodup member st.edgesOf new).symm
  all_goals
    rw [nodes]
    intro m old
  · intro e edge
    by_cases same : m = n
    · subst same
      exact target_mem e (here ▸ edge)
    · rw [other m same] at edge
      rw [target m old e edge]
      exact formed.target_mem m old e edge
  · intro e edge
    by_cases same : m = n
    · subst same
      exact loopless e (here ▸ edge)
    · rw [other m same] at edge
      rw [target m old e edge]
      exact formed.loopless m old e edge
  · by_cases same : m = n
    · subst same
      rwa [here]
    · rw [other m same, List.map_congr_left (target m old)]
      exact formed.simple m old

variable [DecidableEq ι]

theorem sound_create (rootVal : ι) : (create rootVal).Sound where
  nodes_nodup := List.nodup_singleton 0
  mapped val n := by
    by_cases same : val = rootVal
    · simp [create, same, eq_comm]
    · simp [create, same, Ne.symm same]
  listed := List.Perm.refl _
  once := List.nodup_nil
  target_mem _ _ _ edge := absurd edge List.not_mem_nil
  loopless _ _ _ edge := absurd edge List.not_mem_nil
  simple _ _ := List.nodup_nil
  root_mem := List.mem_singleton_self 0
  node_lt n member := by
    rw [List.mem_singleton.mp member]
    exact Nat.zero_lt_one
  edge_lt _ edge := absurd edge List.not_mem_nil
  node_live _ _ := Finset.notMem_empty _
  edge_live _ _ := Finset.notMem_empty _
  unused _ deleted := absurd deleted (Finset.notMem_empty _)
  unused_edge _ deleted := absurd deleted (Finset.notMem_empty _)

/-- A new node has a new instruction, and no edges. -/
theorem Sound.insertNode (sound : st.Sound) {val : ι} (new : st.nodeMap val = none) :
    (st.insertNode val).Sound := by
  have fresh : st.nextNode ∉ st.nodes := fun old => (sound.node_lt _ old).false
  have ne_next : ∀ n ∈ st.nodes, n ≠ st.nextNode := fun n old => (sound.node_lt n old).ne
  have old_edges : ∀ n ∈ st.nodes,
      Function.update st.edgesOf st.nextNode [] n = st.edgesOf n := fun n old =>
    Function.update_of_ne (ne_next n old) _ _
  have cases_mem : ∀ {n}, n ∈ (st.insertNode val).nodes → n ∈ st.nodes ∨ n = st.nextNode :=
    fun member => (List.mem_append.mp member).imp_right List.mem_singleton.mp
  have no_edges : (st.insertNode val).edgesOf st.nextNode = [] := Function.update_self ..
  constructor
  · constructor
    · exact List.nodup_append.mpr ⟨sound.nodes_nodup, List.nodup_singleton _, fun n old m last => by
        rw [List.mem_singleton.mp last]
        exact ne_next n old⟩
    · exact nodeMap_update sound.mapped new fresh
    · simp only [GraphMemory.insertNode, List.flatMap_append, List.flatMap_singleton,
        Function.update_self, List.append_nil]
      rw [List.flatMap_congr old_edges]
      exact sound.listed
    · exact sound.once
    · intro n member e edge
      rcases cases_mem member with old | rfl
      · exact List.mem_append_left _ (sound.target_mem n old e (old_edges n old ▸ edge))
      · rw [no_edges] at edge
        cases edge
    · intro n member e edge
      rcases cases_mem member with old | rfl
      · exact sound.loopless n old e (old_edges n old ▸ edge)
      · rw [no_edges] at edge
        cases edge
    · intro n member
      rcases cases_mem member with old | rfl
      · have simple := sound.simple n old
        rwa [← old_edges n old] at simple
      · rw [no_edges]
        exact List.nodup_nil
  · exact List.mem_append_left _ sound.root_mem
  · intro n member
    rcases cases_mem member with old | rfl
    · exact (sound.node_lt n old).trans (Nat.lt_succ_self _)
    · exact Nat.lt_succ_self _
  · exact sound.edge_lt
  · intro n member
    rcases cases_mem member with old | rfl
    · exact sound.node_live n old
    · exact fun deleted => (sound.unused _ deleted).false
  · exact sound.edge_live
  · exact fun n deleted => (sound.unused n deleted).trans (Nat.lt_succ_self _)
  · exact sound.unused_edge

theorem Sound.getOrCreateNode (sound : st.Sound) (val : ι) :
    (st.getOrCreateNode val).1.Sound ∧ (st.getOrCreateNode val).2 ∈ (st.getOrCreateNode val).1.nodes := by
  rw [GraphMemory.getOrCreateNode]
  cases found : st.nodeMap val with
  | none => exact ⟨sound.insertNode found, List.mem_append_right _ (List.mem_singleton_self _)⟩
  | some node => exact ⟨sound, ((sound.mapped val node).mp found).1⟩

omit [DecidableEq ι] in
/-- An edge between different nodes that had none. -/
theorem Sound.addEdge (sound : st.Sound) {node1 node2 : Nat} (mem1 : node1 ∈ st.nodes)
    (mem2 : node2 ∈ st.nodes) (different : node1 ≠ node2)
    (absent : ∀ e ∈ st.edgesOf node1, st.target e ≠ node2) (grow : Nat → Nat)
    (kind : SliceDependence) : (st.addEdge grow node1 node2 kind).Sound := by
  have fresh : st.nextEdge ∉ st.edges := fun old => (sound.edge_lt _ old).false
  have target : ∀ m ∈ st.nodes, ∀ e ∈ st.edgesOf m,
      (st.addEdge grow node1 node2 kind).target e = st.target e := by
    intro m old e edge
    refine Function.update_of_ne ?_ _ _
    rintro rfl
    exact fresh (sound.mem_edges old edge)
  have last : (st.addEdge grow node1 node2 kind).target st.nextEdge = node2 :=
    Function.update_self ..
  have cases_mem : ∀ {e}, e ∈ st.edgesOf node1 ++ [st.nextEdge] →
      e ∈ st.edgesOf node1 ∨ e = st.nextEdge :=
    fun edge => (List.mem_append.mp edge).imp_right List.mem_singleton.mp
  have edge_cases : ∀ {e}, e ∈ st.edges ++ [st.nextEdge] → e ∈ st.edges ∨ e = st.nextEdge :=
    fun edge => (List.mem_append.mp edge).imp_right List.mem_singleton.mp
  refine ⟨sound.toWellFormed.withEdges _ mem1 rfl rfl rfl rfl target ?_ ?_ ?_ ?_ ?_, sound.root_mem,
    sound.node_lt, ?_, sound.node_live, ?_, sound.unused, ?_⟩
  · apply (List.perm_append_comm.trans (List.Perm.cons _ (sound.edges_perm mem1))).trans
    rw [List.append_assoc]
    exact List.perm_middle.symm
  · refine List.nodup_append.mpr ⟨sound.once, List.nodup_singleton _, fun e old e' new => ?_⟩
    rw [List.mem_singleton.mp new]
    rintro rfl
    exact fresh old
  · intro e edge
    rcases cases_mem edge with old | rfl
    · rw [target _ mem1 e old]
      exact sound.target_mem _ mem1 e old
    · rwa [last]
  · intro e edge
    rcases cases_mem edge with old | rfl
    · rw [target _ mem1 e old]
      exact sound.loopless _ mem1 e old
    · rw [last]
      exact different.symm
  · rw [List.map_append, List.map_congr_left (target _ mem1), List.map_singleton, last]
    refine List.nodup_append.mpr ⟨sound.simple _ mem1, List.nodup_singleton _, fun t old t' new => ?_⟩
    obtain ⟨e, edge, rfl⟩ := List.mem_map.mp old
    rw [List.mem_singleton.mp new]
    exact absent e edge
  · intro e edge
    rcases edge_cases edge with old | rfl
    · exact (sound.edge_lt e old).trans (Nat.lt_succ_self _)
    · exact Nat.lt_succ_self _
  · intro e edge
    rcases edge_cases edge with old | rfl
    · exact sound.edge_live e old
    · exact fun deleted => (sound.unused_edge _ deleted).false
  · exact fun e deleted => (sound.unused_edge e deleted).trans (Nat.lt_succ_self _)

/-- Nodes are connected unless they are the same or an edge is there. -/
theorem Sound.connect_cases (sound : st.Sound) {node1 node2 : Nat} (mem1 : node1 ∈ st.nodes)
    (mem2 : node2 ∈ st.nodes) (grow : Nat → Nat) (kind : SliceDependence) :
    (st.connect grow node1 node2 kind = some (false, st) ∧
        (node1 = node2 ∨ ∃ e ∈ st.edgesOf node1, st.target e = node2)) ∨
      st.connect grow node1 node2 kind = some (true, st.addEdge grow node1 node2 kind) ∧
        node1 ≠ node2 ∧ ∀ e ∈ st.edgesOf node1, st.target e ≠ node2 := by
  rw [GraphMemory.connect, sound.getValue_eq mem1, sound.getValue_eq mem2,
    sound.findEdge_edgesOf mem1]
  simp only [Option.bind_eq_bind, Option.bind_some]
  by_cases same : node1 = node2
  · exact Or.inl ⟨if_pos same, Or.inl same⟩
  have different : st.value node1 ≠ st.value node2 := fun equal =>
    same (sound.value_inj mem1 mem2 equal)
  rw [if_neg same, if_neg different]
  have search : ((st.edgesOf node1).findIdx? fun e => st.target e = node2).isSome ↔
      ∃ e ∈ st.edgesOf node1, st.target e = node2 := by
    rw [List.findIdx?_isSome, List.any_eq_true]
    simp only [decide_eq_true_eq]
  by_cases found : ∃ e ∈ st.edgesOf node1, st.target e = node2
  · exact Or.inl ⟨if_pos (search.mpr found), Or.inr found⟩
  · refine Or.inr ⟨if_neg (mt search.mp found), same, fun e edge leads => found ⟨e, edge, leads⟩⟩

theorem Sound.connect (sound : st.Sound) {node1 node2 : Nat} (mem1 : node1 ∈ st.nodes)
    (mem2 : node2 ∈ st.nodes) (grow : Nat → Nat) (kind : SliceDependence) :
    ∃ added st', st.connect grow node1 node2 kind = some (added, st') ∧ st'.Sound := by
  rcases sound.connect_cases mem1 mem2 grow kind with ⟨result, -⟩ | ⟨result, different, absent⟩
  · exact ⟨false, st, result, sound⟩
  · exact ⟨true, _, result, sound.addEdge mem1 mem2 different absent grow kind⟩

end Adding

section Disconnecting

variable {st : GraphMemory ι}

/-- The edges from one node to another are gone, and nothing else changed. -/
structure Cut (st : GraphMemory ι) (node1 node2 : Nat) (st' : GraphMemory ι) : Prop where
  nodes : st'.nodes = st.nodes
  value : st'.value = st.value
  target : st'.target = st.target
  kind : st'.kind = st.kind
  there : st'.edgesOf node1 = (st.edgesOf node1).filter fun e => st.target e ≠ node2
  elsewhere : ∀ n, n ≠ node1 → st'.edgesOf n = st.edgesOf n

/-- What `disconnect` leaves when it found the edge at a position and deleted one that may be
another. -/
def detached (st : GraphMemory ι) (node1 i edge : Nat) : GraphMemory ι :=
  { st with
    edgesOf := Function.update st.edgesOf node1 ((st.edgesOf node1).eraseIdx i)
    edges := st.edges.erase edge
    deletedEdges := insert edge st.deletedEdges }

theorem Sound.disconnect_found (sound : st.Sound) {node1 node2 i edge : Nat}
    (mem1 : node1 ∈ st.nodes)
    (found : (st.edgesOf node1).findIdx? (fun e => st.target e = node2) = some i)
    (read : readErased (st.edgesOf node1) i = some edge) (live : edge ∈ st.edgesOf node1) :
    st.disconnect node1 node2 = some (true, st.detached node1 i edge) := by
  simp only [GraphMemory.disconnect, sound.edgesAt_eq mem1, Option.bind_eq_bind, Option.bind_some,
    sound.findEdge_edgesOf mem1, found, read, deleteEdge]
  rw [if_neg (sound.live mem1 live)]
  rfl

theorem Sound.disconnect_absent (sound : st.Sound) {node1 node2 : Nat} (mem1 : node1 ∈ st.nodes)
    (absent : ∀ e ∈ st.edgesOf node1, st.target e ≠ node2) :
    st.disconnect node1 node2 = some (false, st) := by
  have none : (st.edgesOf node1).findIdx? (fun e => decide (st.target e = node2)) = none := by
    rw [List.findIdx?_eq_none_iff]
    exact fun e edge => decide_eq_false (absent e edge)
  simp only [GraphMemory.disconnect, sound.edgesAt_eq mem1, Option.bind_eq_bind, Option.bind_some,
    sound.findEdge_edgesOf mem1, none]

/-- The last edge of a node is cut off as it should be. -/
theorem Sound.disconnect_last (sound : st.Sound) {node1 node2 e : Nat} {init : List Nat}
    (mem1 : node1 ∈ st.nodes) (edges : st.edgesOf node1 = init ++ [e]) (leads : st.target e = node2)
    (others : ∀ x ∈ init, st.target x ≠ node2) :
    ∃ st', st.disconnect node1 node2 = some (true, st') ∧ st'.Sound ∧ Cut st node1 node2 st' := by
  have found : (st.edgesOf node1).findIdx? (fun e => st.target e = node2) = some init.length := by
    have none : init.findIdx? (fun e => decide (st.target e = node2)) = none := by
      rw [List.findIdx?_eq_none_iff]
      exact fun x early => decide_eq_false (others x early)
    rw [edges, List.findIdx?_append, none]
    simp [leads]
  have kept : (st.edgesOf node1).eraseIdx init.length = init := by
    rw [edges, List.eraseIdx_append_of_length_le (le_refl _), Nat.sub_self]
    exact List.append_nil init
  have read : readErased (st.edgesOf node1) init.length = some e := by
    rw [readErased, kept, edges]
    simp
  have last : e ∈ st.edgesOf node1 := edges ▸ List.mem_append_right _ (List.mem_singleton_self e)
  have early : ∀ x ∈ init, x ∈ st.edgesOf node1 := fun x first =>
    edges ▸ List.mem_append_left _ first
  have listed : (st.edges.erase e).Perm (init ++ (st.nodes.erase node1).flatMap st.edgesOf) := by
    have split := (sound.edges_perm mem1).erase e
    rw [edges, List.append_assoc] at split
    apply split.trans
    have moved : (init ++ e :: (st.nodes.erase node1).flatMap st.edgesOf).Perm
        (e :: (init ++ (st.nodes.erase node1).flatMap st.edgesOf)) := List.perm_middle
    have without := moved.erase e
    rwa [List.erase_cons_head] at without
  have cut : ∀ {x}, x ∈ st.edges.erase e → x ≠ e ∧ x ∈ st.edges := fun {x} member => by
    rw [sound.once.mem_erase_iff] at member
    exact member
  refine ⟨_, sound.disconnect_found mem1 found read last, ?_, ?_⟩
  · refine ⟨sound.toWellFormed.withEdges init mem1 rfl rfl rfl ?_ (fun _ _ _ _ => rfl)
      listed (sound.once.erase e) (fun x first => sound.target_mem _ mem1 x (early x first))
      (fun x first => sound.loopless _ mem1 x (early x first)) ?_, sound.root_mem, sound.node_lt,
      fun x member => sound.edge_lt x (cut member).2, sound.node_live, ?_, sound.unused, ?_⟩
    · rw [detached, kept]
    · have simple := sound.simple _ mem1
      rw [edges, List.map_append] at simple
      exact (List.nodup_append.mp simple).1
    · intro x member deleted
      rcases Finset.mem_insert.mp deleted with rfl | old
      · exact (cut member).1 rfl
      · exact sound.edge_live x (cut member).2 old
    · intro x deleted
      rcases Finset.mem_insert.mp deleted with rfl | old
      · exact sound.edge_lt x (sound.mem_edges mem1 last)
      · exact sound.unused_edge x old
  · refine ⟨rfl, rfl, rfl, rfl, ?_, fun n other => Function.update_of_ne other _ _⟩
    have filtered : (init ++ [e]).filter (fun x => st.target x ≠ node2) = init := by
      rw [List.filter_append, List.filter_eq_self.mpr fun x first => decide_eq_true (others x first)]
      simp [leads]
    rw [edges, filtered]
    exact (Function.update_self ..).trans kept

/-- An edge that is not the last of its node is cut off from the node only, and the next one
is deleted in its place. -/
theorem Sound.disconnect_early (sound : st.Sound) {node1 node2 e : Nat} (mem1 : node1 ∈ st.nodes)
    (early : e ∈ (st.edgesOf node1).dropLast) (leads : st.target e = node2) :
    ∃ st', st.disconnect node1 node2 = some (true, st') ∧ ¬ st'.WellFormed := by
  obtain ⟨j, bound, rfl⟩ := List.getElem_of_mem early
  rw [List.getElem_dropLast] at leads
  rw [List.length_dropLast] at bound
  obtain ⟨i, found⟩ : ∃ i, (st.edgesOf node1).findIdx? (fun e => st.target e = node2) = some i := by
    rw [← Option.isSome_iff_exists, List.findIdx?_isSome, List.any_eq_true]
    exact ⟨_, List.getElem_mem (by omega), decide_eq_true leads⟩
  obtain ⟨inside, -, first⟩ := List.findIdx?_eq_some_iff_getElem.mp found
  have before : i ≤ j := by
    by_contra later
    exact first j (by omega) (decide_eq_true leads)
  have next : i + 1 < (st.edgesOf node1).length := by omega
  have read : readErased (st.edgesOf node1) i = some (st.edgesOf node1)[i + 1] := by
    rw [readErased, List.getElem?_eraseIdx_of_ge (le_refl i), List.getElem?_eq_getElem next]
    rfl
  have nodup := sound.edges_nodup mem1
  obtain ⟨own, -, apart⟩ := List.nodup_append.mp nodup
  have member : (st.edgesOf node1)[i] ∈ st.edgesOf node1 := List.getElem_mem inside
  refine ⟨_, sound.disconnect_found mem1 found read (List.getElem_mem next), fun formed => ?_⟩
  have different : (st.edgesOf node1)[i] ≠ (st.edgesOf node1)[i + 1] := fun same => by
    have equal := (List.Nodup.getElem_inj_iff own).mp same
    omega
  have listed : (st.edgesOf node1)[i] ∈ (st.detached node1 i (st.edgesOf node1)[i + 1]).edges :=
    (List.mem_erase_of_ne different).mpr (sound.mem_edges mem1 member)
  -- The edge is still listed, but it belongs to no node any more.
  have split := formed.listed.trans (flatMap_update_perm sound.nodes_nodup mem1 st.edgesOf _)
  rcases List.mem_append.mp (split.mem_iff.mp listed) with here | elsewhere
  · obtain ⟨k, _, other, same⟩ := List.mem_eraseIdx_iff_getElem.mp here
    exact other ((List.Nodup.getElem_inj_iff own).mp same)
  · exact apart _ member _ elsewhere rfl

end Disconnecting

section Removing

/-- The nodes, their map and their values are as before. -/
structure SameNodes (st st' : GraphMemory ι) : Prop where
  nodes : st'.nodes = st.nodes
  nodeMap : st'.nodeMap = st.nodeMap
  value : st'.value = st.value

namespace SameNodes

variable {st st₁ st' : GraphMemory ι}

theorem refl (st : GraphMemory ι) : SameNodes st st := ⟨rfl, rfl, rfl⟩

theorem trans (first : SameNodes st st₁) (second : SameNodes st₁ st') : SameNodes st st' :=
  ⟨second.nodes.trans first.nodes, second.nodeMap.trans first.nodeMap,
    second.value.trans first.value⟩

/-- A loop keeps what its body keeps. -/
theorem foldlM {f : GraphMemory ι → Nat → Option (GraphMemory ι)}
    (body : ∀ st n st', f st n = some st' → SameNodes st st') {l : List Nat}
    (run : l.foldlM f st = some st') : SameNodes st st' := by
  induction l generalizing st with
  | nil =>
    obtain rfl : st = st' := Option.some.inj run
    exact refl st
  | cons n l ih =>
    obtain ⟨st₁, first, rest⟩ := Option.bind_eq_some_iff.mp run
    exact (body st n st₁ first).trans (ih rest)

theorem deleteEdge {edge : Nat} (deleted : st.deleteEdge edge = some st') : SameNodes st st' := by
  rw [GraphMemory.deleteEdge] at deleted
  split at deleted
  · cases deleted
  · obtain rfl := Option.some.inj deleted
    exact ⟨rfl, rfl, rfl⟩

theorem destroyEdges {node : Nat} (destroyed : st.destroyEdges node = some st') :
    SameNodes st st' := by
  obtain ⟨es, -, rest⟩ := Option.bind_eq_some_iff.mp destroyed
  obtain ⟨st₁, run, last⟩ := Option.bind_eq_some_iff.mp rest
  obtain rfl := Option.some.inj last
  exact (foldlM (fun _ _ _ => deleteEdge) run).trans ⟨rfl, rfl, rfl⟩

theorem dropEdges {node : Nat} {es kept : List Nat}
    (dropped : GraphMemory.dropEdges node es st = some (kept, st')) : SameNodes st st' := by
  induction es generalizing st kept with
  | nil =>
    obtain ⟨-, rfl⟩ := Prod.mk.inj (Option.some.inj dropped)
    exact refl st
  | cons e es ih =>
    obtain ⟨target, -, rest⟩ := Option.bind_eq_some_iff.mp dropped
    by_cases leads : target = node
    · rw [if_pos leads] at rest
      obtain ⟨st₁, deleted, more⟩ := Option.bind_eq_some_iff.mp rest
      exact (deleteEdge deleted).trans (ih more)
    · rw [if_neg leads] at rest
      obtain ⟨⟨kept₁, st₁⟩, more, last⟩ := Option.bind_eq_some_iff.mp rest
      obtain ⟨-, rfl⟩ := Prod.mk.inj (Option.some.inj last)
      exact ih more

theorem removeEdgesTo {node n : Nat} (removed : GraphMemory.removeEdgesTo node st n = some st') :
    SameNodes st st' := by
  rw [GraphMemory.removeEdgesTo] at removed
  split at removed
  · obtain rfl := Option.some.inj removed
    exact refl st
  · obtain ⟨es, -, rest⟩ := Option.bind_eq_some_iff.mp removed
    obtain ⟨⟨kept, st₁⟩, dropped, last⟩ := Option.bind_eq_some_iff.mp rest
    obtain rfl := Option.some.inj last
    exact (dropEdges dropped).trans ⟨rfl, rfl, rfl⟩

theorem connect [DecidableEq ι] {grow : Nat → Nat} {node1 node2 : Nat} {kind : SliceDependence}
    {added : Bool} (connected : st.connect grow node1 node2 kind = some (added, st')) :
    SameNodes st st' := by
  rw [GraphMemory.connect] at connected
  split at connected
  · obtain ⟨-, rfl⟩ := Prod.mk.inj (Option.some.inj connected)
    exact refl st
  · obtain ⟨value1, -, rest⟩ := Option.bind_eq_some_iff.mp connected
    obtain ⟨value2, -, rest⟩ := Option.bind_eq_some_iff.mp rest
    split at rest
    · obtain ⟨-, rfl⟩ := Prod.mk.inj (Option.some.inj rest)
      exact refl st
    · obtain ⟨found, -, rest⟩ := Option.bind_eq_some_iff.mp rest
      split at rest <;> obtain ⟨-, rfl⟩ := Prod.mk.inj (Option.some.inj rest) <;> exact ⟨rfl, rfl, rfl⟩

theorem moveEdge [DecidableEq ι] {grow : Nat → Nat} {a edge : Nat}
    (moved : GraphMemory.moveEdge grow a st edge = some st') : SameNodes st st' := by
  obtain ⟨target, -, rest⟩ := Option.bind_eq_some_iff.mp moved
  obtain ⟨⟨added, st₁⟩, connected, last⟩ := Option.bind_eq_some_iff.mp rest
  obtain rfl := Option.some.inj last
  exact connect connected

end SameNodes

variable {st st' : GraphMemory ι}

/-- A node that was removed stays in the node map. -/
theorem removeNode_frame {node : Nat} {removed : Bool} (member : node ∈ st.nodes)
    (result : st.removeNode node = some (removed, st')) :
    st'.nodes = st.nodes.erase node ∧ st'.nodeMap = st.nodeMap := by
  rw [removeNode, if_neg (not_not_intro member)] at result
  obtain ⟨st₁, loop, rest⟩ := Option.bind_eq_some_iff.mp result
  obtain ⟨st₂, destroyed, last⟩ := Option.bind_eq_some_iff.mp rest
  obtain ⟨-, rfl⟩ := Prod.mk.inj (Option.some.inj last)
  have same := (SameNodes.foldlM (fun _ _ _ => SameNodes.removeEdgesTo) loop).trans
    (SameNodes.destroyEdges destroyed)
  exact ⟨congrArg (·.erase node) same.nodes, same.nodeMap⟩

theorem mergeNodes_frame [DecidableEq ι] {grow : Nat → Nat} {a b e : Nat} (member : b ∈ st.nodes)
    (last : (st.edgesOf a).getLast? = some e) (leads : st.target e = b)
    (result : st.mergeNodes grow a b = some st') :
    st'.nodes = st.nodes.erase b ∧ st'.nodeMap = st.nodeMap := by
  obtain ⟨es, read, rest⟩ := Option.bind_eq_some_iff.mp result
  obtain ⟨edgeToFold, back, rest⟩ := Option.bind_eq_some_iff.mp rest
  obtain ⟨target, deref, rest⟩ := Option.bind_eq_some_iff.mp rest
  have same_edges : es = st.edgesOf a := by
    rw [edgesAt] at read
    split at read
    · cases read
    · exact (Option.some.inj read).symm
  have same_target : target = b := by
    rw [same_edges, last, Option.some.injEq] at back
    rw [getTargetNode, ← back, leads] at deref
    split at deref
    · cases deref
    · exact (Option.some.inj deref).symm
  rw [if_neg (not_not_intro same_target)] at rest
  obtain ⟨moving, -, rest⟩ := Option.bind_eq_some_iff.mp rest
  obtain ⟨connected, loop, rest⟩ := Option.bind_eq_some_iff.mp rest
  split at rest
  · cases rest
  · obtain ⟨folded, deleted, rest⟩ := Option.bind_eq_some_iff.mp rest
    obtain ⟨⟨_, removed⟩, removal, rest⟩ := Option.bind_eq_some_iff.mp rest
    obtain ⟨destroyed, destroying, rest⟩ := Option.bind_eq_some_iff.mp rest
    obtain rfl := Option.some.inj rest
    have appended : SameNodes st (st.appendValues a b) := ⟨rfl, rfl, rfl⟩
    have deleting := SameNodes.deleteEdge deleted
    have before := (appended.trans (SameNodes.foldlM (fun _ _ _ => SameNodes.moveEdge) loop)).trans
      ⟨deleting.nodes, deleting.nodeMap, deleting.value⟩
    obtain ⟨nodes, nodeMap⟩ := removeNode_frame (before.nodes ▸ member) removal
    have after := SameNodes.destroyEdges destroying
    exact ⟨after.nodes.trans (nodes.trans (congrArg (·.erase b) before.nodes)),
      after.nodeMap.trans (nodeMap.trans before.nodeMap)⟩

/-- Without a node of the map the graph is not well formed. -/
theorem Sound.not_wellFormed_erase (sound : st.Sound) {node : Nat} (member : node ∈ st.nodes)
    (erased : st'.nodes = st.nodes.erase node ∧ st'.nodeMap = st.nodeMap) : ¬ st'.WellFormed := by
  intro formed
  have entry := (sound.mapped (st.value node) node).mpr ⟨member, rfl⟩
  rw [← erased.2, formed.mapped, erased.1] at entry
  exact sound.nodes_nodup.not_mem_erase entry.1

end Removing

section View

/-- A slice graph by its instructions: which of them have a node, and the edges with their
kinds. -/
structure ValueGraph (ι : Type) where
  vertices : Set ι
  edges : Set (ι × SliceDependence × ι)

namespace ValueGraph

def add (g : ValueGraph ι) (v : ι) : ValueGraph ι := ⟨insert v g.vertices, g.edges⟩

/-- A new edge, unless it would be a loop or a second one. -/
def link (g : ValueGraph ι) (v : ι) (kind : SliceDependence) (w : ι) : ValueGraph ι where
  vertices := g.vertices
  edges := {x | x ∈ g.edges ∨ x = (v, kind, w) ∧ v ≠ w ∧ ∀ k, (v, k, w) ∉ g.edges}

def unlink (g : ValueGraph ι) (v w : ι) : ValueGraph ι where
  vertices := g.vertices
  edges := {x | x ∈ g.edges ∧ ¬ (x.1 = v ∧ x.2.2 = w)}

theorem link_of_edge {g : ValueGraph ι} {v w : ι} {kind : SliceDependence}
    (there : v = w ∨ ∃ k, (v, k, w) ∈ g.edges) : g.link v kind w = g := by
  have none : ¬ (v ≠ w ∧ ∀ k, (v, k, w) ∉ g.edges) := fun free =>
    there.elim free.1 fun ⟨k, edge⟩ => free.2 k edge
  simp [link, none]

end ValueGraph

/-- What a reader of the graph sees. -/
def view (st : GraphMemory ι) : ValueGraph ι where
  vertices := {v | ∃ n ∈ st.nodes, st.value n = v}
  edges := {x | ∃ n ∈ st.nodes, ∃ e ∈ st.edgesOf n,
    (st.value n, st.kind e, st.value (st.target e)) = x}

variable {st st' : GraphMemory ι}

theorem WellFormed.mem_view_edges (formed : st.WellFormed) {m n : Nat} (left : m ∈ st.nodes)
    (right : n ∈ st.nodes) (k : SliceDependence) :
    (st.value m, k, st.value n) ∈ st.view.edges ↔
      ∃ e ∈ st.edgesOf m, st.kind e = k ∧ st.target e = n := by
  constructor
  · rintro ⟨m', member, e, edge, same⟩
    obtain ⟨from_same, kind, to_same⟩ : st.value m' = st.value m ∧ st.kind e = k ∧
        st.value (st.target e) = st.value n := by simpa using same
    obtain rfl := formed.value_inj member left from_same
    exact ⟨e, edge, kind, formed.value_inj (formed.target_mem _ member e edge) right to_same⟩
  · rintro ⟨e, edge, rfl, rfl⟩
    exact ⟨m, left, e, edge, rfl⟩

/-- Disconnecting two nodes removes the edge between their instructions. -/
theorem WellFormed.view_cut (formed : st.WellFormed) {node1 node2 : Nat}
    (mem1 : node1 ∈ st.nodes) (mem2 : node2 ∈ st.nodes)
    (cut : Cut st node1 node2 st') :
    st'.view = st.view.unlink (st.value node1) (st.value node2) := by
  have edges : ∀ n ∈ st.nodes, ∀ e, e ∈ st'.edgesOf n ↔
      e ∈ st.edgesOf n ∧ ¬ (n = node1 ∧ st.target e = node2) := by
    intro n _ e
    by_cases here : n = node1
    · subst here
      rw [cut.there, List.mem_filter]
      simp
    · rw [cut.elsewhere n here]
      simp [here]
  rw [view, view, ValueGraph.unlink, ValueGraph.mk.injEq]
  rw [cut.nodes, cut.value, cut.kind, cut.target]
  refine ⟨rfl, Set.ext fun x => ?_⟩
  constructor
  · rintro ⟨n, member, e, edge, rfl⟩
    obtain ⟨old, other⟩ := (edges n member e).mp edge
    refine ⟨⟨n, member, e, old, rfl⟩, fun same => other ?_⟩
    exact ⟨formed.value_inj member mem1 same.1,
      formed.value_inj (formed.target_mem n member e old) mem2 same.2⟩
  · rintro ⟨⟨n, member, e, edge, rfl⟩, other⟩
    refine ⟨n, member, e, (edges n member e).mpr ⟨edge, fun same => other ?_⟩, rfl⟩
    exact ⟨congrArg st.value same.1, congrArg st.value same.2⟩

variable [DecidableEq ι]

theorem Sound.view_insertNode (sound : st.Sound) (val : ι) :
    (st.insertNode val).view = st.view.add val := by
  have old : ∀ n ∈ st.nodes, n ≠ st.nextNode := fun n member => (sound.node_lt n member).ne
  have value : ∀ n ∈ st.nodes, (st.insertNode val).value n = st.value n := fun n member =>
    Function.update_of_ne (old n member) _ _
  have edges : ∀ n ∈ st.nodes, (st.insertNode val).edgesOf n = st.edgesOf n := fun n member =>
    Function.update_of_ne (old n member) _ _
  have new_value : (st.insertNode val).value st.nextNode = val := Function.update_self ..
  have no_edges : (st.insertNode val).edgesOf st.nextNode = [] := Function.update_self ..
  have split : ∀ n, n ∈ (st.insertNode val).nodes ↔ n ∈ st.nodes ∨ n = st.nextNode := fun n =>
    List.mem_append.trans (or_congr_right List.mem_singleton)
  rw [view, view, ValueGraph.add, ValueGraph.mk.injEq]
  constructor
  · ext v
    constructor
    · rintro ⟨n, member, rfl⟩
      rcases (split n).mp member with member | rfl
      · exact Or.inr ⟨n, member, (value n member).symm⟩
      · exact Or.inl new_value
    · rintro (rfl | ⟨n, member, rfl⟩)
      · exact ⟨st.nextNode, (split _).mpr (Or.inr rfl), new_value⟩
      · exact ⟨n, (split n).mpr (Or.inl member), value n member⟩
  · ext x
    constructor
    · rintro ⟨n, member, e, edge, rfl⟩
      rcases (split n).mp member with member | rfl
      · rw [edges n member] at edge
        have target := value _ (sound.target_mem n member e edge)
        exact ⟨n, member, e, edge, by rw [value n member]; exact congrArg _ (congrArg _ target.symm)⟩
      · rw [no_edges] at edge
        cases edge
    · rintro ⟨n, member, e, edge, rfl⟩
      have target := value _ (sound.target_mem n member e edge)
      refine ⟨n, (split n).mpr (Or.inl member), e, by rwa [edges n member], ?_⟩
      rw [value n member]
      exact congrArg _ (congrArg _ target)

/-- A node is made for an instruction that has none. -/
theorem Sound.view_getOrCreateNode (sound : st.Sound) (val : ι) :
    (st.getOrCreateNode val).1.view = st.view.add val := by
  rw [GraphMemory.getOrCreateNode]
  cases found : st.nodeMap val with
  | none => exact sound.view_insertNode val
  | some node =>
    have there : val ∈ st.view.vertices := ⟨node, (sound.mapped val node).mp found⟩
    simp [ValueGraph.add, Set.insert_eq_of_mem there]

omit [DecidableEq ι] in
theorem Sound.view_addEdge (sound : st.Sound) {node1 : Nat} (mem1 : node1 ∈ st.nodes) (node2 : Nat)
    (grow : Nat → Nat) (kind : SliceDependence) :
    (st.addEdge grow node1 node2 kind).view.vertices = st.view.vertices ∧
      ∀ x, x ∈ (st.addEdge grow node1 node2 kind).view.edges ↔
        x ∈ st.view.edges ∨ x = (st.value node1, kind, st.value node2) := by
  have old : ∀ n ∈ st.nodes, ∀ e ∈ st.edgesOf n, e ≠ st.nextEdge := fun n member e edge =>
    (sound.edge_lt e (sound.mem_edges member edge)).ne
  have edges : ∀ n e, e ∈ (st.addEdge grow node1 node2 kind).edgesOf n ↔
      e ∈ st.edgesOf n ∨ n = node1 ∧ e = st.nextEdge := by
    intro n e
    by_cases here : n = node1
    · simp [GraphMemory.addEdge, here]
    · simp [GraphMemory.addEdge, here]
  have target : ∀ e, e ≠ st.nextEdge →
      (st.addEdge grow node1 node2 kind).target e = st.target e ∧
        (st.addEdge grow node1 node2 kind).kind e = st.kind e := fun e other =>
    ⟨Function.update_of_ne other _ _, Function.update_of_ne other _ _⟩
  have last : (st.addEdge grow node1 node2 kind).target st.nextEdge = node2 ∧
      (st.addEdge grow node1 node2 kind).kind st.nextEdge = kind :=
    ⟨Function.update_self .., Function.update_self ..⟩
  refine ⟨rfl, fun x => ?_⟩
  constructor
  · rintro ⟨n, member, e, edge, rfl⟩
    rcases (edges n e).mp edge with edge | ⟨rfl, rfl⟩
    · obtain ⟨leads, same⟩ := target e (old n member e edge)
      rw [leads, same]
      exact Or.inl ⟨n, member, e, edge, rfl⟩
    · rw [last.1, last.2]
      exact Or.inr rfl
  · rintro (⟨n, member, e, edge, rfl⟩ | rfl)
    · obtain ⟨leads, same⟩ := target e (old n member e edge)
      exact ⟨n, member, e, (edges n e).mpr (Or.inl edge), by rw [leads, same]; rfl⟩
    · exact ⟨node1, mem1, st.nextEdge, (edges _ _).mpr (Or.inr ⟨rfl, rfl⟩), by
        rw [last.1, last.2]; rfl⟩

/-- Connecting two nodes adds at most the edge between their instructions. -/
theorem Sound.view_connect (sound : st.Sound) {node1 node2 : Nat} (mem1 : node1 ∈ st.nodes)
    (mem2 : node2 ∈ st.nodes) (grow : Nat → Nat) (kind : SliceDependence) :
    ∃ added st', st.connect grow node1 node2 kind = some (added, st') ∧
      st'.view = st.view.link (st.value node1) kind (st.value node2) := by
  rcases sound.connect_cases mem1 mem2 grow kind with ⟨result, there⟩ | ⟨result, different, absent⟩
  · refine ⟨false, st, result, (ValueGraph.link_of_edge ?_).symm⟩
    apply there.imp (congrArg st.value)
    intro ⟨e, edge, leads⟩
    exact ⟨st.kind e, (sound.mem_view_edges mem1 mem2 _).mpr ⟨e, edge, rfl, leads⟩⟩
  have equal : st.value node1 ≠ st.value node2 := fun same =>
    different (sound.value_inj mem1 mem2 same)
  have free : ∀ k, (st.value node1, k, st.value node2) ∉ st.view.edges := by
    intro k there
    obtain ⟨e, edge, -, leads⟩ := (sound.mem_view_edges mem1 mem2 k).mp there
    exact absent e edge leads
  obtain ⟨vertices, edges⟩ := sound.view_addEdge mem1 node2 grow kind
  refine ⟨true, _, result, ?_⟩
  have linked : (st.addEdge grow node1 node2 kind).view.edges =
      (st.view.link (st.value node1) kind (st.value node2)).edges := by
    ext x
    rw [edges x]
    exact or_congr_right ⟨fun new => ⟨new, equal, free⟩, And.left⟩
  exact congrArg₂ ValueGraph.mk vertices linked

end View

section Runs

variable [DecidableEq ι] {grow : Nat → Nat} {st st' : GraphMemory ι} {op : GraphEdit ι}

/-- What an operation promises besides a well-formed graph: a node of the graph, and that
exactly the edge in question is gone. -/
def Outcome (st : GraphMemory ι) : GraphEdit ι → GraphMemory ι → Prop
  | .getOrCreateNode val, st' => (st.getOrCreateNode val).2 ∈ st'.nodes
  | .disconnect node1 node2, st' => Cut st node1 node2 st'
  | _, _ => True

variable (grow) in
theorem Sound.edit_harmless (sound : st.Sound) (valid : st.Valid op) (harmless : st.Harmless op) :
    ∃ st', st.edit grow op = some st' ∧ st'.Sound ∧ st.Outcome op st' := by
  cases op with
  | getOrCreateNode val =>
    obtain ⟨kept, node⟩ := sound.getOrCreateNode val
    exact ⟨_, rfl, kept, node⟩
  | connect node1 node2 kind =>
    obtain ⟨added, st', connected, kept⟩ := sound.connect valid.1 valid.2 grow kind
    exact ⟨st', by rw [edit, connected]; rfl, kept, trivial⟩
  | disconnect node1 node2 =>
    by_cases absent : ∀ e ∈ st.edgesOf node1, st.target e ≠ node2
    · have unchanged : st.edit grow (.disconnect node1 node2) = some st := by
        rw [edit, sound.disconnect_absent valid.1 absent]
        rfl
      refine ⟨st, unchanged, sound, rfl, rfl, rfl, rfl, ?_, fun _ _ => rfl⟩
      exact (List.filter_eq_self.mpr fun e edge => decide_eq_true (absent e edge)).symm
    · push Not at absent
      obtain ⟨e, edge, leads⟩ := absent
      have nonempty := List.ne_nil_of_mem edge
      have edges := List.dropLast_append_getLast nonempty
      have last : e = (st.edgesOf node1).getLast nonempty := by
        rw [← edges] at edge
        rcases List.mem_append.mp edge with early | last
        · exact absurd leads (harmless e early)
        · exact List.mem_singleton.mp last
      obtain ⟨st', disconnected, kept, cut⟩ :=
        sound.disconnect_last valid.1 edges.symm (last ▸ leads) harmless
      exact ⟨st', by rw [edit, disconnected]; rfl, kept, cut⟩
  | removeNode node => exact harmless.elim
  | mergeNodes a b => exact harmless.elim

theorem Sound.edit_harmful (sound : st.Sound) (valid : st.Valid op) (harmful : ¬ st.Harmless op)
    (result : st.edit grow op = some st') : ¬ st'.WellFormed := by
  cases op with
  | getOrCreateNode val => exact absurd trivial harmful
  | connect node1 node2 kind => exact absurd trivial harmful
  | disconnect node1 node2 =>
    simp only [Harmless, ne_eq, not_forall, not_not] at harmful
    obtain ⟨e, early, leads⟩ := harmful
    obtain ⟨st'', disconnected, broken⟩ := sound.disconnect_early valid.1 early leads
    rw [edit, disconnected] at result
    obtain rfl := Option.some.inj result
    exact broken
  | removeNode node =>
    obtain ⟨⟨removed, st''⟩, removal, rfl⟩ := Option.map_eq_some_iff.mp result
    exact sound.not_wellFormed_erase valid.1 (removeNode_frame valid.1 removal)
  | mergeNodes a b =>
    obtain ⟨-, member, -, e, last, leads⟩ := valid
    exact sound.not_wellFormed_erase member (mergeNodes_frame member last leads result)

/-- Every operation of a client's sequence has a result, which is well formed and what the
operation promises. -/
def Keeps (grow : Nat → Nat) : GraphMemory ι → List (GraphEdit ι) → Prop
  | _, [] => True
  | st, op :: ops => st.Valid op →
      ∃ st', st.edit grow op = some st' ∧ st'.WellFormed ∧ st.Outcome op st' ∧ st'.Keeps grow ops

/-- Every operation of a client's sequence is harmless where it is carried out. -/
def AllHarmless (grow : Nat → Nat) : GraphMemory ι → List (GraphEdit ι) → Prop
  | _, [] => True
  | st, op :: ops => st.Valid op →
      st.Harmless op ∧ ∀ st', st.edit grow op = some st' → st'.AllHarmless grow ops

theorem Sound.keeps_iff (sound : st.Sound) (ops : List (GraphEdit ι)) :
    st.Keeps grow ops ↔ st.AllHarmless grow ops := by
  induction ops generalizing st with
  | nil => exact Iff.rfl
  | cons op ops ih =>
    apply forall_congr'
    intro valid
    constructor
    · rintro ⟨st', result, formed, -, rest⟩
      have harmless : st.Harmless op := by
        by_contra harmful
        exact sound.edit_harmful valid harmful result formed
      obtain ⟨st'', again, kept, -⟩ := sound.edit_harmless grow valid harmless
      refine ⟨harmless, fun other equal => ?_⟩
      rw [result, Option.some.injEq] at again equal
      rw [← equal, again]
      exact (ih kept).mp (again ▸ rest)
    · rintro ⟨harmless, rest⟩
      obtain ⟨st', result, kept, outcome⟩ := sound.edit_harmless grow valid harmless
      exact ⟨st', result, kept.toWellFormed, outcome, (ih kept).mpr (rest st' result)⟩

/-- From a graph with only a root, all operations keep the graph well formed exactly when none
removes a node, and none disconnects two nodes along an edge that is not the last. -/
theorem edits_keep_iff (grow : Nat → Nat) (rootVal : ι) (ops : List (GraphEdit ι)) :
    (create rootVal).Keeps grow ops ↔ (create rootVal).AllHarmless grow ops :=
  (sound_create rootVal).keeps_iff ops

omit [DecidableEq ι] in
/-- A node that was removed is handed out again. -/
theorem edits_keep_fails : ¬ ∀ (grow : Nat → Nat) (rootVal : Nat) (ops : List (GraphEdit Nat)),
    (create rootVal).Keeps grow ops := by
  intro claim
  obtain ⟨st, created, -, -, rest⟩ := claim (2 * ·) 0 [.getOrCreateNode 1, .removeNode 1] trivial
  have equal : st = ((create 0).getOrCreateNode 1).1 := (Option.some.inj created).symm
  subst equal
  have valid : ((create 0).getOrCreateNode 1).1.Valid (.removeNode 1) := ⟨by decide, by decide⟩
  obtain ⟨st', removed, formed, -⟩ := rest valid
  exact ((sound_create 0).getOrCreateNode 1).1.edit_harmful valid not_false removed formed

end Runs

end GraphMemory

end Arthas.Slicing
