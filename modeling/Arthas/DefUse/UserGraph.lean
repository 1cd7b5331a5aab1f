import Mathlib
import Arthas.Utils.String
import Arthas.Lib.Worklist
import Arthas.Lib.LevelSearch

/-!
The transitive users of a value (`UserGraph`), depth first or level by level. Both walks list
the values that the root leads to, each once; the second lists them with their distance.
-/

set_option autoImplicit false
set_option relaxedAutoImplicit false

namespace Arthas.DefUse

open Arthas.Lib Arthas.Utils Relation

/-- What a value is: the pointer operand of a store, and for a call the name of the function
called, when it is known, and the arguments. -/
inductive ValueKind (ι : Type) where
  | value
  | alloca
  | store (pointer : ι)
  | call (callee : Option Text) (args : List ι)
  | invoke (callee : Option Text) (args : List ι)
  | instruction

def ValueKind.isInstruction {ι : Type} : ValueKind ι → Bool
  | .value => false
  | _ => true

def ValueKind.isAlloca {ι : Type} : ValueKind ι → Bool
  | .alloca => true
  | _ => false

/-- The values and their users, in the order of the use lists. -/
structure ValueGraph (ι : Type) where
  kind : ι → ValueKind ι
  users : ι → List ι

inductive UserGraphWalkType where
  | BFS
  | DFS

abbrev UserNodeList (ι : Type) := List (ι × Nat)

/-- The fields of a `UserGraph` while it is built. -/
structure UserWalk (ι : Type) where
  userList : UserNodeList ι
  visited : Finset ι
  visitQueue : List (Option ι)
  visitStack : List ι

namespace ValueGraph

variable {ι : Type} [DecidableEq ι] (g : ValueGraph ι)

section Walks

/-- The instruction that a user stands for in the walk: for a store its pointer operand. -/
def target (ui : ι) : Option ι :=
  match g.kind ui with
  | .value => none
  | .store pointer => if (g.kind pointer).isInstruction then some pointer else none
  | _ => some ui

/-- The insertion of an instruction that was not visited before. -/
def visit (walk : UserGraphWalkType) (s : UserWalk ι) (op : ι) : UserWalk ι :=
  if op ∈ s.visited then s
  else
    match walk with
    | .DFS => { s with visited := insert op s.visited, visitStack := op :: s.visitStack }
    | .BFS => { s with visited := insert op s.visited, visitQueue := s.visitQueue ++ [some op] }

def processUser (elem : ι) (walk : UserGraphWalkType) (s : UserWalk ι) : UserWalk ι :=
  (g.users elem).foldl (fun s ui =>
    match g.target ui with
    | none => s
    | some op => visit walk s op) s

/-- The root and the allocas are not listed. -/
def pushUser (root elem : ι) (level : Nat) (s : UserWalk ι) : UserWalk ι :=
  if elem ≠ root ∧ (g.kind elem).isAlloca = false then
    { s with userList := s.userList ++ [(elem, level)] }
  else s

/-- The element on top of the stack is listed and its users are processed. -/
def dfsTurn (root elem : ι) (s : UserWalk ι) : Option (UserWalk ι) :=
  some (g.processUser elem .DFS (g.pushUser root elem 1 s))

def doDFS (fuel : Nat) (root : ι) : Option (UserNodeList ι) :=
  (Worklist.drain UserWalk.visitStack (fun stack s => { s with visitStack := stack })
    (g.dfsTurn root) fuel ⟨[], {root}, [], [root]⟩).map UserWalk.userList

/-- The loop of `doBFS`; `none` in the queue is the marker. -/
def bfsLoop (root : ι) (maxDepth : Int) : Nat → Nat → UserWalk ι → Option (UserNodeList ι)
  | 0, _, _ => none
  | fuel + 1, level, s =>
    match s.visitQueue with
    | [] => some s.userList
    | head :: _ =>
      let s := match head with
        | none => s
        | some elem => g.processUser elem .BFS (g.pushUser root elem level s)
      match s.visitQueue.tail with
      | none :: rest =>
        let level := level + 1
        if 0 < maxDepth ∧ maxDepth < level then some s.userList
        else
          bfsLoop root maxDepth fuel level
            { s with visitQueue := if rest = [] then [] else rest ++ [none] }
      | rest => bfsLoop root maxDepth fuel level { s with visitQueue := rest }

def doBFS (fuel : Nat) (root : ι) (maxDepth : Int) : Option (UserNodeList ι) :=
  g.bfsLoop root maxDepth fuel 0 ⟨[], {root}, [some root, none], []⟩

end Walks

section Closure

/-- `u` is a user of `v` that is no store, or the instruction that a user stores to. -/
def Leads (v u : ι) : Prop :=
  ∃ ui ∈ g.users v,
    ((g.kind ui).isInstruction = true ∧ (∀ pointer, g.kind ui ≠ .store pointer) ∧ u = ui) ∨
    (g.kind ui = .store u ∧ (g.kind u).isInstruction = true)

/-- The values that the root leads to, without itself and without the allocas. -/
def closure (root : ι) : Set ι :=
  {v | v ≠ root ∧ (g.kind v).isAlloca = false ∧ ReflTransGen g.Leads root v}

/-- Neither the root nor an alloca. -/
def listed (root v : ι) : Bool := v ≠ root && !(g.kind v).isAlloca

/-- The instructions that the users of a value stand for. -/
def targets (v : ι) : List ι := (g.users v).filterMap g.target

variable {g}

omit [DecidableEq ι] in
theorem target_eq_some {ui u : ι} : g.target ui = some u ↔
    ((g.kind ui).isInstruction = true ∧ (∀ pointer, g.kind ui ≠ .store pointer) ∧ u = ui) ∨
    (g.kind ui = .store u ∧ (g.kind u).isInstruction = true) := by
  unfold target
  cases kind : g.kind ui with
  | value => simp [ValueKind.isInstruction]
  | store pointer =>
    simp only [ValueKind.store.injEq, Option.ite_none_right_eq_some, Option.some.injEq]
    constructor
    · rintro ⟨instruction, rfl⟩
      exact Or.inr ⟨rfl, instruction⟩
    · rintro (⟨-, other, -⟩ | ⟨rfl, instruction⟩)
      · exact (other pointer rfl).elim
      · exact ⟨instruction, rfl⟩
  | alloca | call | invoke | instruction =>
    constructor
    · intro same
      exact Or.inl ⟨rfl, (fun pointer stores => by cases stores), (Option.some.inj same).symm⟩
    · rintro (⟨-, -, rfl⟩ | ⟨stores, -⟩)
      · rfl
      · cases stores

omit [DecidableEq ι] in
theorem leads_iff {v u : ι} : g.Leads v u ↔ u ∈ g.targets v := by
  simp only [Leads, targets, List.mem_filterMap, target_eq_some]

end Closure

section DepthFirst

variable {g} {root : ι} {s : UserWalk ι}

/-- What processing the users of a value does to the fields of the walk. -/
theorem processUser_eq_foldl (elem : ι) (walk : UserGraphWalkType) (s : UserWalk ι) :
    g.processUser elem walk s = (g.targets elem).foldl (visit walk) s := by
  unfold processUser targets
  generalize g.users elem = users
  induction users generalizing s with
  | nil => rfl
  | cons ui users ih =>
    rw [List.foldl_cons, ih]
    cases op : g.target ui with
    | none => rw [List.filterMap_cons_none op]
    | some op' => rw [List.filterMap_cons_some op, List.foldl_cons]

theorem mem_closure_iff {v : ι} :
    v ∈ g.closure root ↔ g.listed root v = true ∧ ReflTransGen g.Leads root v := by
  simp [closure, listed, and_assoc]

theorem pushUser_eq (elem : ι) (level : Nat) (s : UserWalk ι) :
    g.pushUser root elem level s =
      { s with userList := s.userList ++ [(elem, level)].filter fun p => g.listed root p.1 } := by
  have same : (elem ≠ root ∧ (g.kind elem).isAlloca = false) ↔ g.listed root elem = true := by
    simp [listed]
  unfold pushUser
  split
  · next lists => simp [same.mp lists]
  · next skips => simp [Bool.eq_false_iff.mpr (mt same.mpr skips)]

/-- The state of a depth-first walk, with the values that were taken out. -/
structure Walking (g : ValueGraph ι) (root : ι) (done : Finset ι) (s : UserWalk ι) : Prop where
  frontier : Worklist.Frontier (ReflTransGen g.Leads root) (· ∈ s.visited) done s.visitStack
  closed : Worklist.Closed g.Leads (· ∈ s.visited) done
  rootVisited : root ∈ s.visited
  nodup : (s.userList.map Prod.fst).Nodup
  mem : ∀ v, v ∈ s.userList.map Prod.fst ↔ v ∈ done ∧ g.listed root v = true
  ones : ∀ p ∈ s.userList, p.2 = 1

theorem walking_start (g : ValueGraph ι) (root : ι) :
    Walking g root ∅ ⟨[], {root}, [], [root]⟩ where
  frontier := by
    have empty : Worklist.Frontier (ReflTransGen g.Leads root) (fun _ => False) ∅ [] :=
      Worklist.Frontier.empty fun _ => id
    apply empty.enqueue Worklist.Discipline.lifo .refl id
    intro b
    simp
  closed _ member := (Finset.notMem_empty _ member).elim
  rootVisited := Finset.mem_singleton_self root
  nodup := List.nodup_nil
  mem v := by simp
  ones _ member := (List.not_mem_nil member).elim

theorem visit_frontier {reach : ι → Prop} {done : Finset ι} {op : ι}
    (frontier : Worklist.Frontier reach (· ∈ s.visited) done s.visitStack) (reached : reach op) :
    Worklist.Frontier reach (· ∈ (visit .DFS s op).visited) done (visit .DFS s op).visitStack ∧
      (visit .DFS s op).userList = s.userList ∧
      ∀ v, v ∈ (visit .DFS s op).visited ↔ v ∈ s.visited ∨ v = op := by
  unfold visit
  split
  · next old =>
    refine ⟨frontier, rfl, fun v => ⟨Or.inl, ?_⟩⟩
    rintro (member | rfl)
    · exact member
    · exact old
  · next new =>
    have marks : ∀ v, v ∈ insert op s.visited ↔ v ∈ s.visited ∨ v = op := fun v => by
      rw [Finset.mem_insert, or_comm]
    exact ⟨frontier.enqueue Worklist.Discipline.lifo reached new marks, rfl, marks⟩

theorem visits_frontier {reach : ι → Prop} {done : Finset ι} {ops : List ι} (s : UserWalk ι)
    (frontier : Worklist.Frontier reach (· ∈ s.visited) done s.visitStack)
    (reached : ∀ op ∈ ops, reach op) :
    Worklist.Frontier reach (· ∈ (ops.foldl (visit .DFS) s).visited) done
        (ops.foldl (visit .DFS) s).visitStack ∧
      (ops.foldl (visit .DFS) s).userList = s.userList ∧
      ∀ v, v ∈ (ops.foldl (visit .DFS) s).visited ↔ v ∈ s.visited ∨ v ∈ ops := by
  induction ops generalizing s with
  | nil => exact ⟨frontier, rfl, fun v => by simp⟩
  | cons op ops ih =>
    obtain ⟨first, list, marks⟩ := visit_frontier frontier (reached op List.mem_cons_self)
    obtain ⟨rest, list', marks'⟩ := ih _ first fun op' member =>
      reached op' (List.mem_cons_of_mem op member)
    refine ⟨rest, list'.trans list, fun v => ?_⟩
    rw [List.foldl_cons, marks', marks, List.mem_cons, or_assoc]

/-- Taking out a value, listing it and processing its users. -/
theorem Walking.step {done : Finset ι} {elem : ι} {rest : List ι} (walking : Walking g root done s)
    (front : s.visitStack = elem :: rest) :
    Walking g root (insert elem done)
      (g.processUser elem .DFS (g.pushUser root elem 1 { s with visitStack := rest })) := by
  have frontier := walking.frontier
  rw [front] at frontier
  have new : elem ∉ done := frontier.waiting elem List.mem_cons_self
  have found : elem ∈ s.visited := (frontier.mem elem).mpr (Or.inr List.mem_cons_self)
  have reached := frontier.reach elem found
  have lists : ∀ p, p ∈ [(elem, 1)].filter (fun p => g.listed root p.1) ↔
      p = (elem, 1) ∧ g.listed root elem = true := by
    intro p
    rw [List.mem_filter, List.mem_singleton]
    exact and_congr_right fun same => by rw [same]
  rw [pushUser_eq, processUser_eq_foldl]
  obtain ⟨kept, same, marks⟩ := visits_frontier
    { s with
      visitStack := rest
      userList := s.userList ++ [(elem, 1)].filter fun p => g.listed root p.1 }
    frontier.pop fun op member => reached.tail (leads_iff.mpr member)
  refine ⟨kept, ?_, (marks root).mpr (Or.inl walking.rootVisited), ?_, ?_, ?_⟩
  · intro v member u leads
    rw [marks u]
    rcases Finset.mem_insert.mp member with rfl | old
    · exact Or.inr (leads_iff.mp leads)
    · exact Or.inl (walking.closed v old u leads)
  · rw [same, List.map_append, List.nodup_append]
    refine ⟨walking.nodup, (List.nodup_singleton _).filter _ |>.map_on ?_, ?_⟩
    · intro p member q member' _
      rw [((lists p).mp member).1, ((lists q).mp member').1]
    · rintro v old w last rfl
      obtain ⟨p, member, rfl⟩ := List.mem_map.mp last
      rw [((lists p).mp member).1] at old
      exact new ((walking.mem elem).mp old).1
  · intro v
    rw [same, List.map_append, List.mem_append, walking.mem, Finset.mem_insert, or_and_right,
      or_comm]
    apply or_congr_left
    rw [List.mem_map]
    constructor
    · rintro ⟨p, member, rfl⟩
      obtain ⟨rfl, listed⟩ := (lists p).mp member
      exact ⟨rfl, listed⟩
    · rintro ⟨rfl, listed⟩
      exact ⟨(v, 1), (lists _).mpr ⟨rfl, listed⟩, rfl⟩
  · intro p member
    rw [same] at member
    rcases List.mem_append.mp member with old | last
    · exact walking.ones p old
    · rw [((lists p).mp last).1]

variable [Fintype ι]

/-- The depth-first walk ends with the closure of the root, each value once. -/
theorem doDFS_spec (g : ValueGraph ι) (root : ι) {fuel : Nat} (enough : Fintype.card ι < fuel) :
    ∃ list, g.doDFS fuel root = some list ∧ (list.map Prod.fst).Nodup ∧
      (∀ v, v ∈ list.map Prod.fst ↔ v ∈ g.closure root) ∧ ∀ p ∈ list, p.2 = 1 := by
  have waiting : ∀ done s elem rest, Walking g root done s →
      UserWalk.visitStack s = elem :: rest → elem ∉ done := by
    intro done s elem rest walking front
    have frontier := walking.frontier
    rw [front] at frontier
    exact frontier.waiting elem List.mem_cons_self
  have ends := @Worklist.drain_spec ι (UserWalk ι) UserWalk.visitStack
    (fun stack s => { s with visitStack := stack }) (g.dfsTurn root) _ _ (Walking g root)
    (fun _ => False) waiting
    (fun done s elem rest walking front => Or.inl ⟨_, rfl, id, walking.step front⟩)
    fuel ∅ _ (by simpa using enough) (walking_start g root) (fun _ _ => id)
  rcases ends with ⟨s, done, run, empty, walking, -⟩ | ⟨-, _, _, _, _, _, _, bad⟩
  · refine ⟨s.userList, by rw [doDFS, run]; rfl, walking.nodup, fun v => ?_, walking.ones⟩
    have frontier := walking.frontier
    rw [empty] at frontier
    rw [walking.mem, frontier.complete walking.closed walking.rootVisited, mem_closure_iff,
      and_comm]
  · exact bad.elim

end DepthFirst

section BreadthFirst

open LevelSearch

variable {g} {root : ι} {s : UserWalk ι}

/-- The last level that a depth admits. -/
def limit (maxDepth : Int) : Option Nat := if 0 < maxDepth then some maxDepth.toNat else none

theorem exceeds_limit_iff (maxDepth : Int) (level : Nat) :
    (∃ d ∈ limit maxDepth, d < level) ↔ 0 < maxDepth ∧ maxDepth < level := by
  unfold limit
  split
  · next positive =>
    simp only [Option.mem_def, Option.some.injEq, exists_eq_left', positive, true_and]
    omega
  · next unbounded => simp [unbounded]

theorem visits_queue (ops : List ι) (s : UserWalk ι) :
    ops.foldl (visit .BFS) s = { s with
      visited := s.visited ∪ (discover s.visited ops).toFinset
      visitQueue := s.visitQueue ++ (discover s.visited ops).map some } := by
  induction ops generalizing s with
  | nil => simp [discover]
  | cons op ops ih =>
    rw [List.foldl_cons, ih, discover]
    unfold visit
    split
    · rfl
    · have marks : insert op s.visited ∪ (discover (insert op s.visited) ops).toFinset =
          s.visited ∪ (op :: discover (insert op s.visited) ops).toFinset := by
        ext v
        simp only [Finset.mem_union, Finset.mem_insert, List.mem_toFinset, List.mem_cons]
        tauto
      simp only [marks, List.map_cons, List.append_assoc, List.singleton_append]

/-- The walk at a state of the search by levels. -/
structure Follows (g : ValueGraph ι) (root : ι) (c : Search ι) (s : UserWalk ι) : Prop where
  visited : s.visited = c.seen
  queue : s.visitQueue = c.queue
  list : s.userList = c.order.filter fun p => g.listed root p.1

/-- The queue with the marker goes through the levels. -/
theorem Follows.loop {c : Search ι} (follows : Follows g root c s) {maxDepth : Int}
    (within : ∀ d ∈ limit maxDepth, c.level ≤ d) (fuel : Nat) :
    g.bfsLoop root maxDepth fuel c.level s =
      (Search.run g.targets (limit maxDepth) fuel c).map fun c =>
        c.order.filter fun p => g.listed root p.1 := by
  induction fuel generalizing c s with
  | zero => rfl
  | succ fuel ih =>
    rw [bfsLoop, Search.run]
    cases front : c.current with
    | nil =>
      rw [follows.queue, Search.queue_eq_nil.mpr front, follows.list]
      rfl
    | cons elem rest =>
      have processed : g.processUser elem .BFS (g.pushUser root elem c.level s) =
          ⟨(c.visit g.targets elem rest).order.filter (fun p => g.listed root p.1),
            (c.visit g.targets elem rest).seen,
            some elem :: (rest.map some ++ none :: (c.visit g.targets elem rest).next.map some),
            s.visitStack⟩ := by
        rw [processUser_eq_foldl, visits_queue, pushUser_eq]
        simp [Search.visit, follows.visited, follows.list, follows.queue,
          Search.queue_cons front]
      rw [follows.queue, Search.queue_cons front]
      dsimp only
      rw [processed]
      dsimp only [List.tail_cons]
      generalize visit : c.visit g.targets elem rest = c'
      have level : c'.level = c.level := visit ▸ rfl
      have current : c'.current = rest := visit ▸ rfl
      cases rest with
      | nil =>
        have turned : c'.turn = { c' with level := c'.level + 1, current := c'.next, next := [] } :=
          if_pos current
        have exceeds : (∃ d ∈ limit maxDepth, d < c'.turn.level) ↔
            0 < maxDepth ∧ maxDepth < ((c.level + 1 : Nat) : Int) := by
          rw [exceeds_limit_iff, turned, level]
        simp only [List.map_nil, List.nil_append]
        by_cases past : ∃ d ∈ limit maxDepth, d < c'.turn.level
        · rw [if_pos past, if_pos (exceeds.mp past), turned]
          rfl
        · rw [if_neg past, if_neg (mt exceeds.mpr past)]
          have next : c'.turn.level = c.level + 1 := by rw [turned, level]
          rw [← next]
          refine ih ⟨by rw [turned], ?_, by rw [turned]⟩ ?_
          · rw [Search.queue_turn current]
            simp
          · intro d bound
            by_contra! exceeds
            exact past ⟨d, bound, exceeds⟩
      | cons b rest =>
        have stays : c'.turn = c' := if_neg (by simp [current])
        have inside : ¬ ∃ d ∈ limit maxDepth, d < c'.level := by
          rintro ⟨d, bound, exceeds⟩
          have := within d bound
          omega
        rw [stays, if_neg inside]
        rw [← level]
        refine ih ⟨rfl, ?_, rfl⟩ fun d bound => level ▸ within d bound
        exact (Search.queue_cons current).symm

variable [Fintype ι]

/-- The walk by levels ends with the closure of the root as far as the depth admits, each
value once and with its distance, the near ones first. -/
theorem doBFS_spec (g : ValueGraph ι) (root : ι) (maxDepth : Int) {fuel : Nat}
    (enough : Fintype.card ι < fuel) :
    ∃ list, g.doBFS fuel root maxDepth = some list ∧ (list.map Prod.fst).Nodup ∧
      (∀ v n, (v, n) ∈ list ↔ v ∈ g.closure root ∧ Distance g.Leads root n v ∧
        (0 < maxDepth → (n : Int) ≤ maxDepth)) ∧
      list.Pairwise fun p q => p.2 ≤ q.2 := by
  obtain ⟨c, run, levels⟩ := Search.run_start (fun v u => leads_iff (v := v) (u := u)) root
    (limit maxDepth) enough
  have follows : Follows g root (Search.start root) ⟨[], {root}, [some root, none], []⟩ :=
    ⟨rfl, rfl, rfl⟩
  have within : ∀ n : Nat, (∀ d ∈ limit maxDepth, n ≤ d) ↔
      (0 < maxDepth → (n : Int) ≤ maxDepth) := by
    intro n
    have exceeds := not_congr (exceeds_limit_iff maxDepth n)
    push Not at exceeds
    exact exceeds
  refine ⟨c.order.filter fun p => g.listed root p.1, ?_, ?_, fun v n => ?_, ?_⟩
  · rw [doBFS]
    refine (follows.loop (fun d _ => Nat.zero_le d) fuel).trans ?_
    rw [run]
    rfl
  · exact levels.nodup.sublist (List.filter_sublist.map _)
  · rw [List.mem_filter, levels.mem, within, mem_closure_iff, reach_iff_distance]
    constructor
    · rintro ⟨⟨here, near⟩, lists⟩
      exact ⟨⟨lists, n, here⟩, here, near⟩
    · rintro ⟨⟨lists, -⟩, here, near⟩
      exact ⟨⟨here, near⟩, lists⟩
  · exact levels.sorted.sublist List.filter_sublist

end BreadthFirst

section UserGraph

open LevelSearch

variable [Fintype ι]

theorem doDFS_isSome (root : ι) : (g.doDFS (Fintype.card ι + 1) root).isSome := by
  obtain ⟨list, run, -⟩ := g.doDFS_spec root (Nat.lt_succ_self (Fintype.card ι))
  rw [run]
  rfl

theorem doBFS_isSome (root : ι) (depth : Int) :
    (g.doBFS (Fintype.card ι + 1) root depth).isSome := by
  obtain ⟨list, run, -⟩ := g.doBFS_spec root depth (Nat.lt_succ_self (Fintype.card ι))
  rw [run]
  rfl

/-- The list of `UserGraph(v, t, depth)`. -/
def userGraph (v : ι) (t : UserGraphWalkType) (depth : Int) : UserNodeList ι :=
  match t with
  | .DFS => (g.doDFS (Fintype.card ι + 1) v).get (g.doDFS_isSome v)
  | .BFS => (g.doBFS (Fintype.card ι + 1) v depth).get (g.doBFS_isSome v depth)

/-- A list with the values of a set, each once. -/
structure ListsOnce (list : UserNodeList ι) (values : Set ι) : Prop where
  nodup : (list.map Prod.fst).Nodup
  mem : ∀ v, v ∈ list.map Prod.fst ↔ v ∈ values

variable {g}

theorem userGraph_dfs (root : ι) (depth : Int) :
    ListsOnce (g.userGraph root .DFS depth) (g.closure root) := by
  obtain ⟨list, run, nodup, mem, -⟩ := g.doDFS_spec root (Nat.lt_succ_self (Fintype.card ι))
  have equal : g.userGraph root .DFS depth = list := by simp [userGraph, run]
  rw [equal]
  exact ⟨nodup, mem⟩

theorem mem_userGraph_bfs {root v : ι} {n : Nat} {depth : Int} :
    (v, n) ∈ g.userGraph root .BFS depth ↔ v ∈ g.closure root ∧ Distance g.Leads root n v ∧
      (0 < depth → (n : Int) ≤ depth) := by
  obtain ⟨list, run, -, mem, -⟩ := g.doBFS_spec root depth (Nat.lt_succ_self (Fintype.card ι))
  have equal : g.userGraph root .BFS depth = list := by simp [userGraph, run]
  rw [equal, mem]

theorem userGraph_bfs (root : ι) (depth : Int) :
    ListsOnce (g.userGraph root .BFS depth)
        {v ∈ g.closure root | 0 < depth → ∃ n : Nat, Distance g.Leads root n v ∧ n ≤ depth} ∧
      (g.userGraph root .BFS depth).Pairwise fun p q => p.2 ≤ q.2 := by
  obtain ⟨list, run, nodup, mem, sorted⟩ :=
    g.doBFS_spec root depth (Nat.lt_succ_self (Fintype.card ι))
  have equal : g.userGraph root .BFS depth = list := by simp [userGraph, run]
  rw [equal]
  refine ⟨⟨nodup, fun v => ?_⟩, sorted⟩
  constructor
  · intro member
    obtain ⟨⟨v, n⟩, inside, rfl⟩ := List.mem_map.mp member
    obtain ⟨closed, here, near⟩ := (mem v n).mp inside
    exact ⟨closed, fun positive => ⟨n, here, near positive⟩⟩
  · rintro ⟨closed, near⟩
    obtain ⟨n, here⟩ := reach_iff_distance.mp closed.2.2
    refine List.mem_map.mpr ⟨(v, n), (mem v n).mpr ⟨closed, here, fun positive => ?_⟩, rfl⟩
    obtain ⟨m, there, atMost⟩ := near positive
    rwa [here.unique there]

/-- Both walks list exactly the values that the root leads to. By levels, each is listed with
its shortest distance, in order of distance, and a positive depth leaves out those beyond. -/
theorem userGraph_exact (g : ValueGraph ι) (root : ι) :
    ListsOnce (g.userGraph root .DFS (-1)) (g.closure root) ∧
      ListsOnce (g.userGraph root .BFS (-1)) (g.closure root) ∧
      (∀ depth : Int,
        (∀ p ∈ g.userGraph root .BFS depth, Distance g.Leads root p.2 p.1) ∧
        (g.userGraph root .BFS depth).Pairwise fun p q => p.2 ≤ q.2) ∧
      ∀ depth : Int, 0 < depth → ListsOnce (g.userGraph root .BFS depth)
        {v ∈ g.closure root | ∃ n : Nat, Distance g.Leads root n v ∧ n ≤ depth} := by
  refine ⟨userGraph_dfs root (-1), ?_, fun depth => ⟨fun p member => ?_, ?_⟩,
    fun depth positive => ?_⟩
  · obtain ⟨nodup, mem⟩ := (userGraph_bfs (g := g) root (-1)).1
    exact ⟨nodup, fun v => (mem v).trans ⟨And.left, fun closed => ⟨closed, by simp⟩⟩⟩
  · exact (mem_userGraph_bfs.mp member).2.1
  · exact (userGraph_bfs root depth).2
  · obtain ⟨nodup, mem⟩ := (userGraph_bfs (g := g) root depth).1
    exact ⟨nodup, fun v => (mem v).trans (and_congr_right fun _ => by simp [positive])⟩

/-- A root with two users and a cycle back to it. -/
def cycle : ValueGraph (Option Bool) where
  kind _ := .instruction
  users
    | none => [some false, some true]
    | some false => [some true, none]
    | some true => [some false]

example : cycle.userGraph none .DFS (-1) = [(some true, 1), (some false, 1)] ∧
    cycle.userGraph none .BFS (-1) = [(some false, 1), (some true, 1)] := by decide

end UserGraph

end ValueGraph

end Arthas.DefUse
