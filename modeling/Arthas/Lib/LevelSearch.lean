import Mathlib.Data.Fintype.Card

/-!
A search that goes through the elements level by level, the level being the length of the
shortest path from the root. A limit may end it after a level. A queue with one marker
holds the rest of a level in front of the marker and the next level behind it.
-/

set_option autoImplicit false
set_option relaxedAutoImplicit false

namespace Arthas.Lib.LevelSearch

variable {α : Type*}

section Distance

/-- A path of so many steps from the root. -/
inductive PathTo (r : α → α → Prop) (root : α) : Nat → α → Prop where
  | root : PathTo r root 0 root
  | step {n : Nat} {a b : α} : PathTo r root n a → r a b → PathTo r root (n + 1) b

/-- The length of a shortest path from the root. -/
structure Distance (r : α → α → Prop) (root : α) (n : Nat) (a : α) : Prop where
  path : PathTo r root n a
  least : ∀ m, PathTo r root m a → n ≤ m

variable {r : α → α → Prop} {root : α}

theorem reach_iff_path {a : α} : Relation.ReflTransGen r root a ↔ ∃ n, PathTo r root n a := by
  constructor
  · intro reached
    induction reached with
    | refl => exact ⟨0, .root⟩
    | tail _ leads ih =>
      obtain ⟨n, path⟩ := ih
      exact ⟨n + 1, path.step leads⟩
  · rintro ⟨n, path⟩
    induction path with
    | root => exact .refl
    | step _ leads ih => exact ih.tail leads

theorem distance_zero : Distance r root 0 root := ⟨.root, fun m _ => Nat.zero_le m⟩

theorem Distance.unique {m n : Nat} {a : α} (h : Distance r root m a)
    (h' : Distance r root n a) : m = n :=
  (h.least n h'.path).antisymm (h'.least m h.path)

theorem Distance.eq_root {a : α} (h : Distance r root 0 a) : a = root := by
  cases h.path
  rfl

/-- On a shortest path, the element before the last is at the distance before. -/
theorem Distance.before {n : Nat} {b : α} (h : Distance r root (n + 1) b) :
    ∃ a, Distance r root n a ∧ r a b := by
  cases h.path with
  | @step _ a _ path leads =>
    refine ⟨a, ⟨path, fun m shorter => ?_⟩, leads⟩
    have atLeast := h.least (m + 1) (shorter.step leads)
    omega

theorem reach_iff_distance {a : α} :
    Relation.ReflTransGen r root a ↔ ∃ n, Distance r root n a := by
  classical
  refine reach_iff_path.trans ⟨fun paths => ?_, fun ⟨n, h⟩ => ⟨n, h.path⟩⟩
  exact ⟨Nat.find paths, Nat.find_spec paths, fun m path => Nat.find_min' paths path⟩

end Distance

section Discover

variable [DecidableEq α]

/-- The elements of a list that were not seen before, each once. -/
def discover : Finset α → List α → List α
  | _, [] => []
  | seen, b :: bs =>
    if b ∈ seen then discover seen bs else b :: discover (insert b seen) bs

theorem mem_discover {seen : Finset α} {bs : List α} {b : α} :
    b ∈ discover seen bs ↔ b ∈ bs ∧ b ∉ seen := by
  induction bs generalizing seen with
  | nil => simp [discover]
  | cons c bs ih =>
    rw [discover]
    split
    · next old =>
      rw [ih, List.mem_cons]
      refine ⟨fun ⟨member, new⟩ => ⟨Or.inr member, new⟩, fun ⟨member, new⟩ => ⟨?_, new⟩⟩
      rcases member with rfl | member
      · exact (new old).elim
      · exact member
    · next new =>
      rw [List.mem_cons, List.mem_cons, ih, Finset.mem_insert, not_or]
      by_cases same : b = c
      · subst same
        simp [new]
      · simp [same]

theorem nodup_discover (seen : Finset α) (bs : List α) : (discover seen bs).Nodup := by
  induction bs generalizing seen with
  | nil => exact List.nodup_nil
  | cons b bs ih =>
    rw [discover]
    split
    · exact ih seen
    · refine List.nodup_cons.mpr ⟨fun member => ?_, ih _⟩
      exact (mem_discover.mp member).2 (Finset.mem_insert_self b seen)

end Discover

/-- The level, what is left of it, what was found of the next one, all that was found, and
what was visited, with its level. -/
structure Search (α : Type*) where
  level : Nat
  current : List α
  next : List α
  seen : Finset α
  order : List (α × Nat)

namespace Search

section Steps

def start (root : α) : Search α := ⟨0, [root], [], {root}, []⟩

/-- Nothing is left of the level: go to the next one. -/
def turn (s : Search α) : Search α :=
  if s.current = [] then { s with level := s.level + 1, current := s.next, next := [] } else s

variable [DecidableEq α] (succ : α → List α)

def visit (a : α) (rest : List α) (s : Search α) : Search α :=
  let found := discover s.seen (succ a)
  { s with
    current := rest
    next := s.next ++ found
    seen := s.seen ∪ found.toFinset
    order := s.order ++ [(a, s.level)] }

/-- Visits until nothing is left, or the level exceeds the limit. -/
def run (limit : Option Nat) : Nat → Search α → Option (Search α)
  | 0, _ => none
  | fuel + 1, s =>
    match s.current with
    | [] => some s
    | a :: rest =>
      let s := (s.visit succ a rest).turn
      if ∃ d ∈ limit, d < s.level then some s else run limit fuel s

end Steps

section Invariant

variable {r : α → α → Prop} {root : α} {s : Search α}

/-- The elements visited, in their order. -/
def visited (s : Search α) : List α := s.order.map Prod.fst

/-- Everything found stands in one of the lists with its distance, and everything that the
visited elements lead to was found. -/
structure Layered (r : α → α → Prop) (root : α) (s : Search α) : Prop where
  nodup : (s.visited ++ (s.current ++ s.next)).Nodup
  mem_seen : ∀ a, a ∈ s.seen ↔ a ∈ s.visited ∨ a ∈ s.current ∨ a ∈ s.next
  order : ∀ p ∈ s.order, Distance r root p.2 p.1
  below : ∀ p ∈ s.order, p.2 ≤ s.level
  current : ∀ a ∈ s.current, Distance r root s.level a
  next : ∀ a ∈ s.next, Distance r root (s.level + 1) a
  closed : ∀ a ∈ s.visited, ∀ b, r a b → b ∈ s.seen
  complete : ∀ n ≤ s.level, ∀ a, Distance r root n a → a ∈ s.seen
  sorted : s.order.Pairwise fun p q => p.2 ≤ q.2

theorem layered_start : Layered r root (start root) where
  nodup := by simp [start, visited]
  mem_seen a := by simp [start, visited]
  order _ member := (List.not_mem_nil member).elim
  below _ member := (List.not_mem_nil member).elim
  current a member := by
    rw [List.mem_singleton.mp member]
    exact distance_zero
  next _ member := (List.not_mem_nil member).elim
  closed _ member := (List.not_mem_nil member).elim
  complete n atMost a h := by
    obtain rfl : n = 0 := Nat.le_zero.mp atMost
    rw [h.eq_root]
    exact Finset.mem_singleton_self root
  sorted := List.Pairwise.nil

theorem Layered.turn (h : Layered r root s) : Layered r root s.turn := by
  unfold Search.turn
  split
  case isFalse => exact h
  case isTrue empty =>
    have mem_seen : ∀ a, a ∈ s.seen ↔ a ∈ s.visited ∨ a ∈ s.next := by
      intro a
      rw [h.mem_seen a, empty]
      simp
    refine ⟨?_, ?_, h.order, fun p member => (h.below p member).trans (Nat.le_succ _), h.next,
      fun _ member => (List.not_mem_nil member).elim, h.closed, ?_, h.sorted⟩
    · have nodup := h.nodup
      rw [empty, List.nil_append] at nodup
      simpa [visited] using nodup
    · intro a
      simpa [visited] using mem_seen a
    · intro n atMost a here
      rcases Nat.lt_or_eq_of_le atMost with below | rfl
      · exact h.complete n (Nat.lt_succ_iff.mp below) a here
      · obtain ⟨b, before, leads⟩ := here.before
        rcases (mem_seen b).mp (h.complete s.level le_rfl b before) with visited | waits
        · exact h.closed b visited a leads
        · have := before.unique (h.next b waits)
          omega

variable [DecidableEq α] {succ : α → List α}

theorem visited_visit (a : α) (rest : List α) (s : Search α) :
    (s.visit succ a rest).visited = s.visited ++ [a] := by
  simp [visited, visit]

theorem Layered.visit (h : Layered r root s) (leads : ∀ a b, r a b ↔ b ∈ succ a) {a : α}
    {rest : List α} (front : s.current = a :: rest) :
    Layered r root (s.visit succ a rest) := by
  have found : ∀ b, b ∈ discover s.seen (succ a) ↔ r a b ∧ b ∉ s.seen := fun b => by
    rw [mem_discover, leads]
  have here : Distance r root s.level a := h.current a (front ▸ List.mem_cons_self)
  have seen : ∀ b, b ∈ (s.visit succ a rest).seen ↔
      b ∈ s.seen ∨ b ∈ discover s.seen (succ a) := fun b => by
    simp [Search.visit]
  refine ⟨?_, fun b => ?_, ?_, ?_, fun b member => ?_, ?_, ?_, fun n atMost b at_n => ?_, ?_⟩
  · have apart : (s.visited ++ (s.current ++ s.next) ++ discover s.seen (succ a)).Nodup := by
      refine List.nodup_append.mpr ⟨h.nodup, nodup_discover _ _, ?_⟩
      rintro b old c new rfl
      refine ((found b).mp new).2 ((h.mem_seen b).mpr ?_)
      simpa only [List.mem_append] using old
    rw [visited_visit]
    simpa [Search.visit, front] using apart
  · rw [seen b, h.mem_seen b, visited_visit, front]
    simp only [Search.visit, List.mem_append, List.mem_cons, List.not_mem_nil, or_false]
    tauto
  · intro p member
    rcases List.mem_append.mp member with old | new
    · exact h.order p old
    · rw [List.mem_singleton.mp new]
      exact here
  · intro p member
    rcases List.mem_append.mp member with old | new
    · exact h.below p old
    · exact (congrArg Prod.snd (List.mem_singleton.mp new)).le
  · exact h.current b (front ▸ List.mem_cons_of_mem a member)
  · intro b member
    rcases List.mem_append.mp member with old | new
    · exact h.next b old
    · obtain ⟨edge, new⟩ := (found b).mp new
      refine ⟨here.path.step edge, fun m path => ?_⟩
      show s.level + 1 ≤ m
      by_contra! shorter
      obtain ⟨n, at_n⟩ := reach_iff_distance.mp (reach_iff_path.mpr ⟨m, path⟩)
      have atMost := at_n.least m path
      exact new (h.complete n (by omega) b at_n)
  · intro b member c edge
    rw [seen c]
    rw [visited_visit, List.mem_append, List.mem_singleton] at member
    rcases member with old | rfl
    · exact Or.inl (h.closed b old c edge)
    · by_cases new : c ∈ s.seen
      · exact Or.inl new
      · exact Or.inr ((found c).mpr ⟨edge, new⟩)
  · exact (seen b).mpr (Or.inl (h.complete n atMost b at_n))
  · refine List.pairwise_append.mpr ⟨h.sorted, List.pairwise_singleton _ _, ?_⟩
    intro p old q new
    rw [List.mem_singleton.mp new]
    exact h.below p old

end Invariant

section Run

/-- The elements within the limit, each once and with its distance, the near ones first. -/
structure Levels (r : α → α → Prop) (root : α) (limit : Option Nat) (order : List (α × Nat)) :
    Prop where
  nodup : (order.map Prod.fst).Nodup
  mem : ∀ a n, (a, n) ∈ order ↔ Distance r root n a ∧ ∀ d ∈ limit, n ≤ d
  sorted : order.Pairwise fun p q => p.2 ≤ q.2

variable {r : α → α → Prop} {root : α} {s : Search α} {limit : Option Nat}

theorem Layered.levels (h : Layered r root s) (below : ∀ p ∈ s.order, ∀ d ∈ limit, p.2 ≤ d)
    (all : ∀ n a, Distance r root n a → (∀ d ∈ limit, n ≤ d) → a ∈ s.visited) :
    Levels r root limit s.order where
  nodup := (List.nodup_append.mp h.nodup).1
  mem a n := by
    constructor
    · intro member
      exact ⟨h.order _ member, below _ member⟩
    · rintro ⟨here, within⟩
      obtain ⟨⟨b, m⟩, member, rfl⟩ := List.mem_map.mp (all n a here within)
      rwa [here.unique (h.order _ member)]
  sorted := h.sorted

/-- When nothing is left, everything that can be reached was visited. -/
theorem Layered.levels_of_done (h : Layered r root s) (current : s.current = [])
    (next : s.next = []) (within : ∀ d ∈ limit, s.level ≤ d) : Levels r root limit s.order := by
  have done : ∀ a, a ∈ s.seen → a ∈ s.visited := by
    intro a member
    simpa [current, next] using (h.mem_seen a).mp member
  have all : ∀ a, Relation.ReflTransGen r root a → a ∈ s.visited := by
    intro a reached
    induction reached with
    | refl => exact done root (h.complete 0 (Nat.zero_le _) root distance_zero)
    | tail _ leads ih => exact done _ (h.closed _ ih _ leads)
  exact h.levels (fun p member d bound => (h.below p member).trans (within d bound))
    fun n a here _ => all a (reach_iff_distance.mpr ⟨n, here⟩)

/-- When the level exceeds the limit, everything within the limit was visited. -/
theorem Layered.levels_of_limit (h : Layered r root s) {d : Nat} (bound : d ∈ limit)
    (exceeds : d < s.level) (below : ∀ p ∈ s.order, p.2 ≤ d) : Levels r root limit s.order := by
  have only : ∀ e ∈ limit, e = d := fun e other => Option.mem_unique other bound
  refine h.levels (fun p member e other => only e other ▸ below p member) ?_
  intro n a here within
  have near : n ≤ d := within d bound
  rcases (h.mem_seen a).mp (h.complete n (by omega) a here) with visited | waits | waits
  · exact visited
  · have := here.unique (h.current a waits)
    omega
  · have := here.unique (h.next a waits)
    omega

variable [DecidableEq α] [Fintype α] {succ : α → List α}

/-- The search ends, with everything within the limit. -/
theorem Layered.run (h : Layered r root s) (leads : ∀ a b, r a b ↔ b ∈ succ a)
    (idle : s.current = [] → s.next = []) (within : ∀ d ∈ limit, s.level ≤ d) {fuel : Nat}
    (enough : Fintype.card α < fuel + s.order.length) :
    ∃ s', Search.run succ limit fuel s = some s' ∧ Levels r root limit s'.order := by
  induction fuel generalizing s with
  | zero =>
    have nodup : s.visited.Nodup := (List.nodup_append.mp h.nodup).1
    have atMost := nodup.length_le_card
    rw [visited, List.length_map] at atMost
    omega
  | succ fuel ih =>
    rw [Search.run]
    cases front : s.current with
    | nil => exact ⟨s, rfl, h.levels_of_done front (idle front) within⟩
    | cons a rest =>
      have visit := h.visit leads front
      have kept := visit.turn
      have order : (s.visit succ a rest).turn.order = s.order ++ [(a, s.level)] := by
        unfold Search.turn
        split <;> rfl
      dsimp only
      split
      · next past =>
        obtain ⟨d, bound, exceeds⟩ := past
        refine ⟨_, rfl, kept.levels_of_limit bound exceeds ?_⟩
        rw [order]
        exact fun p member => (visit.below p member).trans (within d bound)
      · next inside =>
        refine ih kept ?_ ?_ ?_
        · unfold Search.turn
          split
          · exact fun _ => rfl
          · next more => exact fun empty => (more empty).elim
        · intro d bound
          by_contra! exceeds
          exact inside ⟨d, bound, exceeds⟩
        · rw [order, List.length_append, List.length_singleton]
          omega

theorem run_start (leads : ∀ a b, r a b ↔ b ∈ succ a) (root : α) (limit : Option Nat) {fuel : Nat}
    (enough : Fintype.card α < fuel) :
    ∃ s', run succ limit fuel (start root) = some s' ∧ Levels r root limit s'.order :=
  layered_start.run leads (fun none => by cases none) (fun d _ => Nat.zero_le d) enough

end Run

section Markers

variable {s : Search α}

/-- What is left of a level in front of a marker, the next level behind it; no marker when
nothing is left. -/
def queue (s : Search α) : List (Option α) :=
  if s.current = [] then [] else s.current.map some ++ none :: s.next.map some

theorem queue_cons {a : α} {rest : List α} (front : s.current = a :: rest) :
    s.queue = some a :: (rest.map some ++ none :: s.next.map some) := by
  rw [queue, if_neg (by simp [front]), front]
  rfl

theorem queue_eq_nil : s.queue = [] ↔ s.current = [] := by
  unfold queue
  split
  · next empty => simp [empty]
  · next more => simp [more]

/-- The marker is taken out where a level ends, and put behind the next one. -/
theorem queue_turn (ends : s.current = []) :
    s.turn.queue = if s.next = [] then [] else s.next.map some ++ [none] := by
  rw [turn, if_pos ends, queue]
  rfl

end Markers

end Search

end Arthas.Lib.LevelSearch
