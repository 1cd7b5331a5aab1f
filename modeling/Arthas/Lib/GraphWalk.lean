import Arthas.Lib.Worklist

/-!
A walk over a graph that does something at every node. The nodes are queued in some order
and marked, so that none is queued twice. A walk does the same as a loop over a list that
has each node behind the start once, whatever is done at the nodes.
-/

set_option autoImplicit false
set_option relaxedAutoImplicit false

namespace Arthas.Lib.GraphWalk

open Worklist Relation

variable {α σ : Type*}

structure MarkedQueue (α : Type*) where
  queue : List α
  marked : Finset α

namespace MarkedQueue

variable [DecidableEq α] (d : Discipline α)

def push (q : MarkedQueue α) (a : α) : MarkedQueue α := ⟨d.push a q.queue, insert a q.marked⟩

def enqueue (q : MarkedQueue α) (a : α) : MarkedQueue α := if a ∈ q.marked then q else q.push d a

/-- The nodes that a walk starts from are queued without a look at the marks. -/
def start (nodes : List α) : MarkedQueue α := nodes.foldl (push d) ⟨[], ∅⟩

end MarkedQueue

/-- The walk; what is done at a node may be undefined. -/
def walk [DecidableEq α] (d : Discipline α) (next : α → List α) (visit : α → σ → Option σ) :
    Nat → MarkedQueue α → σ → Option σ
  | 0, _, _ => none
  | fuel + 1, q, s =>
    match q.queue with
    | [] => some s
    | a :: rest =>
      (visit a s).bind
        (walk d next visit fuel ((next a).foldl (.enqueue d) { q with queue := rest }))

section Walk

variable {d : Discipline α} {next : α → List α} {nodes : List α} {q : MarkedQueue α}
  {done : Finset α}

/-- A path leads to the node from one of those given. -/
def Behind (next : α → List α) (nodes : List α) (v : α) : Prop :=
  ∃ u ∈ nodes, ReflTransGen (fun u v => v ∈ next u) u v

theorem Behind.tail {u v : α} (behind : Behind next nodes u) (leads : v ∈ next u) :
    Behind next nodes v := by
  obtain ⟨first, member, path⟩ := behind
  exact ⟨first, member, path.tail leads⟩

variable [DecidableEq α]

abbrev Queued (next : α → List α) (nodes : List α) (done : Finset α) (q : MarkedQueue α) : Prop :=
  Frontier (Behind next nodes) (· ∈ q.marked) done q.queue

theorem mem_marked_enqueue {a v : α} : v ∈ (q.enqueue d a).marked ↔ v ∈ q.marked ∨ v = a := by
  rw [MarkedQueue.enqueue]
  split
  · next old => exact ⟨Or.inl, fun h => h.elim id fun same => same ▸ old⟩
  · simp [MarkedQueue.push, or_comm]

theorem Queued.push {a : α} (h : Queued next nodes done q) (behind : Behind next nodes a)
    (new : a ∉ q.marked) : Queued next nodes done (q.push d a) :=
  h.enqueue d behind new fun v => by simp [MarkedQueue.push, or_comm]

theorem Queued.foldl_enqueue (as : List α) (h : Queued next nodes done q)
    (behind : ∀ a ∈ as, Behind next nodes a) :
    Queued next nodes done (as.foldl (.enqueue d) q) ∧
      ∀ v, v ∈ (as.foldl (.enqueue d) q).marked ↔ v ∈ q.marked ∨ v ∈ as := by
  induction as generalizing q with
  | nil => exact ⟨h, by simp⟩
  | cons a as ih =>
    have first : Queued next nodes done (q.enqueue d a) := by
      rw [MarkedQueue.enqueue]
      split
      · exact h
      · next new => exact Queued.push h (behind a List.mem_cons_self) new
    obtain ⟨frontier, marked⟩ := ih first fun a' member => behind a' (List.mem_cons_of_mem a member)
    refine ⟨frontier, fun v => ?_⟩
    rw [List.foldl_cons, marked, mem_marked_enqueue, List.mem_cons, or_assoc]

theorem Queued.foldl_push (as : List α) (h : Queued next nodes done q)
    (behind : ∀ a ∈ as, Behind next nodes a) (nodup : as.Nodup) (new : ∀ a ∈ as, a ∉ q.marked) :
    Queued next nodes done (as.foldl (.push d) q) ∧
      ∀ v, v ∈ (as.foldl (.push d) q).marked ↔ v ∈ q.marked ∨ v ∈ as := by
  induction as generalizing q with
  | nil => exact ⟨h, by simp⟩
  | cons a as ih =>
    obtain ⟨notLater, nodup⟩ := List.nodup_cons.mp nodup
    have marks : ∀ v, v ∈ (q.push d a).marked ↔ v ∈ q.marked ∨ v = a := fun v => by
      simp [MarkedQueue.push, or_comm]
    obtain ⟨frontier, marked⟩ := ih
      (Queued.push h (behind a List.mem_cons_self) (new a List.mem_cons_self))
      (fun a' member => behind a' (List.mem_cons_of_mem a member)) nodup
      fun a' member old => by
        rcases (marks a').mp old with old | rfl
        · exact new a' (List.mem_cons_of_mem a member) old
        · exact notLater member
    refine ⟨frontier, fun v => ?_⟩
    rw [List.foldl_cons, marked, marks, List.mem_cons, or_assoc]

omit [DecidableEq α] in
/-- When nothing is queued any more, the nodes behind the start are done. -/
theorem Queued.finished (h : Queued next nodes done q) (starts : ∀ a ∈ nodes, a ∈ q.marked)
    (closed : Closed (fun u v => v ∈ next u) (· ∈ q.marked) done) (front : q.queue = []) {v : α} :
    v ∈ done ↔ Behind next nodes v := by
  have marked : ∀ v, v ∈ q.marked → v ∈ done := fun v marked =>
    ((h.mem v).mp marked).resolve_right (by simp [front])
  constructor
  · exact fun member => h.reach v (h.marked_of_done member)
  · rintro ⟨u, member, path⟩
    induction path with
    | refl => exact marked u (starts u member)
    | tail _ leads ih => exact marked _ (closed _ ih _ leads)

/-- The node at the front is done once its successors are queued. -/
theorem Queued.advance {a : α} {rest : List α} (h : Queued next nodes done q)
    (closed : Closed (fun u v => v ∈ next u) (· ∈ q.marked) done) (front : q.queue = a :: rest) :
    let q' := (next a).foldl (.enqueue d) { q with queue := rest }
    Queued next nodes (insert a done) q' ∧ (∀ v ∈ q.marked, v ∈ q'.marked) ∧
      Closed (fun u v => v ∈ next u) (· ∈ q'.marked) (insert a done) := by
  have popped : Queued next nodes (insert a done) { q with queue := rest } :=
    (front ▸ h : Frontier _ _ _ (a :: rest)).pop
  have here : Behind next nodes a :=
    popped.reach a (popped.marked_of_done (Finset.mem_insert_self a done))
  obtain ⟨frontier, marked⟩ := Queued.foldl_enqueue (d := d) (next a) popped
    fun v leads => here.tail leads
  refine ⟨frontier, fun v old => (marked v).mpr (Or.inl old), fun v vDone w leads => ?_⟩
  rcases Finset.mem_insert.mp vDone with rfl | vDone
  · exact (marked w).mpr (Or.inr leads)
  · exact (marked w).mpr (Or.inl (closed v vDone w leads))

/-- The rest of a walk is a loop over the nodes that are left. -/
theorem walk_eq_foldlM [Fintype α] {fuel : Nat} (enough : Fintype.card α < fuel + done.card)
    (h : Queued next nodes done q) (starts : ∀ a ∈ nodes, a ∈ q.marked)
    (closed : Closed (fun u v => v ∈ next u) (· ∈ q.marked) done) :
    ∃ l : List α, l.Nodup ∧ (∀ v ∈ l, v ∉ done) ∧ (∀ v, v ∈ done ∨ v ∈ l ↔ Behind next nodes v) ∧
      ∀ (visit : α → σ → Option σ) (s : σ),
        walk d next visit fuel q s = l.foldlM (fun s a => visit a s) s := by
  induction fuel generalizing done q with
  | zero =>
    have atMost := Finset.card_le_univ done
    omega
  | succ fuel ih =>
    cases front : q.queue with
    | nil =>
      refine ⟨[], List.nodup_nil, by simp, fun v => ?_, fun visit s => by rw [walk, front]; rfl⟩
      rw [or_iff_left List.not_mem_nil]
      exact h.finished starts closed front
    | cons a rest =>
      have new : a ∉ done := h.waiting a (front ▸ List.mem_cons_self)
      have left : Fintype.card α < fuel + (insert a done).card := by
        rw [Finset.card_insert_of_notMem new]
        omega
      obtain ⟨queued, kept, closed⟩ := h.advance (d := d) closed front
      obtain ⟨l, nodup, notDone, members, same⟩ := ih left queued
        (fun u member => kept u (starts u member)) closed
      refine ⟨a :: l, List.nodup_cons.mpr ⟨fun later => notDone a later ?_, nodup⟩, ?_, fun v => ?_,
        fun visit s => ?_⟩
      · exact Finset.mem_insert_self a done
      · intro v member vDone
        rcases List.mem_cons.mp member with rfl | later
        · exact new vDone
        · exact notDone v later (Finset.mem_insert_of_mem vDone)
      · rw [← members v, Finset.mem_insert, List.mem_cons]
        tauto
      · rw [walk, front, List.foldlM_cons]
        dsimp only
        cases visit a s with
        | none => rfl
        | some s' => exact same visit s'

/-- A walk is a loop over the nodes behind the start, each once. -/
theorem walk_start [Fintype α] {fuel : Nat} (enough : Fintype.card α < fuel)
    (nodup : nodes.Nodup) :
    ∃ l : List α, l.Nodup ∧ (∀ v, v ∈ l ↔ Behind next nodes v) ∧
      ∀ (visit : α → σ → Option σ) (s : σ),
        walk d next visit fuel (.start d nodes) s = l.foldlM (fun s a => visit a s) s := by
  have empty : Queued next nodes ∅ (⟨[], ∅⟩ : MarkedQueue α) :=
    Frontier.empty fun v => Finset.notMem_empty v
  obtain ⟨frontier, marked⟩ := Queued.foldl_push (d := d) nodes empty
    (fun a member => ⟨a, member, .refl⟩) nodup fun a _ => Finset.notMem_empty a
  have closed : Closed (fun u v => v ∈ next u)
      (· ∈ (MarkedQueue.start d nodes).marked) ∅ :=
    fun v member => (Finset.notMem_empty v member).elim
  obtain ⟨l, lNodup, -, members, same⟩ := walk_eq_foldlM (by simpa using enough) frontier
    (fun a member => (marked a).mpr (Or.inr member)) closed
  exact ⟨l, lNodup, fun v => by simpa using members v, same⟩

end Walk

end Arthas.Lib.GraphWalk
