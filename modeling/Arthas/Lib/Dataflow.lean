import Mathlib.Data.Fintype.Card

/-!
Facts that spread over the edges of a graph, where a node may keep some of them out. A
table says which facts each node has. Nodes are visited in rounds; a round visits at least
the nodes behind those that the round before changed. Until a round changes nothing the
table only holds facts that arrive, and then it holds all of them.
-/

set_option autoImplicit false
set_option relaxedAutoImplicit false

namespace Arthas.Lib.Dataflow

variable {α β : Type*}

/-- Where facts start, over which edges they go, and which of them a node lets in. -/
structure System (α β : Type*) where
  starts : α → β → Prop
  edge : α → α → Prop
  passes : α → β → Prop

/-- The facts that each node has. -/
abbrev Table (α β : Type*) := α → β → Prop

namespace System

variable (S : System α β)

/-- A fact gets to a node in so many steps. -/
inductive ArrivesIn : Nat → α → β → Prop where
  | start {a : α} {b : β} : S.starts a b → ArrivesIn 0 a b
  | step {n : Nat} {a a' : α} {b : β} :
    ArrivesIn n a b → S.edge a a' → S.passes a' b → ArrivesIn (n + 1) a' b

def Arrives (a : α) (b : β) : Prop := ∃ n, S.ArrivesIn n a b

/-- The node has what it lets in of the facts of the nodes before it. -/
def Settled (m : Table α β) (a' : α) : Prop :=
  ∀ a b, S.edge a a' → m a b → S.passes a' b → m a' b

/-- A visit: the node gets what it lets in of the facts of the nodes before it. -/
def TakesIn (a' : α) (m m' : Table α β) : Prop :=
  ∀ c b, m' c b ↔ m c b ∨ c = a' ∧ ∃ a, S.edge a a' ∧ m a b ∧ S.passes a' b

/-- The nodes are visited in turn; those that got a new fact are noted. -/
inductive Round : List α → Table α β → List α → Table α β → Prop where
  | nil (m : Table α β) : Round [] m [] m
  | kept {a : α} {rest changed : List α} {m m₁ m' : Table α β} :
    S.TakesIn a m m₁ → (∀ b, m₁ a b → m a b) → Round rest m₁ changed m' →
    Round (a :: rest) m changed m'
  | changed {a : α} {rest changed : List α} {m m₁ m' : Table α β} {b : β} :
    S.TakesIn a m m₁ → m₁ a b → ¬ m a b → Round rest m₁ changed m' →
    Round (a :: rest) m (a :: changed) m'

variable {S}

section Arriving

theorem Arrives.start {a : α} {b : β} (h : S.starts a b) : S.Arrives a b := ⟨0, .start h⟩

theorem Arrives.step {a a' : α} {b : β} (h : S.Arrives a b) (leads : S.edge a a')
    (lets : S.passes a' b) : S.Arrives a' b := by
  obtain ⟨n, h⟩ := h
  exact ⟨n + 1, h.step leads lets⟩

/-- A table in which all nodes are settled has the facts that arrive. -/
theorem Arrives.of_settled {m : Table α β} (starts : ∀ a b, S.starts a b → m a b)
    (settled : ∀ a, S.Settled m a) {a : α} {b : β} (h : S.Arrives a b) : m a b := by
  obtain ⟨n, h⟩ := h
  induction h with
  | start first => exact starts _ _ first
  | step _ leads lets ih => exact settled _ _ _ leads ih lets

/-- A fact is at a node after exactly so many steps, and not after fewer. -/
structure AtDistance (S : System α β) (n : Nat) (a : α) (b : β) : Prop where
  arrives : S.ArrivesIn n a b
  least : ∀ m, S.ArrivesIn m a b → n ≤ m

theorem Arrives.atDistance {a : α} {b : β} (h : S.Arrives a b) : ∃ n, S.AtDistance n a b := by
  classical
  exact ⟨Nat.find h, Nat.find_spec h, fun m arrives => Nat.find_min' h arrives⟩

theorem AtDistance.before {n : Nat} {a' : α} {b : β} (h : S.AtDistance (n + 1) a' b) :
    ∃ a, S.AtDistance n a b := by
  cases h.arrives with
  | @step _ a _ _ arrives leads lets =>
    refine ⟨a, arrives, fun m sooner => ?_⟩
    have atLeast := h.least (m + 1) (sooner.step leads lets)
    omega

theorem AtDistance.all_before {n : Nat} {a : α} {b : β} (h : S.AtDistance n a b) {m : Nat}
    (atMost : m ≤ n) : ∃ a', S.AtDistance m a' b := by
  induction n generalizing a with
  | zero =>
    obtain rfl : m = 0 := by omega
    exact ⟨a, h⟩
  | succ n ih =>
    rcases Nat.eq_or_lt_of_le atMost with rfl | less
    · exact ⟨a, h⟩
    · obtain ⟨a', before⟩ := h.before
      exact ih before (by omega)

/-- A fact meets a new node at each step of a shortest way. -/
theorem AtDistance.lt_card [Fintype α] {n : Nat} {a : α} {b : β} (h : S.AtDistance n a b) :
    n < Fintype.card α := by
  choose node there using fun m : Fin (n + 1) => h.all_before (Nat.lt_succ_iff.mp m.isLt)
  have injective : Function.Injective node := by
    intro i j same
    have ij := (there i).least j (same ▸ (there j).arrives)
    have ji := (there j).least i (same ▸ (there i).arrives)
    exact Fin.ext (ij.antisymm ji)
  have atMost := Fintype.card_le_of_injective node injective
  rw [Fintype.card_fin] at atMost
  omega

end Arriving

section Visits

variable {m m' : Table α β} {a' : α}

theorem TakesIn.mono (h : S.TakesIn a' m m') {c : α} {b : β} (has : m c b) : m' c b :=
  (h c b).mpr (Or.inl has)

theorem TakesIn.takes (h : S.TakesIn a' m m') {a : α} {b : β} (leads : S.edge a a')
    (has : m a b) (lets : S.passes a' b) : m' a' b :=
  (h a' b).mpr (Or.inr ⟨rfl, a, leads, has, lets⟩)

theorem TakesIn.other (h : S.TakesIn a' m m') {c : α} (other : c ≠ a') {b : β} :
    m' c b ↔ m c b := by
  rw [h c b]
  tauto

/-- The node that was visited is settled. -/
theorem TakesIn.settled (h : S.TakesIn a' m m') : S.Settled m' a' := by
  intro a b leads has lets
  rcases (h a b).mp has with before | ⟨rfl, -⟩
  · exact h.takes leads before lets
  · exact has

/-- A visit leaves the other nodes settled, but for those behind a node that got new facts. -/
theorem TakesIn.settled_of (h : S.TakesIn a' m m') {c : α} (settled : S.Settled m c)
    (kept : S.edge a' c → ∀ b, m' a' b → m a' b) : S.Settled m' c := by
  intro a b leads has lets
  rcases eq_or_ne a a' with rfl | other
  · exact h.mono (settled a b leads (kept leads b has) lets)
  · exact h.mono (settled a b leads ((h.other other).mp has) lets)

theorem TakesIn.arrives (h : S.TakesIn a' m m') (sound : ∀ a b, m a b → S.Arrives a b)
    {c : α} {b : β} (has : m' c b) : S.Arrives c b := by
  rcases (h c b).mp has with before | ⟨rfl, a, leads, there, lets⟩
  · exact sound c b before
  · exact (sound a b there).step leads lets

end Visits

section Rounds

variable {todo changed : List α} {m m' : Table α β}

theorem Round.mono (h : S.Round todo m changed m') {a : α} {b : β} (has : m a b) : m' a b := by
  induction h with
  | nil => exact has
  | kept visit _ _ ih => exact ih (visit.mono has)
  | changed visit _ _ _ ih => exact ih (visit.mono has)

theorem Round.arrives (h : S.Round todo m changed m') (sound : ∀ a b, m a b → S.Arrives a b) :
    ∀ a b, m' a b → S.Arrives a b := by
  induction h with
  | nil => exact sound
  | kept visit _ _ ih => exact ih fun _ _ => visit.arrives sound
  | changed visit _ _ _ ih => exact ih fun _ _ => visit.arrives sound

theorem Round.takes (h : S.Round todo m changed m') {a a' : α} {b : β} (visited : a' ∈ todo)
    (leads : S.edge a a') (has : m a b) (lets : S.passes a' b) : m' a' b := by
  induction h with
  | nil => exact (List.not_mem_nil visited).elim
  | kept visit _ round ih =>
    rcases List.mem_cons.mp visited with rfl | later
    · exact round.mono (visit.takes leads has lets)
    · exact ih later (visit.mono has)
  | changed visit _ _ round ih =>
    rcases List.mem_cons.mp visited with rfl | later
    · exact round.mono (visit.takes leads has lets)
    · exact ih later (visit.mono has)

/-- After a round, a node that is not settled was neither visited nor settled before, or is
behind one that the round changed. -/
theorem Round.unsettled (h : S.Round todo m changed m') {c : α} (not : ¬ S.Settled m' c) :
    ¬ S.Settled m c ∧ c ∉ todo ∨ ∃ a ∈ changed, S.edge a c := by
  induction h with
  | nil => exact Or.inl ⟨not, List.not_mem_nil⟩
  | @kept a _ _ _ m₁ _ visit same _ ih =>
    rcases ih not with ⟨before, notLater⟩ | behind
    · have other : c ≠ a := fun same => before (same ▸ visit.settled)
      exact Or.inl ⟨fun settled => before (visit.settled_of settled fun _ => same),
        fun member => (List.mem_cons.mp member).elim other notLater⟩
    · exact Or.inr behind
  | @changed a _ _ _ m₁ _ _ visit _ _ _ ih =>
    rcases ih not with ⟨before, notLater⟩ | ⟨a', member, leads⟩
    · have other : c ≠ a := fun same => before (same ▸ visit.settled)
      by_cases leads : S.edge a c
      · exact Or.inr ⟨a, List.mem_cons_self, leads⟩
      · exact Or.inl ⟨fun settled => before
          (visit.settled_of settled fun there => (leads there).elim),
          fun member => (List.mem_cons.mp member).elim other notLater⟩
    · exact Or.inr ⟨a', List.mem_cons_of_mem a member, leads⟩

/-- A round that noted a node brought a new fact. -/
theorem Round.news (h : S.Round todo m changed m') (some : changed ≠ []) :
    ∃ a b, m' a b ∧ ¬ m a b := by
  induction h with
  | nil => exact absurd rfl some
  | kept visit same _ ih =>
    obtain ⟨a, b, now, before⟩ := ih some
    exact ⟨a, b, now, fun has => before (visit.mono has)⟩
  | @changed a _ _ _ _ _ b _ gets new round _ => exact ⟨a, b, round.mono gets, new⟩

theorem Round.changed_subset (h : S.Round todo m changed m') : changed ⊆ todo := by
  induction h with
  | nil => exact List.Subset.refl _
  | kept _ _ _ ih => exact fun a member => List.mem_cons_of_mem _ (ih member)
  | changed _ _ _ _ ih => exact List.cons_subset_cons _ ih

theorem Round.nodup (h : S.Round todo m changed m') (nodup : todo.Nodup) : changed.Nodup := by
  induction h with
  | nil => exact nodup
  | kept _ _ _ ih => exact ih (List.nodup_cons.mp nodup).2
  | changed _ _ _ round ih =>
    obtain ⟨notLater, nodup⟩ := List.nodup_cons.mp nodup
    exact List.nodup_cons.mpr ⟨fun member => notLater (round.changed_subset member), ih nodup⟩

end Rounds

/-- Before the round with this number: the table has what starts and what arrives in as many
steps, it has no more than arrives, and the nodes not settled are to be visited. -/
structure Pending (S : System α β) (round : Nat) (todo : List α) (m : Table α β) : Prop where
  starts : ∀ a b, S.starts a b → m a b
  sound : ∀ a b, m a b → S.Arrives a b
  reached : ∀ n ≤ round, ∀ a b, S.ArrivesIn n a b → m a b
  unsettled : ∀ a, ¬ S.Settled m a → a ∈ todo

section Pending

variable {count : Nat} {todo changed : List α} {m m' : Table α β}

/-- The first round visits every node that an edge leads to. -/
theorem pending_start (all : ∀ a a', S.edge a a' → a' ∈ todo) :
    S.Pending 0 todo S.starts where
  starts _ _ has := has
  sound _ _ := Arrives.start
  reached := by
    intro n atMost a b arrives
    obtain rfl : n = 0 := by omega
    cases arrives
    assumption
  unsettled := by
    intro a' not
    by_contra notVisited
    exact not fun a _ leads => absurd (all a a' leads) notVisited

/-- A round after which the nodes behind the changed ones are to be visited. -/
theorem Pending.round {next : List α} (h : S.Pending count todo m)
    (run : S.Round todo m changed m')
    (behind : ∀ a ∈ changed, ∀ a', S.edge a a' → a' ∈ next) : S.Pending (count + 1) next m' where
  starts a b has := run.mono (h.starts a b has)
  sound := run.arrives h.sound
  reached := by
    intro n atMost a' b arrives
    cases arrives with
    | start has => exact run.mono (h.starts a' b has)
    | @step n a _ _ arrives leads lets =>
      have before := h.reached n (by omega) a b arrives
      by_cases settled : S.Settled m a'
      · exact run.mono (settled a b leads before lets)
      · exact run.takes (h.unsettled a' settled) leads before lets
  unsettled := by
    intro a' not
    rcases run.unsettled not with ⟨before, notVisited⟩ | ⟨a, member, leads⟩
    · exact absurd (h.unsettled a' before) notVisited
    · exact behind a member a' leads

/-- When a round changes nothing, the table is what arrives. -/
theorem Pending.done (h : S.Pending count todo m) (run : S.Round todo m [] m') (a : α) (b : β) :
    m' a b ↔ S.Arrives a b := by
  have last : S.Pending (count + 1) [] m' :=
    h.round run fun _ member => (List.not_mem_nil member).elim
  refine ⟨last.sound a b, Arrives.of_settled last.starts fun a => ?_⟩
  by_contra not
  exact List.not_mem_nil (last.unsettled a not)

/-- Each round that changes something comes before as many rounds as there are nodes. -/
theorem Pending.round_lt [Fintype α] (h : S.Pending count todo m)
    (run : S.Round todo m changed m') (some : changed ≠ []) : count + 1 < Fintype.card α := by
  obtain ⟨a, b, now, before⟩ := run.news some
  obtain ⟨n, distance⟩ := (run.arrives h.sound a b now).atDistance
  have late : count < n := by
    by_contra notLate
    exact before (h.reached n (by omega) a b distance.arrives)
  have := distance.lt_card
  omega

end Pending

end System

end Arthas.Lib.Dataflow
