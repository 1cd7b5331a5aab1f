import Mathlib
import Arthas.Slicing.Comparators

/-!
The one line on which the distances of the targets in all functions stand. The targets of a
node, seen from it, stand in a documented order; their distances keep that order exactly when
the first function beside the own one stays clear of the own instructions before the node.
-/

set_option autoImplicit false
set_option relaxedAutoImplicit false

namespace Arthas.Slicing

open Arthas.Lib

/-- A target seen from a node: in the own function, so many instructions after the node, or at
a position of one of the other functions, which are counted from 1 as they come up. -/
inductive Spot where
  | own (offset : Int)
  | foreign (group position : Nat)
  deriving DecidableEq

namespace Spot

/-- First the own instructions before the node, the nearest first; then the other functions, one
after the other, each from its last instruction on; then the own ones after the node. -/
def Before : Spot → Spot → Prop
  | own o, own o' => o < 0 ∧ (0 < o' ∨ o' < o) ∨ 0 < o ∧ o < o'
  | own o, foreign _ _ => o < 0
  | foreign _ _, own o => 0 < o
  | foreign k p, foreign k' p' => k < k' ∨ k = k' ∧ p' < p

/-- The place on the line, with 100000 places for each of the other functions. -/
def line : Spot → Int
  | own o => o
  | foreign k p => p - 100000 * k

/-- The distance: the place as a 64-bit value. -/
def distance (s : Spot) : Int64 := Int64.ofInt s.line

/-- The spot is one of a function with at most 100000 instructions. -/
def Valid : Spot → Prop
  | own o => -100000 < o ∧ o < 100000
  | foreign k p => 0 < k ∧ 0 < p ∧ p ≤ 100000

/-- The distances can be sorted, and they have the order of the spots. -/
structure KeepsOrder (T : Set Spot) : Prop where
  defined : ∀ s ∈ T, s.distance ≠ Int64.minValue
  zero : ∀ z ∈ T, z.distance = 0 → ∀ s ∈ T, ∀ t ∈ T, s.distance < 0 → t.distance < 0 →
    s.distance = t.distance
  order : ∀ s ∈ T, ∀ t ∈ T, s.Before t → ComputedBefore s.distance.toInt t.distance.toInt

/-- What keeps the distances in the order of the spots: the other functions stay clear of the
own instructions before the node; nothing is before the node beside a target at its place in
another function, and at most one target beside an edge from the node to itself; and at most
one target lies below the least 64-bit value, when none is after the node. -/
structure Separated (T : Set Spot) : Prop where
  near : ∀ o k p, own o ∈ T → o < 0 → foreign k p ∈ T → (foreign k p).line < o
  last : ∀ k p, foreign k p ∈ T → (foreign k p).line = 0 → ∀ s ∈ T, 0 ≤ s.line
  self : own 0 ∈ T → ∀ s ∈ T, ∀ t ∈ T, s.line < 0 → t.line < 0 → s = t
  far : ∀ k p, foreign k p ∈ T → (foreign k p).line ≤ -2 ^ 63 →
    (foreign k p).line ≠ -2 ^ 63 ∧ (∀ o, own o ∈ T → o ≤ 0) ∧
      ∀ k' p', foreign k' p' ∈ T → (foreign k' p').line ≤ -2 ^ 63 → k' = k ∧ p' = p

section Distances

variable {s : Spot}

theorem toInt_distance (s : Spot) : s.distance.toInt = s.line.bmod (2 ^ 64) := Int64.toInt_ofInt

/-- Within 64 bits, the distance is the place on the line. -/
theorem distance_of_within (lower : -2 ^ 63 ≤ s.line) (upper : s.line < 2 ^ 63) :
    s.distance.toInt = s.line := by
  rw [toInt_distance, Int.bmod_eq_of_le] <;> omega

/-- Beyond the least value, the distance is positive. -/
theorem distance_of_beyond (lower : -2 ^ 64 < s.line) (upper : s.line < -2 ^ 63) :
    s.distance.toInt = s.line + 2 ^ 64 := by
  have turned : (s.line + 2 ^ 64).bmod (2 ^ 64) = s.line.bmod (2 ^ 64) :=
    Int.add_bmod_right s.line (2 ^ 64)
  rw [toInt_distance, ← turned, Int.bmod_eq_of_le] <;> omega

theorem Valid.line_lt (valid : s.Valid) : s.line < 2 ^ 63 := by
  cases s with
  | own o =>
    obtain ⟨-, upper⟩ := valid
    show o < 2 ^ 63
    omega
  | foreign k p =>
    obtain ⟨positive, -, upper⟩ := valid
    show (p : Int) - 100000 * k < 2 ^ 63
    omega

theorem own_distance {o : Int} (valid : (own o).Valid) : (own o).distance.toInt = o := by
  obtain ⟨lower, upper⟩ := valid
  refine distance_of_within ?_ ?_ <;> simp only [line] <;> omega

theorem foreign_distance {k p : Nat} (valid : (foreign k p).Valid)
    (within : -2 ^ 63 ≤ (foreign k p).line) :
    (foreign k p).distance.toInt = p - 100000 * k :=
  distance_of_within within valid.line_lt

theorem foreign_line_le {k p : Nat} (valid : (foreign k p).Valid) : (foreign k p).line ≤ 0 := by
  obtain ⟨positive, -, upper⟩ := valid
  simp only [line]
  omega

/-- Spots of the other functions are apart on the line. -/
theorem foreign_before_iff {k p k' p' : Nat} (valid : (foreign k p).Valid)
    (valid' : (foreign k' p').Valid) :
    (foreign k p).Before (foreign k' p') ↔ (foreign k' p').line < (foreign k p).line := by
  obtain ⟨-, lower, upper⟩ := valid
  obtain ⟨-, lower', upper'⟩ := valid'
  simp only [Before, line]
  omega

end Distances

section Separation

variable {T : Set Spot}

/-- With a spot of some function, there is one of each function before. -/
def Counted (T : Set Spot) : Prop :=
  ∀ k p, foreign k p ∈ T → ∀ j, 0 < j → j ≤ k → ∃ q, foreign j q ∈ T

theorem Separated.distance_cases (separated : Separated T) (valid : ∀ s ∈ T, s.Valid)
    (counted : Counted T) {s : Spot} (member : s ∈ T) :
    (-2 ^ 63 < s.line ∧ s.distance.toInt = s.line) ∨
    ∃ k p, s = foreign k p ∧ s.line < -2 ^ 63 ∧ -2 ^ 63 - 200000 ≤ s.line ∧
      s.distance.toInt = s.line + 2 ^ 64 := by
  by_cases within : -2 ^ 63 < s.line
  · exact Or.inl ⟨within, distance_of_within within.le (valid s member).line_lt⟩
  cases s with
  | own o =>
    obtain ⟨lower, -⟩ := valid _ member
    simp only [line] at within
    omega
  | foreign k p =>
    obtain ⟨notLeast, -, only⟩ := separated.far k p member (not_lt.mp within)
    have bound : -2 ^ 63 - 200000 ≤ (foreign k p).line := by
      by_contra! below
      obtain ⟨-, lower, upper⟩ := valid _ member
      simp only [line] at below
      obtain ⟨q, before⟩ := counted k p member (k - 1) (by omega) (by omega)
      obtain ⟨-, lower', upper'⟩ := valid _ before
      have same := (only (k - 1) q before (by simp only [line]; omega)).1
      omega
    have beyond : (foreign k p).line < -2 ^ 63 := lt_of_le_of_ne (not_lt.mp within) notLeast
    exact Or.inr ⟨k, p, rfl, beyond, bound, distance_of_beyond (by omega) beyond⟩

theorem Separated.keepsOrder (separated : Separated T) (valid : ∀ s ∈ T, s.Valid)
    (counted : Counted T) : KeepsOrder T where
  defined s member := by
    rw [Ne, minValue_iff]
    rcases separated.distance_cases valid counted member with ⟨_, _⟩ | ⟨_, _, _, _, _, _⟩ <;>
      omega
  zero z hz here s hs t ht negative negative' := by
    rw [zero_iff] at here
    rw [neg_iff] at negative negative'
    have place : ∀ {u : Spot}, u ∈ T → u.distance.toInt ≤ 0 → u.line = u.distance.toInt := by
      intro u hu notPositive
      rcases separated.distance_cases valid counted hu with ⟨_, _⟩ | ⟨_, _, _, _, _, _⟩ <;> omega
    have zero := place hz here.le
    have first := place hs negative.le
    have second := place ht negative'.le
    cases z with
    | own o =>
      simp only [line] at zero
      obtain rfl : o = 0 := by omega
      rw [separated.self hz s hs t ht (by omega) (by omega)]
    | foreign k p =>
      have := separated.last k p hz (by omega) s hs
      omega
  order s hs t ht before := by
    have first := separated.distance_cases valid counted hs
    have second := separated.distance_cases valid counted ht
    have validS := valid s hs
    have validT := valid t ht
    unfold ComputedBefore
    cases s with
    | own o =>
      obtain ⟨lower, upper⟩ := validS
      rw [own_distance ⟨lower, upper⟩]
      cases t with
      | own o' =>
        rw [own_distance validT]
        simp only [Before] at before
        omega
      | foreign k p =>
        have negative : o < 0 := before
        have near := separated.near o k p hs negative ht
        rcases second with ⟨_, _⟩ | ⟨_, _, _, _, _, _⟩ <;> omega
    | foreign k p =>
      cases t with
      | own o =>
        have after : 0 < o := before
        rw [own_distance validT]
        rcases first with ⟨_, _⟩ | ⟨_, _, _, beyond, _, _⟩
        · have := foreign_line_le validS
          omega
        · have := (separated.far k p hs beyond.le).2.1 o ht
          omega
      | foreign k' p' =>
        rw [foreign_before_iff validS validT] at before
        rcases first with ⟨_, _⟩ | ⟨_, _, _, beyond, _, _⟩
        · have notAfter : (foreign k p).line ≤ 0 := foreign_line_le validS
          have negative : (foreign k p).line ≠ 0 := by
            intro zero
            have := separated.last k p hs zero _ ht
            omega
          rcases second with ⟨_, _⟩ | ⟨_, _, _, _, _, _⟩ <;> omega
        · obtain ⟨-, -, only⟩ := separated.far k p hs beyond.le
          obtain ⟨rfl, rfl⟩ := only k' p' ht (by omega)
          omega

theorem Valid.ext {k p k' p' : Nat} (valid : (foreign k p).Valid)
    (valid' : (foreign k' p').Valid) (same : (foreign k p).line = (foreign k' p').line) :
    k = k' ∧ p = p' := by
  obtain ⟨-, lower, upper⟩ := valid
  obtain ⟨-, lower', upper'⟩ := valid'
  simp only [line] at same
  omega

/-- Two spots far below the least value would come out in the wrong order. -/
theorem KeepsOrder.bound (keeps : KeepsOrder T) (valid : ∀ s ∈ T, s.Valid) (counted : Counted T)
    {k p : Nat} (member : foreign k p ∈ T) : -2 ^ 63 - 200000 < (foreign k p).line := by
  by_contra! below
  have validK := valid _ member
  obtain ⟨-, lower, upper⟩ := validK
  simp only [line] at below
  obtain ⟨q, first⟩ := counted k p member 92233720368549 (by omega) (by omega)
  obtain ⟨q', second⟩ := counted k p member 92233720368550 (by omega) (by omega)
  have validQ := valid _ first
  have validQ' := valid _ second
  have order := keeps.order _ first _ second (Or.inl (by omega))
  obtain ⟨-, _, _⟩ := validQ
  obtain ⟨-, _, _⟩ := validQ'
  rw [distance_of_beyond (by simp only [line]; omega) (by simp only [line]; omega),
    distance_of_beyond (by simp only [line]; omega) (by simp only [line]; omega)] at order
  simp only [ComputedBefore, line] at order
  omega

theorem KeepsOrder.distance_cases (keeps : KeepsOrder T) (valid : ∀ s ∈ T, s.Valid)
    (counted : Counted T) {s : Spot} (member : s ∈ T) :
    (-2 ^ 63 < s.line ∧ s.distance.toInt = s.line) ∨
    ∃ k p, s = foreign k p ∧ s.line < -2 ^ 63 ∧ -2 ^ 63 - 200000 < s.line ∧
      s.distance.toInt = s.line + 2 ^ 64 := by
  have upper := (valid s member).line_lt
  by_cases within : -2 ^ 63 ≤ s.line
  · have equal := distance_of_within within upper
    have notLeast := mt minValue_iff.mpr (keeps.defined s member)
    exact Or.inl ⟨lt_of_le_of_ne within fun least => notLeast (by omega), equal⟩
  cases s with
  | own o =>
    obtain ⟨lower, -⟩ := valid _ member
    simp only [line] at within
    omega
  | foreign k p =>
    have bound := keeps.bound valid counted member
    exact Or.inr ⟨k, p, rfl, not_le.mp within, bound,
      distance_of_beyond (by omega) (not_le.mp within)⟩

/-- Below the least value there are others in the second and the third function, and their
distances are negative. -/
theorem Counted.others (counted : Counted T) (valid : ∀ s ∈ T, s.Valid) {k p : Nat}
    (member : foreign k p ∈ T) (beyond : (foreign k p).line < -2 ^ 63) :
    ∃ q q', foreign 2 q ∈ T ∧ foreign 3 q' ∈ T ∧ (foreign 2 q).distance.toInt < 0 ∧
      (foreign 3 q').distance.toInt < (foreign 2 q).distance.toInt := by
  have validK := valid _ member
  simp only [line] at beyond
  obtain ⟨-, _, _⟩ := validK
  obtain ⟨q, second⟩ := counted k p member 2 (by omega) (by omega)
  obtain ⟨q', third⟩ := counted k p member 3 (by omega) (by omega)
  have validQ := valid _ second
  have validQ' := valid _ third
  refine ⟨q, q', second, third, ?_⟩
  rw [foreign_distance validQ (by simp only [line]; omega),
    foreign_distance validQ' (by simp only [line]; omega)]
  obtain ⟨-, _, _⟩ := validQ
  obtain ⟨-, _, _⟩ := validQ'
  omega

section Converse

variable (keeps : KeepsOrder T) (valid : ∀ s ∈ T, s.Valid) (counted : Counted T)

include keeps valid counted

theorem KeepsOrder.near {o : Int} {k p : Nat} (own : own o ∈ T) (negative : o < 0)
    (foreign : foreign k p ∈ T) : (Spot.foreign k p).line < o := by
  have order := keeps.order _ own _ foreign negative
  rw [own_distance (valid _ own)] at order
  have notAfter := foreign_line_le (valid _ foreign)
  obtain ⟨lower, -⟩ := valid _ own
  unfold ComputedBefore at order
  rcases keeps.distance_cases valid counted foreign with ⟨_, _⟩ | ⟨_, _, _, _, _, _⟩ <;> omega

theorem KeepsOrder.last {k p : Nat} (member : foreign k p ∈ T) (zero : (foreign k p).line = 0)
    {s : Spot} (hs : s ∈ T) : 0 ≤ s.line := by
  have here : (foreign k p).distance.toInt = 0 := by
    rw [distance_of_within (by omega) (by omega), zero]
  by_contra! negative
  cases s with
  | own o =>
    have order := keeps.order _ hs _ member negative
    rw [own_distance (valid _ hs), here] at order
    unfold ComputedBefore at order
    simp only [line] at negative
    omega
  | foreign k' p' =>
    have behind : ∀ {j q : Nat}, foreign j q ∈ T → (foreign j q).line < 0 →
        0 < (foreign j q).distance.toInt := by
      intro j q inside below
      have before := (foreign_before_iff (valid _ member) (valid _ inside)).mpr (by omega)
      have order := keeps.order _ member _ inside before
      rw [here] at order
      unfold ComputedBefore at order
      omega
    have positive := behind hs negative
    rcases keeps.distance_cases valid counted hs with ⟨_, _⟩ | ⟨j, q, same, beyond, _, _⟩
    · omega
    · rw [same] at hs beyond
      obtain ⟨q₂, q₃, second, -, below, -⟩ := counted.others valid hs beyond
      have := behind second (by
        obtain ⟨-, -, upper⟩ := valid _ second
        simp only [line]
        omega)
      omega

theorem KeepsOrder.self (own : own 0 ∈ T) {s t : Spot} (hs : s ∈ T) (ht : t ∈ T)
    (negative : s.line < 0) (negative' : t.line < 0) : s = t := by
  have here : (Spot.own 0).distance = 0 := by
    rw [zero_iff, own_distance (valid _ own)]
  have same : ∀ {u v : Spot}, u ∈ T → v ∈ T → u.distance.toInt < 0 → v.distance.toInt < 0 →
      u.distance.toInt = v.distance.toInt := by
    intro u v hu hv below below'
    exact congrArg Int64.toInt
      (keeps.zero _ own here u hu v hv (neg_iff.mpr below) (neg_iff.mpr below'))
  have place : ∀ {u : Spot}, u ∈ T → u.distance.toInt = u.line := by
    intro u hu
    rcases keeps.distance_cases valid counted hu with ⟨_, equal⟩ | ⟨k, p, rfl, beyond, _, _⟩
    · exact equal
    · obtain ⟨q, q', second, third, below, apart⟩ := counted.others valid hu beyond
      have := same second third below (by omega)
      omega
  have equal : s.line = t.line := by
    rw [← place hs, ← place ht]
    exact same hs ht (by rwa [place hs]) (by rwa [place ht])
  cases s with
  | own o =>
    cases t with
    | own o' => exact congrArg Spot.own equal
    | foreign k p =>
      have := keeps.near valid counted hs negative ht
      simp only [line] at this equal
      omega
  | foreign k p =>
    cases t with
    | own o =>
      have := keeps.near valid counted ht negative' hs
      simp only [line] at this equal
      omega
    | foreign k' p' =>
      obtain ⟨rfl, rfl⟩ := (valid _ hs).ext (valid _ ht) equal
      rfl

theorem KeepsOrder.far {k p : Nat} (member : foreign k p ∈ T)
    (below : (foreign k p).line ≤ -2 ^ 63) :
    (foreign k p).line ≠ -2 ^ 63 ∧ (∀ o, own o ∈ T → o ≤ 0) ∧
      ∀ k' p', foreign k' p' ∈ T → (foreign k' p').line ≤ -2 ^ 63 → k' = k ∧ p' = p := by
  have beyond : ∀ {j q : Nat}, foreign j q ∈ T → (foreign j q).line ≤ -2 ^ 63 →
      (foreign j q).line < -2 ^ 63 ∧ -2 ^ 63 - 200000 < (foreign j q).line ∧
        (foreign j q).distance.toInt = (foreign j q).line + 2 ^ 64 := by
    intro j q inside least
    rcases keeps.distance_cases valid counted inside with ⟨_, _⟩ | ⟨_, _, _, lower, upper, equal⟩
    · omega
    · exact ⟨lower, upper, equal⟩
  obtain ⟨lower, upper, equal⟩ := beyond member below
  refine ⟨lower.ne, fun o own => ?_, fun k' p' other below' => ?_⟩
  · by_contra! after
    have order := keeps.order _ member _ own after
    rw [own_distance (valid _ own), equal] at order
    obtain ⟨-, bound⟩ := valid _ own
    unfold ComputedBefore at order
    omega
  · obtain ⟨lower', upper', equal'⟩ := beyond other below'
    rcases lt_trichotomy (foreign k p).line (foreign k' p').line with less | same | less
    · have order := keeps.order _ other _ member
        ((foreign_before_iff (valid _ other) (valid _ member)).mpr less)
      rw [equal, equal'] at order
      unfold ComputedBefore at order
      omega
    · exact (valid _ other).ext (valid _ member) same.symm
    · have order := keeps.order _ member _ other
        ((foreign_before_iff (valid _ member) (valid _ other)).mpr less)
      rw [equal, equal'] at order
      unfold ComputedBefore at order
      omega

omit keeps in
theorem keepsOrder_iff : KeepsOrder T ↔ Separated T := by
  refine ⟨fun keeps => ?_, fun separated => separated.keepsOrder valid counted⟩
  exact {
    near := fun o k p own negative foreign => keeps.near valid counted own negative foreign
    last := fun k p member zero s hs => keeps.last valid counted member zero hs
    self := fun own s hs t ht => keeps.self valid counted own hs ht
    far := fun k p member below => keeps.far valid counted member below }

end Converse

end Separation

end Spot

end Arthas.Slicing
