import Mathlib
import Arthas.Lib.SortOrder
import Arthas.Slicing.SliceGraph

/-!
The order of edges and of slice values by their distance (`SliceEdgeComparator`,
`SliceValueComparator`). The two comparators are a strict weak order, and the documented one,
on the distances without the least one that do not mix zero with negative ones.
-/

set_option autoImplicit false
set_option relaxedAutoImplicit false

namespace Arthas.Slicing

open Arthas.Lib

/-- An edge with its distance. -/
structure DistancedEdge (ν : Type*) extends SliceEdge ν where
  distance : Int64

/-- `-d`; undefined where the result is no 64-bit value. -/
def negate (d : Int64) : Option Int64 := if d = Int64.minValue then none else some (-d)

/-- The common body of the two comparators. -/
def compareDistances (dist1 dist2 : Int64) : Option Bool :=
  if dist1 = 0 ∧ dist2 = 0 then some false
  else if dist1 < 0 then
    if 0 < dist2 then some true
    else
      match negate dist1, negate dist2 with
      | some m1, some m2 => some (m1 < m2)
      | _, _ => none
  else if dist2 < 0 then some false
  else some (dist1 < dist2)

section Comparators

variable {ν ι : Type*}

def sliceEdgeComparator : Comparator (DistancedEdge ν) := fun edge1 edge2 =>
  compareDistances edge1.distance edge2.distance

def sliceValueComparator : Comparator (ι × Int64) := fun val1 val2 =>
  compareDistances val1.2 val2.2

end Comparators

/-- The order of the comments: 0, -1, -2, and so on, then 1, 2, and so on. -/
def DocumentedBefore (d d' : Int) : Prop :=
  d ≤ 0 ∧ 0 < d' ∨ d ≤ 0 ∧ d' ≤ 0 ∧ d' < d ∨ 0 < d ∧ d < d'

/-- What the comparators compute, on the integers. -/
def ComputedBefore (d d' : Int) : Prop := d < 0 ∧ (0 < d' ∨ d' < d) ∨ 0 ≤ d ∧ d < d'

instance (d d' : Int) : Decidable (ComputedBefore d d') := inferInstanceAs (Decidable (_ ∨ _))

/-- The comparison negates the least distance. -/
def NegatesLeast (dist1 dist2 : Int64) : Prop :=
  dist1.toInt < 0 ∧ dist2.toInt ≤ 0 ∧ (dist1 = Int64.minValue ∨ dist2 = Int64.minValue)

section Computed

variable {dist1 dist2 : Int64}

theorem neg_iff {d : Int64} : d < 0 ↔ d.toInt < 0 := Int64.lt_iff_toInt_lt

theorem pos_iff {d : Int64} : 0 < d ↔ 0 < d.toInt := Int64.lt_iff_toInt_lt

theorem minValue_iff {d : Int64} : d = Int64.minValue ↔ d.toInt = -2 ^ 63 := by
  rw [← Int64.toInt_inj, Int64.toInt_minValue]

theorem negate_eq {d : Int64} (above : d ≠ Int64.minValue) :
    ∃ m, negate d = some m ∧ m.toInt = -d.toInt := by
  refine ⟨-d, if_neg above, ?_⟩
  have notLeast := mt minValue_iff.mpr above
  have lower := d.le_toInt
  have upper := d.toInt_lt
  rw [Int64.toInt_neg, Int.bmod_eq_of_le] <;> omega

theorem zero_iff {d : Int64} : d = 0 ↔ d.toInt = 0 := by
  rw [← Int64.toInt_inj, Int64.toInt_zero]

theorem compareDistances_none (least : NegatesLeast dist1 dist2) :
    compareDistances dist1 dist2 = none := by
  obtain ⟨negative, notPositive, least⟩ := least
  unfold compareDistances
  rw [if_neg (by rw [zero_iff]; omega), if_pos (neg_iff.mpr negative),
    if_neg (by rw [pos_iff]; omega)]
  rcases least with rfl | rfl
  · rfl
  · cases negate dist1 <;> rfl

/-- Elsewhere it is what it computes on the integers. -/
theorem compareDistances_some (defined : ¬ NegatesLeast dist1 dist2) :
    compareDistances dist1 dist2 = some (decide (ComputedBefore dist1.toInt dist2.toInt)) := by
  unfold compareDistances
  simp only [zero_iff, Int64.lt_iff_toInt_lt, Int64.toInt_zero]
  split
  · next both => simp [ComputedBefore, both.1, both.2]
  next notBoth =>
  split
  · next negative =>
    split
    · next positive => simp [ComputedBefore, negative, positive]
    · next notPositive =>
      obtain ⟨above, above'⟩ : dist1 ≠ Int64.minValue ∧ dist2 ≠ Int64.minValue :=
        not_or.mp fun least => defined ⟨negative, by omega, least⟩
      obtain ⟨m1, first, value⟩ := negate_eq above
      obtain ⟨m2, second, value'⟩ := negate_eq above'
      rw [first, second]
      show some (decide (m1.toInt < m2.toInt)) = _
      rw [Option.some.injEq, decide_eq_decide, value, value', ComputedBefore]
      omega
  · next notNegative =>
    split
    · next negative =>
      rw [Option.some.injEq, eq_comm, decide_eq_false_iff_not, ComputedBefore]
      omega
    · next notNegative' =>
      rw [Option.some.injEq, decide_eq_decide, ComputedBefore]
      omega

end Computed

section Laws

variable {α : Type*} {dist : α → Int64} {S : Set Int64}

/-- A comparator by distance. -/
def byDistance (dist : α → Int64) : Comparator α := fun a b => compareDistances (dist a) (dist b)

theorem byDistance_less {a b : α} (above : dist a ≠ Int64.minValue)
    (above' : dist b ≠ Int64.minValue) :
    (byDistance dist).Less a b ↔ ComputedBefore (dist a).toInt (dist b).toInt := by
  have defined : ¬ NegatesLeast (dist a) (dist b) := fun least => least.2.2.elim above above'
  rw [Comparator.Less, byDistance, compareDistances_some defined]
  simp

theorem byDistance_less_on {T : Set α} (above : ∀ a ∈ T, dist a ≠ Int64.minValue) {a b : α}
    (ha : a ∈ T) (hb : b ∈ T) :
    (byDistance dist).Less a b ↔ ComputedBefore (dist a).toInt (dist b).toInt :=
  byDistance_less (above a ha) (above b hb)

/-- The comparison is a strict weak order where it is defined and zero is not incomparable to
two different distances. -/
theorem byDistance_strictWeak_iff {T : Set α} :
    (byDistance dist).StrictWeak T ↔
      (∀ a ∈ T, dist a ≠ Int64.minValue) ∧
      ∀ z ∈ T, dist z = 0 → ∀ a ∈ T, ∀ b ∈ T, dist a < 0 → dist b < 0 → dist a = dist b := by
  constructor
  · intro h
    have above : ∀ a ∈ T, dist a ≠ Int64.minValue := by
      intro a member least
      have defined := h.defined a member a member
      rw [byDistance, compareDistances_none ⟨by rw [least]; decide, by rw [least]; decide,
        Or.inl least⟩] at defined
      cases defined
    refine ⟨above, fun z hz zero a ha b hb negative negative' => ?_⟩
    rw [neg_iff] at negative negative'
    have zero : (dist z).toInt = 0 := by rw [zero]; rfl
    have less {c d : α} := byDistance_less_on above (a := c) (b := d)
    have first : (byDistance dist).Incomparable a z := by
      rw [Comparator.Incomparable, less ha hz, less hz ha]
      unfold ComputedBefore
      omega
    have second : (byDistance dist).Incomparable z b := by
      rw [Comparator.Incomparable, less hb hz, less hz hb]
      unfold ComputedBefore
      omega
    have third := h.incomparable a ha z hz b hb first second
    rw [Comparator.Incomparable, less ha hb, less hb ha] at third
    unfold ComputedBefore at third
    rw [← Int64.toInt_inj]
    omega
  · rintro ⟨above, only⟩
    have less {c d : α} := byDistance_less_on above (a := c) (b := d)
    refine ⟨fun a ha b hb => ?_, fun a ha => ?_, fun a ha b hb => ?_, fun a ha b hb c hc => ?_,
      fun a ha b hb c hc => ?_⟩
    · rw [byDistance, compareDistances_some fun least => least.2.2.elim (above a ha) (above b hb)]
      rfl
    · rw [less ha ha]
      unfold ComputedBefore
      omega
    · rw [less ha hb, less hb ha]
      unfold ComputedBefore
      omega
    · rw [less ha hb, less hb hc, less ha hc]
      unfold ComputedBefore
      omega
    · have same : (dist b).toInt = 0 → (dist a).toInt < 0 → (dist c).toInt < 0 →
          (dist a).toInt = (dist c).toInt := by
        intro zero negative negative'
        exact congrArg Int64.toInt (only b hb (Int64.toInt_inj.mp zero) a ha c hc
          (neg_iff.mpr negative) (neg_iff.mpr negative'))
      simp only [Comparator.Incomparable, less ha hb, less hb ha, less hb hc, less hc hb,
        less ha hc, less hc ha]
      unfold ComputedBefore
      omega

/-- What the comments promise of a comparator, on the elements with a distance in a set. -/
structure DistanceOrder (cmp : Comparator α) (dist : α → Int64) (S : Set Int64) : Prop where
  strictWeak : cmp.StrictWeak {a | dist a ∈ S}
  equal : ∀ a b, dist a ∈ S → dist b ∈ S → cmp.Incomparable a b → dist a = dist b
  documented : ∀ a b, dist a ∈ S → dist b ∈ S →
    (cmp.Less a b ↔ DocumentedBefore (dist a).toInt (dist b).toInt)

theorem distanceOrder_iff (every : Function.Surjective dist) :
    DistanceOrder (byDistance dist) dist S ↔
      Int64.minValue ∉ S ∧ ¬ (0 ∈ S ∧ ∃ d ∈ S, d < 0) := by
  have less : Int64.minValue ∉ S → ∀ {a b : α}, dist a ∈ S → dist b ∈ S →
      ((byDistance dist).Less a b ↔ ComputedBefore (dist a).toInt (dist b).toInt) := by
    intro above a b ha hb
    exact byDistance_less (ne_of_mem_of_not_mem ha above) (ne_of_mem_of_not_mem hb above)
  constructor
  · rintro ⟨strictWeak, equal, -⟩
    have above : Int64.minValue ∉ S := by
      intro member
      obtain ⟨a, least⟩ := every Int64.minValue
      rw [← least] at member
      exact (byDistance_strictWeak_iff.mp strictWeak).1 a member least
    refine ⟨above, ?_⟩
    rintro ⟨zero, d, member, negative⟩
    obtain ⟨z, here⟩ := every 0
    obtain ⟨a, rfl⟩ := every d
    rw [← here] at zero
    have incomparable : (byDistance dist).Incomparable z a := by
      rw [Comparator.Incomparable, less above zero member, less above member zero, here]
      rw [neg_iff] at negative
      simp only [ComputedBefore, Int64.toInt_zero]
      omega
    rw [← equal z a zero member incomparable, here] at negative
    exact absurd negative (by decide)
  · rintro ⟨above, apart⟩
    have apart : ∀ {a b : α}, dist a ∈ S → dist b ∈ S → (dist a).toInt = 0 →
        ¬ (dist b).toInt < 0 := by
      intro a b ha hb zero negative
      rw [zero_iff.mpr zero] at ha
      exact apart ⟨ha, dist b, hb, neg_iff.mpr negative⟩
    refine ⟨byDistance_strictWeak_iff.mpr ⟨fun a member => ne_of_mem_of_not_mem member above, ?_⟩,
      fun a b ha hb => ?_, fun a b ha hb => ?_⟩
    · intro z hz zero a ha b _ negative _
      exact (apart hz ha (zero_iff.mp zero) (neg_iff.mp negative)).elim
    · have first := apart ha hb
      have second := apart hb ha
      rw [Comparator.Incomparable, less above ha hb, less above hb ha, ← Int64.toInt_inj]
      unfold ComputedBefore
      omega
    · have first := apart ha hb
      have second := apart hb ha
      rw [less above ha hb]
      unfold ComputedBefore DocumentedBefore
      omega

end Laws

section Comparators

variable {ν ι : Type*} [Inhabited ν] [Inhabited ι]

/-- Each of the two comparators is the order that the comments promise on exactly those sets of
distances that leave out the least one and do not mix zero with negative ones. -/
theorem comparators_documented_iff (S : Set Int64) :
    (DistanceOrder (sliceEdgeComparator (ν := ν)) DistancedEdge.distance S ↔
      Int64.minValue ∉ S ∧ ¬ (0 ∈ S ∧ ∃ d ∈ S, d < 0)) ∧
    (DistanceOrder (sliceValueComparator (ι := ι)) Prod.snd S ↔
      Int64.minValue ∉ S ∧ ¬ (0 ∈ S ∧ ∃ d ∈ S, d < 0)) :=
  ⟨distanceOrder_iff fun d => ⟨⟨⟨default, .unknown⟩, d⟩, rfl⟩,
    distanceOrder_iff fun d => ⟨(default, d), rfl⟩⟩

omit [Inhabited ν] [Inhabited ι] in
/-- Zero and -1 are incomparable to both of them. -/
theorem comparators_at_zero :
    ¬ (DistanceOrder (sliceEdgeComparator (ν := Nat)) DistancedEdge.distance Set.univ ∧
      DistanceOrder (sliceValueComparator (ι := Nat)) Prod.snd Set.univ) := by
  rintro ⟨⟨-, equal, -⟩, -⟩
  let zero : DistancedEdge Nat := ⟨⟨0, .unknown⟩, 0⟩
  let before : DistancedEdge Nat := ⟨⟨1, .unknown⟩, -1⟩
  have incomparable : sliceEdgeComparator.Incomparable zero before := by
    constructor
    · show ¬ compareDistances 0 (-1) = some true
      decide
    · show ¬ compareDistances (-1) 0 = some true
      decide
  exact absurd (equal zero before trivial trivial incomparable) (by decide)

end Comparators

end Arthas.Slicing
