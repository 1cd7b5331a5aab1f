import Mathlib.Data.List.Basic
import Mathlib.Data.List.Infix

/-!
Lists joined with a separator and split again at its occurrences, from the left. A field
is read back when the separator does not occur before the end of the field, counting the
occurrences that overlap the separator written after it.
-/

set_option autoImplicit false
set_option relaxedAutoImplicit false

namespace Arthas.Lib

variable {α : Type*}

section Definitions

variable [DecidableEq α]

/-- What stands before and after the first occurrence of `sep`. -/
def firstAt (sep : List α) : List α → Option (List α × List α)
  | [] => none
  | c :: s =>
    if sep.isPrefixOf (c :: s) then some ([], (c :: s).drop sep.length)
    else (firstAt sep s).map fun p => (c :: p.1, p.2)

/-- At most `n` cuts at successive occurrences of `sep`. -/
def cuts (sep : List α) : Nat → List α → List (List α)
  | 0, s => [s]
  | n + 1, s =>
    match firstAt sep s with
    | none => [s]
    | some (field, rest) => field :: cuts sep n rest

/-- The fields between all the occurrences of `sep`. -/
def split (sep s : List α) : List (List α) := cuts sep s.length s

end Definitions

/-- `sep` begins nowhere inside the field, also when it is followed by `sep`. -/
def Unbroken (sep field : List α) : Prop := ¬ sep <:+: field ++ sep.dropLast

instance [DecidableEq α] (sep field : List α) : Decidable (Unbroken sep field) :=
  inferInstanceAs (Decidable (¬ _))

section FirstOccurrence

variable {sep : List α}

theorem unbroken_nil (nonempty : sep ≠ []) : Unbroken sep [] := by
  intro inside
  have short := inside.length_le
  have positive := List.length_pos_iff.mpr nonempty
  simp only [List.nil_append, List.length_dropLast] at short
  omega

theorem unbroken_cons {c : α} {field : List α} :
    Unbroken sep (c :: field) ↔
      ¬ sep <+: c :: (field ++ sep.dropLast) ∧ Unbroken sep field := by
  simp only [Unbroken, List.cons_append, List.infix_cons_iff, not_or]

theorem unbroken_single {c : α} {field : List α} : Unbroken [c] field ↔ c ∉ field := by
  simp only [Unbroken, List.dropLast_singleton, List.append_nil, List.singleton_infix_iff]

/-- For a separator of two equal letters: it does not occur in the field, and the field
does not end with that letter. -/
theorem unbroken_pair {c : α} {field : List α} :
    Unbroken [c, c] field ↔ ¬ [c, c] <:+: field ∧ field.getLast? ≠ some c := by
  have last : [c, c].dropLast = [c] := rfl
  rw [Unbroken, last, List.infix_concat_iff, not_or, and_comm]
  refine and_congr_right fun _ => not_congr ?_
  rw [List.getLast?_eq_some_iff]
  constructor
  · rintro ⟨front, eq⟩
    have same : field ++ [c] = front ++ [c] ++ [c] := by simpa using eq.symm
    exact ⟨front, List.append_cancel_right same⟩
  · rintro ⟨front, rfl⟩
    exact ⟨front, by simp⟩

/-- A separator at the front of `field ++ sep ++ rest` begins inside an unbroken field
only if the field is empty. -/
private theorem not_prefix_of_unbroken {c : α} {field rest : List α}
    (unbroken : Unbroken sep (c :: field)) : ¬ sep <+: c :: (field ++ sep ++ rest) := by
  intro front
  have fits : sep.length ≤ (c :: (field ++ sep.dropLast)).length := by
    simp only [List.length_cons, List.length_append, List.length_dropLast]
    omega
  have early : c :: (field ++ sep.dropLast) <+: c :: (field ++ sep ++ rest) := by
    refine List.cons_prefix_cons.mpr ⟨rfl, ?_⟩
    rw [List.append_assoc]
    exact (List.prefix_append_right_inj _).mpr
      ((List.dropLast_prefix sep).trans (List.prefix_append _ _))
  exact (unbroken_cons.mp unbroken).1 (List.prefix_of_prefix_length_le front early fits)

variable [DecidableEq α]

theorem firstAt_eq_some_iff (nonempty : sep ≠ []) {s field rest : List α} :
    firstAt sep s = some (field, rest) ↔ s = field ++ sep ++ rest ∧ Unbroken sep field := by
  induction s generalizing field with
  | nil => simp [firstAt, nonempty]
  | cons c s ih =>
    rw [firstAt]
    split
    · next front =>
      have front := List.isPrefixOf_iff_prefix.mp front
      constructor
      · intro found
        obtain ⟨rfl, rfl⟩ := Prod.mk.inj (Option.some.inj found)
        obtain ⟨tail, eq⟩ := front
        exact ⟨by rw [← eq]; simp, unbroken_nil nonempty⟩
      · rintro ⟨eq, unbroken⟩
        cases field with
        | nil => rw [eq]; simp
        | cons d field =>
          obtain ⟨rfl, rfl⟩ := List.cons.inj eq
          exact absurd front (not_prefix_of_unbroken unbroken)
    · next behind =>
      have behind : ¬ sep <+: c :: s := fun front => behind (List.isPrefixOf_iff_prefix.mpr front)
      simp only [Option.map_eq_some_iff, Prod.mk.injEq, Prod.exists]
      constructor
      · rintro ⟨field, rest, found, rfl, rfl⟩
        obtain ⟨rfl, unbroken⟩ := ih.mp found
        refine ⟨rfl, unbroken_cons.mpr ⟨fun front => behind ?_, unbroken⟩⟩
        refine front.trans (List.cons_prefix_cons.mpr ⟨rfl, ?_⟩)
        rw [List.append_assoc]
        exact (List.prefix_append_right_inj _).mpr
          ((List.dropLast_prefix sep).trans (List.prefix_append _ _))
      · rintro ⟨eq, unbroken⟩
        cases field with
        | nil => exact absurd ⟨rest, eq.symm⟩ behind
        | cons d field =>
          obtain ⟨rfl, rfl⟩ := List.cons.inj eq
          exact ⟨field, rest, ih.mpr ⟨rfl, (unbroken_cons.mp unbroken).2⟩, rfl, rfl⟩

theorem firstAt_eq_none_iff (nonempty : sep ≠ []) {s : List α} :
    firstAt sep s = none ↔ ¬ sep <:+: s := by
  induction s with
  | nil => simpa [firstAt] using nonempty
  | cons c s ih =>
    rw [firstAt, List.infix_cons_iff, not_or]
    split
    · next front => simp [List.isPrefixOf_iff_prefix.mp front]
    · next behind =>
      have behind : ¬ sep <+: c :: s := fun front => behind (List.isPrefixOf_iff_prefix.mpr front)
      simp [behind, ih]

theorem firstAt_shorter (nonempty : sep ≠ []) {s field rest : List α}
    (found : firstAt sep s = some (field, rest)) : rest.length < s.length := by
  have positive := List.length_pos_iff.mpr nonempty
  rw [((firstAt_eq_some_iff nonempty).mp found).1]
  simp only [List.length_append]
  omega

end FirstOccurrence

section Fields

variable [DecidableEq α] {sep : List α}

/-- Fields that are told apart again once they are joined. -/
def Separable (sep : List α) : List (List α) → Prop
  | [] => False
  | [last] => ¬ sep <:+: last
  | field :: next :: fields => Unbroken sep field ∧ Separable sep (next :: fields)

omit [DecidableEq α] in
theorem intercalate_append {fields more : List (List α)} (nonempty : fields ≠ [])
    (nonempty' : more ≠ []) :
    sep.intercalate (fields ++ more) = sep.intercalate fields ++ sep ++ sep.intercalate more := by
  induction fields with
  | nil => exact absurd rfl nonempty
  | cons field fields ih =>
    cases fields with
    | nil =>
      obtain ⟨next, rest, rfl⟩ := List.exists_cons_of_ne_nil nonempty'
      rw [List.singleton_append, List.intercalate_cons_cons, List.intercalate_singleton]
    | cons next fields =>
      rw [List.cons_append, List.cons_append, List.intercalate_cons_cons,
        List.intercalate_cons_cons, ← List.cons_append, ih (List.cons_ne_nil _ _)]
      simp only [List.append_assoc]

omit [DecidableEq α] in
theorem intercalate_concat {fields : List (List α)} (nonempty : fields ≠ []) (last : List α) :
    sep.intercalate (fields ++ [last]) = sep.intercalate fields ++ sep ++ last := by
  rw [intercalate_append nonempty (List.cons_ne_nil _ _), List.intercalate_singleton]

omit [DecidableEq α] in
/-- Fields without a separator of one letter. -/
theorem separable_single {c : α} {fields : List (List α)} {last : List α}
    (free : ∀ field ∈ fields ++ [last], c ∉ field) : Separable [c] (fields ++ [last]) := by
  induction fields with
  | nil => simpa [Separable, List.singleton_infix_iff] using free last (by simp)
  | cons field fields ih =>
    have rest := ih fun f member => free f (List.mem_cons_of_mem _ member)
    have here : Unbroken [c] field := unbroken_single.mpr (free field (by simp))
    cases fields with
    | nil => exact ⟨here, rest⟩
    | cons next fields => exact ⟨here, rest⟩

omit [DecidableEq α] in
theorem Separable.free {c : α} {fields : List (List α)} (separable : Separable [c] fields) :
    ∀ field ∈ fields, c ∉ field := by
  induction fields with
  | nil => exact separable.elim
  | cons field fields ih =>
    intro f member
    cases fields with
    | nil =>
      rw [List.mem_singleton.mp member]
      simpa [Separable, List.singleton_infix_iff] using separable
    | cons next fields =>
      rcases List.mem_cons.mp member with rfl | inside
      · exact unbroken_single.mp separable.1
      · exact ih separable.2 f inside

theorem cuts_separable (nonempty : sep ≠ []) {n : Nat} {s : List α} (enough : s.length ≤ n) :
    Separable sep (cuts sep n s) ∧ sep.intercalate (cuts sep n s) = s := by
  induction n generalizing s with
  | zero =>
    have empty : s = [] := List.length_eq_zero_iff.mp (by omega)
    subst empty
    exact ⟨by simpa [cuts, Separable] using nonempty, by simp [cuts]⟩
  | succ n ih =>
    rw [cuts]
    cases found : firstAt sep s with
    | none => exact ⟨(firstAt_eq_none_iff nonempty).mp found, by simp⟩
    | some cut =>
      obtain ⟨field, rest⟩ := cut
      obtain ⟨eq, unbroken⟩ := (firstAt_eq_some_iff nonempty).mp found
      have shorter := firstAt_shorter nonempty found
      obtain ⟨separable, joined⟩ := ih (show rest.length ≤ n by omega)
      obtain ⟨next, fields, cutRest⟩ : ∃ next fields, cuts sep n rest = next :: fields := by
        cases h : cuts sep n rest with
        | nil => rw [h] at separable; exact separable.elim
        | cons next fields => exact ⟨next, fields, rfl⟩
      simp only [cutRest] at separable joined ⊢
      refine ⟨⟨unbroken, separable⟩, ?_⟩
      rw [List.intercalate_cons_cons, joined, eq]

theorem cuts_intercalate (nonempty : sep ≠ []) {fields : List (List α)}
    (separable : Separable sep fields) {n : Nat}
    (enough : (sep.intercalate fields).length ≤ n) :
    cuts sep n (sep.intercalate fields) = fields := by
  induction fields generalizing n with
  | nil => exact separable.elim
  | cons field fields ih =>
    cases fields with
    | nil =>
      rw [List.intercalate_singleton]
      cases n with
      | zero => rfl
      | succ n => rw [cuts, (firstAt_eq_none_iff nonempty).mpr separable]
    | cons next fields =>
      have joined : sep.intercalate (field :: next :: fields) =
          field ++ sep ++ sep.intercalate (next :: fields) :=
        List.intercalate_cons_cons
      have found := (firstAt_eq_some_iff nonempty).mpr ⟨joined, separable.1⟩
      have shorter := firstAt_shorter nonempty found
      cases n with
      | zero => omega
      | succ n =>
        rw [cuts, found]
        exact congrArg (field :: ·) (ih separable.2 (by omega))

/-- Splitting undoes joining exactly for separable fields. -/
theorem split_intercalate_iff (nonempty : sep ≠ []) {fields : List (List α)} :
    split sep (sep.intercalate fields) = fields ↔ Separable sep fields := by
  constructor
  · intro eq
    have separable := (cuts_separable nonempty (le_refl (sep.intercalate fields).length)).1
    rwa [← split, eq] at separable
  · exact fun separable => cuts_intercalate nonempty separable le_rfl

theorem intercalate_split (nonempty : sep ≠ []) (s : List α) :
    sep.intercalate (split sep s) = s :=
  (cuts_separable nonempty le_rfl).2

theorem split_of_not_infix (nonempty : sep ≠ []) {s : List α} (apart : ¬ sep <:+: s) :
    split sep s = [s] := by
  have whole : sep.intercalate [s] = s := List.intercalate_singleton
  have fields := (@split_intercalate_iff _ _ sep nonempty [s]).mpr apart
  rwa [whole] at fields

/-- The first field, and the fields of what follows. -/
theorem split_append (nonempty : sep ≠ []) {field : List α} (unbroken : Unbroken sep field)
    (rest : List α) : split sep (field ++ sep ++ rest) = field :: split sep rest := by
  have separable : Separable sep (split sep rest) := (cuts_separable nonempty le_rfl).1
  have joined : sep.intercalate (split sep rest) = rest := intercalate_split nonempty rest
  cases fields : split sep rest with
  | nil =>
    rw [fields] at separable
    exact separable.elim
  | cons next more =>
    rw [fields] at separable joined
    have whole : sep.intercalate (field :: next :: more) = field ++ sep ++ rest := by
      rw [List.intercalate_cons_cons, joined]
    rw [← whole]
    exact (split_intercalate_iff nonempty).mpr ⟨unbroken, separable⟩

theorem split_ne_nil (nonempty : sep ≠ []) (s : List α) : split sep s ≠ [] := by
  intro none
  have separable : Separable sep (split sep s) := (cuts_separable nonempty le_rfl).1
  rw [none] at separable
  exact separable

/-- A separator of one letter parts the fields before it from those behind it. -/
theorem split_single_append (c : α) (s t : List α) :
    split [c] (s ++ c :: t) = split [c] s ++ split [c] t := by
  have nonempty : [c] ≠ [] := List.cons_ne_nil _ _
  have present := split_ne_nil nonempty s
  have present' := split_ne_nil nonempty t
  have free : ∀ field ∈ split [c] s ++ split [c] t, c ∉ field := by
    intro field member
    rcases List.mem_append.mp member with before | behind
    · exact (cuts_separable nonempty (le_refl s.length)).1.free field before
    · exact (cuts_separable nonempty (le_refl t.length)).1.free field behind
  have joined : [c].intercalate (split [c] s ++ split [c] t) = s ++ c :: t := by
    rw [intercalate_append present present', intercalate_split nonempty,
      intercalate_split nonempty, List.append_assoc, List.singleton_append]
  rw [← joined, split_intercalate_iff nonempty]
  obtain ⟨front, last, eq⟩ : ∃ front last, split [c] s ++ split [c] t = front ++ [last] :=
    (List.eq_nil_or_concat' _).resolve_left (List.append_ne_nil_of_left_ne_nil present _)
  rw [eq] at free ⊢
  exact separable_single free

end Fields

end Arthas.Lib
