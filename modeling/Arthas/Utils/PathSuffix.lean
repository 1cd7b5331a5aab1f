import Arthas.Utils.PathNormal

/-!
`pathendswith` against comparing the last components. The boundary of a component is looked
at in absolute paths only, and the buffer of fixed size may be too short for a path on the
way to its normal form.
-/

set_option autoImplicit false
set_option relaxedAutoImplicit false

namespace Arthas.Utils

open Arthas.Lib

section Fixed

/-- On the way from a stack of components all normal forms are shorter than `MAX_PATH`. -/
def FitsFrom (absolute : Bool) (kept parts : List Text) : Prop :=
  ∀ front, front <+: parts → ∀ mid, front.foldlM (keepPart absolute) kept = some mid →
    (stackText absolute mid).length < maxPath

/-- The normal forms of the path and of all its initial rows of components are shorter than
`MAX_PATH`. -/
def Fits (name : Text) : Prop :=
  ∀ front, front <+: components name →
    ∀ kept, front.foldlM (keepPart (isAbsolute name)) [] = some kept →
      (joinPath (isAbsolute name) kept.reverse).length < maxPath

variable {absolute : Bool} {kept kept' parts : List Text} {part : Text} {b : PathBuffer}

theorem fitsFrom_cons_iff {mid : List Text} (next : keepPart absolute kept part = some mid)
    (short : (stackText absolute kept).length < maxPath) :
    FitsFrom absolute kept (part :: parts) ↔ FitsFrom absolute mid parts := by
  constructor
  · intro fits front within last run
    apply fits (part :: front) (List.cons_prefix_cons.mpr ⟨rfl, within⟩)
    rw [List.foldlM_cons, next]
    exact run
  · intro fits front within last run
    rcases List.prefix_cons_iff.mp within with rfl | ⟨rest, rfl, inside⟩
    · cases run
      exact short
    · rw [List.foldlM_cons, next] at run
      exact fits rest inside last run

theorem not_fitsFrom_of_long {mid : List Text} (next : keepPart absolute kept part = some mid)
    (long : maxPath ≤ (stackText absolute mid).length) :
    ¬ FitsFrom absolute kept (part :: parts) := by
  intro fits
  have short := fits [part] (List.cons_prefix_cons.mpr ⟨rfl, List.nil_prefix⟩) mid (by
    rw [List.foldlM_cons, next]
    rfl)
  omega

/-- One component with a buffer of fixed size. -/
theorem fixed_step {mid : List Text} (holds : HoldsStack absolute kept b)
    (limit : b.limit = maxPath) (short : (stackText absolute kept).length < maxPath)
    (nonempty : part ≠ []) (whole : '/' ∉ part) (next : keepPart absolute kept part = some mid) :
    ((stackText absolute mid).length < maxPath ∧ ∃ b', canonpathStep true b part = .ok b' ∧
        HoldsStack absolute mid b' ∧ b'.limit = maxPath) ∨
      (maxPath ≤ (stackText absolute mid).length ∧ canonpathStep true b part = .error .null) := by
  rcases holds.step_cases next with ⟨-, b', step, holds', same, -, fewer⟩ | ⟨plain, rfl, step⟩
  · left
    exact ⟨fewer.trans_lt short, b', step true, holds', same.trans limit⟩
  · rw [step, holds.append, limit]
    split
    · next long => exact Or.inr ⟨long, rfl⟩
    · next fits =>
      left
      exact ⟨not_le.mp fits, _, rfl, holds.push ⟨nonempty, plain.1, plain.2, whole⟩ _, rfl⟩

/-- A buffer of fixed size follows the stack as long as the stack fits, and is given up at
the first component that does not. -/
theorem fixed_run (holds : HoldsStack absolute kept b) (limit : b.limit = maxPath)
    (short : (stackText absolute kept).length < maxPath)
    (sound : ∀ part ∈ parts, part ≠ [] ∧ '/' ∉ part)
    (run : parts.foldlM (keepPart absolute) kept = some kept') :
    (FitsFrom absolute kept parts ∧ ∃ b', parts.foldlM (canonpathStep true) b = .ok b' ∧
        HoldsStack absolute kept' b') ∨
      (¬ FitsFrom absolute kept parts ∧ parts.foldlM (canonpathStep true) b = .error .null) := by
  induction parts generalizing kept b with
  | nil =>
    cases run
    left
    refine ⟨?_, b, rfl, holds⟩
    intro front within mid run
    rw [List.prefix_nil.mp within] at run
    cases run
    exact short
  | cons part parts ih =>
    rw [List.foldlM_cons] at run ⊢
    obtain ⟨mid, next, rest⟩ := Option.bind_eq_some_iff.mp run
    obtain ⟨nonempty, whole⟩ := sound part List.mem_cons_self
    rcases fixed_step holds limit short nonempty whole next with
      ⟨short', b', step, holds', limit'⟩ | ⟨long, step⟩
    · rw [step, fitsFrom_cons_iff next short]
      exact ih holds' limit' short' (fun p member => sound p (List.mem_cons_of_mem _ member)) rest
    · right
      rw [step]
      exact ⟨not_fitsFrom_of_long next long, rfl⟩

/-- What the first component finds. -/
theorem holdsStack_start (name : Text) :
    HoldsStack (isAbsolute name) [] ⟨if name.head? = some '/' then ['/'] else [], maxPath⟩ :=
  (within_start name).holds

theorem fits_iff (name : Text) : Fits name ↔ FitsFrom (isAbsolute name) [] (components name) := by
  have plain : ∀ {front kept : List Text}, front <+: components name →
      front.foldlM (keepPart (isAbsolute name)) [] = some kept → ∀ part ∈ kept, Plain part := by
    intro front kept within run
    obtain ⟨r, -, holds, -⟩ := (within_start name).run
      (fun part member => components_sound name part (within.subset member)) run
    exact holds.plain
  constructor
  · intro fits front within kept run
    rw [← List.length_reverse, stackText_eq (plain within run)]
    exact fits front within kept run
  · intro fits front within kept run
    rw [← stackText_eq (plain within run), List.length_reverse]
    exact fits front within kept run

/-- When `canonpath` gives a path, it gives the same in a buffer of fixed size exactly if
everything fits there on the way. -/
theorem canonpath_fixed {name canon : Text} (canonical : canonpath false name = .ok canon) :
    (Fits name ∧ canonpath true name = .ok canon) ∨
      (¬ Fits name ∧ canonpath true name = .error .null) := by
  obtain ⟨nonempty, accepted, form⟩ := canonpath_eq_ok canonical
  obtain ⟨kept, run, rfl⟩ := Option.map_eq_some_iff.mp form
  have short : (stackText (isAbsolute name) []).length < maxPath := by
    cases isAbsolute name <;> decide
  rw [fits_iff, canonpath, if_neg nonempty, if_neg accepted]
  simp only
  rcases fixed_run (holdsStack_start name) rfl short (components_sound name) run with
    ⟨fits, b, loop, holds⟩ | ⟨long, loop⟩
  · left
    rw [loop, ← stackText_eq holds.plain, ← holds.dropSlash_dest]
    exact ⟨fits, rfl⟩
  · right
    rw [loop]
    exact ⟨long, rfl⟩

end Fixed

section Suffix

variable {path1 path2 canon : Text}

theorem components_append (s t : Text) :
    components (s ++ '/' :: t) = components s ++ components t := by
  rw [components, split_single_append, List.filter_append, components, components]

/-- A canonical path ends with the components of a relative one exactly if it is that path,
or ends with it behind a slash. -/
theorem components_suffix_iff (normal : Normal canon) (nonempty : path2 ≠ [])
    (relative : isAbsolute path2 = false) (normal2 : Normal path2) :
    components path2 <:+ components canon ↔
      canon = path2 ∨ ∃ x, canon = x ++ '/' :: path2 := by
  obtain ⟨absolute, parts, plain, rfl⟩ := normal
  obtain ⟨absolute2, parts2, plain2, rfl⟩ := normal2
  rw [isAbsolute_joinPath plain2] at relative
  subst relative
  have present : parts2 ≠ [] := by
    rintro rfl
    exact nonempty rfl
  constructor
  · intro suffix
    rw [components_joinPath plain, components_joinPath plain2] at suffix
    obtain ⟨front, rfl⟩ := suffix
    by_cases empty : front = []
    · subst empty
      cases absolute with
      | false => exact Or.inl rfl
      | true => exact Or.inr ⟨[], rfl⟩
    · right
      refine ⟨joinPath absolute front, ?_⟩
      have text : joinPath false parts2 = ['/'].intercalate parts2 := rfl
      rw [text, joinPath, intercalate_append empty present, joinPath]
      simp only [List.append_assoc, List.singleton_append]
  · intro text
    rcases text with same | ⟨x, behind⟩
    · rw [same]
    · rw [behind, components_append]
      exact List.suffix_append _ _

/-- A text ends with another one if it is that text, or has it behind a letter. -/
theorem suffix_iff_behind :
    path2 <:+ canon ↔ canon = path2 ∨ ∃ x a, canon = x ++ a :: path2 := by
  constructor
  · intro suffix
    obtain ⟨front, rfl⟩ := suffix
    rcases List.eq_nil_or_concat' front with rfl | ⟨x, a, rfl⟩
    · exact Or.inl (List.nil_append path2)
    · exact Or.inr ⟨x, a, List.append_assoc x [a] path2⟩
  · intro text
    rcases text with rfl | ⟨x, a, rfl⟩
    · exact List.suffix_refl canon
    · rw [List.append_cons]
      exact List.suffix_append (x ++ [a]) path2

/-- The letter that `pathendswith` looks at. -/
theorem letter_behind {x : Text} {a : Char} (eq : canon = x ++ a :: path2) :
    canon.length - path2.length = x.length + 1 ∧
      canon[canon.length - path2.length - 1]? = some a := by
  have place : canon.length - path2.length = x.length + 1 := by
    rw [eq, List.length_append, List.length_cons]
    omega
  rw [place, Nat.add_sub_cancel, eq]
  exact ⟨rfl, by simp⟩

/-- What `pathendswith` compares in a canonical path: all of it, or its end behind a letter,
which must be a slash in an absolute path. -/
theorem pathendswith_eq_true_iff (fixed : canonpath true path1 = .ok canon)
    (relative : isAbsolute path2 = false) :
    pathendswith path1 path2 = some true ↔
      canon = path2 ∨ ∃ x a, canon = x ++ a :: path2 ∧ (isAbsolute canon = true → a = '/') := by
  have other : path2.head? ≠ some '/' := of_decide_eq_false relative
  have slash : isAbsolute canon = true ↔ canon.head? = some '/' := decide_eq_true_iff
  have ends : (canon = path2 ∨ ∃ x a, canon = x ++ a :: path2 ∧ (isAbsolute canon = true → a = '/')) →
      path2 <:+ canon := by
    intro text
    apply suffix_iff_behind.mpr
    rcases text with same | ⟨x, a, eq, -⟩
    · exact Or.inl same
    · exact Or.inr ⟨x, a, eq⟩
  rw [pathendswith, fixed]
  simp only
  split
  · next shorter =>
    apply iff_of_false (by simp)
    intro text
    have length := (ends text).length_le
    omega
  · split
    · next inside =>
      obtain ⟨absolute, positive, -, letter⟩ := inside
      apply iff_of_false (by simp)
      intro text
      rcases text with rfl | ⟨x, a, eq, boundary⟩
      · omega
      · rw [(letter_behind eq).2, boundary (slash.mpr absolute)] at letter
        exact absurd rfl letter
    · next boundary =>
      rw [Option.some.injEq, decide_eq_true_eq, eq_comm, ← List.suffix_iff_eq_drop]
      refine ⟨fun suffix => ?_, ends⟩
      rcases suffix_iff_behind.mp suffix with same | ⟨x, a, eq⟩
      · exact Or.inl same
      · refine Or.inr ⟨x, a, eq, ?_⟩
        intro absolute
        by_contra differ
        obtain ⟨place, letter⟩ := letter_behind eq
        apply boundary
        refine ⟨slash.mp absolute, by omega, other, ?_⟩
        rw [letter]
        simpa using differ

/-- `pathendswith` compares whole components exactly if the path fits on the way to its
normal form, which is absolute or ends with the other path at a component only, or does not
fit and does not end with those components. -/
theorem pathendswith_iff (canonical : canonpath false path1 = .ok canon) (nonempty : path2 ≠ [])
    (relative : isAbsolute path2 = false) (normal : Normal path2) :
    (pathendswith path1 path2 = some true ↔ components path2 <:+ components canon) ↔
      (Fits path1 → isAbsolute canon = true ∨ ∀ x a, canon = x ++ a :: path2 → a = '/') ∧
        (¬ Fits path1 → ¬ components path2 <:+ components canon) := by
  rcases canonpath_fixed canonical with ⟨fits, fixed⟩ | ⟨long, fixed⟩
  · rw [pathendswith_eq_true_iff fixed relative,
      components_suffix_iff (normal_of_canonpath canonical) nonempty relative normal]
    constructor
    · intro expected
      refine ⟨?_, fun long => absurd fits long⟩
      intro _
      by_cases absolute : isAbsolute canon = true
      · exact Or.inl absolute
      right
      intro x a eq
      rcases expected.mp (Or.inr ⟨x, a, eq, fun yes => absurd yes absolute⟩) with same | ⟨y, behind⟩
      · have length := congrArg List.length (same.symm.trans eq)
        rw [List.length_append, List.length_cons] at length
        omega
      · have ends := (List.append_inj' (eq.symm.trans behind) rfl).2
        exact (List.cons.inj ends).1
    · intro condition
      constructor
      · intro text
        rcases text with same | ⟨x, a, eq, boundary⟩
        · exact Or.inl same
        · right
          have slash : a = '/' := by
            rcases condition.1 fits with absolute | always
            · exact boundary absolute
            · exact always x a eq
          exact ⟨x, by rw [eq, slash]⟩
      · intro text
        rcases text with same | ⟨x, behind⟩
        · exact Or.inl same
        · exact Or.inr ⟨x, '/', behind, fun _ => rfl⟩
  · have refused : pathendswith path1 path2 = some false := by
      rw [pathendswith, fixed]
    rw [refused]
    constructor
    · intro expected
      refine ⟨fun fits => absurd fits long, ?_⟩
      intro _ suffix
      cases expected.mpr suffix
    · intro condition
      constructor
      · intro no
        cases no
      · intro suffix
        exact absurd suffix (condition.2 long)

theorem pathendswith_iff_boundary :
    (pathendswith "src/../lib//main.c".toList "main.c".toList = some true ↔
        components "main.c".toList <:+ components "lib/main.c".toList) ↔
      (Fits "src/../lib//main.c".toList → isAbsolute "lib/main.c".toList = true ∨
        ∀ x a, "lib/main.c".toList = x ++ a :: "main.c".toList → a = '/') ∧
        (¬ Fits "src/../lib//main.c".toList →
          ¬ components "main.c".toList <:+ components "lib/main.c".toList) :=
  pathendswith_iff (by rfl) (by decide) (by decide)
    ⟨false, ["main.c".toList], fun part member => by
      rw [List.mem_singleton.mp member]
      exact ⟨by decide, by decide, by decide, by decide⟩, rfl⟩

/-- A relative path that ends inside a component. -/
theorem pathendswith_inside :
    ¬ ∀ path1 path2 canon : Text, canonpath false path1 = .ok canon → canon.length < maxPath →
      path2 ≠ [] → isAbsolute path2 = false → Normal path2 →
      (pathendswith path1 path2 = some true ↔ components path2 <:+ components canon) := by
  intro claim
  have normal : Normal "test.c".toList :=
    ⟨false, ["test.c".toList], fun part member => by
      rw [List.mem_singleton.mp member]
      exact ⟨by decide, by decide, by decide, by decide⟩, rfl⟩
  have matched : pathendswith "tmp/atest.c".toList "test.c".toList = some true := by rfl
  have suffix := (claim "tmp/atest.c".toList "test.c".toList "tmp/atest.c".toList (by rfl)
    (by decide) (by decide) (by decide) normal).mp matched
  revert suffix
  decide

end Suffix

end Arthas.Utils
