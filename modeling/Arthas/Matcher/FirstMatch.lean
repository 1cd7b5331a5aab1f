import Mathlib
import Arthas.Matcher.Matcher

/-!
Which function the search for a criterion ends at, and which of its instructions is
selected: all functions before it are passed over, and of the instructions on the line one
with exactly the text wanted is taken.
-/

set_option autoImplicit false
set_option relaxedAutoImplicit false

namespace Arthas.Matcher

open Arthas.Lib Arthas.Utils

section Search

variable {criterion : FileLine}

/-- The search goes on behind a function: it is skipped, has no debug information, lies in
another file, or neither has an instruction on the line nor spans it. -/
def PassedBy (criterion : FileLine) (F : Function) : Prop :=
  skipFunction F = true ∨ F.subprogram = none ∨
    ∃ SP, F.subprogram = some SP ∧
      (spMatchFilename SP (cstr criterion.file) = some false ∨
        spMatchFilename SP (cstr criterion.file) = some true ∧
          (∀ i ∈ F.instructions, getInstLine i ≠ criterion.line) ∧
          ¬ (SP.line ≤ criterion.line ∧ criterion.line ≤ getLastLine F))

theorem stopsAt_eq_false_iff {F : Function} :
    stopsAt criterion F = some false ↔ PassedBy criterion F := by
  unfold stopsAt PassedBy
  split
  · next skip => simp [skip]
  · next keep =>
    have keep : skipFunction F = false := by simpa using keep
    split
    · next none => simp [none]
    · next SP debug =>
      simp only [keep, debug, Bool.false_eq_true, false_or, reduceCtorEq, Option.some.injEq,
        exists_eq_left', Option.map_eq_some_iff, Bool.exists_bool, Bool.or_eq_false_iff,
        Bool.and_eq_false_iff, decide_eq_false_iff_not, List.any_eq_false, decide_eq_true_eq,
        not_and_or, ne_eq, true_or, and_true]

/-- The search ends at a function of the file that has an instruction on the line or spans
it. -/
theorem stopsAt_eq_true {F : Function} {SP : DISubprogram} (debug : F.subprogram = some SP)
    (keep : skipFunction F = false) (inFile : spMatchFilename SP (cstr criterion.file) = some true)
    {i : Instruction} (inside : i ∈ F.instructions) (onLine : getInstLine i = criterion.line) :
    stopsAt criterion F = some true := by
  have any : (F.instructions.any fun i => decide (getInstLine i = criterion.line)) = true :=
    List.any_eq_true.mpr ⟨i, inside, decide_eq_true onLine⟩
  simp [stopsAt, keep, debug, inFile, any]

theorem stopsAt_true_cases {F : Function} {SP : DISubprogram} (debug : F.subprogram = some SP)
    (stops : stopsAt criterion F = some true) :
    skipFunction F = false ∧ spMatchFilename SP (cstr criterion.file) = some true := by
  unfold stopsAt at stops
  split at stops
  · cases stops
  · next keep =>
    rw [debug] at stops
    obtain ⟨inFile, path, both⟩ := Option.map_eq_some_iff.mp stops
    rw [Bool.and_eq_true] at both
    exact ⟨by simpa using keep, both.1 ▸ path⟩

/-- What the search finds, it finds in the first function it does not pass. -/
theorem criterion_found {functions : List Function} {result : MatchResult}
    (found : matchInstrsCriterionFrom criterion functions MatchResult.new = some (true, result)) :
    ∃ before F after, functions = before ++ F :: after ∧
      (∀ G ∈ before, PassedBy criterion G) ∧ stopsAt criterion F = some true ∧
      result.instrs = instrsOnLine criterion.line F := by
  induction functions with
  | nil => simp [matchInstrsCriterionFrom] at found
  | cons F functions ih =>
    cases here : stopsAt criterion F with
    | none =>
      rw [criterion_undefined here] at found
      cases found
    | some stops =>
      cases stops with
      | true =>
        rw [criterion_stops here] at found
        cases found
        exact ⟨[], F, functions, rfl, by simp, here, rfl⟩
      | false =>
        rw [criterion_passes rfl here] at found
        obtain ⟨before, G, after, eq, passed, stops, instrs⟩ := ih found
        refine ⟨F :: before, G, after, by rw [eq]; rfl, ?_, stops, instrs⟩
        intro H member
        rcases List.mem_cons.mp member with rfl | inside
        · exact stopsAt_eq_false_iff.mp here
        · exact passed H inside

theorem criterion_reaches {before after : List Function} {F : Function}
    (passed : ∀ G ∈ before, PassedBy criterion G) (stops : stopsAt criterion F = some true) :
    matchInstrsCriterionFrom criterion (before ++ F :: after) MatchResult.new =
      some (true, ⟨F.instructions.any fun i => getInstLine i = criterion.line,
        instrsOnLine criterion.line F, some F⟩) := by
  induction before with
  | nil => exact criterion_stops stops
  | cons G before ih =>
    rw [List.cons_append, criterion_passes rfl (stopsAt_eq_false_iff.mpr
      (passed G List.mem_cons_self))]
    exact ih fun H member => passed H (List.mem_cons_of_mem _ member)

end Search

section Selection

variable {asm : AsmWriter} {M : Module} {target : Text} {fuzzy ignoreDbg : Bool}

theorem selectInstr_mem {candidates : List Instruction} {fuzzyInstr : Option Instruction}
    {i : Instruction}
    (selected : (selectInstr asm M target fuzzy ignoreDbg candidates fuzzyInstr).1 = some i) :
    i ∈ candidates ∨ fuzzyInstr = some i := by
  induction candidates generalizing fuzzyInstr with
  | nil => exact Or.inr selected
  | cons j candidates ih =>
    simp only [selectInstr] at selected
    split at selected
    · cases selected
      exact Or.inl List.mem_cons_self
    · split at selected
      · rcases ih selected with inside | last
        · exact Or.inl (List.mem_cons_of_mem _ inside)
        · cases last
          exact Or.inl List.mem_cons_self
      · exact (ih selected).imp (List.mem_cons_of_mem _) id

/-- A candidate with the text wanted is selected if it is the only one. -/
theorem selectInstr_exact {candidates : List Instruction} {fuzzyInstr : Option Instruction}
    {i : Instruction} (inside : i ∈ candidates) (text : trim (asm.print M i) = target)
    (only : ∀ j ∈ candidates, trim (asm.print M j) = target → j = i) :
    selectInstr asm M target fuzzy ignoreDbg candidates fuzzyInstr = (some i, true) := by
  induction candidates generalizing fuzzyInstr with
  | nil => cases inside
  | cons j candidates ih =>
    simp only [selectInstr]
    split
    · next here => rw [only j List.mem_cons_self here.symm]
    · next other =>
      have later : i ∈ candidates := by
        rcases List.mem_cons.mp inside with rfl | later
        · exact absurd text.symm other
        · exact later
      have rest := fun k member => only k (List.mem_cons_of_mem _ member)
      split
      · exact ih later rest
      · exact ih later rest

end Selection

end Arthas.Matcher
