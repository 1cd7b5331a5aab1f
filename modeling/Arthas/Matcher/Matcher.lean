import Mathlib
import Arthas.Utils.Path
import Arthas.Matcher.Bitcode

/-!
Matching source locations to instructions (`Matcher.cpp`). `none` stands for an undefined
result: a path of the debug information on which `canonpath` reads before its buffer.
-/

set_option autoImplicit false
set_option relaxedAutoImplicit false

namespace Arthas.Matcher

open Arthas.Lib Arthas.Utils

structure FileLine where
  file : Text
  line : UInt32
  deriving DecidableEq

structure MatchResult where
  matched : Bool
  instrs : List Instruction
  func : Option Function
  deriving DecidableEq

def MatchResult.new : MatchResult := ⟨false, [], none⟩

def skipFunction (F : Function) : Bool :=
  F.isDeclaration || "llvm.dbg".toList.isPrefixOf F.name

/-- `ScopeInfoFinder::getInstLine`: 0 without a debug location. -/
def getInstLine (i : Instruction) : UInt32 := i.debugLoc.getD 0

/-- `ScopeInfoFinder::getLastLine`. -/
def getLastLine (F : Function) : UInt32 :=
  match F.blocks.getLast? with
  | none => 0
  | some block =>
    match block.getLast? with
    | none => 0
    | some i => getInstLine i

def spMatchFilename (sp : DISubprogram) (filename : Text) : Option Bool :=
  let debugname :=
    if sp.filename.head? = some '/' then sp.filename else sp.directory ++ '/' :: sp.filename
  pathendswith (cstr debugname) filename

/-- Whether there is an instruction on the line, and `result` with those there are. -/
def matchInstrsInFunction (line : UInt32) (F : Function) (result : List Instruction) :
    Bool × List Instruction :=
  let here := F.instructions.filter fun i => getInstLine i = line
  (!here.isEmpty, result ++ here)

/-- The loop of `matchInstrsCriterion` over the functions of the module. -/
def matchInstrsCriterionFrom (criterion : FileLine) :
    List Function → MatchResult → Option (Bool × MatchResult)
  | [], result => some (false, result)
  | F :: functions, result =>
    if skipFunction F then matchInstrsCriterionFrom criterion functions result
    else
      match F.subprogram with
      | none => matchInstrsCriterionFrom criterion functions result
      | some SP => do
        let inFile ← spMatchFilename SP (cstr criterion.file)
        if inFile then
          let (matched, instrs) := matchInstrsInFunction criterion.line F result.instrs
          if matched then return (true, ⟨matched, instrs, some F⟩)
          if SP.line ≤ criterion.line ∧ criterion.line ≤ getLastLine F then
            let (matched, instrs) := matchInstrsInFunction criterion.line F instrs
            return (true, ⟨matched, instrs, some F⟩)
          matchInstrsCriterionFrom criterion functions ⟨matched, instrs, result.func⟩
        else matchInstrsCriterionFrom criterion functions result

def matchInstrsCriterion (M : Module) (criterion : FileLine) (result : MatchResult) :
    Option (Bool × MatchResult) :=
  matchInstrsCriterionFrom criterion M.functions result

/-- The stretches between the matches of `%\d+`; `inRegister` while digits are skipped,
`stretch` holds the letters since the last match, the last one first. -/
def betweenRegisters (inRegister : Bool) (stretch : Text) : Text → List Text
  | [] => [stretch.reverse]
  | [c] => if inRegister ∧ c.isDigit then [stretch.reverse] else [(c :: stretch).reverse]
  | c :: d :: s =>
    if inRegister ∧ c.isDigit then betweenRegisters true stretch (d :: s)
    else if c = '%' ∧ d.isDigit then stretch.reverse :: betweenRegisters true [] (d :: s)
    else betweenRegisters false (c :: stretch) (d :: s)

/-- What a `sregex_token_iterator` for the stretches enumerates: a last empty stretch
behind a match is left out. -/
def registerTokens (s : Text) : List Text :=
  let tokens := betweenRegisters false [] s
  if 1 < tokens.length ∧ tokens.getLast? = some [] then tokens.dropLast else tokens

/-- The text before `!dbg`, if there is any and that is not empty. -/
def withoutDbg (s : Text) : Text :=
  match firstAt "!dbg".toList s with
  | none => s
  | some (before, _) => if before = [] then s else before

def fuzzilyMatch (inst1 inst2 : Text) (ignoreDbg : Bool) : Bool :=
  if ignoreDbg then registerTokens (withoutDbg inst1) = registerTokens (withoutDbg inst2)
  else registerTokens inst1 = registerTokens inst2

section Printed

variable (asm : AsmWriter) (M : Module)

/-- The selection among candidates: the first exact match, else the last fuzzy one, and
whether the result is exact. -/
def selectInstr (target : Text) (fuzzy ignoreDbg : Bool) :
    List Instruction → Option Instruction → Option Instruction × Bool
  | [], fuzzyInstr => (fuzzyInstr, false)
  | i :: candidates, fuzzyInstr =>
    let text := trim (asm.print M i)
    if target = text then (some i, true)
    else if fuzzy && fuzzilyMatch text target ignoreDbg then
      selectInstr target fuzzy ignoreDbg candidates (some i)
    else selectInstr target fuzzy ignoreDbg candidates fuzzyInstr

/-- The outcome of `matchInstr`, with the text it was given, which it trims in place. -/
structure InstrMatch where
  instr : Option Instruction
  text : Text
  exact : Bool
  deriving DecidableEq

/-- `Matcher::matchInstr`, for a source line and a text. -/
def matchInstr (opt : FileLine) (text : Text) (fuzzy ignoreDbg : Bool) : Option InstrMatch :=
  if text = [] then some ⟨none, text, false⟩
  else do
    let (found, result) ← matchInstrsCriterion M opt MatchResult.new
    if found then
      let (instr, exact) := selectInstr asm M (trim text) fuzzy ignoreDbg result.instrs none
      return ⟨instr, trim text, exact⟩
    return ⟨none, text, false⟩

end Printed

section Criterion

/-- Whether the search for a criterion ends at a function. -/
def stopsAt (criterion : FileLine) (F : Function) : Option Bool :=
  if skipFunction F then some false
  else
    match F.subprogram with
    | none => some false
    | some SP => (spMatchFilename SP (cstr criterion.file)).map fun inFile =>
        inFile && ((F.instructions.any fun i => getInstLine i = criterion.line) ||
          (decide (SP.line ≤ criterion.line) && decide (criterion.line ≤ getLastLine F)))

def instrsOnLine (line : UInt32) (F : Function) : List Instruction :=
  F.instructions.filter fun i => getInstLine i = line

variable {criterion : FileLine}

theorem matchInstrsInFunction_eq (line : UInt32) (F : Function) (result : List Instruction) :
    matchInstrsInFunction line F result =
      (F.instructions.any fun i => getInstLine i = line, result ++ instrsOnLine line F) := by
  simp only [matchInstrsInFunction, instrsOnLine, Prod.mk.injEq, and_true]
  rw [Bool.eq_iff_iff]
  simp [List.isEmpty_eq_false_iff, List.filter_eq_nil_iff]

theorem instrsOnLine_eq_nil {line : UInt32} {F : Function}
    (none : (F.instructions.any fun i => getInstLine i = line) = false) :
    instrsOnLine line F = [] := by
  simpa [instrsOnLine, List.filter_eq_nil_iff] using none

/-- A function the search does not end at adds nothing. -/
theorem criterion_passes {F : Function} {functions : List Function} {result : MatchResult}
    (unmatched : result.matched = false) (passes : stopsAt criterion F = some false) :
    matchInstrsCriterionFrom criterion (F :: functions) result =
      matchInstrsCriterionFrom criterion functions result := by
  rw [matchInstrsCriterionFrom]
  unfold stopsAt at passes
  split at passes
  · next skip => rw [if_pos skip]
  · next keep =>
    rw [if_neg keep]
    split at passes
    · rfl
    · next SP debug =>
      obtain ⟨inFile, path, apart⟩ := Option.map_eq_some_iff.mp passes
      simp only [path, Option.bind_eq_bind, Option.bind_some]
      cases inFile with
      | false => rfl
      | true =>
        rw [Bool.true_and, Bool.or_eq_false_iff] at apart
        have outside : ¬ (SP.line ≤ criterion.line ∧ criterion.line ≤ getLastLine F) := by
          simpa using apart.2
        simp only [if_true, matchInstrsInFunction_eq, apart.1, instrsOnLine_eq_nil apart.1,
          List.append_nil, Bool.false_eq_true, if_false, outside]
        rw [show (⟨false, result.instrs, result.func⟩ : MatchResult) = result by
          rw [← unmatched]]

/-- A function the search ends at gives its instructions on the line, if it has any. -/
theorem criterion_stops {F : Function} {functions : List Function}
    (stops : stopsAt criterion F = some true) :
    matchInstrsCriterionFrom criterion (F :: functions) MatchResult.new =
      some (true, ⟨F.instructions.any fun i => getInstLine i = criterion.line,
        instrsOnLine criterion.line F, some F⟩) := by
  rw [matchInstrsCriterionFrom]
  unfold stopsAt at stops
  split at stops
  · cases stops
  · next keep =>
    rw [if_neg keep]
    split at stops
    · cases stops
    · next SP debug =>
      obtain ⟨inFile, path, holds⟩ := Option.map_eq_some_iff.mp stops
      simp only [Bool.and_eq_true] at holds
      obtain ⟨rfl, here⟩ := holds
      simp only [path, Option.bind_eq_bind, Option.bind_some, if_true,
        matchInstrsInFunction_eq, MatchResult.new, List.nil_append]
      split
      · next onLine => simp [onLine]
      · next offLine =>
        have offLine := Bool.eq_false_iff.mpr offLine
        rw [offLine, Bool.false_or, Bool.and_eq_true] at here
        rw [if_pos ⟨of_decide_eq_true here.1, of_decide_eq_true here.2⟩]
        simp [offLine, instrsOnLine_eq_nil offLine]

theorem criterion_undefined {F : Function} {functions : List Function} {result : MatchResult}
    (undefined : stopsAt criterion F = none) :
    matchInstrsCriterionFrom criterion (F :: functions) result = none := by
  rw [matchInstrsCriterionFrom]
  unfold stopsAt at undefined
  split at undefined
  · cases undefined
  · next keep =>
    rw [if_neg keep]
    split at undefined
    · cases undefined
    · next SP debug =>
      simp only [Option.map_eq_none_iff.mp undefined, Option.bind_eq_bind,
        Option.bind_none]

end Criterion

end Arthas.Matcher
