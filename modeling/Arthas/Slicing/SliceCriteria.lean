import Arthas.Matcher.Criteria

/-!
The slicing criteria of the command line (`SliceCriteria.cpp`): instructions by source
lines, or one of a function by its number or its text. Lines count as found even if no
instruction is on them, and a function needs both a number and a text.
-/

set_option autoImplicit false
set_option relaxedAutoImplicit false

namespace Arthas.Slicing

open Arthas.Lib Arthas.Utils Arthas.Matcher

structure SliceInstCriteriaOpt where
  fileLines : Text
  inst : Text
  func : Text
  instNo : Int
  fuzzyMatch : Bool
  ignoreDbg : Bool
  deriving DecidableEq

/-- `atoi`; a number that is no `int` is undefined. -/
def atoi (s : Text) : Option Int :=
  let s := (cstr s).dropWhile isspace
  let negative := s.head? = some '-'
  let s := if s.head? = some '-' ∨ s.head? = some '+' then s.tail else s
  let value : Int := numeralValue 10 (s.takeWhile (isDigitIn 10))
  let value := if negative then -value else value
  if -2 ^ 31 ≤ value ∧ value < 2 ^ 31 then some value else none

/-- The loop of `fromCriteriaStr` over the criteria. -/
def fromCriteria : List Text → List FileLine → Option (Bool × List FileLine)
  | [], results => some (true, results)
  | criterion :: criteria, results =>
    match splitList criterion ":".toList with
    | file :: line :: _ => do
      let line ← atoi line
      fromCriteria criteria (results ++ [⟨file, UInt32.ofInt line⟩])
    | _ => some (false, results)

/-- `FileLine::fromCriteriaStr`. -/
def fromCriteriaStr (criteria : Text) (results : List FileLine) :
    Option (Bool × List FileLine) :=
  fromCriteria (splitList criteria ",".toList) results

section Model

variable (asm : AsmWriter) (M : Module) (opt : SliceInstCriteriaOpt)

/-- The loop over the results of the criteria: all their instructions, or the one that
matches the text. -/
def takeMatches : List MatchResult → Bool → List Instruction → Bool × List Instruction
  | [], found, matchInsts => (found, matchInsts)
  | result :: results, found, matchInsts =>
    if opt.inst = [] then takeMatches results true (matchInsts ++ result.instrs)
    else
      match (selectInstr asm M opt.inst opt.fuzzyMatch opt.ignoreDbg result.instrs none).1 with
      | some instr => takeMatches results true (matchInsts ++ [instr])
      | none => takeMatches results found matchInsts

/-- The loop over the instructions of a function, `instNo` of which were looked at. -/
def findInFunction : List Instruction → Int → Option Instruction
  | [], _ => none
  | instr :: instrs, instNo =>
    let instNo := instNo + 1
    if opt.instNo > 0 then
      if opt.instNo = instNo then some instr else findInFunction instrs instNo
    else if opt.inst = trim (asm.print M instr) then some instr
    else findInFunction instrs instNo

def trimInst : SliceInstCriteriaOpt :=
  if opt.inst ≠ [] then { opt with inst := trim opt.inst } else opt

/-- `parseSlicingCriteriaOpt`, which trims the text of the instruction in place. -/
def parseSlicingCriteriaOpt (matchInsts : List Instruction) :
    Option (Bool × SliceInstCriteriaOpt × List Instruction) :=
  let opt := trimInst opt
  if opt.fileLines ≠ [] then do
    let (parsed, fileLines) ← fromCriteriaStr opt.fileLines []
    if parsed = false ∨ fileLines = [] then return (false, opt, matchInsts)
    let (ok, matchResults) ← matchInstrsCriteria M fileLines []
    if ok = false then return (false, opt, matchInsts)
    let (found, matchInsts) := takeMatches asm M opt matchResults false matchInsts
    return (found, opt, matchInsts)
  else if opt.func = [] then some (false, opt, matchInsts)
  else if opt.inst = [] ∨ opt.instNo ≤ 0 then some (false, opt, matchInsts)
  else
    match M.functions.find? fun F => !F.isDeclaration && F.name = opt.func with
    | none => some (false, opt, matchInsts)
    | some F =>
      match findInFunction asm M opt F.instructions 0 with
      | none => some (false, opt, matchInsts)
      | some instr => some (true, opt, matchInsts ++ [instr])

end Model

section Expected

variable (asm : AsmWriter) (M : Module) (opt : SliceInstCriteriaOpt)

/-- The instructions on the line of a criterion, in the first function of the file that
spans the line and has one on it. -/
def matchedInstrs (criterion : FileLine) : List Instruction :=
  match partialFind (matchesAt criterion) M.functions with
  | some (some F) => instrsOnLine criterion.line F
  | _ => []

/-- The instruction with the number that is asked for, in the function that is named. -/
def numberedInstr : Option Instruction :=
  (M.functions.find? fun F => !F.isDeclaration && F.name = opt.func).bind fun F =>
    F.instructions[(opt.instNo - 1).toNat]?

/-- The first instruction of that function with the text that is asked for. -/
def textInstr : Option Instruction :=
  (M.functions.find? fun F => !F.isDeclaration && F.name = opt.func).bind fun F =>
    F.instructions.find? fun i => trim opt.inst = trim (asm.print M i)

/-- A right answer: found exactly if something is appended, and what each way of giving the
criterion asks for. -/
structure Resolution (found : Bool) (appended : List Instruction) : Prop where
  found_iff : found = true ↔ appended ≠ []
  lines : ∀ criteria, opt.fileLines ≠ [] →
    fromCriteriaStr opt.fileLines [] = some (true, criteria) → trim opt.inst = [] →
      appended = criteria.flatMap (matchedInstrs M)
  candidates : ∀ criteria, opt.fileLines ≠ [] →
    fromCriteriaStr opt.fileLines [] = some (true, criteria) → trim opt.inst ≠ [] →
      appended = criteria.filterMap fun criterion =>
        (selectInstr asm M (trim opt.inst) opt.fuzzyMatch opt.ignoreDbg
          (matchedInstrs M criterion) none).1
  numbered : opt.fileLines = [] → opt.func ≠ [] → trim opt.inst = [] → 0 < opt.instNo →
    appended = (numberedInstr M opt).toList
  text : opt.fileLines = [] → opt.func ≠ [] → trim opt.inst ≠ [] → opt.instNo ≤ 0 →
    appended = (textInstr asm M opt).toList

/-- The options are resolved to a right answer. -/
def Resolves (matchInsts : List Instruction) : Prop :=
  ∃ found opt' appended,
    parseSlicingCriteriaOpt asm M opt matchInsts = some (found, opt', matchInsts ++ appended) ∧
      Resolution asm M opt found appended

/-- When they are: the lines are numbers and can be looked for, and without a text one of
them is matched; in a function nothing is asked for by a number or a text alone that is
there. -/
def Resolvable : Prop :=
  if opt.fileLines ≠ [] then
    match fromCriteriaStr opt.fileLines [] with
    | none => False
    | some (false, _) => True
    | some (true, criteria) =>
      (∀ criterion ∈ criteria, (partialFind (matchesAt criterion) M.functions).isSome) ∧
        (trim opt.inst = [] → ∃ criterion ∈ criteria, matchedInstrs M criterion ≠ [])
  else opt.func ≠ [] →
    (trim opt.inst = [] → 0 < opt.instNo → numberedInstr M opt = none) ∧
      (trim opt.inst ≠ [] → opt.instNo ≤ 0 → textInstr asm M opt = none)

end Expected

section Loops

variable {asm : AsmWriter} {M : Module} {opt : SliceInstCriteriaOpt}

theorem trimInst_eq (opt : SliceInstCriteriaOpt) :
    trimInst opt = { opt with inst := trim opt.inst } := by
  rw [trimInst]
  split
  · rfl
  · next empty =>
    have nothing : opt.inst = [] := not_not.mp empty
    rw [nothing]
    change opt = { opt with inst := [] }
    rw [← nothing]

/-- Without a text every result counts as found. -/
theorem takeMatches_lines (textless : opt.inst = []) (results : List MatchResult) (found : Bool)
    (matchInsts : List Instruction) :
    takeMatches asm M opt results found matchInsts =
      (found || !results.isEmpty, matchInsts ++ results.flatMap MatchResult.instrs) := by
  induction results generalizing found matchInsts with
  | nil => simp [takeMatches]
  | cons result results ih =>
    rw [takeMatches, if_pos textless, ih, List.flatMap_cons, List.append_assoc]
    simp

/-- With a text the results with a candidate count. -/
theorem takeMatches_text (text : opt.inst ≠ []) (results : List MatchResult) (found : Bool)
    (matchInsts : List Instruction) :
    let chosen := results.filterMap fun result =>
      (selectInstr asm M opt.inst opt.fuzzyMatch opt.ignoreDbg result.instrs none).1
    takeMatches asm M opt results found matchInsts =
      (found || !chosen.isEmpty, matchInsts ++ chosen) := by
  induction results generalizing found matchInsts with
  | nil => simp [takeMatches]
  | cons result results ih =>
    rw [takeMatches, if_neg text]
    cases chosen : (selectInstr asm M opt.inst opt.fuzzyMatch opt.ignoreDbg result.instrs none).1
      with
    | none =>
      simp only [List.filterMap_cons, chosen]
      exact ih found matchInsts
    | some instr =>
      simp only [List.filterMap_cons, chosen]
      rw [ih]
      simp

theorem findInFunction_number (number : 0 < opt.instNo) {instNo : Int} (before : instNo < opt.instNo)
    (instrs : List Instruction) :
    findInFunction asm M opt instrs instNo = instrs[(opt.instNo - instNo - 1).toNat]? := by
  induction instrs generalizing instNo with
  | nil => rfl
  | cons instr instrs ih =>
    rw [findInFunction]
    simp only [gt_iff_lt, number, if_true]
    by_cases here : opt.instNo = instNo + 1
    · rw [if_pos here, here]
      simp
    · rw [if_neg here, ih (by omega)]
      obtain ⟨k, eq⟩ : ∃ k : Nat, opt.instNo - instNo - 1 = k + 1 :=
        ⟨(opt.instNo - instNo - 2).toNat, by omega⟩
      have shift : opt.instNo - (instNo + 1) - 1 = (k : Int) := by omega
      rw [eq, shift]
      rfl

end Loops

section Lines

variable {M : Module} {criteria : List FileLine}

theorem fromCriteria_length {texts : List Text} {results out : List FileLine}
    (parsed : fromCriteria texts results = some (true, out)) :
    out.length = results.length + texts.length := by
  induction texts generalizing results with
  | nil =>
    cases parsed
    rfl
  | cons criterion texts ih =>
    rw [fromCriteria] at parsed
    split at parsed
    · obtain ⟨line, -, rest⟩ := Option.bind_eq_some_iff.mp parsed
      rw [ih rest, List.length_append, List.length_singleton, List.length_cons]
      omega
    · cases parsed

/-- Criteria that are parsed are there. -/
theorem fromCriteriaStr_ne_nil {text : Text} (present : text ≠ [])
    (parsed : fromCriteriaStr text [] = some (true, criteria)) : criteria ≠ [] := by
  have length := fromCriteria_length parsed
  have fields : splitList text ",".toList ≠ [] := by
    rw [splitList, if_neg present]
    exact split_ne_nil (by decide) text
  have positive := List.length_pos_iff.mpr fields
  rintro rfl
  simp only [List.length_nil] at length
  omega

/-- The pass over the functions, from no results. -/
theorem matchInstrsCriteria_nil (M : Module) (criteria : List FileLine) :
    matchInstrsCriteria M criteria [] =
      (matchInstrsCriteriaFrom M.functions
        (criteria.map fun criterion => (criterion, MatchResult.new))).map fun entries =>
          (true, entries.map Prod.snd) := by
  have fresh : ([] : List MatchResult).takeD criteria.length MatchResult.new =
      (List.replicate criteria.length MatchResult.new).takeD criteria.length MatchResult.new := by
    rw [List.takeD_nil, List.takeD_eq_take _ (by simp), List.take_of_length_le (by simp)]
  rw [matchInstrsCriteria, fresh, zip_takeD_replicate]

/-- What a run of the pass reports for the criterion at a place. -/
theorem criteria_report {last : List (FileLine × MatchResult)}
    (run : matchInstrsCriteriaFrom M.functions
      (criteria.map fun criterion => (criterion, MatchResult.new)) = some last)
    {i : Nat} {criterion : FileLine} (there : criteria[i]? = some criterion) :
    (partialFind (matchesAt criterion) M.functions).isSome ∧
      (last.map fun entry => entry.2.instrs)[i]? = some (matchedInstrs M criterion) := by
  obtain ⟨final, found, at_last, search, report⟩ := criteria_reports run there
  rw [search, List.getElem?_map, at_last, Option.map_some]
  refine ⟨rfl, ?_⟩
  rw [matchedInstrs, search]
  cases found with
  | none => rw [report.2]
  | some F => rw [report]

/-- The pass finds the matched instructions of all criteria. -/
theorem matchInstrsCriteria_instrs {ok : Bool} {results : List MatchResult}
    (run : matchInstrsCriteria M criteria [] = some (ok, results)) :
    ok = true ∧ results.map MatchResult.instrs = criteria.map (matchedInstrs M) ∧
      ∀ criterion ∈ criteria, (partialFind (matchesAt criterion) M.functions).isSome := by
  rw [matchInstrsCriteria_nil] at run
  obtain ⟨last, pass, eq⟩ := Option.map_eq_some_iff.mp run
  cases eq
  refine ⟨rfl, ?_, ?_⟩
  · apply List.ext_getElem?
    intro i
    rw [List.map_map, List.getElem?_map (f := matchedInstrs M)]
    cases there : criteria[i]? with
    | none =>
      have outside := List.getElem?_eq_none_iff.mp there
      have length := (criteriaFrom_final pass).1
      rw [List.length_map] at length
      rw [Option.map_none, List.getElem?_eq_none_iff, List.length_map, length]
      exact outside
    | some criterion => exact (criteria_report pass there).2
  · intro criterion member
    obtain ⟨i, there⟩ := List.getElem?_of_mem member
    exact (criteria_report pass there).1

theorem matchInstrsCriteria_isSome
    (debug : ∀ F ∈ M.functions, F.isDeclaration = false → F.subprogram.isSome)
    (defined : ∀ criterion ∈ criteria, (partialFind (matchesAt criterion) M.functions).isSome) :
    (matchInstrsCriteria M criteria []).isSome := by
  rw [matchInstrsCriteria_nil, Option.isSome_map]
  apply criteriaFrom_isSome
  · intro F member keep
    rw [skipFunction, Bool.or_eq_false_iff] at keep
    exact debug F member keep.1
  · intro entry member
    obtain ⟨criterion, inside, rfl⟩ := List.mem_map.mp member
    exact Or.inr (defined criterion inside)

end Lines

section Answers

variable {asm : AsmWriter} {M : Module} {opt opt' : SliceInstCriteriaOpt}
  {matchInsts appended : List Instruction} {found : Bool}

/-- One answer is given, so it has to be right. -/
theorem resolves_iff_of_eq
    (answer : parseSlicingCriteriaOpt asm M opt matchInsts =
      some (found, opt', matchInsts ++ appended)) :
    Resolves asm M opt matchInsts ↔ Resolution asm M opt found appended := by
  constructor
  · intro resolves
    obtain ⟨found', opt'', appended', other, resolution⟩ := resolves
    rw [answer, Option.some.injEq, Prod.mk.injEq, Prod.mk.injEq] at other
    obtain ⟨rfl, -, same⟩ := other
    rw [List.append_cancel_left same]
    exact resolution
  · intro resolution
    exact ⟨found, opt', appended, answer, resolution⟩

theorem not_resolves_of_none
    (undefined : parseSlicingCriteriaOpt asm M opt matchInsts = none) :
    ¬ Resolves asm M opt matchInsts := by
  intro resolves
  obtain ⟨_, _, _, answer, -⟩ := resolves
  rw [undefined] at answer
  cases answer

/-- With criteria by lines only these are asked for. -/
theorem resolution_lines_iff (present : opt.fileLines ≠ []) {criteria : List FileLine}
    (parsed : fromCriteriaStr opt.fileLines [] = some (true, criteria)) :
    Resolution asm M opt found appended ↔ (found = true ↔ appended ≠ []) ∧
      (trim opt.inst = [] → appended = criteria.flatMap (matchedInstrs M)) ∧
      (trim opt.inst ≠ [] → appended = criteria.filterMap fun criterion =>
        (selectInstr asm M (trim opt.inst) opt.fuzzyMatch opt.ignoreDbg
          (matchedInstrs M criterion) none).1) := by
  have mine : ∀ criteria', fromCriteriaStr opt.fileLines [] = some (true, criteria') →
      criteria' = criteria := by
    intro criteria' parsed'
    rw [parsed, Option.some.injEq, Prod.mk.injEq] at parsed'
    exact parsed'.2.symm
  constructor
  · intro resolution
    exact ⟨resolution.found_iff, resolution.lines criteria present parsed,
      resolution.candidates criteria present parsed⟩
  · intro asked
    obtain ⟨found_iff, lines, candidates⟩ := asked
    refine ⟨found_iff, ?_, ?_, ?_, ?_⟩
    · intro criteria' _ parsed'
      rw [mine criteria' parsed']
      exact lines
    · intro criteria' _ parsed'
      rw [mine criteria' parsed']
      exact candidates
    · intro lineless
      exact absurd lineless present
    · intro lineless
      exact absurd lineless present

/-- With the name of a function only its instructions are asked for. -/
theorem resolution_function_iff (lineless : opt.fileLines = []) (named : opt.func ≠ []) :
    Resolution asm M opt found appended ↔ (found = true ↔ appended ≠ []) ∧
      (trim opt.inst = [] → 0 < opt.instNo → appended = (numberedInstr M opt).toList) ∧
      (trim opt.inst ≠ [] → opt.instNo ≤ 0 → appended = (textInstr asm M opt).toList) := by
  constructor
  · intro resolution
    exact ⟨resolution.found_iff, resolution.numbered lineless named,
      resolution.text lineless named⟩
  · intro asked
    obtain ⟨found_iff, numbered, text⟩ := asked
    refine ⟨found_iff, ?_, ?_, fun _ _ => numbered, fun _ _ => text⟩
    · intro _ present
      exact absurd lineless present
    · intro _ present
      exact absurd lineless present

/-- Where nothing is asked for it is right to find nothing. -/
theorem resolution_nothing
    (unparsed : opt.fileLines ≠ [] →
      ∀ criteria, fromCriteriaStr opt.fileLines [] ≠ some (true, criteria))
    (nameless : opt.fileLines = [] → opt.func = []) : Resolution asm M opt false [] := by
  refine ⟨by simp, ?_, ?_, ?_, ?_⟩
  · intro criteria present parsed
    exact absurd parsed (unparsed present criteria)
  · intro criteria present parsed
    exact absurd parsed (unparsed present criteria)
  · intro lineless named
    exact absurd (nameless lineless) named
  · intro lineless named
    exact absurd (nameless lineless) named

/-- Criteria by lines, behind the parsing. -/
theorem parseSlicingCriteriaOpt_lines (present : opt.fileLines ≠ []) {criteria : List FileLine}
    (parsed : fromCriteriaStr opt.fileLines [] = some (true, criteria)) :
    parseSlicingCriteriaOpt asm M opt matchInsts =
      (matchInstrsCriteria M criteria []).map fun answer =>
        let (found, insts) := takeMatches asm M { opt with inst := trim opt.inst } answer.2 false
          matchInsts
        (found, { opt with inst := trim opt.inst }, insts) := by
  rw [parseSlicingCriteriaOpt, trimInst_eq]
  simp only [present, ne_eq, not_false_eq_true, if_true, parsed, Option.bind_eq_bind,
    Option.bind_some, fromCriteriaStr_ne_nil present parsed, Bool.true_eq_false, or_self, if_false]
  cases run : matchInstrsCriteria M criteria [] with
  | none => rfl
  | some answer =>
    obtain ⟨ok, results⟩ := answer
    obtain rfl := (matchInstrsCriteria_instrs run).1
    rfl

/-- Without a text an answer is right if a criterion is matched. -/
theorem resolves_matched_iff (present : opt.fileLines ≠ []) {criteria : List FileLine}
    (parsed : fromCriteriaStr opt.fileLines [] = some (true, criteria))
    (textless : trim opt.inst = []) {ok : Bool} {results : List MatchResult}
    (run : matchInstrsCriteria M criteria [] = some (ok, results)) :
    Resolves asm M opt matchInsts ↔ ∃ criterion ∈ criteria, matchedInstrs M criterion ≠ [] := by
  have answer := @parseSlicingCriteriaOpt_lines asm M opt matchInsts present criteria parsed
  obtain ⟨-, instrs, -⟩ := matchInstrsCriteria_instrs run
  have reported : results.isEmpty = false := by
    have same := congrArg List.length instrs
    rw [List.length_map, List.length_map] at same
    have positive := List.length_pos_iff.mpr (fromCriteriaStr_ne_nil present parsed)
    rw [List.isEmpty_eq_false_iff, ← List.length_pos_iff]
    omega
  have appended : results.flatMap MatchResult.instrs = criteria.flatMap (matchedInstrs M) := by
    rw [List.flatMap_def, List.flatMap_def, instrs]
  have matched : criteria.flatMap (matchedInstrs M) ≠ [] ↔
      ∃ criterion ∈ criteria, matchedInstrs M criterion ≠ [] := by
    rw [ne_eq, List.flatMap_eq_nil_iff]
    push Not
    rfl
  rw [run, Option.map_some, takeMatches_lines textless, reported, appended] at answer
  rw [resolves_iff_of_eq answer, resolution_lines_iff present parsed, ← matched]
  constructor
  · intro asked
    exact asked.1.mp rfl
  · intro something
    exact ⟨iff_of_true rfl something, fun _ => rfl, fun text => absurd textless text⟩

/-- With a text every answer is right. -/
theorem resolves_candidates (present : opt.fileLines ≠ []) {criteria : List FileLine}
    (parsed : fromCriteriaStr opt.fileLines [] = some (true, criteria))
    (text : trim opt.inst ≠ []) {ok : Bool} {results : List MatchResult}
    (run : matchInstrsCriteria M criteria [] = some (ok, results)) :
    Resolves asm M opt matchInsts := by
  have answer := @parseSlicingCriteriaOpt_lines asm M opt matchInsts present criteria parsed
  obtain ⟨-, instrs, -⟩ := matchInstrsCriteria_instrs run
  have chosen : (results.filterMap fun result => (selectInstr asm M (trim opt.inst)
        opt.fuzzyMatch opt.ignoreDbg result.instrs none).1) =
      criteria.filterMap fun criterion => (selectInstr asm M (trim opt.inst) opt.fuzzyMatch
        opt.ignoreDbg (matchedInstrs M criterion) none).1 := by
    have mapped := congrArg (List.filterMap fun candidates => (selectInstr asm M
      (trim opt.inst) opt.fuzzyMatch opt.ignoreDbg candidates none).1) instrs
    rw [List.filterMap_map, List.filterMap_map] at mapped
    exact mapped
  have taken := @takeMatches_text asm M { opt with inst := trim opt.inst } text results false
    matchInsts
  simp only [chosen] at taken
  rw [run, Option.map_some, taken] at answer
  rw [resolves_iff_of_eq answer, resolution_lines_iff present parsed]
  exact ⟨by simp, fun textless => absurd textless text, fun _ => rfl⟩

/-- Lines are resolved if they can be looked for and, without a text, one is matched. -/
theorem resolves_lines_iff
    (debug : ∀ F ∈ M.functions, F.isDeclaration = false → F.subprogram.isSome)
    (present : opt.fileLines ≠ []) {criteria : List FileLine}
    (parsed : fromCriteriaStr opt.fileLines [] = some (true, criteria)) :
    Resolves asm M opt matchInsts ↔
      (∀ criterion ∈ criteria, (partialFind (matchesAt criterion) M.functions).isSome) ∧
        (trim opt.inst = [] → ∃ criterion ∈ criteria, matchedInstrs M criterion ≠ []) := by
  cases run : matchInstrsCriteria M criteria [] with
  | none =>
    have answer := @parseSlicingCriteriaOpt_lines asm M opt matchInsts present criteria parsed
    rw [run] at answer
    apply iff_of_false (not_resolves_of_none answer)
    intro condition
    have defined := matchInstrsCriteria_isSome debug condition.1
    rw [run] at defined
    cases defined
  | some result =>
    obtain ⟨ok, results⟩ := result
    rw [and_iff_right (matchInstrsCriteria_instrs run).2.2]
    by_cases text : trim opt.inst = []
    · rw [resolves_matched_iff present parsed text run]
      exact ⟨fun matched _ => matched, fun matched => matched text⟩
    · apply iff_of_true (resolves_candidates present parsed text run)
      intro textless
      exact absurd textless text

/-- With a number and a text the number alone decides. -/
theorem parseSlicingCriteriaOpt_number (lineless : opt.fileLines = []) (named : opt.func ≠ [])
    (text : trim opt.inst ≠ []) (number : 0 < opt.instNo) :
    parseSlicingCriteriaOpt asm M opt matchInsts =
      some ((numberedInstr M opt).isSome, { opt with inst := trim opt.inst },
        matchInsts ++ (numberedInstr M opt).toList) := by
  have positive : ¬ opt.instNo ≤ 0 := by omega
  rw [parseSlicingCriteriaOpt, trimInst_eq, numberedInstr]
  simp only [lineless, named, text, positive, ne_eq, not_true_eq_false, if_false, or_self]
  cases M.functions.find? fun F => !F.isDeclaration && F.name = opt.func with
  | none => simp
  | some F =>
    have search := @findInFunction_number asm M { opt with inst := trim opt.inst } number 0 number
      F.instructions
    simp only [Int.sub_zero, lineless] at search
    simp only [search, Option.bind_some]
    cases F.instructions[(opt.instNo - 1).toNat]? with
    | none => simp
    | some instr => simp

/-- A function without a number or without a text is always refused. -/
theorem resolves_function_iff (lineless : opt.fileLines = []) (named : opt.func ≠ []) :
    Resolves asm M opt matchInsts ↔
      (trim opt.inst = [] → 0 < opt.instNo → numberedInstr M opt = none) ∧
        (trim opt.inst ≠ [] → opt.instNo ≤ 0 → textInstr asm M opt = none) := by
  have nothing : ∀ {o : Option Instruction}, [] = o.toList ↔ o = none := by
    intro o
    cases o <;> simp
  by_cases refused : trim opt.inst = [] ∨ opt.instNo ≤ 0
  · have answer : parseSlicingCriteriaOpt asm M opt matchInsts =
        some (false, { opt with inst := trim opt.inst }, matchInsts ++ []) := by
      rw [parseSlicingCriteriaOpt, trimInst_eq, List.append_nil]
      simp only [lineless, named, refused, ne_eq, not_true_eq_false, if_false, if_true]
    rw [resolves_iff_of_eq answer, resolution_function_iff lineless named, nothing, nothing]
    apply and_iff_right
    simp
  · obtain ⟨text, number⟩ := not_or.mp refused
    have answer := @parseSlicingCriteriaOpt_number asm M opt matchInsts lineless named text
      (by omega)
    rw [resolves_iff_of_eq answer, resolution_function_iff lineless named]
    apply iff_of_true
    · refine ⟨?_, fun textless => absurd textless text, fun _ numberless => absurd numberless number⟩
      cases numberedInstr M opt <;> simp
    · exact ⟨fun textless => absurd textless text, fun _ numberless => absurd numberless number⟩

/-- All that is on a line of `a.c`. -/
def onLine (number : Text) : SliceInstCriteriaOpt :=
  ⟨"a.c:".toList ++ number, [], [], 0, true, true⟩

end Answers

end Arthas.Slicing
