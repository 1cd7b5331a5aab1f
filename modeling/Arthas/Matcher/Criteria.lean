import Mathlib
import Arthas.Lib.PartialLoops
import Arthas.Matcher.FirstMatch

/-!
Matching a list of criteria in one pass over the functions (`Matcher::matchInstrsCriteria`),
and when it gives what the search for each criterion alone gives. The pass keeps to the
range of a function, the single search looks past it and stops at a range without an
instruction on the line.
-/

set_option autoImplicit false
set_option relaxedAutoImplicit false

namespace Arthas.Matcher

open Arthas.Lib Arthas.Utils

section Model

/-- The body of the loop over the criteria, for one that may be matched already. Without
debug information a null pointer is followed. -/
def matchAt (F : Function) : FileLine × MatchResult → Option (FileLine × MatchResult)
  | (criterion, result) =>
    if result.matched then some (criterion, result)
    else do
      let SP ← F.subprogram
      let inFile ← spMatchFilename SP (cstr criterion.file)
      if inFile ∧ SP.line ≤ criterion.line ∧ criterion.line ≤ getLastLine F then
        let (matched, instrs) := matchInstrsInFunction criterion.line F result.instrs
        some (criterion, ⟨matched, instrs, some F⟩)
      else some (criterion, result)

/-- The loop of `matchInstrsCriteria` over the functions. -/
def matchInstrsCriteriaFrom :
    List Function → List (FileLine × MatchResult) → Option (List (FileLine × MatchResult))
  | [], results => some results
  | F :: functions, results =>
    if skipFunction F then matchInstrsCriteriaFrom functions results
    else do
      let results ← results.mapM (matchAt F)
      if results.all fun entry => entry.2.matched then some results
      else matchInstrsCriteriaFrom functions results

def matchInstrsCriteria (M : Module) (criteria : List FileLine) (results : List MatchResult) :
    Option (Bool × List MatchResult) :=
  let resized := results.takeD criteria.length MatchResult.new
  (matchInstrsCriteriaFrom M.functions (criteria.zip resized)).map fun entries =>
    (true, entries.map Prod.snd)

end Model

section Searches

variable (criterion : FileLine)

def HasLine (F : Function) : Prop := ∃ i ∈ F.instructions, getInstLine i = criterion.line

instance (F : Function) : Decidable (HasLine criterion F) :=
  inferInstanceAs (Decidable (∃ i ∈ F.instructions, _))

/-- Whether the pass matches a criterion in a function: it lies in the file, spans the line
and has an instruction on it. -/
def matchesAt (F : Function) : Option Bool :=
  if skipFunction F then some false
  else F.subprogram.bind fun SP => (spMatchFilename SP (cstr criterion.file)).map fun inFile =>
    inFile && decide (SP.line ≤ criterion.line ∧ criterion.line ≤ getLastLine F ∧
      HasLine criterion F)

variable {criterion}

theorem any_eq_hasLine (F : Function) :
    (F.instructions.any fun i => getInstLine i = criterion.line) = decide (HasLine criterion F) := by
  rw [Bool.eq_iff_iff, List.any_eq_true, decide_eq_true_iff]
  simp only [HasLine, decide_eq_true_iff]

/-- The result of the single search, by the function it stops at. -/
def singleResult (criterion : FileLine) (stop : Option Function) : MatchResult :=
  stop.elim MatchResult.new fun F =>
    ⟨decide (HasLine criterion F), instrsOnLine criterion.line F, some F⟩

theorem criterionFrom_eq (functions : List Function) :
    matchInstrsCriterionFrom criterion functions MatchResult.new =
      (partialFind (stopsAt criterion) functions).map fun stop =>
        (stop.isSome, singleResult criterion stop) := by
  induction functions with
  | nil => rfl
  | cons F functions ih =>
    cases here : stopsAt criterion F with
    | none => rw [criterion_undefined here, partialFind_cons_none here]; rfl
    | some stops =>
      cases stops with
      | true =>
        rw [criterion_stops here, partialFind_cons_true here, any_eq_hasLine]
        rfl
      | false => rw [criterion_passes rfl here, partialFind_cons_false here, ih]

/-- What the pass reports for a criterion. The function of an unmatched one can be any. -/
def Reports (criterion : FileLine) (found : Option Function) (result : MatchResult) : Prop :=
  match found with
  | none => result.matched = false ∧ result.instrs = []
  | some F => result = ⟨true, instrsOnLine criterion.line F, some F⟩

/-- What the functions make of a criterion and its result. -/
structure Final (functions : List Function) (entry last : FileLine × MatchResult) : Prop where
  criterion : last.1 = entry.1
  matched : entry.2.matched = true → last = entry
  unmatched : entry.2.matched = false → entry.2.instrs = [] →
    ∃ found, partialFind (matchesAt entry.1) functions = some found ∧ Reports entry.1 found last.2

theorem Final.of_matched {functions : List Function} {entry : FileLine × MatchResult}
    (done : entry.2.matched = true) : Final functions entry entry where
  criterion := rfl
  matched _ := rfl
  unmatched not_done := by
    rw [done] at not_done
    cases not_done

/-- One function of the pass, for one criterion. -/
theorem matchAt_cases {F : Function} {entry mid : FileLine × MatchResult}
    (keep : skipFunction F = false) (step : matchAt F entry = some mid) :
    mid.1 = entry.1 ∧ (entry.2.matched = true → mid = entry) ∧
      (entry.2.matched = false →
        matchesAt entry.1 F = some true ∧ mid.2.matched = true ∧
            (entry.2.instrs = [] → Reports entry.1 (some F) mid.2) ∨
          matchesAt entry.1 F = some false ∧ mid.2.matched = false ∧
            (entry.2.instrs = [] → mid.2.instrs = [])) := by
  obtain ⟨criterion, result⟩ := entry
  rw [matchAt] at step
  split at step
  · next done =>
    obtain rfl := Option.some.inj step
    refine ⟨rfl, fun _ => rfl, fun not_done => ?_⟩
    rw [done] at not_done
    cases not_done
  · next open_ =>
    obtain ⟨SP, debug, rest⟩ := Option.bind_eq_some_iff.mp step
    obtain ⟨inFile, path, rest⟩ := Option.bind_eq_some_iff.mp rest
    simp only [matchInstrsInFunction_eq, any_eq_hasLine] at rest
    refine ⟨?_, fun done => absurd done open_, fun not_done => ?_⟩
    · split at rest <;> rw [← Option.some.inj rest]
    · have decision : matchesAt criterion F = some (inFile && decide (SP.line ≤ criterion.line ∧
          criterion.line ≤ getLastLine F ∧ HasLine criterion F)) := by
        simp [matchesAt, keep, debug, path]
      rw [decision]
      split at rest
      · next range =>
        obtain rfl := Option.some.inj rest
        by_cases line : HasLine criterion F
        · exact Or.inl ⟨by simp [range, line], by simp [line],
            fun empty : result.instrs = [] => by simp [Reports, line, empty]⟩
        · have none : instrsOnLine criterion.line F = [] := by
            apply instrsOnLine_eq_nil
            rw [any_eq_hasLine]
            exact decide_eq_false line
          exact Or.inr ⟨by simp [line], by simp [line],
            fun empty : result.instrs = [] => by simp [empty, none]⟩
      · next outside =>
        obtain rfl := Option.some.inj rest
        refine Or.inr ⟨?_, not_done, id⟩
        rw [Option.some.injEq, Bool.and_eq_false_iff, decide_eq_false_iff_not]
        by_contra inside
        push Not at inside
        obtain ⟨file, low, high, -⟩ := inside
        exact outside ⟨by simpa using file, low, high⟩

theorem Final.step {F : Function} {functions : List Function} {entry mid last : FileLine × MatchResult}
    (keep : skipFunction F = false) (step : matchAt F entry = some mid)
    (rest : Final functions mid last) : Final (F :: functions) entry last := by
  obtain ⟨same, done, cases⟩ := matchAt_cases keep step
  refine ⟨rest.criterion.trans same, fun matched => ?_, fun not_done empty => ?_⟩
  · rw [← done matched]
    exact rest.matched (done matched ▸ matched)
  · rcases cases not_done with ⟨hit, matched, report⟩ | ⟨miss, not_done, still⟩
    · exact ⟨some F, partialFind_cons_true hit, rest.matched matched ▸ report empty⟩
    · obtain ⟨found, search, report⟩ := rest.unmatched not_done (still empty)
      rw [same] at search report
      exact ⟨found, (partialFind_cons_false miss).trans search, report⟩

theorem Final.skip {F : Function} {functions : List Function} {entry last : FileLine × MatchResult}
    (skipped : skipFunction F = true) (rest : Final functions entry last) :
    Final (F :: functions) entry last := by
  refine ⟨rest.criterion, rest.matched, fun not_done empty => ?_⟩
  obtain ⟨found, search, report⟩ := rest.unmatched not_done empty
  have passes : matchesAt entry.1 F = some false := if_pos skipped
  exact ⟨found, (partialFind_cons_false passes).trans search, report⟩

/-- The pass reports for each criterion the first function that matches it. -/
theorem criteriaFrom_final {functions : List Function} {entries last : List (FileLine × MatchResult)}
    (run : matchInstrsCriteriaFrom functions entries = some last) :
    last.length = entries.length ∧ ∀ (i : Nat) (entry : FileLine × MatchResult), entries[i]? = some entry →
      ∃ final, last[i]? = some final ∧ Final functions entry final := by
  induction functions generalizing entries with
  | nil =>
    obtain rfl := Option.some.inj run
    exact ⟨rfl, fun i entry there => ⟨entry, there, rfl, fun _ => rfl, fun not_done empty =>
      ⟨none, rfl, not_done, empty⟩⟩⟩
  | cons F functions ih =>
    rw [matchInstrsCriteriaFrom] at run
    split at run
    · next skipped =>
      obtain ⟨length, final⟩ := ih run
      refine ⟨length, fun i entry there => ?_⟩
      obtain ⟨last_i, at_i, rest⟩ := final i entry there
      exact ⟨last_i, at_i, rest.skip skipped⟩
    · next keep =>
      have keep : skipFunction F = false := by simpa using keep
      obtain ⟨mid, step, run⟩ := Option.bind_eq_some_iff.mp run
      have mid_length : mid.length = entries.length := length_mapM step
      have mid_at : ∀ (i : Nat) (entry : FileLine × MatchResult), entries[i]? = some entry →
          ∃ mid_i, mid[i]? = some mid_i ∧ matchAt F entry = some mid_i := by
        intro i entry there
        have mid_i := getElem?_mapM step i
        have bound : i < mid.length := mid_length ▸ (List.getElem?_eq_some_iff.mp there).1
        rw [there, Option.bind_some, List.getElem?_eq_getElem bound] at mid_i
        exact ⟨mid[i], List.getElem?_eq_getElem bound, mid_i.symm⟩
      split at run
      · next all =>
        obtain rfl := Option.some.inj run
        refine ⟨mid_length, fun i entry there => ?_⟩
        obtain ⟨mid_i, at_i, step_i⟩ := mid_at i entry there
        have done := List.all_eq_true.mp all mid_i (List.mem_of_getElem? at_i)
        exact ⟨mid_i, at_i, (Final.of_matched done).step keep step_i⟩
      · obtain ⟨length, final⟩ := ih run
        refine ⟨length.trans mid_length, fun i entry there => ?_⟩
        obtain ⟨mid_i, at_i, step_i⟩ := mid_at i entry there
        obtain ⟨last_i, last_at, rest⟩ := final i mid_i at_i
        exact ⟨last_i, last_at, rest.step keep step_i⟩

/-- The pass is defined when the search for every unmatched criterion is. -/
theorem criteriaFrom_isSome {functions : List Function} {entries : List (FileLine × MatchResult)}
    (debug : ∀ F ∈ functions, skipFunction F = false → F.subprogram.isSome)
    (defined : ∀ entry ∈ entries, entry.2.matched = true ∨
      (partialFind (matchesAt entry.1) functions).isSome) :
    (matchInstrsCriteriaFrom functions entries).isSome := by
  induction functions generalizing entries with
  | nil => rfl
  | cons F functions ih =>
    have later := fun G member => debug G (List.mem_cons_of_mem F member)
    rw [matchInstrsCriteriaFrom]
    split
    · next skipped =>
      refine ih later fun entry member => (defined entry member).imp_right fun search => ?_
      have passes : matchesAt entry.1 F = some false := if_pos skipped
      rwa [partialFind_cons_false passes] at search
    · next keep =>
      have keep : skipFunction F = false := by simpa using keep
      obtain ⟨SP, info⟩ := Option.isSome_iff_exists.mp (debug F List.mem_cons_self keep)
      have here : ∀ entry ∈ entries, (matchAt F entry).isSome := by
        rintro ⟨criterion, result⟩ member
        rw [matchAt]
        split
        · rfl
        · next open_ =>
          have search := (defined _ member).resolve_left open_
          cases path : spMatchFilename SP (cstr criterion.file) with
          | none =>
            have undefined : matchesAt criterion F = none := by simp [matchesAt, keep, info, path]
            rw [partialFind_cons_none undefined] at search
            cases search
          | some inFile =>
            simp only [info, path, Option.bind_eq_bind, Option.bind_some]
            split <;> rfl
      cases run : entries.mapM (matchAt F) with
      | none =>
        obtain ⟨entry, member, undefined⟩ := mapM_eq_none_iff.mp run
        have some_here := here entry member
        rw [undefined] at some_here
        cases some_here
      | some mid =>
        simp only [Option.bind_eq_bind, Option.bind_some]
        split
        · rfl
        · apply ih later
          intro mid_i member
          obtain ⟨entry, old, step⟩ := (mem_of_mapM_eq_some run mid_i).mp member
          obtain ⟨same, done, cases⟩ := matchAt_cases keep step
          cases matched : entry.2.matched with
          | true => exact Or.inl ((done matched).symm ▸ matched)
          | false =>
            rcases cases matched with ⟨-, hit, -⟩ | ⟨miss, -, -⟩
            · exact Or.inl hit
            · apply Or.inr
              have search := (defined entry old).resolve_left (by simp [matched])
              rwa [partialFind_cons_false miss, ← same] at search

end Searches

section Agreement

variable {criterion : FileLine} {functions : List Function}

/-- Two results for one criterion tell the same; an unmatched one tells of no function. -/
structure SameMatch (a b : MatchResult) : Prop where
  matched : a.matched = b.matched
  func : b.matched = true → a.func = b.func
  instrs : a.instrs = b.instrs

/-- The pass gives every criterion what the search for it alone gives. -/
def PassAgrees (M : Module) (criteria : List FileLine) : Prop :=
  ∃ results, matchInstrsCriteria M criteria (List.replicate criteria.length MatchResult.new) =
      some (true, results) ∧ results.length = criteria.length ∧
    ∀ (i : Nat) (criterion : FileLine), criteria[i]? = some criterion →
      ∃ result found alone, results[i]? = some result ∧
        matchInstrsCriterion M criterion MatchResult.new = some (found, alone) ∧
        SameMatch result alone

/-- The first function that has the line or spans it both has it and spans it; or that
function, if there is one, does not have the line, and no other function matches. -/
def PassAgreesAt (functions : List Function) (criterion : FileLine) : Prop :=
  (∃ before F after, functions = before ++ F :: after ∧
      (∀ G ∈ before, stopsAt criterion G = some false) ∧ matchesAt criterion F = some true) ∨
    (∀ F ∈ functions, matchesAt criterion F = some false) ∧
      ∀ before F after, functions = before ++ F :: after →
        (∀ G ∈ before, stopsAt criterion G = some false) → stopsAt criterion F = some true →
          ¬ HasLine criterion F

theorem stopsAt_of_matchesAt {F : Function} (matches_ : matchesAt criterion F = some true) :
    stopsAt criterion F = some true ∧ HasLine criterion F := by
  unfold matchesAt at matches_
  split at matches_
  · cases matches_
  · next keep =>
    obtain ⟨SP, debug, rest⟩ := Option.bind_eq_some_iff.mp matches_
    obtain ⟨inFile, path, both⟩ := Option.map_eq_some_iff.mp rest
    rw [Bool.and_eq_true, decide_eq_true_iff] at both
    obtain ⟨rfl, -, -, i, inside, onLine⟩ := both
    exact ⟨stopsAt_eq_true debug (by simpa using keep) path inside onLine, i, inside, onLine⟩

theorem matchesAt_of_passed {F : Function}
    (debug : skipFunction F = false → F.subprogram.isSome)
    (passed : stopsAt criterion F = some false) : matchesAt criterion F = some false := by
  rcases stopsAt_eq_false_iff.mp passed with skipped | bare | ⟨SP, info, path⟩
  · exact if_pos skipped
  · by_cases skipped : skipFunction F = true
    · exact if_pos skipped
    · have some_info := debug (by simpa using skipped)
      rw [bare] at some_info
      cases some_info
  · unfold matchesAt
    split
    · rfl
    · rcases path with path | ⟨path, off, -⟩
      · simp [info, path]
      · have none : ¬ HasLine criterion F := fun ⟨i, inside, onLine⟩ => off i inside onLine
        simp [info, path, none]

theorem stopsAt_isSome {F : Function} (defined : (matchesAt criterion F).isSome) :
    (stopsAt criterion F).isSome := by
  unfold matchesAt at defined
  unfold stopsAt
  split at defined
  · next skipped => simp [skipped]
  · next keep =>
    rw [if_neg keep]
    cases info : F.subprogram with
    | none => rfl
    | some SP =>
      rw [info, Option.bind_some, Option.isSome_map] at defined
      simpa using defined

/-- The condition compares what the two searches find. -/
theorem passAgreesAt_iff (debug : ∀ F ∈ functions, skipFunction F = false → F.subprogram.isSome) :
    PassAgreesAt functions criterion ↔
      ∃ stop, partialFind (stopsAt criterion) functions = some stop ∧
        partialFind (matchesAt criterion) functions =
          some (stop.filter fun F => HasLine criterion F) := by
  constructor
  · rintro (⟨before, F, after, rfl, passed, hit⟩ | ⟨missed, off⟩)
    · obtain ⟨stops, line⟩ := stopsAt_of_matchesAt hit
      refine ⟨some F, partialFind_eq_found.mpr ⟨before, after, rfl, passed, stops⟩, ?_⟩
      rw [Option.filter_some_pos (by simpa using line), partialFind_eq_found]
      refine ⟨before, after, rfl, fun G member => ?_, hit⟩
      exact matchesAt_of_passed (debug G (List.mem_append_left _ member)) (passed G member)
    · obtain ⟨stop, found⟩ := Option.isSome_iff_exists.mp (partialFind_isSome fun F member =>
        show (stopsAt criterion F).isSome from stopsAt_isSome (by rw [missed F member]; rfl))
      refine ⟨stop, found, ?_⟩
      rw [partialFind_eq_none_found.mpr missed]
      cases stop with
      | none => rfl
      | some F =>
        obtain ⟨before, after, split, passed, stops⟩ := partialFind_eq_found.mp found
        rw [Option.filter_some_neg (by simpa using off before F after split passed stops)]
  · rintro ⟨stop, found, pass⟩
    cases stop with
    | none =>
      refine Or.inr ⟨partialFind_eq_none_found.mp pass, fun before F after split passed stops => ?_⟩
      have other := partialFind_eq_found.mpr ⟨before, after, split, passed, stops⟩
      rw [found] at other
      cases other
    | some F =>
      obtain ⟨before, after, split, passed, stops⟩ := partialFind_eq_found.mp found
      by_cases line : HasLine criterion F
      · rw [Option.filter_some_pos (by simpa using line)] at pass
        obtain ⟨-, -, -, -, hit⟩ := partialFind_eq_found.mp pass
        exact Or.inl ⟨before, F, after, split, passed, hit⟩
      · rw [Option.filter_some_neg (by simpa using line)] at pass
        refine Or.inr ⟨partialFind_eq_none_found.mp pass, fun _ G _ split' passed' stops' => ?_⟩
        have same := partialFind_eq_found.mpr ⟨_, _, split', passed', stops'⟩
        rw [found, Option.some.injEq, Option.some.injEq] at same
        exact same ▸ line

/-- A search without a match and the pass tell the same exactly when the pass found nothing. -/
theorem sameMatch_unmatched_iff {found func : Option Function} {result : MatchResult}
    (report : Reports criterion found result) :
    SameMatch result ⟨false, [], func⟩ ↔ found = none := by
  cases found with
  | none => exact iff_of_true ⟨report.1, nofun, report.2⟩ rfl
  | some G =>
    apply iff_of_false
    · intro same
      have matched := same.matched
      rw [report] at matched
      cases matched
    · nofun

/-- The results tell the same exactly when the pass found the function of the single search,
and nothing where that function does not have the line. -/
theorem sameMatch_iff {found stop : Option Function} {result : MatchResult}
    (report : Reports criterion found result) :
    SameMatch result (singleResult criterion stop) ↔
      found = stop.filter fun F => HasLine criterion F := by
  have absent : ∀ {F : Function}, ¬ HasLine criterion F → instrsOnLine criterion.line F = [] := by
    intro F line
    apply instrsOnLine_eq_nil
    rw [any_eq_hasLine]
    exact decide_eq_false line
  cases stop with
  | none =>
    rw [singleResult, Option.elim_none, Option.filter_none]
    exact sameMatch_unmatched_iff report
  | some F =>
    rw [singleResult, Option.elim_some]
    by_cases line : HasLine criterion F
    · rw [Option.filter_some_pos (by simpa using line), decide_eq_true line]
      cases found with
      | none =>
        apply iff_of_false
        · intro same
          have matched := report.1.symm.trans same.matched
          cases matched
        · nofun
      | some G =>
        rw [report]
        constructor
        · exact fun same => same.func rfl
        · intro same
          obtain rfl := Option.some.inj same
          exact ⟨rfl, fun _ => rfl, rfl⟩
    · rw [Option.filter_some_neg (by simpa using line), decide_eq_false line, absent line]
      exact sameMatch_unmatched_iff report

/-- The entries of the pass before it starts. -/
theorem zip_takeD_replicate (criteria : List FileLine) :
    criteria.zip ((List.replicate criteria.length MatchResult.new).takeD criteria.length
      MatchResult.new) = criteria.map fun criterion => (criterion, MatchResult.new) := by
  have resized : (List.replicate criteria.length MatchResult.new).takeD criteria.length
      MatchResult.new = List.replicate criteria.length MatchResult.new := by
    rw [List.takeD_eq_take _ (by simp), List.take_of_length_le (by simp)]
  rw [resized]
  induction criteria with
  | nil => rfl
  | cons criterion criteria ih =>
    rw [List.length_cons, List.replicate_succ, List.zip_cons_cons, ih (by
      rw [List.takeD_eq_take _ (by simp), List.take_of_length_le (by simp)])]
    rfl

/-- A pass over the functions reports for each criterion what the search for it finds. -/
theorem criteria_reports {M : Module} {criteria : List FileLine}
    {last : List (FileLine × MatchResult)}
    (pass : matchInstrsCriteriaFrom M.functions
      (criteria.map fun criterion => (criterion, MatchResult.new)) = some last)
    {i : Nat} {criterion : FileLine} (at_i : criteria[i]? = some criterion) :
    ∃ final found, last[i]? = some final ∧
      partialFind (matchesAt criterion) M.functions = some found ∧
      Reports criterion found final.2 := by
  have entry_at : (criteria.map fun criterion => (criterion, MatchResult.new))[i]? =
      some (criterion, MatchResult.new) := by
    rw [List.getElem?_map, at_i, Option.map_some]
  obtain ⟨-, finals⟩ := criteriaFrom_final pass
  obtain ⟨final, at_last, final_i⟩ := finals i _ entry_at
  obtain ⟨found, search, report⟩ := final_i.unmatched rfl rfl
  exact ⟨final, found, at_last, search, report⟩

/-- Matching a list of criteria agrees with matching each of them alone exactly when for each
of them the pass and the single search come to the same function. -/
theorem criteria_agree_iff (M : Module)
    (debug : ∀ F ∈ M.functions, F.isDeclaration = false → F.subprogram.isSome)
    (criteria : List FileLine) :
    PassAgrees M criteria ↔ ∀ criterion ∈ criteria, PassAgreesAt M.functions criterion := by
  have kept : ∀ F ∈ M.functions, skipFunction F = false → F.subprogram.isSome := by
    intro F member keep
    rw [skipFunction, Bool.or_eq_false_iff] at keep
    exact debug F member keep.1
  -- What the search for one criterion returns, compared with what the pass reports.
  have single : ∀ (criterion : FileLine) (found : Option Function) (result : MatchResult),
      partialFind (matchesAt criterion) M.functions = some found → Reports criterion found result →
        ((∃ ok alone, matchInstrsCriterion M criterion MatchResult.new = some (ok, alone) ∧
            SameMatch result alone) ↔ PassAgreesAt M.functions criterion) := by
    intro criterion found result pass report
    rw [passAgreesAt_iff kept, pass, matchInstrsCriterion, criterionFrom_eq]
    constructor
    · rintro ⟨ok, alone, search, same⟩
      obtain ⟨stop, stopped, last⟩ := Option.map_eq_some_iff.mp search
      obtain rfl : singleResult criterion stop = alone := congrArg Prod.snd last
      exact ⟨stop, stopped, congrArg some ((sameMatch_iff report).mp same)⟩
    · rintro ⟨stop, stopped, same⟩
      rw [stopped, Option.map_some]
      exact ⟨_, _, rfl, (sameMatch_iff report).mpr (Option.some.inj same)⟩
  unfold PassAgrees
  rw [matchInstrsCriteria, zip_takeD_replicate]
  constructor
  · rintro ⟨results, run, -, agree⟩ criterion member
    obtain ⟨i, at_i⟩ := List.getElem?_of_mem member
    obtain ⟨last, pass, equal⟩ := Option.map_eq_some_iff.mp run
    obtain ⟨final, found, at_last, search, report⟩ := criteria_reports pass at_i
    obtain ⟨result, ok, alone, at_result, alone_eq, same⟩ := agree i criterion at_i
    obtain rfl : last.map Prod.snd = results := congrArg Prod.snd equal
    rw [List.getElem?_map, at_last, Option.map_some, Option.some.injEq] at at_result
    exact (single criterion found result search (at_result ▸ report)).mp ⟨ok, alone, alone_eq, same⟩
  · intro agree
    have defined : (matchInstrsCriteriaFrom M.functions
        (criteria.map fun criterion => (criterion, MatchResult.new))).isSome := by
      refine criteriaFrom_isSome kept fun entry member => Or.inr ?_
      obtain ⟨criterion, old, rfl⟩ := List.mem_map.mp member
      obtain ⟨stop, -, pass⟩ := (passAgreesAt_iff kept).mp (agree criterion old)
      rw [pass]
      rfl
    obtain ⟨last, pass⟩ := Option.isSome_iff_exists.mp defined
    have length := (criteriaFrom_final pass).1
    refine ⟨last.map Prod.snd, by rw [pass]; rfl, by simpa using length, fun i criterion at_i => ?_⟩
    obtain ⟨final, found, at_last, search, report⟩ := criteria_reports pass at_i
    obtain ⟨ok, alone, alone_eq, same⟩ := (single criterion found final.2 search report).mpr
      (agree criterion (List.mem_of_getElem? at_i))
    exact ⟨final.2, ok, alone, by rw [List.getElem?_map, at_last]; rfl, alone_eq, same⟩

/-- A function of `/src/a.c` that begins at line 10, with an instruction on line 11 and a
terminator. -/
def elevenInFile (last : Option UInt32) : Module where
  functions := [⟨"f".toList, some ⟨"/src".toList, "a.c".toList, 10⟩,
    [[⟨⟨.other, false, some 11⟩, 0⟩, ⟨⟨.other, false, last⟩, 1⟩]]⟩]
  fresh := 2
  distinct := List.nodup_range (n := 2)
  below := List.forall_mem_cons.mpr ⟨Nat.zero_lt_two,
    List.forall_mem_cons.mpr ⟨Nat.one_lt_two, List.forall_mem_nil _⟩⟩

theorem criteria_agree_inside : PassAgrees (elevenInFile (some 13)) [⟨"a.c".toList, 11⟩] := by
  apply (criteria_agree_iff (elevenInFile (some 13)) (by decide) _).mpr
  intro criterion member
  rw [List.mem_singleton.mp member]
  exact Or.inl ⟨[], _, [], rfl, List.forall_mem_nil _, by decide⟩

/-- Where the last instruction has no debug location, the range of the function is empty. -/
theorem criteria_disagree : ¬ ∀ (M : Module) (criteria : List FileLine),
    (∀ F ∈ M.functions, F.isDeclaration = false → F.subprogram.isSome) →
      PassAgrees M criteria := by
  intro claim
  obtain ⟨results, run, -, agree⟩ := claim (elevenInFile none) [⟨"a.c".toList, 11⟩] (by decide)
  obtain ⟨result, found, alone, at_zero, search, same⟩ := agree 0 _ rfl
  have unmatched : results = [MatchResult.new] := by
    have pass : matchInstrsCriteria (elevenInFile none) [⟨"a.c".toList, 11⟩]
        [MatchResult.new] = some (true, [MatchResult.new]) := by decide
    exact congrArg Prod.snd (Option.some.inj (run.symm.trans pass))
  have matched : alone.matched = true := by
    have single : (matchInstrsCriterion (elevenInFile none) ⟨"a.c".toList, 11⟩ MatchResult.new).map
        (fun r => r.2.matched) = some true := by decide
    rw [search, Option.map_some, Option.some.injEq] at single
    exact single
  rw [unmatched] at at_zero
  obtain rfl : MatchResult.new = result := Option.some.inj at_zero
  have equal := same.matched
  rw [matched] at equal
  cases equal

end Agreement

end Arthas.Matcher
