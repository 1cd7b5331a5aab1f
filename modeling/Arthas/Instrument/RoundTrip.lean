import Mathlib
import Arthas.Instrument.InstrumentRuns
import Arthas.Instrument.Resolving
import Arthas.Matcher.FirstMatch

/-!
From an instrumented instruction to its map entry and back. The recorder falls back to the
line of the function where an instruction has no debug location, the matcher does not, and
it stops at the first function of a file of that name with the line.
-/

set_option autoImplicit false
set_option relaxedAutoImplicit false

namespace Arthas.Instrument

open Arthas.Lib Arthas.Utils Arthas.Matcher PmemAddrInstrumenter PmemAddrTrace

section Entry

variable {asm : AsmWriter} {st : PmemAddrInstrumenter}

theorem fillVarGuidMapInfo_guid {M : Module} {i : Instruction} {entry : PmemVarGuidMapEntry} :
    (fillVarGuidMapInfo asm M i entry).guid = entry.guid := by
  unfold fillVarGuidMapInfo
  split
  · rfl
  · split <;> rfl

/-- The entry that is written for a hooked instruction. -/
theorem guidHookPoints_find {g : UInt64} {i : Instruction}
    (hooked : st.guidHookPointMap.find? g = some i) :
    (st.guidHookPoints asm).find g =
      some (fillVarGuidMapInfo asm st.module i ⟨g, [], [], [], 0, []⟩) := by
  have written : (st.guidHookPoints asm).guidMap =
      (st.guidHookPointMap.entries.map fun e =>
        (e.1, fillVarGuidMapInfo asm st.module e.2 ⟨e.1, [], [], [], 0, []⟩)).foldl
        (fun m e => m.emplace e.1 e.2) OrdMap.empty := by
    rw [guidHookPoints, ← List.foldl_map, foldl_add_guidMap, List.map_map]
    simp only [Function.comp_def, fillVarGuidMapInfo_guid]
    rfl
  rw [PmemVarGuidMap.find, written, OrdMap.find?_foldl_emplace_map _
    fun h j => fillVarGuidMapInfo asm st.module j ⟨h, [], [], [], 0, []⟩, hooked, Option.map_some]

theorem fillVarGuidMapInfo_debug {M : Module} {i : Instruction} {F : Function}
    {SP : DISubprogram} {entry : PmemVarGuidMapEntry} (home : M.getFunction i = some F)
    (debug : F.subprogram = some SP) :
    fillVarGuidMapInfo asm M i entry =
      { entry with
        sourcePath := cstr SP.directory
        sourceFile := cstr SP.filename
        function := cstr F.name
        line := i.debugLoc.getD SP.line
        instruction := asm.print M i } := by
  simp only [fillVarGuidMapInfo, home, debug]

end Entry

section Location

/-- The criterion that the entry of an instruction is resolved with. -/
def recordedAt (i : Instruction) (SP : DISubprogram) : FileLine :=
  ⟨cstr SP.filename, i.debugLoc.getD SP.line⟩

/-- Where an instruction is found again: it has a debug location, or its function begins
at line 0; its function is not skipped and its own path ends with its own file name; and
the search passes by every function before. -/
structure Locatable (M : Module) (i : Instruction) (F : Function) (SP : DISubprogram) : Prop where
  located : i.debugLoc.isSome ∨ SP.line = 0
  kept : skipFunction F = false
  ownFile : spMatchFilename SP (cstr SP.filename) = some true
  first : ∀ before after, M.functions = before ++ F :: after → i ∉ before.flatMap Function.instructions →
    ∀ G ∈ before, PassedBy (recordedAt i SP) G

theorem cstr_cstr (s : Text) : cstr (cstr s) = cstr s := by
  simp only [cstr, List.takeWhile_idem]

theorem onLine_iff {i : Instruction} {SP : DISubprogram} :
    getInstLine i = (recordedAt i SP).line ↔ i.debugLoc.isSome ∨ SP.line = 0 := by
  unfold getInstLine recordedAt
  cases i.debugLoc with
  | none => simp [eq_comm]
  | some line => simp

/-- A function is at one place of the list only if it holds an instruction. -/
theorem split_unique {M : Module} {i : Instruction} {F G : Function}
    {before after before' after' : List Function}
    (eq : M.functions = before ++ F :: after) (eq' : M.functions = before' ++ G :: after')
    (inF : i ∈ F.instructions) (inG : i ∈ G.instructions) : before = before' ∧ F = G := by
  have disjoint := M.functions_disjoint
  rcases List.append_eq_append_iff.mp (eq.symm.trans eq') with ⟨mid, rfl, tail⟩ | ⟨mid, rfl, tail⟩
  · cases mid with
    | nil =>
      cases tail
      exact ⟨by simp, rfl⟩
    | cons H mid =>
      cases tail
      rw [eq', List.append_assoc, List.pairwise_append] at disjoint
      have later := (List.pairwise_cons.mp disjoint.2.1).1 G (by simp)
      exact absurd inG (later i inF)
  · cases mid with
    | nil =>
      cases tail
      exact ⟨by simp, rfl⟩
    | cons H mid =>
      cases tail
      rw [eq, List.append_assoc, List.pairwise_append] at disjoint
      have later := (List.pairwise_cons.mp disjoint.2.1).1 F (by simp)
      exact absurd inF (later i inG)

variable {asm : AsmWriter} {M : Module} {i : Instruction} {F : Function} {SP : DISubprogram}

/-- Matching what was recorded of an instruction gives the instruction back exactly if it
is locatable. -/
theorem matchInstr_recorded_iff (home : M.getFunction i = some F) (debug : F.subprogram = some SP)
    (distinct : (F.instructions.map (asm.print M)).Nodup) :
    (∃ found, matchInstr asm M (recordedAt i SP) (asm.print M i) true true = some found ∧
      found.instr = some i) ↔ Locatable M i F SP := by
  obtain ⟨inF, before, after, split, notBefore⟩ := Module.getFunction_eq_some home
  have criterion : cstr (recordedAt i SP).file = cstr SP.filename := cstr_cstr _
  have unfolded : matchInstr asm M (recordedAt i SP) (asm.print M i) true true =
      (matchInstrsCriterion M (recordedAt i SP) MatchResult.new).bind fun r =>
        if r.1 then
          some ⟨(selectInstr asm M (trim (asm.print M i)) true true r.2.instrs none).1,
            trim (asm.print M i),
            (selectInstr asm M (trim (asm.print M i)) true true r.2.instrs none).2⟩
        else some ⟨none, asm.print M i, false⟩ := by
    rw [matchInstr, if_neg (asm.print_ne_nil M i)]
    rfl
  rw [unfolded]
  constructor
  · rintro ⟨found, matched, instr⟩
    obtain ⟨⟨here, result⟩, searched, outcome⟩ := Option.bind_eq_some_iff.mp matched
    cases here with
    | false =>
      cases outcome
      cases instr
    | true =>
      cases outcome
      obtain ⟨before', G, after', split', passed, stops, instrs⟩ := criterion_found searched
      have selected := selectInstr_mem instr
      rw [instrs] at selected
      obtain ⟨inG, onLine⟩ : i ∈ G.instructions ∧ getInstLine i = (recordedAt i SP).line := by
        simpa [instrsOnLine] using selected
      obtain ⟨rfl, rfl⟩ := split_unique split split' inF inG
      obtain ⟨kept, ownFile⟩ := stopsAt_true_cases debug stops
      refine ⟨onLine_iff.mp onLine, kept, criterion ▸ ownFile, ?_⟩
      intro other rest split'' _ H member
      obtain ⟨rfl, -⟩ := split_unique split split'' inF inF
      exact passed H member
  · intro locatable
    have onLine := onLine_iff.mpr locatable.located
    have passed := locatable.first before after split (by
      intro inside
      obtain ⟨G, member, inG⟩ := List.mem_flatMap.mp inside
      exact notBefore G member inG)
    have stops : stopsAt (recordedAt i SP) F = some true :=
      stopsAt_eq_true debug locatable.kept (criterion ▸ locatable.ownFile) inF onLine
    have candidate : i ∈ instrsOnLine (recordedAt i SP).line F := by
      simpa [instrsOnLine] using ⟨inF, onLine⟩
    have only : ∀ j ∈ instrsOnLine (recordedAt i SP).line F,
        trim (asm.print M j) = trim (asm.print M i) → j = i := by
      intro j member same
      have inside : j ∈ F.instructions := (List.mem_filter.mp member).1
      exact List.inj_on_of_nodup_map distinct inside inF (asm.print_eq_of_trim_eq same)
    rw [matchInstrsCriterion, split, criterion_reaches passed stops]
    simp only [Option.bind_some, if_true, selectInstr_exact candidate rfl only]
    exact ⟨_, rfl, rfl⟩

end Location

section Run

variable {start st : PmemAddrInstrumenter} {log : List (Instruction × Bool)}

/-- Every instruction of the GUID map is one of the module. -/
theorem PmemAddrInstrumenter.Calls.mapped_inside (unused : start.Unused) (run : Calls start log st)
    {g : UInt64} {i : Instruction} (hook : st.guidHookPointMap.find? g = some i) :
    i ∈ st.module.instructions := by
  have both : st.trackWithPrintf = false ∧
      ∀ g i, st.guidHookPointMap.find? g = some i → i ∈ st.module.instructions := by
    clear hook
    induction run with
    | nil => exact ⟨unused.runtime, by simp [unused.guids]⟩
    | @call log st j _ inside ih =>
      obtain ⟨runtime, mapped⟩ := ih
      have kept := fun k (inside : k ∈ st.module.instructions) =>
        mem_instrumentInstr (i := j) inside
      rcases instrumentInstr_cases (i := j) runtime with ⟨eq, -⟩ | ⟨addr, -, -, eq⟩
      · rw [eq]
        exact ⟨runtime, mapped⟩
      · refine ⟨by rw [eq]; exact runtime, fun g i found => ?_⟩
        rw [eq, OrdMap.find?_assign] at found
        split at found
        · cases found
          exact kept j inside
        · exact kept i (mapped g i found)
  exact both.2 g i hook

end Run

section Resolution

variable {asm : AsmWriter} {st : PmemAddrInstrumenter} {g : UInt64} {i : Instruction}

/-- The uncached match of the entry of a hooked instruction. -/
theorem matchEntry_hooked_iff (inside : i ∈ st.module.instructions)
    (distinct : ∀ F ∈ st.module.functions, (F.instructions.map (asm.print st.module)).Nodup) :
    (∃ found, matchEntry asm st.module
        (fillVarGuidMapInfo asm st.module i ⟨g, [], [], [], 0, []⟩) = some found ∧
      found.instr = some i) ↔
      ∃ F SP, st.module.getFunction i = some F ∧ F.subprogram = some SP ∧
        Locatable st.module i F SP := by
  obtain ⟨F, home⟩ := Module.getFunction_isSome inside
  cases debug : F.subprogram with
  | none =>
    have bare : fillVarGuidMapInfo asm st.module i ⟨g, [], [], [], 0, []⟩ =
        ⟨g, [], [], [], 0, []⟩ := by
      simp only [fillVarGuidMapInfo, home, debug]
    rw [bare]
    constructor
    · rintro ⟨found, matched, instr⟩
      simp only [matchEntry, matchInstr, if_true, Option.some.injEq] at matched
      rw [← matched] at instr
      cases instr
    · rintro ⟨F', SP, home', debug', -⟩
      rw [home, Option.some.injEq] at home'
      rw [← home', debug] at debug'
      cases debug'
  | some SP =>
    have member : F ∈ st.module.functions := by
      obtain ⟨-, before, after, split, -⟩ := Module.getFunction_eq_some home
      rw [split]
      exact List.mem_append_right _ List.mem_cons_self
    rw [fillVarGuidMapInfo_debug home debug]
    refine (matchInstr_recorded_iff home debug (distinct F member)).trans ⟨?_, ?_⟩
    · exact fun locatable => ⟨F, SP, home, debug, locatable⟩
    · rintro ⟨F', SP', home', debug', locatable⟩
      rw [home, Option.some.injEq] at home'
      subst home'
      rw [debug, Option.some.injEq] at debug'
      subst debug'
      exact locatable

/-- Resolving the GUID of a hooked instruction, after any other items, against the module
it was instrumented in and through any map with the entry that was written for it, gives
the instruction exactly if it is locatable there. -/
theorem resolve_guid_iff (asm : AsmWriter) {start st : PmemAddrInstrumenter}
    (unused : start.Unused) {log : List (Instruction × Bool)} (run : Calls start log st)
    (distinct : ∀ F ∈ st.module.functions, (F.instructions.map (asm.print st.module)).Nodup)
    {g : UInt64} {i : Instruction} (hook : st.guidHookPointMap.find? g = some i)
    {varMap : PmemVarGuidMap} (written : varMap.find g = (st.guidHookPoints asm).find g)
    {earlier : List PmemAddrTraceItem} (attached : ∀ item ∈ earlier, Attached varMap item)
    {resolved : List PmemAddrTraceItem} {s : ResolveState}
    (before : resolveItems asm st.module earlier ⟨varMap, OrdMap.empty, OrdMap.empty⟩ =
      some (resolved, s)) (p : Nat) :
    (∃ ok item s', addressToInstruction asm st.module
        (({ PmemAddrTraceItem.new p with guid := g }).attach varMap) s = some (ok, item, s') ∧
        item.instr = some i) ↔
      ∃ F SP, st.module.getFunction i = some F ∧ F.subprogram = some SP ∧
        Locatable st.module i F SP := by
  have remembers := resolveItems_remembers (remembers_start varMap) attached before
  have bare := attach_attached { PmemAddrTraceItem.new p with guid := g } varMap rfl
  have guid := attach_guid { PmemAddrTraceItem.new p with guid := g } varMap
  have entry := written.trans (guidHookPoints_find hook)
  rw [← matchEntry_hooked_iff (run.mapped_inside unused hook) distinct]
  constructor
  · rintro ⟨ok, item, s', resolved, instr⟩
    obtain ⟨-, ⟨absent, -⟩ | ⟨var, found, present, matched, rfl⟩⟩ :=
      addressToInstruction_spec remembers bare resolved
    · rw [guid, entry] at absent
      cases absent
    · rw [guid, entry, Option.some.injEq] at present
      rw [attach_instr, PmemAddrTraceItem.new, Option.or_none] at instr
      exact ⟨found, present ▸ matched, instr⟩
  · rintro ⟨found, matched, instr⟩
    have defined := addressToInstruction_defined remembers bare fun var present => by
      rw [guid, entry, Option.some.injEq] at present
      rw [← present, matched]
      rfl
    obtain ⟨⟨ok, item, s'⟩, resolved⟩ := Option.isSome_iff_exists.mp defined
    refine ⟨ok, item, s', resolved, ?_⟩
    obtain ⟨-, ⟨absent, -⟩ | ⟨var, found', present, matched', rfl⟩⟩ :=
      addressToInstruction_spec remembers bare resolved
    · rw [guid, entry] at absent
      cases absent
    · rw [guid, entry, Option.some.injEq] at present
      rw [← present, matched, Option.some.injEq] at matched'
      rw [← matched', instr]
      rfl

end Resolution

section Examples

/-- A function of `/src/a.c` that begins at line 10, with a load and a terminator. -/
def loadInFile (debugLoc : Option UInt32) : PmemAddrInstrumenter where
  module :=
    { functions := [⟨"f".toList, some ⟨"/src".toList, "a.c".toList, 10⟩,
        [[⟨⟨loadOp, false, debugLoc⟩, 0⟩, ⟨⟨.other, false, some 13⟩, 1⟩]]⟩]
      fresh := 2
      distinct := by simp [Function.instructions]
      below := List.forall_mem_cons.mpr ⟨Nat.zero_lt_two,
        List.forall_mem_cons.mpr ⟨Nat.one_lt_two, List.forall_mem_nil _⟩⟩ }
  trackWithPrintf := false
  trackAddrFunc := .constant 7 false
  printfFunc := .constant 8 false
  hookPointGuidMap := OrdMap.empty
  guidHookPointMap := OrdMap.empty
  currentGuid := pmemVarGuidStart
  instrumentCnt := 0

def loadAt (debugLoc : Option UInt32) : Instruction := ⟨⟨loadOp, false, debugLoc⟩, 0⟩

def loadHooked (debugLoc : Option UInt32) : PmemAddrInstrumenter :=
  ((loadInFile debugLoc).instrumentInstr (loadAt debugLoc)).2

theorem loadHooked_run (debugLoc : Option UInt32) :
    Calls (loadInFile debugLoc)
      [(loadAt debugLoc, ((loadInFile debugLoc).instrumentInstr (loadAt debugLoc)).1)]
      (loadHooked debugLoc) :=
  have unstarted : Calls (loadInFile debugLoc) [] (loadInFile debugLoc) := Calls.nil
  unstarted.call (by simp [loadInFile, loadAt, Module.instructions, Function.instructions])

theorem resolve_guid_load :
    ∃ F SP, (loadHooked (some 12)).module.getFunction (loadAt (some 12)) = some F ∧
      F.subprogram = some SP ∧ Locatable (loadHooked (some 12)).module (loadAt (some 12)) F SP :=
  have unused : (loadInFile (some 12)).Unused := ⟨rfl, rfl, rfl⟩
  (resolve_guid_iff AsmWriter.unary unused (loadHooked_run _) (by decide) (g := 200)
    (i := loadAt (some 12)) (by decide) rfl (List.forall_mem_nil _) rfl 0).mp
    ⟨true, _, _, rfl, by decide⟩

/-- A load without a debug location is looked for at the line of its function. -/
theorem resolve_guid_no_location :
    ¬ ∀ (asm : AsmWriter) (start st : PmemAddrInstrumenter) (log : List (Instruction × Bool)),
      start.Unused → Calls start log st →
      (∀ F ∈ st.module.functions, F.subprogram.isSome ∧
        (F.instructions.map (asm.print st.module)).Nodup) →
      ∀ g i, st.guidHookPointMap.find? g = some i → ∀ p,
        ∃ ok item s', addressToInstruction asm st.module
          (({ PmemAddrTraceItem.new p with guid := g }).attach (st.guidHookPoints asm))
          ⟨st.guidHookPoints asm, OrdMap.empty, OrdMap.empty⟩ = some (ok, item, s') ∧
          item.instr = some i := by
  intro claim
  obtain ⟨ok, item, s', resolved, instr⟩ := claim AsmWriter.unary (loadInFile none) _ _
    ⟨rfl, rfl, rfl⟩ (loadHooked_run none) (by decide) 200 (loadAt none) (by decide) 0
  have missed : (addressToInstruction AsmWriter.unary (loadHooked none).module
      (({ PmemAddrTraceItem.new 0 with guid := 200 }).attach
        ((loadHooked none).guidHookPoints AsmWriter.unary))
      ⟨(loadHooked none).guidHookPoints AsmWriter.unary, OrdMap.empty, OrdMap.empty⟩).map
      (fun r => r.2.1.instr) = some none := by decide
  rw [resolved, Option.map_some, Option.some.injEq, instr] at missed
  cases missed

end Examples

end Arthas.Instrument
