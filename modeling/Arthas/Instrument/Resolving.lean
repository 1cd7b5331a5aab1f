import Mathlib
import Arthas.Instrument.AddrTrace

/-!
Resolving items with what is remembered of GUIDs: every GUID is matched once, with the
entry as it was loaded, so an item gets the instruction that an uncached match gives.
-/

set_option autoImplicit false
set_option relaxedAutoImplicit false

namespace Arthas.Instrument

open Arthas.Lib Arthas.Utils Arthas.Matcher

namespace PmemAddrTrace

section Memo

variable (asm : AsmWriter) (M : Module)

/-- The match of an entry, without anything remembered. -/
def matchEntry (var : PmemVarGuidMapEntry) : Option InstrMatch :=
  matchInstr asm M ⟨var.sourceFile, var.line⟩ var.instruction true true

/-- The item points to the entry for its GUID, if the map has one. -/
def Attached (varMap : PmemVarGuidMap) (item : PmemAddrTraceItem) : Prop :=
  item.var = (varMap.find item.guid).map fun _ => item.guid

/-- What is remembered agrees with the map as it was loaded, and the entries of the other
GUIDs are as they were. -/
structure Remembers (varMap : PmemVarGuidMap) (s : ResolveState) : Prop where
  known : ∀ guid instr, s.guidInstrMap.find? guid = some instr →
    ∃ var found, varMap.find guid = some var ∧ matchEntry asm M var = some found ∧
      found.instr = some instr
  failed : ∀ guid, (s.failedGuids.find? guid).isSome →
    ∃ var found, varMap.find guid = some var ∧ matchEntry asm M var = some found ∧
      found.instr = none
  untouched : ∀ guid, s.guidInstrMap.find? guid = none → s.failedGuids.find? guid = none →
    s.varMap.find guid = varMap.find guid

variable {asm M} {varMap : PmemVarGuidMap} {s : ResolveState} {item : PmemAddrTraceItem}

theorem remembers_start (varMap : PmemVarGuidMap) :
    Remembers asm M varMap ⟨varMap, OrdMap.empty, OrdMap.empty⟩ where
  known := by simp
  failed := by simp
  untouched _ _ _ := rfl

theorem attach_attached (item : PmemAddrTraceItem) (varMap : PmemVarGuidMap)
    (bare : item.var = none) : Attached varMap (item.attach varMap) := by
  unfold Attached PmemAddrTraceItem.attach
  cases found : varMap.find item.guid with
  | none => simp [bare, found]
  | some var =>
    simp only
    split
    · simp [found]
    · split <;> simp [found]

theorem attach_guid (item : PmemAddrTraceItem) (varMap : PmemVarGuidMap) :
    (item.attach varMap).guid = item.guid := by
  obtain ⟨var, isPool, isMmap, kept⟩ := attach_frame item (some varMap)
  rw [Option.elim_some] at kept
  rw [kept]

theorem attach_instr (item : PmemAddrTraceItem) (varMap : PmemVarGuidMap) :
    (item.attach varMap).instr = item.instr := by
  obtain ⟨var, isPool, isMmap, kept⟩ := attach_frame item (some varMap)
  rw [Option.elim_some] at kept
  rw [kept]

/-- The map after the text of one entry was trimmed in place. -/
theorem find_setInstruction_other {guid other : UInt64} (different : other ≠ guid) (text : Text) :
    (s.varMap.setInstruction guid text).find other = s.varMap.find other := by
  unfold PmemVarGuidMap.setInstruction PmemVarGuidMap.find
  split
  · rfl
  · rw [OrdMap.find?_assign, if_neg different]

/-- An attached item that points to an entry points to the one for its GUID. -/
theorem Attached.of_points (attached : Attached varMap item) {guid : UInt64}
    (points : item.var = some guid) : varMap.find item.guid ≠ none ∧ guid = item.guid := by
  rw [Attached, points] at attached
  cases found : varMap.find item.guid with
  | none => simp [found] at attached
  | some var => simpa [found] using attached

/-- The text of an entry is trimmed, so the entries of the other GUIDs are untouched. -/
theorem Remembers.trimmed (remembers : Remembers asm M varMap s) {guid : UInt64} (text : Text)
    {other : UInt64} (different : other ≠ guid) (noInstr : s.guidInstrMap.find? other = none)
    (noFailure : s.failedGuids.find? other = none) :
    (s.varMap.setInstruction guid text).find other = varMap.find other := by
  rw [find_setInstruction_other different]
  exact remembers.untouched other noInstr noFailure

/-- The instruction of the match of an entry is remembered. -/
theorem Remembers.found (remembers : Remembers asm M varMap s) {guid : UInt64}
    (uncached : s.guidInstrMap.find? guid = none) {var : PmemVarGuidMapEntry}
    (loaded : varMap.find guid = some var) {result : InstrMatch}
    (matched : matchEntry asm M var = some result) {instr : Instruction}
    (instr_eq : result.instr = some instr) :
    Remembers asm M varMap { s with
      varMap := s.varMap.setInstruction guid result.text
      guidInstrMap := s.guidInstrMap.emplace guid instr } where
  known other j known := by
    rw [OrdMap.find?_emplace] at known
    split at known
    · next same =>
      rw [uncached] at known
      cases known
      exact ⟨var, result, same ▸ loaded, matched, instr_eq⟩
    · exact remembers.known other j known
  failed := remembers.failed
  untouched other noInstr noFailure := by
    rw [OrdMap.find?_emplace] at noInstr
    split at noInstr
    · cases noInstr
    · next different => exact remembers.trimmed result.text different noInstr noFailure

/-- The failure of the match of an entry is remembered. -/
theorem Remembers.notFound (remembers : Remembers asm M varMap s) {guid : UInt64}
    {var : PmemVarGuidMapEntry} (loaded : varMap.find guid = some var) {result : InstrMatch}
    (matched : matchEntry asm M var = some result) (instr_eq : result.instr = none)
    (addrStr : Text) :
    Remembers asm M varMap { s with
      varMap := s.varMap.setInstruction guid result.text
      failedGuids := s.failedGuids.emplace guid addrStr } where
  known := remembers.known
  failed other failed := by
    rw [OrdMap.find?_emplace] at failed
    split at failed
    · next same => exact ⟨var, result, same ▸ loaded, matched, instr_eq⟩
    · exact remembers.failed other failed
  untouched other noInstr noFailure := by
    rw [OrdMap.find?_emplace] at noFailure
    split at noFailure
    · cases noFailure
    · next different => exact remembers.trimmed result.text different noInstr noFailure

/-- One item: what is remembered stays right, and the item gets the instruction of the
uncached match. -/
theorem addressToInstruction_spec (remembers : Remembers asm M varMap s)
    (attached : Attached varMap item) {ok : Bool} {item' : PmemAddrTraceItem} {s' : ResolveState}
    (resolved : addressToInstruction asm M item s = some (ok, item', s')) :
    Remembers asm M varMap s' ∧
      (varMap.find item.guid = none ∧ item' = item ∨
        ∃ var found, varMap.find item.guid = some var ∧ matchEntry asm M var = some found ∧
          item' = { item with instr := found.instr.or item.instr }) := by
  unfold addressToInstruction at resolved
  split at resolved
  · next none =>
    cases resolved
    refine ⟨remembers, Or.inl ⟨?_, rfl⟩⟩
    rw [Attached, none] at attached
    simpa using attached.symm
  next guid points =>
  obtain ⟨present, rfl⟩ := attached.of_points points
  split at resolved
  · next instr cached =>
    cases resolved
    obtain ⟨var, found, inMap, matched, instr_eq⟩ := remembers.known _ _ cached
    exact ⟨remembers, Or.inr ⟨var, found, inMap, matched, by rw [instr_eq]; rfl⟩⟩
  next uncached =>
  split at resolved
  · next failed =>
    cases resolved
    obtain ⟨var, found, inMap, matched, instr_eq⟩ := remembers.failed _ failed
    exact ⟨remembers, Or.inr ⟨var, found, inMap, matched, by rw [instr_eq]; rfl⟩⟩
  next notFailed =>
  have same := remembers.untouched _ uncached (by simpa using notFailed)
  split at resolved
  · next absent => exact absurd (same.symm.trans absent) present
  next var inMap =>
  have loaded : varMap.find item.guid = some var := same.symm.trans inMap
  obtain ⟨found, matched, outcome⟩ := Option.bind_eq_some_iff.mp resolved
  cases instr : found.instr with
  | none =>
    simp only [instr, Option.pure_def, Option.some.injEq, Prod.mk.injEq] at outcome
    obtain ⟨-, rfl, rfl⟩ := outcome
    exact ⟨remembers.notFound loaded matched instr item.addrStr,
      Or.inr ⟨var, found, loaded, matched, by rw [instr]; rfl⟩⟩
  | some i =>
    simp only [instr, Option.pure_def, Option.some.injEq, Prod.mk.injEq] at outcome
    obtain ⟨-, rfl, rfl⟩ := outcome
    exact ⟨remembers.found uncached loaded matched instr,
      Or.inr ⟨var, found, loaded, matched, by rw [instr]; rfl⟩⟩

/-- Resolving an item is defined if the match of its entry is. -/
theorem addressToInstruction_defined (remembers : Remembers asm M varMap s)
    (attached : Attached varMap item)
    (defined : ∀ var, varMap.find item.guid = some var → (matchEntry asm M var).isSome) :
    (addressToInstruction asm M item s).isSome := by
  unfold addressToInstruction
  split
  · rfl
  next guid points =>
  obtain ⟨-, rfl⟩ := attached.of_points points
  split
  · rfl
  next uncached =>
  split
  · rfl
  next notFailed =>
  have notFailed : s.failedGuids.find? item.guid = none := by simpa using notFailed
  have same := remembers.untouched _ uncached notFailed
  split
  · rfl
  next var inMap =>
  obtain ⟨found, matched⟩ := Option.isSome_iff_exists.mp (defined var (same.symm.trans inMap))
  rw [matchEntry] at matched
  rw [matched]
  simp only [Option.bind_eq_bind, Option.bind_some]
  split <;> rfl

/-- All items of a list, one after the other. -/
theorem resolveItems_remembers {items items' : List PmemAddrTraceItem} {s' : ResolveState}
    (remembers : Remembers asm M varMap s) (attached : ∀ item ∈ items, Attached varMap item)
    (resolved : resolveItems asm M items s = some (items', s')) :
    Remembers asm M varMap s' := by
  induction items generalizing s items' with
  | nil =>
    cases resolved
    exact remembers
  | cons item items ih =>
    simp only [resolveItems, Option.bind_eq_bind, Option.bind_eq_some_iff, Prod.exists,
      Option.pure_def, Option.some.injEq, Prod.mk.injEq] at resolved
    obtain ⟨ok, item', s₁, first, rest', s₂, rest, -, rfl⟩ := resolved
    have next := (addressToInstruction_spec remembers (attached item List.mem_cons_self) first).1
    exact ih next (fun other member => attached other (List.mem_cons_of_mem _ member)) rest

end Memo

end PmemAddrTrace

end Arthas.Instrument
