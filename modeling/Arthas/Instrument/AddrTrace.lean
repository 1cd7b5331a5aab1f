import Mathlib
import Arthas.Instrument.GuidMap
import Arthas.Matcher.Matcher

/-!
The trace of persistent addresses: the lines the runtime tracker prints (`addr_tracker.c`)
and the items the analyzer makes of them (`PmemAddrTrace.cpp`).
-/

set_option autoImplicit false
set_option relaxedAutoImplicit false

namespace Arthas.Instrument

open Arthas.Lib Arthas.Utils Arthas.Matcher

/-- A pointer printed with `%p`. -/
def formatPointer (addr : UInt64) : Text :=
  if addr = 0 then "(nil)".toList else "0x".toList ++ Nat.toDigits 16 addr.toNat

/-- What `__arthas_track_addr` prints, with the format `%p,%u\n`. -/
def trackAddr (addr : UInt64) (guid : UInt32) : Text :=
  formatPointer addr ++ ",".toList ++ Nat.toDigits 10 guid.toNat ++ "\n".toList

/-- An item, an object with an address of its own; `var` is the GUID under which the map
keeps the entry that the item points to. -/
structure PmemAddrTraceItem where
  ptr : Nat
  addrStr : Text
  addr : UInt64
  guid : UInt64
  poolOffset : UInt64
  isPool : Bool
  isMmap : Bool
  var : Option UInt64
  instr : Option Instruction
  deriving DecidableEq

namespace PmemAddrTraceItem

def new (ptr : Nat) : PmemAddrTraceItem := ⟨ptr, [], 0, 0, 0, false, false, none, none⟩

def itemSeparator : Text := ",".toList

/-- `PmemObjCreateCallInstrStr`. -/
def pmemObjCreateCall : Text := "call %struct.pmemobjpool* @pmemobj_create".toList

/-- `PmemCreateCallInstrStr`. -/
def pmemCreateCall : Text := "call i8* @pmem_map_file".toList

/-- The address without its prefix `0x` or `0X`. -/
def stripHexPrefix (s : Text) : Text :=
  if s[0]? = some '0' ∧ (s[1]? = some 'x' ∨ s[1]? = some 'X') then s.drop 2 else s

/-- The entry for the GUID of the item, if the map has one, and what its text tells. -/
def attach (item : PmemAddrTraceItem) (varMap : PmemVarGuidMap) : PmemAddrTraceItem :=
  match varMap.find item.guid with
  | none => item
  | some var =>
    let item := { item with var := some item.guid }
    if pmemObjCreateCall <:+: var.instruction then { item with isPool := true }
    else if pmemCreateCall <:+: var.instruction then { item with isMmap := true }
    else item

/-- `PmemAddrTraceItem::parse`, with a map or without. -/
def parse (itemStr : Text) (item : PmemAddrTraceItem) (varMap : Option PmemVarGuidMap) :
    Except Exception (Bool × PmemAddrTraceItem) :=
  match splitList itemStr itemSeparator with
  | [addrStr, guidStr] => do
    let addr ← str2fmt uint64Max (stripHexPrefix addrStr) true
    let guid ← str2fmt uint64Max guidStr false
    let item := { item with
      addrStr := addrStr, addr := UInt64.ofNat addr, guid := UInt64.ofNat guid }
    return (true, varMap.elim item item.attach)
  | _ => return (false, item)

end PmemAddrTraceItem

/-- A pool, with the items that belong to it, by their addresses. -/
structure PmemAddrPool where
  poolAddr : Nat
  addresses : List Nat
  deriving DecidableEq

/-- `PmemAddrTrace`; `allocated` counts the items created so far, and the next item is
created at that address. -/
structure PmemAddrTrace where
  items : List PmemAddrTraceItem
  poolAddrs : List PmemAddrPool
  guidInstrMap : OrdMap UInt64 Instruction
  failedGuids : OrdMap UInt64 Text
  allocated : Nat

namespace PmemAddrTrace

def empty : PmemAddrTrace := ⟨[], [], OrdMap.empty, OrdMap.empty, 0⟩

def add (trace : PmemAddrTrace) (item : PmemAddrTraceItem) : PmemAddrTrace :=
  { trace with
    items := trace.items ++ [item]
    poolAddrs :=
      if item.isPool ∨ item.isMmap then trace.poolAddrs ++ [⟨item.ptr, []⟩] else trace.poolAddrs }

/-- `PmemAddrTrace::clear`: the items are deleted; what is remembered of GUIDs stays. -/
def clear (trace : PmemAddrTrace) : PmemAddrTrace := { trace with items := [], poolAddrs := [] }

def poolEmpty (trace : PmemAddrTrace) : Bool := trace.poolAddrs.isEmpty

/-- One line: an item that is added if the line can be parsed. -/
def readLine (varMap : Option PmemVarGuidMap) (trace : PmemAddrTrace) (line : Text) :
    Except Exception PmemAddrTrace := do
  let (ok, item) ← PmemAddrTraceItem.parse line (.new trace.allocated) varMap
  let trace := { trace with allocated := trace.allocated + 1 }
  return if ok then trace.add item else trace

/-- `PmemAddrTrace::deserialize`, of a file that may be missing. -/
def deserialize (file : Option Text) (varMap : Option PmemVarGuidMap) (result : PmemAddrTrace) :
    Except Exception (Bool × PmemAddrTrace) :=
  match file with
  | none => .ok (false, result)
  | some content => do
    let result ← (getlines content).foldlM (readLine varMap) result
    return (true, result)

/-- The variables of `calculatePoolOffsets`; `lastPool` is an index. -/
structure OffsetState where
  lastPool : Option Nat
  lastPoolAddr : UInt64
  offsetObtained : Bool
  pools : List PmemAddrPool

/-- One turn of the loop; `none` when the pool of an item is not found. -/
def offsetStep (item : PmemAddrTraceItem) (s : OffsetState) :
    Option (PmemAddrTraceItem × OffsetState) :=
  if item.isPool ∨ item.isMmap then
    match s.pools.findIdx? fun pool => pool.poolAddr = item.ptr with
    | none => none
    | some i => some (item, { s with lastPool := some i, lastPoolAddr := item.addr })
  else
    match s.lastPool with
    | none => some (item, s)
    | some i =>
      if s.lastPoolAddr ≤ item.addr then
        some ({ item with poolOffset := item.addr - s.lastPoolAddr },
          { s with
            pools := s.pools.modify i fun pool =>
              { pool with addresses := pool.addresses ++ [item.ptr] }
            offsetObtained := true })
      else some (item, s)

/-- The loop of `calculatePoolOffsets`, which ends early at a pool that is not found. -/
def offsetLoop : List PmemAddrTraceItem → OffsetState →
    Bool × List PmemAddrTraceItem × OffsetState
  | [], s => (true, [], s)
  | item :: items, s =>
    match offsetStep item s with
    | none => (false, item :: items, s)
    | some (item, s) =>
      let (found, items, s) := offsetLoop items s
      (found, item :: items, s)

/-- `PmemAddrTrace::calculatePoolOffsets`. -/
def calculatePoolOffsets (trace : PmemAddrTrace) : Bool × PmemAddrTrace :=
  if trace.poolAddrs = [] then (false, trace)
  else
    let (found, items, s) := offsetLoop trace.items ⟨none, 0, false, trace.poolAddrs⟩
    (found && s.offsetObtained, { trace with items := items, poolAddrs := s.pools })

/-- What resolving an item reads and changes besides the item. -/
structure ResolveState where
  varMap : PmemVarGuidMap
  guidInstrMap : OrdMap UInt64 Instruction
  failedGuids : OrdMap UInt64 Text

section Resolve

variable (asm : AsmWriter) (M : Module)

/-- `PmemAddrTrace::addressToInstruction`; `none` when the search is undefined. -/
def addressToInstruction (item : PmemAddrTraceItem) (s : ResolveState) :
    Option (Bool × PmemAddrTraceItem × ResolveState) :=
  match item.var with
  | none => some (false, item, s)
  | some guid =>
    match s.guidInstrMap.find? item.guid with
    | some instr => some (true, { item with instr := some instr }, s)
    | none =>
      if (s.failedGuids.find? item.guid).isSome then some (false, item, s)
      else
        match s.varMap.find guid with
        | none => some (false, item, s)
        | some var => do
          let found ← matchInstr asm M ⟨var.sourceFile, var.line⟩ var.instruction true true
          let s := { s with varMap := s.varMap.setInstruction guid found.text }
          match found.instr with
          | none =>
            return (false, item, { s with
              failedGuids := s.failedGuids.emplace item.guid item.addrStr })
          | some instr =>
            return (true, { item with instr := some instr },
              { s with guidInstrMap := s.guidInstrMap.emplace item.guid instr })

/-- The loop of `addressesToInstructions`. -/
def resolveItems : List PmemAddrTraceItem → ResolveState →
    Option (List PmemAddrTraceItem × ResolveState)
  | [], s => some ([], s)
  | item :: items, s => do
    let (_, item, s) ← addressToInstruction asm M item s
    let (items, s) ← resolveItems items s
    return (item :: items, s)

/-- `PmemAddrTrace::addressesToInstructions`, with a matcher that has processed the
module. -/
def addressesToInstructions (varMap : PmemVarGuidMap) (trace : PmemAddrTrace) :
    Option (PmemVarGuidMap × PmemAddrTrace) := do
  let (items, s) ← resolveItems asm M trace.items ⟨varMap, trace.guidInstrMap, trace.failedGuids⟩
  return (s.varMap,
    { trace with items := items, guidInstrMap := s.guidInstrMap, failedGuids := s.failedGuids })

end Resolve

end PmemAddrTrace

section Tracker

variable {addr : UInt64} {guid : UInt32}

theorem formatPointer_free {c : Char} (other : isDigitIn 16 c = false)
    (apart : c ∉ "(nil)".toList ++ "0x".toList) : c ∉ formatPointer addr := by
  obtain ⟨nil, zero⟩ := not_or.mp (fun h => apart (List.mem_append.mpr h))
  unfold formatPointer
  split
  · exact nil
  · simp only [List.mem_append, not_or]
    exact ⟨zero, not_mem_toDigits (by decide) (by decide) other _⟩

/-- The printed line without its newline. -/
theorem getlines_trackAddr :
    getlines (trackAddr addr guid) =
      [formatPointer addr ++ ",".toList ++ Nat.toDigits 10 guid.toNat] := by
  have free : '\n' ∉ formatPointer addr ++ ",".toList ++ Nat.toDigits 10 guid.toNat := by
    simp only [List.mem_append, not_or]
    exact ⟨⟨formatPointer_free (by decide) (by decide), by decide⟩,
      not_mem_toDigits (by decide) (by decide) (by decide) _⟩
  have lines := @getlines_lines [_] fun line member => by
    rw [List.mem_singleton.mp member]
    exact free
  simpa [trackAddr] using lines

theorem splitList_tracked :
    splitList (formatPointer addr ++ ",".toList ++ Nat.toDigits 10 guid.toNat)
      PmemAddrTraceItem.itemSeparator = [formatPointer addr, Nat.toDigits 10 guid.toNat] := by
  have comma : ∀ field ∈ [formatPointer addr] ++ [Nat.toDigits 10 guid.toNat], ',' ∉ field := by
    intro field member
    rcases List.mem_append.mp member with here | here
    all_goals rw [List.mem_singleton.mp here]
    · exact formatPointer_free (by decide) (by decide)
    · exact not_mem_toDigits (by decide) (by decide) (by decide) _
  have written : [','].intercalate [formatPointer addr, Nat.toDigits 10 guid.toNat] =
      formatPointer addr ++ ",".toList ++ Nat.toDigits 10 guid.toNat := by
    rw [List.intercalate_cons_cons, List.intercalate_singleton]
    rfl
  have fields := @splitList_intercalate_iff [','] (by simp)
    [formatPointer addr, Nat.toDigits 10 guid.toNat] (by rw [written]; simp)
  rw [written] at fields
  exact fields.mpr (separable_single comma)

theorem str2fmt_pointer (nonnull : addr ≠ 0) :
    str2fmt uint64Max (PmemAddrTraceItem.stripHexPrefix (formatPointer addr)) true =
      .ok addr.toNat := by
  have stripped : PmemAddrTraceItem.stripHexPrefix (formatPointer addr) =
      Nat.toDigits 16 addr.toNat := by
    rw [formatPointer, if_neg nonnull]
    simp [PmemAddrTraceItem.stripHexPrefix]
  have digit : ∀ c ∈ Nat.toDigits 16 addr.toNat, isDigitIn 16 c :=
    isDigitIn_of_mem_toDigits (by decide) (by decide) addr.toNat
  have small := addr.toNat_lt
  have read := @extractUnsigned_digits uint64Max true (Nat.toDigits 16 addr.toNat) []
    Nat.toDigits_ne_nil digit (by simp)
    (fun _ c second => by
      rw [List.append_nil] at second
      have isDigit := digit c (List.mem_of_getElem? second)
      constructor <;> rintro rfl <;> exact absurd isDigit (by decide))
    (by
      rw [if_pos rfl, numeralValue_toDigits (by decide) (by decide)]
      simp only [uint64Max]
      omega)
  rw [List.append_nil, if_pos rfl, numeralValue_toDigits (by decide) (by decide)] at read
  rw [str2fmt, stripped, read]

/-- A null pointer is printed as a text that starts no number. -/
theorem str2fmt_null :
    str2fmt uint64Max (PmemAddrTraceItem.stripHexPrefix (formatPointer 0)) true =
      .error (.invalidArgument "invalid format".toList) := by
  decide

theorem str2fmt_guid :
    str2fmt uint64Max (Nat.toDigits 10 guid.toNat) false = .ok guid.toNat := by
  have small := guid.toNat_lt
  exact str2fmt_toDigits (by simp only [uint64Max]; omega)

/-- Attaching the entry of its GUID changes no other field of an item. -/
theorem attach_frame (item : PmemAddrTraceItem) (varMap : Option PmemVarGuidMap) :
    ∃ var isPool isMmap, varMap.elim item item.attach =
      { item with var := var, isPool := isPool, isMmap := isMmap } := by
  cases varMap with
  | none => exact ⟨item.var, item.isPool, item.isMmap, rfl⟩
  | some varMap =>
    simp only [Option.elim_some, PmemAddrTraceItem.attach]
    split
    · exact ⟨item.var, item.isPool, item.isMmap, rfl⟩
    · split
      · exact ⟨some item.guid, true, item.isMmap, rfl⟩
      · split
        · exact ⟨some item.guid, item.isPool, true, rfl⟩
        · exact ⟨some item.guid, item.isPool, item.isMmap, rfl⟩

/-- What the tracker prints for an address and a GUID is read back as them exactly if the
address is not null; a null pointer raises an exception. -/
theorem parse_trackAddr_iff (addr : UInt64) (guid : UInt32) (item : PmemAddrTraceItem)
    (varMap : Option PmemVarGuidMap) :
    (∃ read, (getlines (trackAddr addr guid)).map
          (fun line => PmemAddrTraceItem.parse line item varMap) = [.ok (true, read)] ∧
        read.addr = addr ∧ read.guid = guid.toUInt64) ↔ addr ≠ 0 := by
  rw [getlines_trackAddr]
  simp only [List.map_cons, List.map_nil, PmemAddrTraceItem.parse, splitList_tracked]
  constructor
  · rintro ⟨read, parsed, -⟩ rfl
    rw [str2fmt_null] at parsed
    simp [bind, Except.bind] at parsed
  · intro nonnull
    obtain ⟨var, isPool, isMmap, kept⟩ := attach_frame
      { item with addrStr := formatPointer addr, addr := UInt64.ofNat addr.toNat,
                  guid := UInt64.ofNat guid.toNat } varMap
    rw [str2fmt_pointer nonnull, str2fmt_guid]
    refine ⟨_, congrArg (fun read => [Except.ok (true, read)]) kept, UInt64.ofNat_toNat, ?_⟩
    exact UInt64.toNat_inj.mp (by simp)

/-- The line of a null pointer. -/
theorem parse_trackAddr_null :
    ¬ ∀ (addr : UInt64) (guid : UInt32) (item : PmemAddrTraceItem)
      (varMap : Option PmemVarGuidMap), ∃ read, (getlines (trackAddr addr guid)).map
          (fun line => PmemAddrTraceItem.parse line item varMap) = [.ok (true, read)] ∧
        read.addr = addr ∧ read.guid = guid.toUInt64 := by
  intro claim
  obtain ⟨read, parsed, -⟩ := claim 0 200 (.new 0) none
  have raised : (getlines (trackAddr 0 200)).map
      (fun line => PmemAddrTraceItem.parse line (.new 0) none) =
        [.error (.invalidArgument "invalid format".toList)] := by decide
  rw [raised] at parsed
  cases parsed

end Tracker

end Arthas.Instrument
