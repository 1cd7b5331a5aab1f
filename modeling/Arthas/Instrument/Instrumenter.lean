import Mathlib
import Arthas.Lib.Insertion
import Arthas.Instrument.GuidMap
import Arthas.Matcher.Bitcode

/-!
The instrumenter of persistent addresses (`PmemAddrInstrumenter.cpp`,
`InstrumentPmemAddrPass.cpp`): behind an instruction it inserts a call that records the
address, and it keeps which GUID the instruction got.
-/

set_option autoImplicit false
set_option relaxedAutoImplicit false

namespace Arthas.Instrument

open Arthas.Lib Arthas.Utils Arthas.Matcher

section Insertion

/-- New objects at successive addresses. -/
def place (fresh : Nat) : List InstructionBody → List Instruction
  | [] => []
  | body :: bodies => ⟨body, fresh⟩ :: place (fresh + 1) bodies

theorem place_bounds {fresh : Nat} {bodies : List InstructionBody} :
    ∀ i ∈ place fresh bodies, fresh ≤ i.ptr ∧ i.ptr < fresh + bodies.length := by
  induction bodies generalizing fresh with
  | nil => simp [place]
  | cons body bodies ih =>
    intro i member
    rw [List.length_cons]
    rcases List.mem_cons.mp member with rfl | later
    · exact ⟨le_refl _, by simp only; omega⟩
    · have bounds := ih i later
      omega

theorem place_distinct (fresh : Nat) (bodies : List InstructionBody) :
    ((place fresh bodies).map Instruction.ptr).Nodup := by
  induction bodies generalizing fresh with
  | nil => exact List.nodup_nil
  | cons body bodies ih =>
    refine List.nodup_cons.mpr ⟨fun member => ?_, ih (fresh + 1)⟩
    obtain ⟨i, later, same⟩ := List.mem_map.mp member
    have bounds := place_bounds i later
    simp only at same
    omega

def insertInFunction (p : Nat) (new : List Instruction) (F : Function) : Function :=
  { F with blocks := F.blocks.map (insertAfter Instruction.ptr p new) }

theorem instructions_insertInFunction (p : Nat) (new : List Instruction) (F : Function) :
    (insertInFunction p new F).instructions = insertAfter Instruction.ptr p new F.instructions := by
  have flat : insertAfter Instruction.ptr p new (F.blocks.flatMap id) = _ :=
    insertAfter_flatMap id F.blocks
  rw [List.flatMap_id] at flat
  rw [Function.instructions, Function.instructions, flat]
  simp [insertInFunction, List.flatMap_def]

theorem flatMap_insertInFunction (p : Nat) (new : List Instruction) (functions : List Function) :
    (functions.map (insertInFunction p new)).flatMap Function.instructions =
      insertAfter Instruction.ptr p new (functions.flatMap Function.instructions) := by
  rw [insertAfter_flatMap, List.flatMap_map]
  exact List.flatMap_congr fun F _ => instructions_insertInFunction p new F

/-- The instructions that an `IRBuilder` creates in front of the one that follows `i`. -/
def insertBehind (M : Module) (i : Instruction) (bodies : List InstructionBody) : Module where
  functions := M.functions.map (insertInFunction i.ptr (place M.fresh bodies))
  fresh := M.fresh + bodies.length
  distinct := by
    rw [flatMap_insertInFunction]
    apply insertAfter_nodup M.distinct (place_distinct _ _)
    intro a old b new same
    have below := M.below a old
    have above := (place_bounds b new).1
    omega
  below := by
    intro j member
    rw [flatMap_insertInFunction] at member
    rcases mem_insertAfter member with old | new
    · exact (M.below j old).trans_le (Nat.le_add_right _ _)
    · exact (place_bounds j new).2

/-- The instruction behind `p` in the order of the function. -/
def nextInstr (p : Nat) (l : List Instruction) : Option Instruction :=
  (l.dropWhile fun i => i.ptr ≠ p).tail.head?

/-- The debug location of `getNextNode()`, which an `IRBuilder` gives to what it creates. -/
def nextLoc (M : Module) (i : Instruction) : Option UInt32 :=
  (nextInstr i.ptr M.instructions).bind fun next => next.debugLoc

end Insertion

section Callee

/-- `getline` with the delimiter `.` on a stream; the stream is `none` once its end has
been reached, and then the token stays. -/
def nextToken : Option Text × Text → Option Text × Text
  | (none, token) => (none, token)
  | (some rest, _) =>
    match firstAt ['.'] rest with
    | none => (none, rest)
    | some (token, rest) => (some rest, token)

/-- The name a call is recognised by: the first part, for an intrinsic the fourth. -/
def calleeToken (name : Text) : Text :=
  let first := nextToken (some name, [])
  if first.2 = "llvm".toList then (nextToken (nextToken (nextToken first))).2 else first.2

/-- `PMemVariableLocator::callReturnsPmemVar`. -/
def callReturnsPmemVar (funcName : Text) : Bool :=
  cstr funcName ∈ ["pmemobj_direct_inline".toList, "pmem_map_file".toList]

/-- `getOperand`; there is no such value behind the last one. -/
def getOperand (operands : List Value) (n : Nat) : Value := operands.getD n .uninitialized

/-- The address that the hook behind an instruction records; `none` for an instruction
that is not instrumented. Behind a fence `addr` is not assigned. -/
def hookAddress (i : Instruction) : Option Value :=
  match i.op with
  | .load p | .store p | .getElementPtr p => some p
  | .call none _ => none
  | .call (some callee) operands =>
    let token := calleeToken callee
    if token = "pmemobj_create".toList then some i.value
    else if callReturnsPmemVar token then some i.value
    else if token = "pmemobj_tx_add_range_direct".toList then some (getOperand operands 0)
    else if token = "pmemobj_direct_inline".toList then some (getOperand operands 0)
    else if token = "pmemobj_persist".toList then some (getOperand operands 1)
    else if token = "sfence".toList then some .uninitialized
    else if token = "clflush".toList then some (getOperand operands 0)
    else if token = "mmap".toList then some i.value
    else none
  | .bitCast _ | .other => none

def isPoolCreation (i : Instruction) : Bool :=
  match i.op with
  | .call (some callee) _ => calleeToken callee = "pmemobj_create".toList
  | _ => false

end Callee

def runtimeHookName : Text := "__arthas_track_addr".toList

/-- The instrumenter, with the module it works on and the GUID counter of its file. -/
structure PmemAddrInstrumenter where
  module : Module
  trackWithPrintf : Bool
  trackAddrFunc : Value
  printfFunc : Value
  hookPointGuidMap : OrdMap Nat UInt64
  guidHookPointMap : OrdMap UInt64 Instruction
  currentGuid : UInt32
  instrumentCnt : UInt32

namespace PmemAddrInstrumenter

/-- `PmemVarGuidStart`. -/
def pmemVarGuidStart : UInt32 := 200

/-- `CreateBitCast` to `i8*`: nothing for a pointer of that type, a constant for a
constant, else an instruction. -/
def createBitCast (fresh : Nat) (addr : Value) (loc : Option UInt32) :
    List InstructionBody × Value :=
  if addr.hasI8PtrTy then ([], addr)
  else if addr.isConstant then ([], .constantCast addr)
  else ([⟨.bitCast addr, true, loc⟩], .result fresh true)

/-- The cast, if there is one, and the call of the hook. -/
def hookCode (st : PmemAddrInstrumenter) (i : Instruction) (addr : Value) :
    List InstructionBody :=
  let loc := nextLoc st.module i
  let (cast, i8addr) := createBitCast st.module.fresh addr loc
  cast ++ [⟨.call (some runtimeHookName) [i8addr, .int32 st.currentGuid, st.trackAddrFunc],
    false, loc⟩]

/-- The call of `printf`. -/
def printfCode (st : PmemAddrInstrumenter) (i : Instruction) (addr : Value) :
    List InstructionBody :=
  let format :=
    if isPoolCreation i then "POOL address: %p\n".toList else "address: %p\n".toList
  [⟨.call (some "printf".toList) [.globalString format, addr, st.printfFunc], false,
    nextLoc st.module i⟩]

/-- `instrumentInstr`, for an instruction of the module. -/
def instrumentInstr (st : PmemAddrInstrumenter) (i : Instruction) : Bool × PmemAddrInstrumenter :=
  if (st.hookPointGuidMap.find? i.ptr).isSome then (false, st)
  else
    match hookAddress i with
    | none => (false, st)
    | some addr =>
      if st.trackWithPrintf then
        (true, { st with
          module := insertBehind st.module i (st.printfCode i addr)
          instrumentCnt := st.instrumentCnt + 1 })
      else
        (true, { st with
          module := insertBehind st.module i (st.hookCode i addr)
          hookPointGuidMap := st.hookPointGuidMap.assign i.ptr st.currentGuid.toUInt64
          guidHookPointMap := st.guidHookPointMap.assign st.currentGuid.toUInt64 i
          currentGuid := st.currentGuid + 1
          instrumentCnt := st.instrumentCnt + 1 })

/-- Calls for the instructions among some values, and whether one instrumented. -/
def instrumentAll : List (Option Instruction) → Bool → PmemAddrInstrumenter →
    Bool × PmemAddrInstrumenter
  | [], instrumented, st => (instrumented, st)
  | none :: values, instrumented, st => instrumentAll values instrumented st
  | some i :: values, instrumented, st =>
    let (done, st) := st.instrumentInstr i
    instrumentAll values (instrumented || done) st

/-- `instrumentSlice`: the definition points of the values of a slice. -/
def instrumentSlice (slice : List (Option Instruction))
    (useDefMap : OrdMap Nat (List (Option Instruction))) (st : PmemAddrInstrumenter) :
    Bool × PmemAddrInstrumenter :=
  let points := slice.flatMap fun value =>
    match value with
    | none => []
    | some inst => (useDefMap.find? inst.ptr).getD []
  instrumentAll points false st

/-- The instructions of the function at an index of the module, as they are now. -/
def body (st : PmemAddrInstrumenter) (k : Nat) : List Instruction :=
  (st.module.functions[k]?.map Function.instructions).getD []

/-- The walk over a function with an iterator at an instruction, while hooks are being
inserted behind it; `none` when the fuel runs out. -/
def walk (k : Nat) : Nat → Option Instruction → Bool → PmemAddrInstrumenter →
    Option (Bool × PmemAddrInstrumenter)
  | _, none, instrumented, st => some (instrumented, st)
  | 0, some _, _, _ => none
  | n + 1, some i, instrumented, st =>
    let (done, st) := st.instrumentInstr i
    walk k n (nextInstr i.ptr (st.body k)) (instrumented || done) st

/-- `InstrumentPmemAddrPass::runOnFunction`; the variables and the regions are those that
the locator found before. -/
def runOnFunction (regularLoadStore : Bool) (vars regions : List (Option Instruction)) (k n : Nat)
    (st : PmemAddrInstrumenter) : Option (Bool × PmemAddrInstrumenter) :=
  if regularLoadStore then walk k n (st.body k).head? false st
  else if vars = [] then some (false, st)
  else
    let (instrumented, st) := instrumentAll vars false st
    some (instrumentAll regions instrumented st)

/-- `fillVarGuidMapInfo`, with the printer of the module. Without debug information of the
function the entry is left as it is (the source does so for an instruction without a debug
location, and dereferences a null pointer for one with it). -/
def fillVarGuidMapInfo (asm : AsmWriter) (M : Module) (instr : Instruction)
    (entry : PmemVarGuidMapEntry) : PmemVarGuidMapEntry :=
  match M.getFunction instr with
  | none => entry
  | some func =>
    match func.subprogram with
    | none => entry
    | some SP =>
      { entry with
        sourcePath := cstr SP.directory
        sourceFile := cstr SP.filename
        function := cstr func.name
        line := instr.debugLoc.getD SP.line
        instruction := asm.print M instr }

/-- The map that `writeGuidHookPointMap` writes. -/
def guidHookPoints (asm : AsmWriter) (st : PmemAddrInstrumenter) : PmemVarGuidMap :=
  st.guidHookPointMap.entries.foldl (fun map gi =>
    map.add (fillVarGuidMapInfo asm st.module gi.2 ⟨gi.1, [], [], [], 0, []⟩)) .empty

/-- `writeGuidHookPointMap`: what it writes to the file. -/
def writeGuidHookPointMap (asm : AsmWriter) (st : PmemAddrInstrumenter) : Text :=
  (st.guidHookPoints asm).serialize

end PmemAddrInstrumenter

end Arthas.Instrument
