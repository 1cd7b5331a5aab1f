import Mathlib
import Arthas.Utils.String

/-!
What the instrumenter and the matcher read and write of an LLVM module: functions made of
blocks of instructions, each instruction an object with an address of its own, and the
debug information that places instructions and functions in the source.
-/

set_option autoImplicit false
set_option relaxedAutoImplicit false

namespace Arthas.Matcher

open Arthas.Utils

/-- A value; `i8Ptr` tells whether its type is `i8*`. A pointer variable that was never
assigned holds `uninitialized`. -/
inductive Value where
  | result (ptr : Nat) (i8Ptr : Bool)
  | argument (ptr : Nat) (i8Ptr : Bool)
  | constant (ptr : Nat) (i8Ptr : Bool)
  | constantCast (v : Value)
  | globalString (s : Text)
  | int32 (n : UInt32)
  | uninitialized
  deriving DecidableEq

def Value.hasI8PtrTy : Value → Bool
  | .result _ i8Ptr | .argument _ i8Ptr | .constant _ i8Ptr => i8Ptr
  | .constantCast _ | .globalString _ => true
  | .int32 _ | .uninitialized => false

def Value.isConstant : Value → Bool
  | .constant _ _ | .constantCast _ | .globalString _ | .int32 _ => true
  | .result _ _ | .argument _ _ | .uninitialized => false

/-- An instruction by its class, with the operands that are read; those of a call end with
the callee itself. -/
inductive Opcode where
  | load (pointerOperand : Value)
  | store (pointerOperand : Value)
  | getElementPtr (pointerOperand : Value)
  | call (calledFunction : Option Text) (operands : List Value)
  | bitCast (v : Value)
  | other
  deriving DecidableEq

/-- An instruction before it is placed in memory; `debugLoc` is the line of its debug
location, if it has one. -/
structure InstructionBody where
  op : Opcode
  i8Ptr : Bool
  debugLoc : Option UInt32
  deriving DecidableEq

structure Instruction extends InstructionBody where
  ptr : Nat
  deriving DecidableEq

def Instruction.value (i : Instruction) : Value := .result i.ptr i.i8Ptr

structure DISubprogram where
  directory : Text
  filename : Text
  line : UInt32
  deriving DecidableEq

structure Function where
  name : Text
  subprogram : Option DISubprogram
  blocks : List (List Instruction)
  deriving DecidableEq

namespace Function

/-- The instructions as `inst_begin` and `inst_end` enumerate them. -/
def instructions (F : Function) : List Instruction := F.blocks.flatten

def isDeclaration (F : Function) : Bool := F.blocks.isEmpty

end Function

/-- A module; its instructions are different objects, all below `fresh`. -/
structure Module where
  functions : List Function
  fresh : Nat
  distinct : ((functions.flatMap Function.instructions).map Instruction.ptr).Nodup
  below : ∀ i ∈ functions.flatMap Function.instructions, i.ptr < fresh

namespace Module

def instructions (M : Module) : List Instruction := M.functions.flatMap Function.instructions

/-- `Instruction::getFunction`. -/
def getFunction (M : Module) (i : Instruction) : Option Function :=
  M.functions.find? fun F => i ∈ F.instructions

theorem mem_instructions {M : Module} {i : Instruction} :
    i ∈ M.instructions ↔ ∃ F ∈ M.functions, i ∈ F.instructions :=
  List.mem_flatMap

/-- An instruction belongs to one function only. -/
theorem functions_disjoint (M : Module) :
    M.functions.Pairwise fun F G => ∀ i ∈ F.instructions, i ∉ G.instructions := by
  have distinct : (M.functions.flatMap Function.instructions).Nodup := M.distinct.of_map
  refine (List.nodup_flatMap.mp distinct).2.imp fun apart i hi hj => ?_
  exact List.disjoint_left.mp apart hi hj

theorem getFunction_eq_some {M : Module} {i : Instruction} {F : Function}
    (found : M.getFunction i = some F) :
    i ∈ F.instructions ∧ ∃ before after, M.functions = before ++ F :: after ∧
      ∀ G ∈ before, i ∉ G.instructions := by
  obtain ⟨here, before, after, eq, none⟩ := List.find?_eq_some_iff_append.mp found
  exact ⟨by simpa using here, before, after, eq, fun G hG => by simpa using none G hG⟩

theorem getFunction_isSome {M : Module} {i : Instruction} (inside : i ∈ M.instructions) :
    ∃ F, M.getFunction i = some F := by
  obtain ⟨F, hF, hi⟩ := mem_instructions.mp inside
  exact Option.isSome_iff_exists.mp (List.find?_isSome.mpr ⟨F, hF, by simpa using hi⟩)

end Module

/-- How LLVM prints the instructions of a module: a row of two blanks and the text of the
instruction, which neither begins nor ends with a blank. -/
structure AsmWriter where
  print : Module → Instruction → Text
  indented : ∀ M i, ∃ body, print M i = ' ' :: ' ' :: body ∧ body ≠ [] ∧ trim body = body

namespace AsmWriter

variable (asm : AsmWriter)

theorem print_ne_nil (M : Module) (i : Instruction) : asm.print M i ≠ [] := by
  obtain ⟨body, eq, -, -⟩ := asm.indented M i
  rw [eq]
  exact List.cons_ne_nil _ _

/-- The text is the trimmed text behind the indentation. -/
theorem print_eq (M : Module) (i : Instruction) :
    asm.print M i = ' ' :: ' ' :: trim (asm.print M i) := by
  obtain ⟨body, eq, nonempty, trimmed⟩ := asm.indented M i
  have blank : ∀ c ∈ [' ', ' '], isspace c = true := by simp [isspace]
  have read : trim (asm.print M i) = body :=
    (congrArg trim eq).trans (trim_append_of_blank blank nonempty trimmed)
  exact eq.trans (congrArg (' ' :: ' ' :: ·) read.symm)

theorem print_eq_of_trim_eq {M : Module} {i j : Instruction}
    (same : trim (asm.print M i) = trim (asm.print M j)) : asm.print M i = asm.print M j :=
  calc asm.print M i = ' ' :: ' ' :: trim (asm.print M i) := asm.print_eq M i
    _ = ' ' :: ' ' :: trim (asm.print M j) := by rw [same]
    _ = asm.print M j := (asm.print_eq M j).symm

/-- A printer that numbers the instructions in unary. -/
def unary : AsmWriter where
  print _ i := ' ' :: ' ' :: List.replicate (i.ptr + 1) 'x'
  indented _ i := by
    refine ⟨_, rfl, by simp, trim_eq_self_iff.mpr ⟨?_, rtrim_eq_self_iff.mpr fun _ => ?_⟩⟩
    · rfl
    · rw [List.getLast_replicate]
      decide

end AsmWriter

end Arthas.Matcher
