import Mathlib
import Arthas.DefUse.UserGraph
import Arthas.Lib.Multimap

/-!
Locating the persistent variables and their definition points (`PMemVariableLocator`). The
variables are closed under their users, and the map from uses to definitions is exact,
whatever functions the locator has run on and however often.
-/

set_option autoImplicit false
set_option relaxedAutoImplicit false

namespace Arthas.PMem

open Arthas.Lib Arthas.Utils Arthas.DefUse

section Apis

def pmdkApiSet : List Text :=
  ["pmem_persist".toList, "pmem_msync".toList, "pmemobj_create".toList,
    "pmemobj_direct_inline".toList, "pmemobj_open".toList, "pmem_map_file".toList]

def pmdkPMEMVariableReturnSet : List Text :=
  ["pmemobj_direct_inline".toList, "pmem_map_file".toList]

def memkindApiSet : List Text := ["memkind_create_pmem".toList, "memkind_create_kind".toList]

/-- The argument, counted from 0, that gives the size of a region. -/
def pmdkRegionSizeArgMapping : List (Text × Nat) :=
  [("pmem_map_file".toList, 1), ("pmemobj_create".toList, 2)]

def memkindCreationPMEMMapping : List (Text × Nat) := [("memkind_create_pmem".toList, 3)]

def memkindCreationGeneralMapping : List (Text × Nat) := [("memkind_create_kind".toList, 4)]

/-- A function with its instructions, in the order of `inst_begin`. -/
structure Function (ι : Type) where
  isDeclaration : Bool
  insts : List ι

structure Module (ι : Type) extends ValueGraph ι where
  getName : ι → Text
  functions : List (Function ι)

end Apis

/-- The fields of a `PMemVariableLocator`. -/
structure PMemVariableLocator (ι : Type) where
  callList : List ι
  varList : List ι
  regionList : Multimap ι ι
  useDefMap : ι → Option (Finset ι)
  processedUses : Finset ι

namespace PMemVariableLocator

variable {ι : Type} [DecidableEq ι]

section Locating

omit [DecidableEq ι] in
def empty : PMemVariableLocator ι := ⟨[], [], [], fun _ => none, ∅⟩

/-- The insertion into a `SetVector`. -/
def insertLast (list : List ι) (v : ι) : List ι := if v ∈ list then list else list ++ [v]

variable [Fintype ι] (M : Module ι)

/-- The values of `UserGraph(v)`. -/
def users (v : ι) : List ι := (M.userGraph v .DFS (-1)).map Prod.fst

/-- A persistent variable, with the transitive closure of its users. -/
def insertVariable (v : ι) (s : PMemVariableLocator ι) : PMemVariableLocator ι :=
  { s with varList := (users M v).foldl insertLast (insertLast s.varList v) }

/-- A block of `handleMemKindCall`: the argument that a mapping gives for the function. -/
def insertArgument (mapping : List (Text × Nat)) (isPmem : ι → Bool) (name : Text)
    (args : List ι) (s : PMemVariableLocator ι) : PMemVariableLocator ι :=
  match (mapping.lookup name).bind (args[·]?) with
  | none => s
  | some v => if isPmem v then insertVariable M v s else s

def handleMemKindCall (callee : Option Text) (args : List ι) (s : PMemVariableLocator ι) :
    PMemVariableLocator ι :=
  match callee with
  | none => s
  | some name =>
    if memkindApiSet.contains name then
      let s := insertArgument M memkindCreationPMEMMapping (fun _ => true) name args s
      insertArgument M memkindCreationGeneralMapping
        (fun v => M.getName v = "MEMKIND_DAX_PMEM".toList) name args s
    else s

/-- What `handleInvokeCall` and `handlePmdkCall` do with an instruction, but for the list of
calls, which `record` extends. -/
def handleApiCall (record : PMemVariableLocator ι → PMemVariableLocator ι) (inst : ι)
    (callee : Option Text) (args : List ι) (s : PMemVariableLocator ι) : PMemVariableLocator ι :=
  match callee with
  | none => s
  | some name =>
    let token := name.takeWhile (· ≠ '.')
    let pmemDirect := "pmemobj_direct_inline".toList
    if pmdkApiSet.contains token ∨ pmemDirect <:+: token then
      let s := record s
      let s :=
        if pmdkPMEMVariableReturnSet.contains token ∨ pmemDirect <:+: token then
          insertVariable M inst s
        else s
      match (pmdkRegionSizeArgMapping.lookup token).bind (args[·]?) with
      | none => s
      | some size => { s with regionList := s.regionList ++ [(inst, size)] }
    else s

def handleInvokeCall (invokeInst : ι) (callee : Option Text) (args : List ι)
    (s : PMemVariableLocator ι) : PMemVariableLocator ι :=
  handleApiCall M id invokeInst callee args s

def handlePmdkCall (callInst : ι) (callee : Option Text) (args : List ι)
    (s : PMemVariableLocator ι) : PMemVariableLocator ι :=
  handleApiCall M (fun s => { s with callList := insertLast s.callList callInst })
    callInst callee args s

/-- The turn of the first loop of `runOnFunction`. -/
def handleInstruction (s : PMemVariableLocator ι) (inst : ι) : PMemVariableLocator ι :=
  match M.kind inst with
  | .invoke callee args => handleInvokeCall M inst callee args s
  | .call callee args => handleMemKindCall M callee args (handlePmdkCall M inst callee args s)
  | _ => s

/-- The entry of an instruction with one definition point more. -/
def addDefinition (d : ι) (s : PMemVariableLocator ι) (u : ι) : PMemVariableLocator ι :=
  if (M.kind u).isInstruction then
    { s with
      useDefMap := Function.update s.useDefMap u
        (match s.useDefMap u with
        | none => some {d}
        | some points => some (insert d points)) }
  else s

def processDefinitionPoint (d : ι) (s : PMemVariableLocator ι) : Bool × PMemVariableLocator ι :=
  if d ∈ s.processedUses then (false, s)
  else
    let s := (users M d).foldl (addDefinition M d) s
    (true, { s with processedUses := insert d s.processedUses })

/-- The result tells whether the module was modified. -/
def runOnFunction (F : Function ι) (s : PMemVariableLocator ι) : Bool × PMemVariableLocator ι :=
  if F.isDeclaration then (false, s)
  else
    let s := F.insts.foldl (handleInstruction M) s
    (false, s.varList.foldl (fun s d => (processDefinitionPoint M d s).2) s)

def runOnModule (s : PMemVariableLocator ι) : Bool × PMemVariableLocator ι :=
  M.functions.foldl (fun (modified, s) F =>
    if F.isDeclaration then (modified, s)
    else
      let (changed, s) := runOnFunction M F s
      (modified || changed, s)) (false, s)

end Locating

/-- A call of the client. -/
inductive LocatorCall (ι : Type) where
  | runOnFunction (F : Function ι)
  | runOnModule

def LocatorCall.run [Fintype ι] (M : Module ι) (s : PMemVariableLocator ι) :
    LocatorCall ι → PMemVariableLocator ι
  | .runOnFunction F => (PMemVariableLocator.runOnFunction M F s).2
  | .runOnModule => (PMemVariableLocator.runOnModule M s).2

section Closed

variable [Fintype ι] {M : Module ι} {s : PMemVariableLocator ι}

theorem mem_users {u v : ι} : u ∈ users M v ↔ u ∈ M.closure v :=
  (ValueGraph.userGraph_dfs v (-1)).mem u

/-- With a variable, its users are variables. -/
def Closed (M : Module ι) (list : List ι) : Prop := ∀ v ∈ list, ∀ u ∈ users M v, u ∈ list

/-- The users of a user are users, or the value itself. -/
theorem users_trans {u v w : ι} (uses : u ∈ users M v) (uses' : w ∈ users M u) :
    w = v ∨ w ∈ users M v := by
  rw [mem_users] at uses uses' ⊢
  by_cases same : w = v
  · exact Or.inl same
  · exact Or.inr ⟨same, uses'.2.1, uses.2.2.trans uses'.2.2⟩

omit [Fintype ι] in
theorem mem_insertLast {list : List ι} {u v : ι} : u ∈ insertLast list v ↔ u ∈ list ∨ u = v := by
  unfold insertLast
  split
  · next old =>
    constructor
    · exact Or.inl
    · rintro (member | rfl)
      · exact member
      · exact old
  · rw [List.mem_append, List.mem_singleton]

omit [Fintype ι] in
theorem mem_foldl_insertLast {list vs : List ι} {u : ι} :
    u ∈ vs.foldl insertLast list ↔ u ∈ list ∨ u ∈ vs := by
  induction vs generalizing list with
  | nil => simp
  | cons v vs ih => rw [List.foldl_cons, ih, mem_insertLast, List.mem_cons, or_assoc]

theorem mem_insertVariable {u v : ι} :
    u ∈ (insertVariable M v s).varList ↔ u ∈ s.varList ∨ u = v ∨ u ∈ users M v := by
  rw [insertVariable, mem_foldl_insertLast, mem_insertLast, or_assoc]

theorem closed_insertVariable (closed : Closed M s.varList) (v : ι) :
    Closed M (insertVariable M v s).varList := by
  intro u member w uses
  rw [mem_insertVariable] at member ⊢
  rcases member with old | rfl | new
  · exact Or.inl (closed u old w uses)
  · exact Or.inr (Or.inr uses)
  · exact Or.inr (users_trans new uses)

/-- What handling an instruction may do: add variables with all their users. -/
structure Located (M : Module ι) (s s' : PMemVariableLocator ι) : Prop where
  closed : Closed M s.varList → Closed M s'.varList
  grows : ∀ v ∈ s.varList, v ∈ s'.varList
  useDefMap : s'.useDefMap = s.useDefMap
  processedUses : s'.processedUses = s.processedUses

theorem Located.refl (s : PMemVariableLocator ι) : Located M s s := ⟨id, fun _ => id, rfl, rfl⟩

theorem Located.trans {s₁ s₂ s₃ : PMemVariableLocator ι} (first : Located M s₁ s₂)
    (second : Located M s₂ s₃) : Located M s₁ s₃ where
  closed closed := second.closed (first.closed closed)
  grows v member := second.grows v (first.grows v member)
  useDefMap := second.useDefMap.trans first.useDefMap
  processedUses := second.processedUses.trans first.processedUses

theorem located_insertVariable (v : ι) (s : PMemVariableLocator ι) :
    Located M s (insertVariable M v s) where
  closed closed := closed_insertVariable closed v
  grows _ member := mem_insertVariable.mpr (Or.inl member)
  useDefMap := rfl
  processedUses := rfl

theorem located_insertIf (condition : Prop) [Decidable condition] (v : ι)
    (s : PMemVariableLocator ι) :
    Located M s (if condition then insertVariable M v s else s) := by
  split
  · exact located_insertVariable v s
  · exact .refl s

theorem located_insertArgument (mapping : List (Text × Nat)) (isPmem : ι → Bool) (name : Text)
    (args : List ι) (s : PMemVariableLocator ι) :
    Located M s (insertArgument M mapping isPmem name args s) := by
  unfold insertArgument
  split
  · exact .refl s
  · exact located_insertIf _ _ s

theorem located_handleMemKindCall (callee : Option Text) (args : List ι)
    (s : PMemVariableLocator ι) : Located M s (handleMemKindCall M callee args s) := by
  unfold handleMemKindCall
  split
  · exact .refl s
  split
  · exact (located_insertArgument _ _ _ args s).trans (located_insertArgument _ _ _ args _)
  · exact .refl s

theorem located_handleApiCall {record : PMemVariableLocator ι → PMemVariableLocator ι}
    (records : ∀ s, Located M s (record s)) (inst : ι) (callee : Option Text) (args : List ι)
    (s : PMemVariableLocator ι) : Located M s (handleApiCall M record inst callee args s) := by
  unfold handleApiCall
  split
  · exact .refl s
  dsimp only
  split
  · apply (records s).trans
    generalize record s = s₁
    split
    · exact located_insertIf _ inst s₁
    · exact (located_insertIf _ inst s₁).trans ⟨id, fun _ => id, rfl, rfl⟩
  · exact .refl s

theorem located_handleInstruction (s : PMemVariableLocator ι) (inst : ι) :
    Located M s (handleInstruction M s inst) := by
  unfold handleInstruction
  split
  · exact located_handleApiCall Located.refl inst _ _ s
  · have recorded : ∀ s : PMemVariableLocator ι,
        Located M s { s with callList := insertLast s.callList inst } := fun s =>
      ⟨id, fun _ => id, rfl, rfl⟩
    exact (located_handleApiCall recorded inst _ _ s).trans (located_handleMemKindCall _ _ _)
  · exact .refl s

theorem located_handleInstructions (insts : List ι) (s : PMemVariableLocator ι) :
    Located M s (insts.foldl (handleInstruction M) s) := by
  induction insts generalizing s with
  | nil => exact .refl s
  | cons inst insts ih => exact (located_handleInstruction s inst).trans (ih _)

end Closed

section Definitions

variable [Fintype ι] {M : Module ι} {s : PMemVariableLocator ι}

/-- Users are instructions. -/
theorem isInstruction_of_mem_users {u v : ι} (uses : u ∈ users M v) :
    (M.kind u).isInstruction = true := by
  obtain ⟨other, -, reached⟩ := mem_users.mp uses
  rcases Relation.ReflTransGen.cases_tail reached with same | ⟨w, -, ui, -, leads⟩
  · exact (other same).elim
  · rcases leads with ⟨instruction, -, rfl⟩ | ⟨-, instruction⟩
    · exact instruction
    · exact instruction

/-- The map holds the definition points that were processed, and no empty entry. -/
structure Processed (M : Module ι) (s : PMemVariableLocator ι) : Prop where
  mem : ∀ i d, (∃ points, s.useDefMap i = some points ∧ d ∈ points) ↔
    d ∈ s.processedUses ∧ i ∈ users M d
  nonempty : ∀ i points, s.useDefMap i = some points → points.Nonempty

omit [Fintype ι] in
theorem foldl_addDefinition (d : ι) {us : List ι}
    (instructions : ∀ u ∈ us, (M.kind u).isInstruction = true) (s : PMemVariableLocator ι) :
    us.foldl (addDefinition M d) s = { s with
      useDefMap := fun i =>
        if i ∈ us then some (insert d ((s.useDefMap i).getD ∅)) else s.useDefMap i } := by
  induction us generalizing s with
  | nil => simp
  | cons u us ih =>
    have first : addDefinition M d s u = { s with
        useDefMap := Function.update s.useDefMap u
          (some (insert d ((s.useDefMap u).getD ∅))) } := by
      rw [addDefinition, if_pos (instructions u List.mem_cons_self)]
      cases s.useDefMap u <;> rfl
    rw [List.foldl_cons, first, ih fun u' member => instructions u' (List.mem_cons_of_mem u member)]
    congr 1
    funext i
    by_cases same : i = u
    · subst same
      simp
    · simp [same]

theorem Processed.definitionPoint (processed : Processed M s) (d : ι) :
    Processed M (processDefinitionPoint M d s).2 ∧
      (processDefinitionPoint M d s).2.processedUses = insert d s.processedUses ∧
      (processDefinitionPoint M d s).2.varList = s.varList := by
  unfold processDefinitionPoint
  split
  · next before => exact ⟨processed, (Finset.insert_eq_of_mem before).symm, rfl⟩
  · next new =>
    rw [foldl_addDefinition d fun u uses => isInstruction_of_mem_users uses]
    refine ⟨⟨fun i e => ?_, fun i points entry => ?_⟩, rfl, rfl⟩
    · have old := processed.mem i e
      dsimp only
      rw [Finset.mem_insert]
      by_cases uses : i ∈ users M d
      · simp only [uses, if_true, Option.some.injEq, exists_eq_left', Finset.mem_insert]
        cases entry : s.useDefMap i with
        | none =>
          simp only [entry, reduceCtorEq, false_and, exists_false, false_iff] at old
          simp only [Option.getD_none, Finset.notMem_empty, or_false]
          constructor
          · rintro rfl
            exact ⟨Or.inl rfl, uses⟩
          · rintro ⟨rfl | before, uses'⟩
            · rfl
            · exact (old ⟨before, uses'⟩).elim
        | some points =>
          simp only [entry, Option.some.injEq, exists_eq_left'] at old
          simp only [Option.getD_some, old]
          constructor
          · rintro (rfl | ⟨before, uses'⟩)
            · exact ⟨Or.inl rfl, uses⟩
            · exact ⟨Or.inr before, uses'⟩
          · rintro ⟨rfl | before, uses'⟩
            · exact Or.inl rfl
            · exact Or.inr ⟨before, uses'⟩
      · simp only [uses, if_false, old]
        constructor
        · rintro ⟨before, uses'⟩
          exact ⟨Or.inr before, uses'⟩
        · rintro ⟨rfl | before, uses'⟩
          · exact (uses uses').elim
          · exact ⟨before, uses'⟩
    · dsimp only at entry
      split at entry
      · cases entry
        exact Finset.insert_nonempty d _
      · exact processed.nonempty i points entry

theorem Processed.definitionPoints (processed : Processed M s) (defs : List ι) :
    let s' := defs.foldl (fun s d => (processDefinitionPoint M d s).2) s
    Processed M s' ∧ (∀ d, d ∈ s'.processedUses ↔ d ∈ s.processedUses ∨ d ∈ defs) ∧
      s'.varList = s.varList := by
  induction defs generalizing s with
  | nil => exact ⟨processed, by simp, rfl⟩
  | cons d defs ih =>
    obtain ⟨first, uses, list⟩ := processed.definitionPoint d
    obtain ⟨rest, uses', list'⟩ := ih first
    refine ⟨rest, fun e => ?_, list'.trans list⟩
    rw [List.foldl_cons, uses', uses, Finset.mem_insert, List.mem_cons]
    tauto

end Definitions

section Runs

variable [Fintype ι] {M : Module ι} {s : PMemVariableLocator ι}

/-- The variables are closed, and all of them were processed as definition points. -/
structure Consistent (M : Module ι) (s : PMemVariableLocator ι) : Prop extends Processed M s where
  closed : Closed M s.varList
  all : ∀ d, d ∈ s.processedUses ↔ d ∈ s.varList

theorem consistent_empty : Consistent M empty where
  mem i d := by simp [empty]
  nonempty _ _ entry := by cases entry
  closed _ member := (List.not_mem_nil member).elim
  all d := by simp [empty]

theorem Consistent.runOnFunction (consistent : Consistent M s) (F : Function ι) :
    Consistent M (PMemVariableLocator.runOnFunction M F s).2 := by
  unfold PMemVariableLocator.runOnFunction
  split
  · exact consistent
  · dsimp only
    have located := located_handleInstructions (M := M) F.insts s
    generalize F.insts.foldl (handleInstruction M) s = s₁ at located ⊢
    have processed : Processed M s₁ := by
      refine ⟨fun i d => ?_, fun i points => ?_⟩
      · rw [located.useDefMap, located.processedUses]
        exact consistent.mem i d
      · rw [located.useDefMap]
        exact consistent.nonempty i points
    obtain ⟨rest, uses, list⟩ := processed.definitionPoints s₁.varList
    refine ⟨rest, ?_, fun d => ?_⟩
    · rw [list]
      exact located.closed consistent.closed
    rw [uses, list, located.processedUses, consistent.all]
    exact or_iff_right_of_imp (located.grows d)

theorem Consistent.runOnModule (consistent : Consistent M s) :
    Consistent M (PMemVariableLocator.runOnModule M s).2 := by
  unfold PMemVariableLocator.runOnModule
  generalize M.functions = functions
  generalize false = modified
  induction functions generalizing s modified with
  | nil => exact consistent
  | cons F functions ih =>
    rw [List.foldl_cons]
    dsimp only
    split
    · exact ih consistent modified
    · exact ih (consistent.runOnFunction F) _

theorem consistent_runs (calls : List (LocatorCall ι)) :
    Consistent M (calls.foldl (LocatorCall.run M) empty) := by
  suffices run : ∀ s, Consistent M s → Consistent M (calls.foldl (LocatorCall.run M) s) from
    run empty consistent_empty
  induction calls with
  | nil => exact fun _ consistent => consistent
  | cons call calls ih =>
    intro s consistent
    apply ih _
    cases call with
    | runOnFunction F => exact consistent.runOnFunction F
    | runOnModule => exact consistent.runOnModule

/-- After any calls the users of every variable are variables, and an instruction has an entry
exactly when it uses a variable, the entry being the variables that it uses. -/
theorem locator_laws (M : Module ι) (calls : List (LocatorCall ι)) :
    let s := calls.foldl (LocatorCall.run M) empty
    (∀ v ∈ s.varList, ∀ p ∈ M.userGraph v .DFS (-1), p.1 ∈ s.varList) ∧
      ∀ i, ((s.useDefMap i).isSome ↔ ∃ d ∈ s.varList, i ∈ users M d) ∧
        ∀ points, s.useDefMap i = some points →
          ∀ d, d ∈ points ↔ d ∈ s.varList ∧ i ∈ users M d := by
  intro s
  have consistent : Consistent M s := consistent_runs calls
  refine ⟨fun v member p inside => ?_, fun i => ⟨?_, fun points entry d => ?_⟩⟩
  · exact consistent.closed v member p.1 (List.mem_map_of_mem inside)
  · constructor
    · intro some
      obtain ⟨points, entry⟩ := Option.isSome_iff_exists.mp some
      obtain ⟨d, member⟩ := consistent.nonempty i points entry
      obtain ⟨processed, uses⟩ := (consistent.mem i d).mp ⟨points, entry, member⟩
      exact ⟨d, (consistent.all d).mp processed, uses⟩
    · rintro ⟨d, member, uses⟩
      obtain ⟨points, entry, -⟩ :=
        (consistent.mem i d).mpr ⟨(consistent.all d).mpr member, uses⟩
      rw [entry]
      rfl
  · have processed := consistent.mem i d
    simp only [entry, Option.some.injEq, exists_eq_left'] at processed
    rw [processed, consistent.all]

end Runs

end PMemVariableLocator

end Arthas.PMem
