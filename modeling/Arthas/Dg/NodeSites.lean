import Arthas.Dg.LastWriters

/-!
The sites that the nodes of the reaching definitions analysis are given
(`LLVMRDBuilder.cpp`). They come from what the pointer analysis says of the pointers of an
instruction, and are such that the analysis can follow them byte by byte.
-/

set_option autoImplicit false
set_option relaxedAutoImplicit false

namespace Arthas.Dg

open Lib

def NodeCall.overwritten {ν : Type*} : NodeCall ν → Option (DefSite ν)
  | .addDef ds true => some ds
  | .addOverwrites ds => some ds
  | _ => none

def NodeCall.used {ν : Type*} : NodeCall ν → Option (DefSite ν)
  | .addUse ds => some ds
  | _ => none

namespace RDGraph

variable {ν : Type*} [DecidableEq ν] {G : RDGraph ν} {n : ν} {ds : DefSite ν}

theorem mem_foldl_run {O : Objects ν} {calls : List (NodeCall ν)} {sets : NodeSets ν} :
    (ds ∈ (calls.foldl (NodeCall.run O n) sets).overwrites ↔
      ds ∈ sets.overwrites ∨ ds ∈ calls.filterMap NodeCall.overwritten) ∧
    (ds ∈ (calls.foldl (NodeCall.run O n) sets).uses ↔
      ds ∈ sets.uses ∨ ds ∈ calls.filterMap NodeCall.used) := by
  induction calls generalizing sets with
  | nil => simp
  | cons call calls ih =>
    have overwrites : ds ∈ (call.run O n sets).overwrites ↔
        ds ∈ sets.overwrites ∨ call.overwritten = some ds := by
      rcases call with ⟨ds', strong⟩ | ds' | ds'
      · cases strong <;> simp [NodeCall.run, NodeCall.overwritten, SetVector.mem_insert, eq_comm]
      · simp [NodeCall.run, NodeCall.overwritten, SetVector.mem_insert, eq_comm]
      · simp [NodeCall.run, NodeCall.overwritten]
    have uses : ds ∈ (call.run O n sets).uses ↔ ds ∈ sets.uses ∨ call.used = some ds := by
      rcases call with ⟨ds', strong⟩ | ds' | ds'
      · cases strong <;> simp [NodeCall.run, NodeCall.used]
      · simp [NodeCall.run, NodeCall.used]
      · simp [NodeCall.run, NodeCall.used, SetVector.mem_insert, eq_comm]
    rw [List.foldl_cons, ih.1, ih.2, overwrites, uses]
    simp only [List.mem_filterMap, List.exists_mem_cons_iff, or_assoc, and_self]

theorem mem_overwrites : ds ∈ G.overwrites n ↔
    ds ∈ (G.calls n).filterMap NodeCall.overwritten :=
  mem_foldl_run.1.trans (or_iff_right List.not_mem_nil)

theorem mem_uses : ds ∈ G.uses n ↔ ds ∈ (G.calls n).filterMap NodeCall.used :=
  mem_foldl_run.2.trans (or_iff_right List.not_mem_nil)

end RDGraph

/-- `LLVMPointer`: an allocation site and an offset into its memory. -/
structure LLVMPointer (υ : Type*) where
  value : υ
  offset : Nat

/-- `LLVMPointsToSet`. The iterators give the pointers; what else is in the set, such as null,
is counted only. -/
structure LLVMPointsToSet (υ : Type*) where
  pointers : List (LLVMPointer υ)
  hasUnknown : Bool
  others : Nat

def LLVMPointsToSet.size {υ : Type*} (pts : LLVMPointsToSet υ) : Nat :=
  pts.pointers.length + pts.hasUnknown.toNat + pts.others

/-- What the builder makes nodes of. The lengths are those of the types and constants, with
what `getAllocatedSize` and `getConstantValue` give for the others. -/
inductive NodeSource (υ : Type*) where
  /-- An allocation, a call of a function with a body or the return from it. -/
  | plain
  | global (size : Nat)
  | realloc (ptr : υ) (size : Nat)
  | store (ptr : υ) (size : Nat)
  | load (ptr : υ) (size : Nat)
  | ret (locals : List υ)
  /-- The arguments that are not constants. -/
  | undefinedCall (args : List υ)
  | vastart
  /-- `memmove`, `memcpy` or `memset`. -/
  | intrinsic (dest : υ) (len : Nat)

/-- What the builder looks up. -/
structure LLVMRDBuilder (ν υ : Type*) extends Objects ν where
  getLLVMPointsTo : υ → Option (LLVMPointsToSet υ)
  isFunction : υ → Bool
  getOperand : υ → Option ν
  forgetLocalsAtReturn : Bool
  undefinedArePure : Bool
  getOperand_ne : ∀ v, getOperand v ≠ some unknownMemory

namespace LLVMRDBuilder

variable {ν υ : Type*} (B : LLVMRDBuilder ν υ)

/-- `DefSite(UNKNOWN_MEMORY)`. -/
def unknownSite : DefSite ν := ⟨some B.unknownMemory, unknownOffset, unknownOffset⟩

def mapPointers (val : υ) (size : Nat) : List (DefSite ν) :=
  match B.getLLVMPointsTo val with
  | none => [B.unknownSite]
  | some pts =>
    if pts.size = 0 then [B.unknownSite]
    else (if pts.hasUnknown then [B.unknownSite] else []) ++ pts.pointers.filterMap fun ptr =>
      if B.isFunction ptr.value then none
      else (B.getOperand ptr.value).map fun ptrNode =>
        ⟨some ptrNode, ptr.offset, if ptr.offset = unknownOffset then unknownOffset else size⟩

/-- A size of zero is not known. -/
def knownSize (size : Nat) : Nat := if size = 0 then unknownOffset else size

/-- Only one site that is not from the heap is updated strongly. -/
def strongUpdate : List (DefSite ν) → Bool
  | [ds] => ds.offset ≠ unknownOffset ∧ ds.len ≠ unknownOffset ∧
      ds.target.map B.nodeType ≠ some .dynAlloc
  | _ => false

def createStore (ptr : υ) (size : Nat) : List (NodeCall ν) :=
  let defSites := B.mapPointers ptr (knownSize size)
  defSites.map fun ds => .addDef ds (B.strongUpdate defSites)

def createLoad (ptr : υ) (size : Nat) : List (NodeCall ν) :=
  (B.mapPointers ptr (knownSize size)).map .addUse

def createRealloc (node : ν) (ptr : υ) (size : Nat) : List (NodeCall ν) :=
  .addDef ⟨some node, 0, knownSize size⟩ false :: (B.mapPointers ptr (knownSize size)).map .addUse

/-- The local variables end as if they were overwritten. -/
def createReturn (locals : List υ) : List (NodeCall ν) :=
  if B.forgetLocalsAtReturn then
    locals.map fun ptrVal => .addOverwrites ⟨B.getOperand ptrVal, 0, unknownOffset⟩
  else []

/-- The turn of `buildGlobals`. -/
def buildGlobal (cur : ν) (size : Nat) : List (NodeCall ν) :=
  [.addDef ⟨some cur, 0, knownSize size⟩ true]

/-- The pointers of a set that are not functions, if the pointer analysis has the value. -/
def objectPointers (val : υ) : List (LLVMPointer υ) :=
  ((B.getLLVMPointsTo val).elim [] (·.pointers)).filter fun ptr => !B.isFunction ptr.value

def createUndefinedCall (args : List υ) : List (NodeCall ν) :=
  if B.undefinedArePure then []
  else (args.flatMap B.objectPointers).flatMap fun ptr =>
    [.addDef ⟨B.getOperand ptr.value, unknownOffset, unknownOffset⟩ false,
      .addUse ⟨B.getOperand ptr.value, unknownOffset, unknownOffset⟩]

/-- The turn of the loop over the destinations, with the length. The site has its end where
its length belongs. -/
def intrinsicDef (s : List (NodeCall ν) × Nat) (ptr : LLVMPointer υ) : List (NodeCall ν) × Nat :=
  let len := if ptr.offset = unknownOffset then unknownOffset else s.2
  let last := if len < unknownOffset - ptr.offset then ptr.offset + len else unknownOffset
  let target := (B.getOperand ptr.value).getD B.unknownMemory
  (s.1 ++ [.addDef ⟨some target, ptr.offset, last⟩
    (ptr.offset ≠ unknownOffset ∧ last ≠ unknownOffset)], len)

def createIntrinsicCall (dest : υ) (len : Nat) : List (NodeCall ν) :=
  ((B.objectPointers dest).foldl B.intrinsicDef ([], len)).1

/-- `createIntrinsicCall` for `vastart`. -/
def createVastart (ret : ν) : List (NodeCall ν) := [.addDef ⟨some ret, 0, unknownOffset⟩ false]

/-- What the builder tells a node that it makes. -/
def nodeCalls (n : ν) : NodeSource υ → List (NodeCall ν)
  | .plain => []
  | .global size => buildGlobal n size
  | .realloc ptr size => B.createRealloc n ptr size
  | .store ptr size => B.createStore ptr size
  | .load ptr size => B.createLoad ptr size
  | .ret locals => B.createReturn locals
  | .undefinedCall args => B.createUndefinedCall args
  | .vastart => createVastart n
  | .intrinsic dest len => B.createIntrinsicCall dest len

/-- The pointer analysis does not say where the value points to. -/
def Unsure (v : υ) : Prop :=
  ∀ pts, B.getLLVMPointsTo v = some pts → pts.size = 0 ∨ pts.hasUnknown = true

def PointsTo (v : υ) (t : ν) (offset : Nat) : Prop :=
  ∃ ptr ∈ B.objectPointers v, B.getOperand ptr.value = some t ∧
    (ptr.offset = unknownOffset ∨ ptr.offset = offset)

/-- What keeps the sites of a node right. A memory intrinsic has to write from the start of its
only object on, or at places that are not known. -/
def Regular : NodeSource υ → Prop
  | .global size => size = unknownOffset ∨ size < unknownOffset - 1
  | .realloc _ size => size = unknownOffset ∨ size < unknownOffset - 1
  | .store ptr size => 0 < size ∧ ∀ p ∈ B.objectPointers ptr, p.offset ≠ unknownOffset →
      p.offset + size < unknownOffset - 1
  | .intrinsic dest len => (∀ p ∈ B.objectPointers dest, p.offset = unknownOffset) ∨
      (len = unknownOffset ∨ len < unknownOffset - 1) ∧
        ∃ p t, B.objectPointers dest = [p] ∧ p.offset = 0 ∧ B.getOperand p.value = some t
  | _ => True

/-- Sites that the analysis can follow byte by byte. -/
structure InOrder (calls : List (NodeCall ν)) : Prop where
  shaped : ∀ ds ∈ calls.filterMap NodeCall.written, ds.Shaped
  known : ∀ ds ∈ calls.filterMap NodeCall.overwritten, ds.target ≠ some B.unknownMemory
  overwritten : (∀ ds ∈ calls.filterMap NodeCall.overwritten, ds.Shaped ∧
      ∀ ds' ∈ calls.filterMap NodeCall.overwritten, ds = ds') ∨
    ∀ ds ∈ calls.filterMap NodeCall.overwritten, ds.offset = 0 ∧ ds.len = unknownOffset

section Sites

variable {B} {v : υ} {size len : Nat} {ds : DefSite ν} {n : ν}

theorem mem_mapPointers : ds ∈ B.mapPointers v size ↔ (B.Unsure v ∧ ds = B.unknownSite) ∨
    ∃ ptr ∈ B.objectPointers v, ∃ ptrNode, B.getOperand ptr.value = some ptrNode ∧
      ds = ⟨some ptrNode, ptr.offset,
        if ptr.offset = unknownOffset then unknownOffset else size⟩ := by
  unfold mapPointers Unsure objectPointers
  cases known : B.getLLVMPointsTo v with
  | none => simp
  | some pts =>
    simp only [Option.some.injEq, forall_eq', Option.elim_some, List.mem_filter,
      Bool.not_eq_true', and_assoc]
    split
    · next none =>
      have empty : pts.pointers = [] := by
        apply List.eq_nil_of_length_eq_zero
        unfold LLVMPointsToSet.size at none
        omega
      simp [none, empty]
    · next some =>
      rw [List.mem_append, List.mem_filterMap]
      refine or_congr (by cases pts.hasUnknown <;> simp [some]) (exists_congr fun ptr => ?_)
      refine and_congr_right fun _ => ?_
      cases B.isFunction ptr.value <;> simp [eq_comm]

theorem InOrder.orderly {calls : List (NodeCall ν)} {sites : List (DefSite ν)}
    (inOrder : B.InOrder calls)
    (members : ∀ ds ∈ sites, ds ∈ calls.filterMap NodeCall.overwritten) :
    Orderly B.toObjects sites where
  known ds member := inOrder.known ds (members ds member)
  shaped ds member := by
    rcases inOrder.overwritten with single | whole
    · exact (single ds (members ds member)).1
    · obtain ⟨start, noEnd⟩ := whole ds (members ds member)
      exact ⟨fun _ => noEnd, fun _ => Or.inr start, fun sized => absurd noEnd sized⟩
  order := by
    rcases inOrder.overwritten with single | whole
    · refine Or.inl (List.pairwise_of_forall_mem_list fun ds member ds' member' => ?_)
      rw [(single ds (members ds member)).2 ds' (members ds' member')]
    · exact Or.inr fun ds member => whole ds (members ds member)

theorem mem_createStore {call : NodeCall ν} : call ∈ B.createStore v size ↔
    ∃ ds ∈ B.mapPointers v (knownSize size),
      call = .addDef ds (B.strongUpdate (B.mapPointers v (knownSize size))) := by
  simp [createStore, eq_comm]

theorem strongUpdate_eq_true {sites : List (DefSite ν)} : B.strongUpdate sites = true ↔
    ∃ ds, sites = [ds] ∧ ds.offset ≠ unknownOffset ∧ ds.len ≠ unknownOffset ∧
      ds.target.map B.nodeType ≠ some .dynAlloc := by
  rcases sites with - | ⟨ds, - | ⟨ds', sites⟩⟩ <;> simp [strongUpdate]

theorem knownSize_of_pos (sized : 0 < size) : knownSize size = size := if_neg sized.ne'

theorem shaped_knownSize {t : Option ν} (fits : size = unknownOffset ∨ size < unknownOffset - 1) :
    (⟨t, 0, knownSize size⟩ : DefSite ν).Shaped := by
  have known : (0 : Nat) ≠ unknownOffset := by decide
  refine ⟨fun unknown => absurd unknown known, fun _ => Or.inr rfl, fun sized => ?_⟩
  simp only [knownSize] at sized ⊢
  split at sized
  · exact absurd rfl sized
  · next some =>
    rw [if_neg some]
    have := fits.resolve_left sized
    omega

/-- A strong update has the only site there is. -/
theorem overwritten_createStore (member : ds ∈ (B.createStore v size).filterMap
    NodeCall.overwritten) : B.mapPointers v (knownSize size) = [ds] ∧
      ds.offset ≠ unknownOffset := by
  obtain ⟨call, made, same⟩ := List.mem_filterMap.mp member
  obtain ⟨ds', inSites, rfl⟩ := mem_createStore.mp made
  cases strong : B.strongUpdate (B.mapPointers v (knownSize size)) with
  | false =>
    rw [strong] at same
    cases same
  | true =>
    rw [strong] at same
    obtain rfl : ds' = ds := Option.some.inj same
    obtain ⟨ds'', only, known, -⟩ := strongUpdate_eq_true.mp strong
    rw [only, List.mem_singleton] at inSites
    exact ⟨inSites ▸ only, inSites ▸ known⟩

theorem written_createStore (member : ds ∈ B.mapPointers v (knownSize size)) :
    ds ∈ (B.createStore v size).filterMap NodeCall.written :=
  List.mem_filterMap.mpr ⟨_, mem_createStore.mpr ⟨ds, member, rfl⟩, rfl⟩

theorem shaped_mapPointers (fits : ∀ ptr ∈ B.objectPointers v, ptr.offset ≠ unknownOffset →
    ptr.offset + size < unknownOffset - 1) (member : ds ∈ B.mapPointers v size) : ds.Shaped := by
  rcases mem_mapPointers.mp member with ⟨-, rfl⟩ | ⟨ptr, inSet, t, -, rfl⟩
  · exact ⟨fun _ => rfl, fun _ => Or.inl rfl, fun known => absurd rfl known⟩
  · have fits := fits ptr inSet
    refine ⟨fun unknown => if_pos unknown, fun whole => ?_, fun known => ?_⟩
    · by_contra known
      have offset : ptr.offset ≠ unknownOffset := fun unknown => known (Or.inl unknown)
      have := fits offset
      simp only [if_neg offset] at whole
      omega
    · have offset : ptr.offset ≠ unknownOffset := fun unknown => known (if_pos unknown)
      simp only [if_neg offset]
      exact fits offset

theorem createStore_inOrder (sized : 0 < size)
    (fits : ∀ ptr ∈ B.objectPointers v, ptr.offset ≠ unknownOffset →
      ptr.offset + size < unknownOffset - 1) : B.InOrder (B.createStore v size) := by
  have site : ∀ ds ∈ B.mapPointers v (knownSize size), ds.Shaped := by
    intro ds member
    rw [knownSize_of_pos sized] at member
    exact shaped_mapPointers fits member
  refine ⟨fun ds member => ?_, fun ds member unknown => ?_, Or.inl fun ds member => ⟨?_, ?_⟩⟩
  · obtain ⟨call, made, same⟩ := List.mem_filterMap.mp member
    obtain ⟨ds', inSites, rfl⟩ := mem_createStore.mp made
    obtain rfl : ds' = ds := Option.some.inj same
    exact site ds' inSites
  · obtain ⟨only, known⟩ := overwritten_createStore member
    rcases mem_mapPointers.mp (only ▸ List.mem_singleton_self ds) with
      ⟨-, rfl⟩ | ⟨ptr, -, t, operand, rfl⟩
    · exact known rfl
    · exact B.getOperand_ne ptr.value (operand.trans unknown)
  · exact site ds ((overwritten_createStore member).1 ▸ List.mem_singleton_self ds)
  · intro ds' member'
    have same := (overwritten_createStore member).1.symm.trans (overwritten_createStore member').1
    exact (List.cons.inj same).1

theorem createReturn_inOrder (locals : List υ) : B.InOrder (B.createReturn locals) := by
  have made : ∀ call ∈ B.createReturn locals, ∃ v,
      call = .addOverwrites ⟨B.getOperand v, 0, unknownOffset⟩ := by
    intro call member
    rw [createReturn] at member
    split at member
    · obtain ⟨v, -, rfl⟩ := List.mem_map.mp member
      exact ⟨v, rfl⟩
    · exact absurd member List.not_mem_nil
  refine ⟨fun ds member => ?_, fun ds member => ?_, Or.inr fun ds member => ?_⟩
  all_goals
    obtain ⟨call, isCall, same⟩ := List.mem_filterMap.mp member
    obtain ⟨v, rfl⟩ := made call isCall
  · cases same
  · obtain rfl := Option.some.inj same
    exact B.getOperand_ne v
  · obtain rfl := Option.some.inj same
    exact ⟨rfl, rfl⟩

/-- Without strong updates it is enough that the sites have their form. -/
theorem inOrder_of_weak {calls : List (NodeCall ν)}
    (shaped : ∀ ds ∈ calls.filterMap NodeCall.written, ds.Shaped)
    (weak : calls.filterMap NodeCall.overwritten = []) : B.InOrder calls := by
  refine ⟨shaped, ?_, Or.inr ?_⟩
  all_goals
    rw [weak]
    intro ds none
    exact absurd none List.not_mem_nil

/-- So it is with one call. -/
theorem inOrder_singleton {strong : Bool} (shaped : ds.Shaped)
    (known : ds.target ≠ some B.unknownMemory) : B.InOrder [.addDef ds strong] := by
  have overwritten : ∀ ds' ∈ [NodeCall.addDef ds strong].filterMap NodeCall.overwritten,
      ds' = ds := by
    cases strong <;> simp [NodeCall.overwritten]
  refine ⟨by simpa [NodeCall.written] using shaped, fun ds' member => ?_,
    Or.inl fun ds' member => ⟨?_, fun ds'' member' => ?_⟩⟩
  · rw [overwritten ds' member]
    exact known
  · rw [overwritten ds' member]
    exact shaped
  · rw [overwritten ds' member, overwritten ds'' member']

theorem mem_createUndefinedCall {args : List υ} {call : NodeCall ν} :
    call ∈ B.createUndefinedCall args ↔ B.undefinedArePure = false ∧
      ∃ v ∈ args, ∃ ptr ∈ B.objectPointers v,
        call = .addDef ⟨B.getOperand ptr.value, unknownOffset, unknownOffset⟩ false ∨
          call = .addUse ⟨B.getOperand ptr.value, unknownOffset, unknownOffset⟩ := by
  rw [createUndefinedCall]
  cases B.undefinedArePure with
  | true => simp
  | false =>
    simp only [Bool.false_eq_true, if_false, List.mem_flatMap, List.mem_cons, List.not_mem_nil,
      or_false, true_and]
    constructor
    · rintro ⟨ptr, ⟨v, isArg, inSet⟩, isCall⟩
      exact ⟨v, isArg, ptr, inSet, isCall⟩
    · rintro ⟨v, isArg, ptr, inSet, isCall⟩
      exact ⟨ptr, ⟨v, isArg, inSet⟩, isCall⟩

theorem createUndefinedCall_inOrder (args : List υ) :
    B.InOrder (B.createUndefinedCall args) := by
  refine inOrder_of_weak (fun ds member => ?_) (List.filterMap_eq_nil_iff.mpr fun call member => ?_)
  · obtain ⟨call, isCall, same⟩ := List.mem_filterMap.mp member
    obtain ⟨-, v, -, ptr, -, rfl | rfl⟩ := mem_createUndefinedCall.mp isCall
    · obtain rfl := Option.some.inj same
      exact ⟨fun _ => rfl, fun _ => Or.inl rfl, fun known => absurd rfl known⟩
    · cases same
  · obtain ⟨-, v, -, ptr, -, rfl | rfl⟩ := mem_createUndefinedCall.mp member <;> rfl

/-- The length of a pointer without a known offset stays for those behind it. -/
theorem foldl_intrinsicDef {ptrs : List (LLVMPointer υ)} {s : List (NodeCall ν) × Nat}
    (unknown : ∀ p ∈ ptrs, p.offset = unknownOffset) :
    (ptrs.foldl B.intrinsicDef s).1 = s.1 ++ ptrs.map fun p =>
      .addDef ⟨some ((B.getOperand p.value).getD B.unknownMemory), unknownOffset, unknownOffset⟩
        false := by
  induction ptrs generalizing s with
  | nil => simp
  | cons p ptrs ih =>
    rw [List.foldl_cons, ih fun q member => unknown q (List.mem_cons_of_mem p member)]
    simp [intrinsicDef, unknown p List.mem_cons_self]

/-- Where the site of a pointer ends that is the only one. -/
theorem createIntrinsicCall_single {dest : υ} {p : LLVMPointer υ} {t : ν}
    (only : B.objectPointers dest = [p]) (operand : B.getOperand p.value = some t)
    (known : p.offset ≠ unknownOffset) : B.createIntrinsicCall dest len =
      let last := if len < unknownOffset - p.offset then p.offset + len else unknownOffset
      [.addDef ⟨some t, p.offset, last⟩ (last ≠ unknownOffset)] := by
  simp [createIntrinsicCall, only, intrinsicDef, operand, known]

theorem createIntrinsicCall_inOrder {dest : υ} (regular : B.Regular (.intrinsic dest len)) :
    B.InOrder (B.createIntrinsicCall dest len) := by
  rcases regular with unknown | ⟨fits, p, t, only, start, operand⟩
  · have calls := foldl_intrinsicDef (B := B) (s := ([], len)) unknown
    rw [createIntrinsicCall, calls, List.nil_append]
    refine inOrder_of_weak (fun ds member => ?_) (by simp [NodeCall.overwritten])
    rw [List.filterMap_map, List.mem_filterMap] at member
    obtain ⟨p, -, same⟩ := member
    obtain rfl := Option.some.inj same
    exact ⟨fun _ => rfl, fun _ => Or.inl rfl, fun known => absurd rfl known⟩
  · have known : p.offset ≠ unknownOffset := by
      rw [start]
      decide
    rw [createIntrinsicCall_single only operand known, start]
    refine inOrder_singleton ⟨fun unknown => ?_, fun _ => Or.inr rfl, fun sized => ?_⟩
      fun unknown => B.getOperand_ne p.value (operand.trans unknown)
    · exact absurd (start.trans unknown) known
    · dsimp only at sized ⊢
      split at sized
      · next short =>
        rw [if_pos short]
        rcases fits with rfl | fits
        · exact absurd short (by omega)
        · omega
      · exact absurd rfl sized

/-- The sites of a regular node are in order. -/
theorem nodeCalls_inOrder {source : NodeSource υ} (isNode : n ≠ B.unknownMemory)
    (regular : B.Regular source) : B.InOrder (B.nodeCalls n source) := by
  have other : (some n : Option ν) ≠ some B.unknownMemory := fun same =>
    isNode (Option.some.inj same)
  cases source with
  | plain => exact inOrder_of_weak (by simp [nodeCalls]) rfl
  | global size => exact inOrder_singleton (shaped_knownSize regular) other
  | realloc ptr size =>
    refine inOrder_of_weak ?_ ?_
    · have site : (B.nodeCalls n (.realloc ptr size)).filterMap NodeCall.written =
          [⟨some n, 0, knownSize size⟩] := by
        simp [nodeCalls, createRealloc, NodeCall.written]
      rw [site]
      simpa using shaped_knownSize regular
    · simp [nodeCalls, createRealloc, NodeCall.overwritten]
  | store ptr size => exact createStore_inOrder regular.1 regular.2
  | load ptr size =>
    refine inOrder_of_weak ?_ ?_ <;>
      simp [nodeCalls, createLoad, NodeCall.written, NodeCall.overwritten]
  | ret locals => exact createReturn_inOrder locals
  | undefinedCall args => exact createUndefinedCall_inOrder args
  | vastart =>
    refine inOrder_singleton ⟨fun unknown => ?_, fun _ => Or.inr rfl, fun known => ?_⟩ other
    · exact absurd unknown (by decide : (0 : Nat) ≠ unknownOffset)
    · exact absurd rfl known
  | intrinsic dest len => exact createIntrinsicCall_inOrder regular

end Sites

end LLVMRDBuilder

end Arthas.Dg
