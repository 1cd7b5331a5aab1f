import Arthas.Dg.NodeSites

/-!
The graphs that the builder makes (`LLVMRDBuilder.cpp`), and what a program does. Where the
pointer analysis is sound, the sites of a node describe its accesses, so that the analysis
finds who wrote last what is read. A memory intrinsic that does not write from the start of
an object on is an exception: its site is longer than what it writes.
-/

set_option autoImplicit false
set_option relaxedAutoImplicit false

namespace Arthas.Dg

open Lib

namespace LLVMRDBuilder

variable {ν υ κ : Type*} (B : LLVMRDBuilder ν υ)

section Accesses

variable (place : κ → ν × Nat)

/-- The bytes of an object from the offset on: no others, and all of them when the object is
the only one of its node. -/
structure Behind (bytes : Set κ) (t : ν) (offset len : Nat) : Prop where
  inside : ∀ k ∈ bytes, (place k).1 = t ∧ InInterval offset len (place k).2
  whole : B.nodeType t ≠ .dynAlloc →
    ∀ k, (place k).1 = t → InInterval offset len (place k).2 → k ∈ bytes

/-- The bytes are reached through the value, and the pointer analysis is sound for it. -/
def Through (v : υ) (bytes : Set κ) (len : Nat) : Prop :=
  ∃ t offset, (B.Unsure v ∨ B.PointsTo v t offset) ∧ B.Behind place bytes t offset len

/-- What an access does for the source of its node. Functions without a body keep to what their
arguments point to. That `calloc` clears memory is left aside, and so is what a memory
intrinsic reads. -/
def Performs (a : Access ν κ) : NodeSource υ → Prop
  | .plain => a.reads = ∅ ∧ a.writes = ∅
  | .global size => a.reads = ∅ ∧ B.Behind place a.writes a.node 0 (knownSize size)
  | .realloc ptr size => (a.reads = ∅ ∨ B.Through place ptr a.reads (knownSize size)) ∧
      ∀ k ∈ a.writes, (place k).1 = a.node ∧ InInterval 0 (knownSize size) (place k).2
  | .store ptr size => a.reads = ∅ ∧ B.Through place ptr a.writes (knownSize size)
  | .load ptr size => B.Through place ptr a.reads (knownSize size) ∧ a.writes = ∅
  | .ret locals => a.reads = ∅ ∧ a.writes = ∅ ∧
      ∀ v ∈ locals, ∀ k, B.getOperand v = some (place k).1 → k ∈ a.ends
  | .undefinedCall args => ∀ k ∈ a.reads ∪ a.writes, B.undefinedArePure = false ∧
      ∃ v ∈ args, ∃ offset, B.PointsTo v (place k).1 offset
  | .vastart => a.reads = ∅ ∧ ∀ k ∈ a.writes, (place k).1 = a.node
  | .intrinsic dest len => a.reads = ∅ ∧ ∃ t offset count,
      (len = unknownOffset ∨ count = len) ∧ B.PointsTo dest t offset ∧
        B.Behind place a.writes t offset count

/-- The calls have the bytes of an access. -/
structure Describes (calls : List (NodeCall ν)) (a : Access ν κ) : Prop where
  reads : ∀ k ∈ a.reads, ∃ u ∈ calls.filterMap NodeCall.used, u.Covers B.toObjects (place k)
  writes : ∀ k ∈ a.writes, ∃ ds ∈ calls.filterMap NodeCall.written,
    ds.Covers B.toObjects (place k)
  overwrites : ∀ ds ∈ calls.filterMap NodeCall.overwritten, ∀ k,
    ds.Fills B.toObjects (place k) → k ∈ a.writes ∨ k ∈ a.ends

variable {B place} {v : υ} {bytes : Set κ} {size len : Nat} {a : Access ν κ} {k : κ}

/-- The site of an object that the value points to. -/
theorem PointsTo.site {t : ν} {offset : Nat} (points : B.PointsTo v t offset) (size : Nat) :
    ∃ ds ∈ B.mapPointers v size, ds.target = some t ∧
      (ds.offset = unknownOffset ∨ ds.offset = offset ∧ ds.len = size) := by
  obtain ⟨ptr, inSet, operand, same⟩ := points
  refine ⟨_, mem_mapPointers.mpr (Or.inr ⟨ptr, inSet, t, operand, rfl⟩), rfl, ?_⟩
  by_cases unknown : ptr.offset = unknownOffset
  · exact Or.inl unknown
  · exact Or.inr ⟨same.resolve_left unknown, if_neg unknown⟩

theorem Through.covers (through : B.Through place v bytes size) (member : k ∈ bytes) :
    ∃ ds ∈ B.mapPointers v size, ds.Covers B.toObjects (place k) := by
  obtain ⟨t, offset, unsure | points, behind⟩ := through
  · exact ⟨_, mem_mapPointers.mpr (Or.inl ⟨unsure, rfl⟩), Or.inl rfl⟩
  · obtain ⟨object, inside⟩ := behind.inside k member
    obtain ⟨ds, inSites, target, extent⟩ := points.site size
    refine ⟨ds, inSites, Or.inr ⟨target.trans (congrArg some object.symm), ?_⟩⟩
    rcases extent with unknown | ⟨rfl, rfl⟩
    · exact Or.inl unknown
    · exact Or.inr inside

theorem no_reads {P : κ → Prop} (none : a.reads = ∅) : ∀ k ∈ a.reads, P k := fun k member =>
  absurd (none ▸ member) (Set.notMem_empty k)

/-- A strong update of a store has only bytes that the store writes. -/
theorem createStore_describes (performs : B.Performs place a (.store v size)) :
    B.Describes place (B.createStore v size) a := by
  obtain ⟨none, through⟩ := performs
  refine ⟨no_reads none, fun k member => ?_, fun ds member k fills => Or.inl ?_⟩
  · obtain ⟨ds, inSites, covers⟩ := through.covers member
    exact ⟨ds, written_createStore inSites, covers⟩
  · obtain ⟨only, known⟩ := overwritten_createStore member
    obtain ⟨object, stack, -, bytes⟩ := fills
    obtain ⟨t, offset, unsure | points, behind⟩ := through
    · have site : B.unknownSite ∈ B.mapPointers v (knownSize size) :=
        mem_mapPointers.mpr (Or.inl ⟨unsure, rfl⟩)
      rw [only, List.mem_singleton] at site
      exact absurd (site ▸ rfl) known
    · obtain ⟨ds', inSites, target, extent⟩ := points.site (knownSize size)
      rw [only, List.mem_singleton] at inSites
      subst inSites
      obtain ⟨rfl, length⟩ := extent.resolve_left known
      obtain rfl : t = (place k).1 := Option.some.inj (target.symm.trans object)
      exact behind.whole stack k rfl (length ▸ bytes)

/-- Without known offsets a memory intrinsic may write all of its destinations. -/
theorem createIntrinsicCall_unknown {dest : υ}
    (unknown : ∀ p ∈ B.objectPointers dest, p.offset = unknownOffset)
    (performs : B.Performs place a (.intrinsic dest len)) :
    B.Describes place (B.createIntrinsicCall dest len) a := by
  obtain ⟨none, t, offset, count, -, ⟨ptr, inSet, operand, -⟩, behind⟩ := performs
  have calls : B.createIntrinsicCall dest len = _ := foldl_intrinsicDef unknown
  rw [List.nil_append] at calls
  refine ⟨no_reads none, fun k member => ?_, fun ds member => ?_⟩
  · have object := (behind.inside k member).1
    refine ⟨⟨some t, unknownOffset, unknownOffset⟩, ?_,
      Or.inr ⟨congrArg some object.symm, Or.inl rfl⟩⟩
    rw [calls, List.filterMap_map, List.mem_filterMap]
    exact ⟨ptr, inSet, by simp [NodeCall.written, operand]⟩
  · have weak : (B.createIntrinsicCall dest len).filterMap NodeCall.overwritten = [] := by
      rw [calls]
      simp [NodeCall.overwritten]
    rw [weak] at member
    exact absurd member List.not_mem_nil

/-- From the start of its only destination on, it has the site of what it writes. -/
theorem createIntrinsicCall_start {dest : υ} {p : LLVMPointer υ} {t : ν}
    (only : B.objectPointers dest = [p]) (start : p.offset = 0)
    (operand : B.getOperand p.value = some t)
    (performs : B.Performs place a (.intrinsic dest len)) :
    B.Describes place (B.createIntrinsicCall dest len) a := by
  obtain ⟨none, t', offset, count, length, ⟨ptr, inSet, operand', same⟩, behind⟩ := performs
  obtain rfl : ptr = p := List.mem_singleton.mp (only ▸ inSet)
  obtain rfl : t = t' := Option.some.inj (operand.symm.trans operand')
  have known : ptr.offset ≠ unknownOffset := by
    rw [start]
    decide
  obtain rfl : offset = 0 := (same.resolve_left known).symm.trans start
  have call : B.createIntrinsicCall dest len = _ := createIntrinsicCall_single only operand known
  simp only [start, Nat.sub_zero, Nat.zero_add] at call
  refine ⟨no_reads none, fun k member => ?_, fun ds member k fills => Or.inl ?_⟩
  · obtain ⟨object, -, bytes⟩ := behind.inside k member
    rw [call]
    refine ⟨_, List.mem_singleton_self _, Or.inr ⟨congrArg some object.symm, Or.inr ?_⟩⟩
    refine ⟨Nat.zero_le _, ?_⟩
    dsimp only
    split <;> omega
  · rw [call] at member
    split at member
    · next short =>
      have strong : decide (len ≠ unknownOffset) = true := decide_eq_true (by omega)
      rw [strong] at member
      obtain rfl := List.mem_singleton.mp member
      obtain ⟨object, stack, -, bytes⟩ := fills
      obtain rfl : t = (place k).1 := Option.some.inj object
      obtain rfl : count = len := length.resolve_left (by omega)
      exact behind.whole stack k rfl bytes
    · have weak : decide (unknownOffset ≠ unknownOffset) = false := by simp
      rw [weak] at member
      exact absurd member List.not_mem_nil

theorem createUndefinedCall_describes {args : List υ}
    (performs : B.Performs place a (.undefinedCall args)) :
    B.Describes place (B.createUndefinedCall args) a := by
  have covers : ∀ k, (⟨some (place k).1, unknownOffset, unknownOffset⟩ : DefSite ν).Covers
      B.toObjects (place k) := fun k => Or.inr ⟨rfl, Or.inl rfl⟩
  refine ⟨fun k member => ?_, fun k member => ?_, fun ds member => ?_⟩
  · obtain ⟨impure, v, isArg, offset, ptr, inSet, operand, -⟩ := performs k (Or.inl member)
    refine ⟨_, List.mem_filterMap.mpr ⟨_, mem_createUndefinedCall.mpr
      ⟨impure, v, isArg, ptr, inSet, Or.inr rfl⟩, rfl⟩, ?_⟩
    rw [operand]
    exact covers k
  · obtain ⟨impure, v, isArg, offset, ptr, inSet, operand, -⟩ := performs k (Or.inr member)
    refine ⟨_, List.mem_filterMap.mpr ⟨_, mem_createUndefinedCall.mpr
      ⟨impure, v, isArg, ptr, inSet, Or.inl rfl⟩, rfl⟩, ?_⟩
    rw [operand]
    exact covers k
  · obtain ⟨call, isCall, same⟩ := List.mem_filterMap.mp member
    obtain ⟨-, v, -, ptr, -, rfl | rfl⟩ := mem_createUndefinedCall.mp isCall <;> cases same

theorem createReturn_describes {locals : List υ} (performs : B.Performs place a (.ret locals)) :
    B.Describes place (B.createReturn locals) a := by
  obtain ⟨noReads, noWrites, ends⟩ := performs
  refine ⟨no_reads noReads,
    fun k member => absurd (noWrites ▸ member) (Set.notMem_empty k),
    fun ds member k fills => Or.inr ?_⟩
  rw [createReturn] at member
  split at member
  · rw [List.filterMap_map, List.mem_filterMap] at member
    obtain ⟨v, isLocal, same⟩ := member
    obtain rfl := Option.some.inj same
    exact ends v isLocal k fills.1
  · exact absurd member List.not_mem_nil

theorem buildGlobal_describes {size : Nat} (performs : B.Performs place a (.global size)) :
    B.Describes place (buildGlobal a.node size) a := by
  obtain ⟨none, behind⟩ := performs
  refine ⟨no_reads none, fun k member => ?_, fun ds member k fills => Or.inl ?_⟩
  · obtain ⟨object, bytes⟩ := behind.inside k member
    exact ⟨_, List.mem_singleton_self _, Or.inr ⟨congrArg some object.symm, Or.inr bytes⟩⟩
  · obtain rfl := List.mem_singleton.mp member
    obtain ⟨object, stack, -, bytes⟩ := fills
    have same : a.node = (place k).1 := Option.some.inj object
    exact behind.whole (same ▸ stack) k same.symm bytes

theorem createLoad_describes {ptr : υ} {size : Nat}
    (performs : B.Performs place a (.load ptr size)) :
    B.Describes place (B.createLoad ptr size) a := by
  obtain ⟨through, none⟩ := performs
  have weak : (B.createLoad ptr size).filterMap NodeCall.overwritten = [] := by
    simp [createLoad, NodeCall.overwritten]
  refine ⟨fun k member => ?_, fun k member => absurd (none ▸ member) (Set.notMem_empty k), ?_⟩
  · obtain ⟨u, inSites, covers⟩ := through.covers member
    exact ⟨u, by simpa [createLoad, NodeCall.used] using inSites, covers⟩
  · rw [weak]
    exact fun ds none => absurd none List.not_mem_nil

theorem createRealloc_describes {ptr : υ} {size : Nat}
    (performs : B.Performs place a (.realloc ptr size)) :
    B.Describes place (B.createRealloc a.node ptr size) a := by
  obtain ⟨reads, writes⟩ := performs
  have weak : (B.createRealloc a.node ptr size).filterMap NodeCall.overwritten = [] := by
    simp [createRealloc, NodeCall.overwritten]
  refine ⟨fun k member => ?_, fun k member => ?_, ?_⟩
  · have through := reads.resolve_left (Set.nonempty_iff_ne_empty.mp ⟨k, member⟩)
    obtain ⟨u, inSites, covers⟩ := through.covers member
    exact ⟨u, by simpa [createRealloc, NodeCall.used] using inSites, covers⟩
  · obtain ⟨object, bytes⟩ := writes k member
    exact ⟨_, List.mem_filterMap.mpr ⟨_, List.mem_cons_self, rfl⟩,
      Or.inr ⟨congrArg some object.symm, Or.inr bytes⟩⟩
  · rw [weak]
    exact fun ds none => absurd none List.not_mem_nil

/-- What a node is told has the bytes of all its accesses. -/
theorem nodeCalls_describes {source : NodeSource υ} (regular : B.Regular source)
    (performs : B.Performs place a source) :
    B.Describes place (B.nodeCalls a.node source) a := by
  cases source with
  | plain =>
    refine ⟨no_reads performs.1, fun k member => ?_, fun ds none => absurd none List.not_mem_nil⟩
    exact absurd (performs.2 ▸ member) (Set.notMem_empty k)
  | global size => exact buildGlobal_describes performs
  | realloc ptr size => exact createRealloc_describes performs
  | store ptr size => exact createStore_describes performs
  | load ptr size => exact createLoad_describes performs
  | ret locals => exact createReturn_describes performs
  | undefinedCall args => exact createUndefinedCall_describes performs
  | vastart =>
    obtain ⟨none, writes⟩ := performs
    refine ⟨no_reads none, fun k member => ?_, fun ds none => absurd none List.not_mem_nil⟩
    exact ⟨_, List.mem_singleton_self _,
      Or.inr ⟨congrArg some (writes k member).symm, Or.inr ⟨Nat.zero_le _, Or.inl rfl⟩⟩⟩
  | intrinsic dest len =>
    rcases regular with unknown | ⟨-, p, t, only, start, operand⟩
    · exact createIntrinsicCall_unknown unknown performs
    · exact createIntrinsicCall_start only start operand performs

/-- A node that reads overwrites nothing. -/
theorem overwritten_of_reads {source : NodeSource υ} (performs : B.Performs place a source)
    (reads : k ∈ a.reads) : (B.nodeCalls a.node source).filterMap NodeCall.overwritten = [] := by
  have nothing : a.reads = ∅ → False := fun none => absurd (none ▸ reads) (Set.notMem_empty k)
  cases source with
  | plain => rfl
  | global size => exact (nothing performs.1).elim
  | realloc ptr size => simp [nodeCalls, createRealloc, NodeCall.overwritten]
  | store ptr size => exact (nothing performs.1).elim
  | load ptr size => simp [nodeCalls, createLoad, NodeCall.overwritten]
  | ret locals => exact (nothing performs.1).elim
  | undefinedCall args =>
    refine List.filterMap_eq_nil_iff.mpr fun call member => ?_
    obtain ⟨-, v, -, ptr, -, rfl | rfl⟩ := mem_createUndefinedCall.mp member <;> rfl
  | vastart => rfl
  | intrinsic dest len => exact (nothing performs.1).elim

end Accesses

end LLVMRDBuilder

/-- A graph with the sites that the builder gives. -/
structure BuiltGraph (ν υ : Type*) extends RDGraph ν, LLVMRDBuilder ν υ where
  source : ν → NodeSource υ
  calls_eq : ∀ n, calls n = toLLVMRDBuilder.nodeCalls n (source n)

namespace BuiltGraph

variable {ν υ κ : Type*} [DecidableEq ν] (G : BuiltGraph ν υ) (place : κ → ν × Nat)

def Regular : Prop := ∀ n, G.toLLVMRDBuilder.Regular (G.source n)

/-- An execution of the program, along the graph. -/
inductive Run : List (Access ν κ) → Prop where
  | start {a : Access ν κ} :
    a.node = G.root → G.Performs place a (G.source a.node) → Run [a]
  | step {a b : Access ν κ} {past : List (Access ν κ)} :
    Run (a :: past) → G.Leads a.node b.node → G.Performs place b (G.source b.node) →
      Run (b :: a :: past)

variable {G place}

theorem tractable (regular : G.Regular) : G.Tractable := by
  have inOrder : ∀ n, G.InOrder (G.calls n) := by
    intro n
    by_cases unknown : n = G.unknownMemory
    · rw [unknown, G.calls_unknownMemory]
      exact LLVMRDBuilder.inOrder_of_weak (by simp) rfl
    · rw [G.calls_eq]
      exact LLVMRDBuilder.nodeCalls_inOrder unknown (regular n)
  exact ⟨fun n => (inOrder n).orderly fun ds => RDGraph.mem_overwrites.mp,
    fun n => (inOrder n).shaped⟩

theorem admits {a : Access ν κ} (regular : G.Regular)
    (performs : G.Performs place a (G.source a.node)) : G.Admits place a := by
  have describes := LLVMRDBuilder.nodeCalls_describes (regular a.node) performs
  rw [← G.calls_eq] at describes
  refine ⟨fun k member => ?_, describes.writes, fun ds member => ?_⟩
  · obtain ⟨u, used, covers⟩ := describes.reads k member
    exact ⟨u, RDGraph.mem_uses.mpr used, covers⟩
  · exact describes.overwrites ds (RDGraph.mem_overwrites.mp member)

theorem Run.execution {t : List (Access ν κ)} (regular : G.Regular) (run : G.Run place t) :
    G.Execution place t := by
  induction run with
  | start first performs => exact .start first (admits regular performs)
  | step _ leads performs ih => exact .step ih leads (admits regular performs)

omit [DecidableEq ν] in
theorem Run.performs {a : Access ν κ} {past : List (Access ν κ)} (run : G.Run place (a :: past)) :
    G.Performs place a (G.source a.node) := by
  cases run with
  | start _ performs => exact performs
  | step _ _ performs => exact performs

section Intrinsics

variable {n t : ν} {dest : υ} {p : LLVMPointer υ} {len : Nat}

omit [DecidableEq ν] in
/-- The calls of a memory intrinsic with one destination, at a known place. -/
theorem calls_intrinsic (source : G.source n = .intrinsic dest len)
    (only : G.objectPointers dest = [p]) (operand : G.getOperand p.value = some t)
    (room : p.offset + len < unknownOffset) :
    G.calls n = [.addDef ⟨some t, p.offset, p.offset + len⟩ true] := by
  have known : p.offset ≠ unknownOffset := by omega
  have short : len < unknownOffset - p.offset := by omega
  have last : p.offset + len ≠ unknownOffset := by omega
  rw [G.calls_eq, source, LLVMRDBuilder.nodeCalls,
    LLVMRDBuilder.createIntrinsicCall_single only operand known]
  simp [short, last]

theorem overwrites_intrinsic (source : G.source n = .intrinsic dest len)
    (only : G.objectPointers dest = [p]) (operand : G.getOperand p.value = some t)
    (room : p.offset + len < unknownOffset) :
    G.overwrites n = [⟨some t, p.offset, p.offset + len⟩] := by
  rw [RDGraph.overwrites, RDGraph.sets, calls_intrinsic source only operand room]
  simp [NodeCall.run, NodeSets.empty, SetVector.insert]

/-- What others defined right behind the bytes is lost. -/
theorem skips_intrinsic (source : G.source n = .intrinsic dest len)
    (only : G.objectPointers dest = [p]) (operand : G.getOperand p.value = some t)
    (room : p.offset + (p.offset + len) < unknownOffset) (stack : G.nodeType t ≠ .dynAlloc)
    {offset size : Nat} (first : p.offset ≤ offset)
    (last : offset + size ≤ p.offset + (p.offset + len)) :
    RDMap.Skips G.toObjects (G.overwrites n) ⟨some t, offset, size⟩ := by
  have known : p.offset ≠ unknownOffset := by omega
  have sum : sum64 offset size ≤ sum64 p.offset (p.offset + len) := by
    unfold sum64 unknownOffset at *
    omega
  have site : RDMap.overwritten ⟨some t, offset, size⟩ [⟨some t, p.offset, p.offset + len⟩] =
      (true, false) := by
    rw [RDMap.overwritten, if_neg known, if_pos ⟨first, sum⟩]
  rw [overwrites_intrinsic source only operand (by omega), RDMap.Skips, RDMap.strongUpdate]
  simp [RDOptions.default, stack, RDMap.equalRange, Lib.EqualRange.equalRange,
    Lib.EqualRange.search, DefSite.address, site]

end Intrinsics

end BuiltGraph

namespace BuiltGraphs

/-- A global variable of sixteen bytes, a store to the third four, a `memset` of four bytes
before those, and a load of what was stored. -/
inductive Cleared where
  | unknown
  | global
  | store
  | memset
  | load
  deriving DecidableEq

instance : Fintype Cleared :=
  ⟨{.unknown, .global, .store, .memset, .load}, fun n => by cases n <;> decide⟩

def Cleared.address : Cleared → Nat
  | .unknown => 1
  | .global => 2
  | .store => 3
  | .memset => 4
  | .load => 5

/-- The pointers are the instructions that go through them. -/
def clearedBuilder (start : Nat) : LLVMRDBuilder Cleared Cleared where
  unknownMemory := .unknown
  address := Cleared.address
  address_injective := by
    intro m n
    cases m <;> cases n <;> decide
  address_pos := by
    intro n
    cases n <;> decide
  nodeType
    | .unknown => .none
    | .global => .alloc
    | .store => .store
    | .memset => .call
    | .load => .load
  size _ := 0
  getLLVMPointsTo
    | .store => some ⟨[⟨.global, 8⟩], false, 0⟩
    | .memset => some ⟨[⟨.global, start⟩], false, 0⟩
    | .load => some ⟨[⟨.global, 8⟩], false, 0⟩
    | _ => none
  isFunction _ := false
  getOperand
    | .global => some .global
    | _ => none
  forgetLocalsAtReturn := true
  undefinedArePure := false
  getOperand_ne := by
    intro v
    cases v <;> decide

def clearedSource : Cleared → NodeSource Cleared
  | .unknown => .plain
  | .global => .global 16
  | .store => .store .store 4
  | .memset => .intrinsic .memset 4
  | .load => .load .load 4

def cleared (start : Nat) : BuiltGraph Cleared Cleared :=
  { clearedBuilder start with
    root := .global
    successors
      | .global => [.store]
      | .store => [.memset]
      | .memset => [.load]
      | _ => []
    predecessors
      | .store => [.global]
      | .memset => [.store]
      | .load => [.memset]
      | _ => []
    calls := fun n => (clearedBuilder start).nodeCalls n (clearedSource n)
    mem_predecessors := by
      intro m n
      cases m <;> cases n <;> decide
    calls_unknownMemory := rfl
    source := clearedSource
    calls_eq := fun _ => rfl }

def bytes (offset len : Nat) : Set (Cleared × Nat) := {k | k.1 = .global ∧ InInterval offset len k.2}

def clearedRun (start : Nat) : List (Access Cleared (Cleared × Nat)) :=
  [⟨.load, bytes 8 4, ∅, ∅⟩, ⟨.memset, ∅, bytes start 4, ∅⟩, ⟨.store, ∅, bytes 8 4, ∅⟩,
    ⟨.global, ∅, bytes 0 16, ∅⟩]

theorem behind_bytes (B : LLVMRDBuilder Cleared Cleared) (offset len : Nat) :
    B.Behind id (bytes offset len) .global offset len :=
  ⟨fun _ member => member, fun _ _ object inside => ⟨object, inside⟩⟩

theorem clearedRun_run (start : Nat) : (cleared start).Run id (clearedRun start) := by
  have points : ∀ v offset, (clearedBuilder start).objectPointers v = [⟨.global, offset⟩] →
      (clearedBuilder start).PointsTo v .global offset := fun v offset only =>
    ⟨_, only ▸ List.mem_singleton_self _, rfl, Or.inr rfl⟩
  refine .step (.step (.step (.start rfl ⟨rfl, ?_⟩) ?_ ⟨rfl, ?_⟩) ?_ ⟨rfl, ?_⟩) ?_ ⟨?_, rfl⟩
  · exact behind_bytes _ 0 16
  · exact (List.mem_singleton_self _ : Cleared.store ∈ [Cleared.store])
  · exact ⟨.global, 8, Or.inr (points .store 8 rfl), behind_bytes _ 8 4⟩
  · exact (List.mem_singleton_self _ : Cleared.memset ∈ [Cleared.memset])
  · exact ⟨.global, start, 4, Or.inr rfl, points .memset start rfl, behind_bytes _ start 4⟩
  · exact (List.mem_singleton_self _ : Cleared.load ∈ [Cleared.load])
  · exact ⟨.global, 8, Or.inr (points .load 8 rfl), behind_bytes _ 8 4⟩

/-- The store wrote last what is loaded, whether the `memset` starts with the object or later. -/
theorem clearedRun_last {start : Nat} (before : start + 4 ≤ 8) :
    LastWrite (.global, 8) ((clearedRun start).drop 1) ((clearedRun start).drop 2) := by
  refine .before (fun written => ?_) (fun none => none.elim) (.here ⟨rfl, ?_⟩)
  · obtain ⟨-, -, unknown | behind⟩ := written
    · exact absurd unknown (by decide)
    · dsimp only at behind
      omega
  · exact ⟨le_refl 8, Or.inr (by decide)⟩

theorem cleared_regular : (cleared 0).Regular := by
  have pointer : ∀ p ∈ (clearedBuilder 0).objectPointers .store, p = ⟨.global, 8⟩ := fun p =>
    List.mem_singleton.mp
  intro n
  cases n with
  | unknown => trivial
  | global => exact Or.inr (by decide : 16 < unknownOffset - 1)
  | store =>
    refine ⟨by decide, fun p member _ => ?_⟩
    rw [pointer p member]
    decide
  | memset => exact Or.inr ⟨Or.inr (by decide), ⟨.global, 0⟩, .global, rfl, rfl, rfl⟩
  | load => trivial

theorem cleared_source : (cleared 4).source .memset = .intrinsic .memset 4 := rfl

theorem cleared_pointers : (cleared 4).objectPointers .memset = [⟨.global, 4⟩] := rfl

/-- When the `memset` starts later, the store is lost for the load. -/
theorem cleared_loses {s : RDState Cleared} (run : (cleared 4).run .default = some s) :
    Cleared.store ∉ (cleared 4).getReachingDefinitions s.maps .load := by
  obtain ⟨s', finished, analysed⟩ := (cleared 4).run_spec
  obtain rfl : s = s' := Option.some.inj (run.symm.trans finished)
  intro found
  obtain ⟨ds, holds, -⟩ := (RDGraph.mem_getReachingDefinitions analysed.plain).mp found
  have reaches := RDGraph.arrives_iff.mp (analysed.sound .load (ds, .store) holds)
  have site : ds = ⟨some .global, 8, 4⟩ := List.mem_singleton.mp reaches.written
  have skips : RDMap.Skips (cleared 4).toObjects ((cleared 4).overwrites .memset) ds := by
    rw [site]
    exact BuiltGraph.skips_intrinsic cleared_source cleared_pointers rfl (by decide) (by decide)
      (by decide) (le_refl 12)
  cases reaches with
  | @step u _ earlier leads _ _ =>
    have last : ∀ u, Cleared.load ∈ (cleared 4).successors u → u = .memset := by decide
    obtain rfl := last u leads
    cases earlier with
    | step _ _ _ kept => exact kept skips

end BuiltGraphs

end Arthas.Dg
