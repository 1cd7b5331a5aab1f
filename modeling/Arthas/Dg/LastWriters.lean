import Arthas.Dg.ReachingRuns

/-!
What the reaching definitions are for. In an execution every byte that is read was last
written by some node, and the analysis has to find it. The bytes are those of the objects
at run time; a node of the analysis stands for one of them, or for several from the heap.
-/

set_option autoImplicit false
set_option relaxedAutoImplicit false

namespace Arthas.Dg

open Lib Relation

/-- A visit of a node in an execution, with the bytes it reads and then writes, and those that
end with it. -/
structure Access (ν κ : Type*) where
  node : ν
  reads : Set κ
  writes : Set κ
  ends : Set κ

/-- The access that wrote a byte last, and those before it. The accesses are given from the
last one back. -/
inductive LastWrite {ν κ : Type*} (k : κ) : List (Access ν κ) → List (Access ν κ) → Prop where
  | here {a : Access ν κ} {past : List (Access ν κ)} :
    k ∈ a.writes → LastWrite k (a :: past) (a :: past)
  | before {a : Access ν κ} {past write : List (Access ν κ)} :
    k ∉ a.writes → k ∉ a.ends → LastWrite k past write → LastWrite k (a :: past) write

variable {ν κ : Type*}

namespace DefSite

/-- The site may be this byte of the object. -/
def Covers (O : Objects ν) (ds : DefSite ν) (place : ν × Nat) : Prop :=
  ds.target = some O.unknownMemory ∨
    ds.target = some place.1 ∧ (ds.offset = unknownOffset ∨ InInterval ds.offset ds.len place.2)

/-- The site has this byte of the object for sure. -/
def Fills (O : Objects ν) (ds : DefSite ν) (place : ν × Nat) : Prop :=
  ds.target = some place.1 ∧ O.nodeType place.1 ≠ .dynAlloc ∧ ds.offset ≠ unknownOffset ∧
    InInterval ds.offset ds.len place.2

/-- A site whose end can be computed in an `uint64_t`, or that has no end and begins with the
object or nowhere known. -/
structure Shaped (ds : DefSite ν) : Prop where
  unknown : ds.offset = unknownOffset → ds.len = unknownOffset
  whole : ds.len = unknownOffset → ds.offset = unknownOffset ∨ ds.offset = 0
  sized : ds.len ≠ unknownOffset → ds.offset + ds.len < unknownOffset - 1

end DefSite

instance (ds : DefSite ν) : Decidable ds.Shaped :=
  decidable_of_iff ((ds.offset = unknownOffset → ds.len = unknownOffset) ∧
      (ds.len = unknownOffset → ds.offset = unknownOffset ∨ ds.offset = 0) ∧
      (ds.len ≠ unknownOffset → ds.offset + ds.len < unknownOffset - 1))
    ⟨fun h => ⟨h.1, h.2.1, h.2.2⟩, fun h => ⟨h.unknown, h.whole, h.sized⟩⟩

/-- What a strong update has to be: the sites are in the order of the addresses of their
objects, as `std::equal_range` wants them, or they all are whole objects. -/
structure Orderly (O : Objects ν) (sites : List (DefSite ν)) : Prop where
  known : ∀ ds ∈ sites, ds.target ≠ some O.unknownMemory
  shaped : ∀ ds ∈ sites, ds.Shaped
  order : sites.Pairwise (fun ds ds' => ds.address O ≤ ds'.address O) ∨
    ∀ ds ∈ sites, ds.offset = 0 ∧ ds.len = unknownOffset

section Skipping

variable {O : Objects ν} {sites : List (DefSite ν)} {ds ds' : DefSite ν} {t : ν}

theorem address_eq (same : ds'.address O = ds.address O) (known : ds.target = some t) :
    ds'.target = some t := by
  rw [DefSite.address, DefSite.address, known] at same
  cases target : ds'.target with
  | none =>
    rw [target] at same
    exact absurd same (O.address_pos t).ne
  | some t' =>
    rw [target] at same
    rw [O.address_injective same]

/-- In the order of the addresses the range has the sites of the same object. -/
theorem mem_equalRange (sorted : sites.Pairwise fun ds ds' => ds.address O ≤ ds'.address O) :
    ds' ∈ RDMap.equalRange O sites ds ↔ ds' ∈ sites ∧ ds'.address O = ds.address O := by
  rw [RDMap.equalRange, EqualRange.mem_equalRange]
  · simp only [decide_eq_false_iff_not, Nat.not_lt]
    exact and_congr_right fun _ => ⟨fun h => h.2.antisymm h.1, fun same => ⟨same.ge, same.le⟩⟩
  · apply sorted.imp
    intro ds1 ds2 order below
    have := of_decide_eq_true below
    exact decide_eq_true (by omega)
  · apply sorted.imp
    intro ds1 ds2 order notAbove
    rw [Bool.not_eq_true', decide_eq_false_iff_not] at notAbove ⊢
    omega

theorem exists_of_overwritten {range : List (DefSite ν)}
    (skips : (RDMap.overwritten ds range).1 = true) :
    ∃ ds' ∈ range, ds'.offset ≠ unknownOffset ∧ ds'.offset ≤ ds.offset ∧
      sum64 ds.offset ds.len ≤ sum64 ds'.offset ds'.len := by
  induction range with
  | nil => exact absurd skips Bool.false_ne_true
  | cons ds' range ih =>
    rw [RDMap.overwritten] at skips
    split_ifs at skips with unknown contains
    · exact ⟨ds', List.mem_cons_self, unknown, contains⟩
    · obtain ⟨ds', member, found⟩ := ih skips
      exact ⟨ds', List.mem_cons_of_mem _ member, found⟩

/-- With sums that do not wrap around, a site that ends behind another one has its bytes. -/
theorem inInterval_of_contains {i : Nat} (shaped : ds.Shaped) (shaped' : ds'.Shaped)
    (known : ds'.offset ≠ unknownOffset) (first : ds'.offset ≤ ds.offset)
    (last : sum64 ds.offset ds.len ≤ sum64 ds'.offset ds'.len)
    (covers : ds.offset = unknownOffset ∨ InInterval ds.offset ds.len i) :
    InInterval ds'.offset ds'.len i := by
  have ofUnknown := shaped.unknown
  have ofWhole := shaped.whole
  have ofSized := shaped.sized
  have ofWhole' := shaped'.whole
  have ofSized' := shaped'.sized
  simp only [InInterval, sum64, unknownOffset] at *
  by_cases noEnd' : ds'.len = 2 ^ 64 - 1
  · have := ofWhole' noEnd'
    omega
  · have ends' := ofSized' noEnd'
    by_cases noEnd : ds.len = 2 ^ 64 - 1
    · have := ofWhole noEnd
      omega
    · have ends := ofSized noEnd
      omega

/-- A site is only left out if its bytes are overwritten. -/
theorem fills_of_skips [DecidableEq ν] {place : ν × Nat} (orderly : Orderly O sites)
    (shaped : ds.Shaped) (covers : ds.Covers O place) (skips : RDMap.Skips O sites ds) :
    ∃ ds' ∈ sites, ds'.Fills O place := by
  have target : ∃ t, ds.target = some t := covers.elim (fun h => ⟨_, h⟩) fun h => ⟨_, h.1⟩
  obtain ⟨t, target⟩ := target
  have found : O.nodeType t ≠ .dynAlloc ∧
      (RDMap.overwritten ds (RDMap.equalRange O sites ds)).1 = true := by
    rw [RDMap.Skips, RDMap.strongUpdate, target] at skips
    simp only [RDOptions.default, Bool.false_eq_true, false_and, if_false] at skips
    split at skips
    · next stack => exact ⟨stack, skips⟩
    · exact absurd skips Bool.false_ne_true
  obtain ⟨stack, overwritten⟩ := found
  obtain ⟨ds', inRange, known, first, last⟩ := exists_of_overwritten overwritten
  -- a site of the same object in the range, with all bytes of the one left out
  have filler : ∃ ds' ∈ sites, ds'.target = some t ∧ ds'.offset ≠ unknownOffset ∧
      ∀ i, ds.offset = unknownOffset ∨ InInterval ds.offset ds.len i →
        InInterval ds'.offset ds'.len i := by
    rcases orderly.order with sorted | whole
    · obtain ⟨member, same⟩ := (mem_equalRange sorted).mp inRange
      refine ⟨ds', member, address_eq same target, known, fun i => ?_⟩
      exact inInterval_of_contains shaped (orderly.shaped ds' member) known first last
    · obtain ⟨ds', inRange, notBefore, notAfter⟩ :=
        EqualRange.search_some (List.ne_nil_of_mem inRange)
      have member := EqualRange.search_subset inRange
      have same : ds'.address O = ds.address O := by
        have := of_decide_eq_false notBefore
        have := of_decide_eq_false notAfter
        omega
      obtain ⟨first, noEnd⟩ := whole ds' member
      refine ⟨ds', member, address_eq same target, ?_, fun i _ => ⟨?_, Or.inl noEnd⟩⟩
      · rw [first]
        decide
      · rw [first]
        exact Nat.zero_le i
  obtain ⟨ds', member, same, known, contains⟩ := filler
  have named : t ≠ O.unknownMemory := fun unknown => orderly.known ds' member (unknown ▸ same)
  rcases covers with unknown | ⟨object, bytes⟩
  · exact absurd (Option.some.inj (target.symm.trans unknown)) named
  · obtain rfl : t = place.1 := Option.some.inj (target.symm.trans object)
    exact ⟨ds', member, same, stack, known, contains place.2 bytes⟩

/-- A use asks for the sites that may be a byte it may use. -/
theorem meets_of_covers {place : ν × Nat} {u : DefSite ν} (uses : u.Covers O place)
    (defines : ds.Covers O place) : ds.target = some O.unknownMemory ∨
      u.target = some O.unknownMemory ∨ RDMap.Meets u ds := by
  rcases defines with unknown | ⟨object, bytes⟩
  · exact Or.inl unknown
  rcases uses with unknown | ⟨object', bytes'⟩
  · exact Or.inr (Or.inl unknown)
  refine Or.inr (Or.inr ⟨object'.trans object.symm, ?_⟩)
  rcases bytes' with unknown | bytes'
  · exact Or.inl unknown
  rcases bytes with unknown | bytes
  · exact Or.inr (Or.inl unknown)
  refine Or.inr (Or.inr ((intervalsOverlap_iff ?_ ?_).mpr ⟨place.2, bytes, bytes'⟩))
  · have : 0 < unknownOffset := by decide
    unfold InInterval at bytes
    omega
  · have : 0 < unknownOffset := by decide
    unfold InInterval at bytes'
    omega

end Skipping

namespace RDGraph

variable [DecidableEq ν] (G : RDGraph ν) (place : κ → ν × Nat)

/-- An access keeps to the sites of its node: it reads what the node uses, it writes what the
node defines, and nothing is left of what the node overwrites. -/
structure Admits (a : Access ν κ) : Prop where
  reads : ∀ k ∈ a.reads, ∃ u ∈ G.uses a.node, u.Covers G.toObjects (place k)
  writes : ∀ k ∈ a.writes, ∃ ds ∈ G.written a.node, ds.Covers G.toObjects (place k)
  overwrites : ∀ ds ∈ G.overwrites a.node, ∀ k, ds.Fills G.toObjects (place k) →
    k ∈ a.writes ∨ k ∈ a.ends

/-- An execution goes along the graph from its root. -/
inductive Execution : List (Access ν κ) → Prop where
  | start {a : Access ν κ} : a.node = G.root → G.Admits place a → Execution [a]
  | step {a b : Access ν κ} {past : List (Access ν κ)} :
    Execution (a :: past) → G.Leads a.node b.node → G.Admits place b → Execution (b :: a :: past)

/-- The nodes of a graph whose definitions can be followed byte by byte. -/
structure Tractable : Prop where
  orderly : ∀ n, Orderly G.toObjects (G.overwrites n)
  shaped : ∀ n, ∀ ds ∈ G.written n, ds.Shaped

section Executions

variable {G place} {a b : Access ν κ} {past before : List (Access ν κ)} {k : κ} {d : ν}

theorem Execution.admits (run : G.Execution place (a :: past)) : G.Admits place a := by
  cases run with
  | start _ admits => exact admits
  | step _ _ admits => exact admits

theorem Execution.tail (run : G.Execution place (b :: a :: past)) :
    G.Execution place (a :: past) := by
  cases run with
  | step earlier _ _ => exact earlier

theorem Execution.reachable (run : G.Execution place (a :: past)) : G.Reachable a.node := by
  generalize whole : a :: past = trace at run
  induction run generalizing a past with
  | start first _ =>
    obtain ⟨rfl, -⟩ := List.cons.inj whole
    rw [first]
    exact .refl
  | step _ leads _ ih =>
    obtain ⟨rfl, -⟩ := List.cons.inj whole
    exact (ih rfl).tail leads

/-- A definition of the byte gets to the next access, unless that leaves nothing of the byte. -/
theorem Execution.reaches_step {ds : DefSite ν} (tractable : G.Tractable)
    (run : G.Execution place (b :: a :: past)) (reaches : G.Reaches d ds a.node)
    (written : ds ∈ G.written d) (covers : ds.Covers G.toObjects (place k))
    (kept : ∀ ds' ∈ G.overwrites b.node, ¬ ds'.Fills G.toObjects (place k)) :
    G.Reaches d ds b.node := by
  have reachable := run.reachable
  cases run with
  | step earlier leads admits =>
    refine reaches.step leads reachable fun skips => ?_
    obtain ⟨ds', member, fills⟩ := fills_of_skips (tractable.orderly b.node)
      (tractable.shaped d ds written) covers skips
    exact kept ds' member fills

/-- The access that wrote a byte last reaches the node where the execution is. -/
theorem Execution.reaches (tractable : G.Tractable) (run : G.Execution place (a :: past))
    (last : LastWrite k (a :: past) (b :: before)) :
    ∃ ds, ds ∈ G.written b.node ∧ ds.Covers G.toObjects (place k) ∧
      G.Reaches b.node ds a.node := by
  generalize whole : a :: past = trace at last
  generalize found : b :: before = write at last
  induction last generalizing a past with
  | here writes =>
    obtain ⟨rfl, rfl⟩ := List.cons.inj whole
    obtain ⟨rfl, rfl⟩ := List.cons.inj found
    obtain ⟨ds, written, covers⟩ := run.admits.writes k writes
    exact ⟨ds, written, covers, .start written⟩
  | before notWritten notEnded last ih =>
    obtain ⟨rfl, rfl⟩ := List.cons.inj whole
    cases past with
    | nil => cases last
    | cons c past =>
      have admits := run.admits
      obtain ⟨ds, written, covers, reaches⟩ := ih run.tail rfl found
      refine ⟨ds, written, covers, run.reaches_step tractable reaches written covers ?_⟩
      intro ds' member fills
      exact (admits.overwrites ds' member k fills).elim notWritten notEnded

/-- What a node reads and does not overwrite, the access that wrote it last is found for it. -/
theorem Execution.found {s : RDState ν} (tractable : G.Tractable)
    (run : G.Execution place (a :: past)) (plain : G.PlainMaps s.maps)
    (complete : ∀ n f, G.system.Arrives n f → table s.maps n f) (reads : k ∈ a.reads)
    (kept : ∀ ds ∈ G.overwrites a.node, ¬ ds.Fills G.toObjects (place k))
    (last : LastWrite k past (b :: before)) :
    b.node ∈ G.getReachingDefinitions s.maps a.node := by
  obtain ⟨u, used, uses⟩ := run.admits.reads k reads
  cases past with
  | nil => cases last
  | cons c past =>
    obtain ⟨ds, written, covers, reaches⟩ := run.tail.reaches tractable last
    have here := run.reaches_step tractable reaches written covers kept
    have holds := complete a.node (ds, b.node) (arrives_iff.mpr here)
    refine (mem_getReachingDefinitions plain).mpr ⟨ds, holds, ?_⟩
    exact (meets_of_covers uses covers).imp id fun meets => ⟨u, used, meets⟩

end Executions

/-- If the analysis has not met its limit, the node that wrote a byte last is among the
reaching definitions of a node that reads it, whatever the execution that led there. -/
theorem lastWrite_found [Fintype ν] (tractable : G.Tractable) :
    ∃ s, G.run .default = some s ∧ (s.totalNum ≤ visitLimit →
      ∀ a past b before k, G.Execution place (a :: past) → k ∈ a.reads →
        (∀ ds ∈ G.overwrites a.node, ¬ ds.Fills G.toObjects (place k)) →
        LastWrite k past (b :: before) → b.node ∈ G.getReachingDefinitions s.maps a.node) := by
  obtain ⟨s, finished, analysed⟩ := G.run_spec
  exact ⟨s, finished, fun below a past b before k run reads kept last =>
    run.found tractable analysed.plain (analysed.complete below) reads kept last⟩

end RDGraph

namespace LastWriters

/-- A global variable of eight bytes, a store to the first four, and a load of the last. -/
inductive Sample where
  | unknown
  | global
  | store
  | load
  deriving DecidableEq

instance : Fintype Sample := ⟨{.unknown, .global, .store, .load}, fun n => by cases n <;> decide⟩

def sampleObjects : Objects Sample where
  unknownMemory := .unknown
  address
    | .unknown => 1
    | .global => 2
    | .store => 3
    | .load => 4
  address_injective := by
    intro m n
    cases m <;> cases n <;> decide
  address_pos := by
    intro n
    cases n <;> decide
  nodeType
    | .unknown => .none
    | .global => .alloc
    | .store => .store
    | .load => .load
  size _ := 0

def sample : RDGraph Sample where
  toObjects := sampleObjects
  root := .global
  successors
    | .global => [.store]
    | .store => [.load]
    | _ => []
  predecessors
    | .store => [.global]
    | .load => [.store]
    | _ => []
  calls
    | .global => [.addDef ⟨some .global, 0, 8⟩ true]
    | .store => [.addDef ⟨some .global, 0, 4⟩ true]
    | .load => [.addUse ⟨some .global, 4, 4⟩]
    | .unknown => []
  mem_predecessors := by
    intro m n
    cases m <;> cases n <;> decide
  calls_unknownMemory := rfl

/-- The wrap around of `uint64_t` sums: an overwrite of eight bytes leaves out a definition
of all bytes from the fourth on. -/
example : RDMap.Skips sampleObjects [⟨some .global, 0, 8⟩] ⟨some .global, 4, unknownOffset⟩ := by
  decide

theorem sample_tractable : sample.Tractable where
  orderly n := by
    refine ⟨?_, ?_, Or.inl ?_⟩ <;> cases n <;> decide
  shaped n := by
    cases n <;> decide

theorem fills_global {count : Nat} (known : count ≠ unknownOffset) (k : Sample × Nat) :
    (⟨some .global, 0, count⟩ : DefSite Sample).Fills sampleObjects k ↔
      k.1 = .global ∧ k.2 < count := by
  constructor
  · rintro ⟨object, -, -, -, inside⟩
    exact ⟨(Option.some.inj object).symm, by simpa using inside.resolve_left known⟩
  · rintro ⟨object, inside⟩
    refine ⟨congrArg some object.symm, ?_, ?_, Nat.zero_le _, Or.inr (by simpa using inside)⟩
    · rw [object]
      decide
    · exact (by decide : (0 : Nat) ≠ unknownOffset)

def written (count : Nat) : Set (Sample × Nat) := {k | k.1 = .global ∧ k.2 < count}

/-- A node that writes what it overwrites. -/
theorem sample_admits (n : Sample) (count : Nat) (known : count ≠ unknownOffset)
    (defines : ⟨some .global, 0, count⟩ ∈ sample.written n)
    (overwrites : ∀ ds ∈ sample.overwrites n, ds = ⟨some .global, 0, count⟩) :
    sample.Admits id (⟨n, ∅, written count, ∅⟩ : Access Sample (Sample × Nat)) where
  reads k none := none.elim
  writes k inside := by
    have fills := (fills_global known k).mpr inside
    exact ⟨_, defines, Or.inr ⟨fills.1, Or.inr fills.2.2.2⟩⟩
  overwrites ds member k fills := by
    rw [overwrites ds member] at fills
    exact Or.inl ((fills_global known k).mp fills)

/-- The load reads a byte that the store has not written. -/
def sampleRun : List (Access Sample (Sample × Nat)) :=
  [⟨.load, {(.global, 5)}, ∅, ∅⟩, ⟨.store, ∅, written 4, ∅⟩, ⟨.global, ∅, written 8, ∅⟩]

theorem sampleRun_execution : sample.Execution id sampleRun := by
  have global := sample_admits .global 8 (by decide) (by decide) (by decide)
  have store := sample_admits .store 4 (by decide) (by decide) (by decide)
  refine .step (.step (.start rfl global) ?_ store) ?_ ⟨?_, ?_, ?_⟩
  · exact (List.mem_singleton_self _ : Sample.store ∈ [Sample.store])
  · exact (List.mem_singleton_self _ : Sample.load ∈ [Sample.load])
  · rintro k rfl
    exact ⟨⟨some .global, 4, 4⟩, by decide, Or.inr ⟨rfl, Or.inr ⟨by decide, Or.inr (by decide)⟩⟩⟩
  · exact fun k none => none.elim
  · exact fun ds none => absurd none (by decide +revert)

theorem lastWrite_found_sample : ∃ s, sample.run .default = some s ∧
    Sample.global ∈ sample.getReachingDefinitions s.maps .load := by
  obtain ⟨s, finished, found⟩ := sample.lastWrite_found id sample_tractable
  obtain ⟨s', finished', analysed⟩ := sample.run_spec
  obtain rfl : s = s' := Option.some.inj (finished.symm.trans finished')
  refine ⟨s, finished, found ?_ _ _ ⟨.global, ∅, written 8, ∅⟩ [] (.global, 5)
    sampleRun_execution rfl ?_ ?_⟩
  · exact analysed.total.trans (by decide)
  · exact fun ds none => absurd none (by decide +revert)
  · exact .before (fun inside => absurd inside.2 (by decide)) (fun none => none.elim)
      (.here ⟨rfl, by decide⟩)

end LastWriters

end Arthas.Dg
