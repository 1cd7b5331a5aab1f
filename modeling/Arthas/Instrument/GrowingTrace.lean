import Arthas.Instrument.RoundTrip

/-!
A trace that grows while its items are resolved. What is remembered of GUIDs, and the
trimming of the entries' texts, cannot be told from the items: each gets the instruction
that a match of its entry gives, as the entry was loaded.
-/

set_option autoImplicit false
set_option relaxedAutoImplicit false

namespace Arthas.Instrument

open Arthas.Lib Arthas.Utils Arthas.Matcher

namespace PmemAddrTrace

/-- What a client does with a trace: it reads a file, resolves the items, or clears them. -/
inductive TraceOp
  | deserialize (file : Option Text)
  | addressesToInstructions
  | clear

section Growing

variable (asm : AsmWriter) (M : Module)

/-- One operation on the map and the trace; `none` when an exception escapes or the search
is undefined. -/
def traceStep (s : PmemVarGuidMap × PmemAddrTrace) :
    TraceOp → Option (PmemVarGuidMap × PmemAddrTrace)
  | .deserialize file =>
    (PmemAddrTrace.deserialize file (some s.1) s.2).toOption.map fun read => (s.1, read.2)
  | .addressesToInstructions => PmemAddrTrace.addressesToInstructions asm M s.1 s.2
  | .clear => some (s.1, s.2.clear)

/-- The instruction of a GUID by a match of its entry, with nothing remembered. -/
def uncachedInstr (varMap : PmemVarGuidMap) (guid : UInt64) : Option Instruction := do
  let var ← varMap.find guid
  let found ← matchEntry asm M var
  found.instr

/-- The match of every item's entry is defined. -/
def Matchable (varMap : PmemVarGuidMap) (items : List PmemAddrTraceItem) : Prop :=
  ∀ item ∈ items, ∀ var, varMap.find item.guid = some var → (matchEntry asm M var).isSome

/-- The maps have entries for the same GUIDs. -/
def SameGuids (m n : PmemVarGuidMap) : Prop :=
  ∀ guid, (m.find guid).isSome = (n.find guid).isSome

/-- An item has no instruction yet, or the one of an uncached match. -/
def Assigned (varMap : PmemVarGuidMap) (item : PmemAddrTraceItem) : Prop :=
  item.instr = none ∨ item.instr = uncachedInstr asm M varMap item.guid

/-- The map and the trace of a run, against the map as it was loaded. -/
structure Memoised (varMap : PmemVarGuidMap) (s : PmemVarGuidMap × PmemAddrTrace) : Prop where
  remembers : Remembers asm M varMap ⟨s.1, s.2.guidInstrMap, s.2.failedGuids⟩
  sameGuids : SameGuids s.1 varMap
  attached : ∀ item ∈ s.2.items, Attached varMap item
  assigned : ∀ item ∈ s.2.items, Assigned asm M varMap item

variable {asm M} {varMap current : PmemVarGuidMap} {trace : PmemAddrTrace}

theorem memoised_start (varMap : PmemVarGuidMap) :
    Memoised asm M varMap (varMap, PmemAddrTrace.empty) where
  remembers := remembers_start varMap
  sameGuids _ := rfl
  attached := by simp [PmemAddrTrace.empty]
  assigned := by simp [PmemAddrTrace.empty]

section Reading

theorem Attached.of_sameGuids {item : PmemAddrTraceItem} (same : SameGuids current varMap)
    (attached : Attached current item) : Attached varMap item := by
  have present := same item.guid
  rw [Attached] at attached ⊢
  rw [attached]
  cases here : current.find item.guid <;> cases there : varMap.find item.guid
  · rfl
  · rw [here, there] at present
    cases present
  · rw [here, there] at present
    cases present
  · rfl

/-- An item just parsed points to its entry and has no instruction. -/
theorem parse_fresh {line : Text} {p : Nat} {item : PmemAddrTraceItem}
    (parsed : PmemAddrTraceItem.parse line (.new p) (some current) = .ok (true, item)) :
    Attached current item ∧ item.instr = none := by
  unfold PmemAddrTraceItem.parse at parsed
  split at parsed
  · obtain ⟨addr, -, parsed⟩ := Exception.bind_eq_ok parsed
    obtain ⟨guid, -, parsed⟩ := Exception.bind_eq_ok parsed
    simp only [Option.elim_some, pure, Except.pure, Except.ok.injEq, Prod.mk.injEq,
      true_and] at parsed
    rw [← parsed]
    constructor
    · apply attach_attached
      rfl
    · rw [attach_instr]
      rfl
  · cases parsed

theorem Memoised.readLine {line : Text} {trace' : PmemAddrTrace}
    (memoised : Memoised asm M varMap (current, trace))
    (read : PmemAddrTrace.readLine (some current) trace line = .ok trace') :
    Memoised asm M varMap (current, trace') := by
  obtain ⟨⟨ok, item⟩, parsed, read⟩ := Exception.bind_eq_ok read
  cases ok with
  | false =>
    cases read
    exact ⟨memoised.remembers, memoised.sameGuids, memoised.attached, memoised.assigned⟩
  | true =>
    cases read
    obtain ⟨attached, bare⟩ := parse_fresh parsed
    refine ⟨memoised.remembers, memoised.sameGuids, ?_, ?_⟩
    · intro old member
      rcases List.mem_append.mp member with before | here
      · exact memoised.attached old before
      · rw [List.mem_singleton.mp here]
        exact attached.of_sameGuids memoised.sameGuids
    · intro old member
      rcases List.mem_append.mp member with before | here
      · exact memoised.assigned old before
      · rw [List.mem_singleton.mp here]
        exact Or.inl bare

theorem Memoised.readLines {lines : List Text} {trace' : PmemAddrTrace}
    (memoised : Memoised asm M varMap (current, trace))
    (read : lines.foldlM (PmemAddrTrace.readLine (some current)) trace = .ok trace') :
    Memoised asm M varMap (current, trace') := by
  induction lines generalizing trace with
  | nil =>
    cases read
    exact memoised
  | cons line lines ih =>
    rw [List.foldlM_cons] at read
    obtain ⟨next, first, rest⟩ := Exception.bind_eq_ok read
    exact ih (memoised.readLine first) rest

theorem Memoised.deserialize {file : Option Text} {ok : Bool} {trace' : PmemAddrTrace}
    (memoised : Memoised asm M varMap (current, trace))
    (read : PmemAddrTrace.deserialize file (some current) trace = .ok (ok, trace')) :
    Memoised asm M varMap (current, trace') := by
  cases file with
  | none =>
    cases read
    exact memoised
  | some content =>
    obtain ⟨result, loop, eq⟩ := Exception.bind_eq_ok read
    cases eq
    exact memoised.readLines loop

end Reading

section Resolving

variable {items items' : List PmemAddrTraceItem} {s s' : ResolveState}
  {item item' : PmemAddrTraceItem}

/-- Trimming the text of an entry adds and removes none. -/
theorem sameGuids_setInstruction (m : PmemVarGuidMap) (guid : UInt64) (text : Text) :
    SameGuids (m.setInstruction guid text) m := by
  intro other
  unfold PmemVarGuidMap.setInstruction PmemVarGuidMap.find
  split
  · rfl
  · next entry old =>
    rw [OrdMap.find?_assign]
    split
    · next same => rw [same, old]; rfl
    · rfl

theorem addressToInstruction_sameGuids {ok : Bool}
    (resolved : addressToInstruction asm M item s = some (ok, item', s')) :
    SameGuids s'.varMap s.varMap := by
  unfold addressToInstruction at resolved
  split at resolved
  · cases resolved
    exact fun _ => rfl
  split at resolved
  · cases resolved
    exact fun _ => rfl
  split at resolved
  · cases resolved
    exact fun _ => rfl
  split at resolved
  · cases resolved
    exact fun _ => rfl
  obtain ⟨found, -, outcome⟩ := Option.bind_eq_some_iff.mp resolved
  split at outcome
  · cases outcome
    exact sameGuids_setInstruction _ _ _
  · cases outcome
    exact sameGuids_setInstruction _ _ _

/-- One item gets the instruction of the uncached match, which is then defined. -/
theorem addressToInstruction_uncached {ok : Bool} (remembers : Remembers asm M varMap s)
    (attached : Attached varMap item) (assigned : Assigned asm M varMap item)
    (resolved : addressToInstruction asm M item s = some (ok, item', s')) :
    item' = { item with instr := uncachedInstr asm M varMap item.guid } ∧
      ∀ var, varMap.find item.guid = some var → (matchEntry asm M var).isSome := by
  obtain ⟨-, outcome⟩ := addressToInstruction_spec remembers attached resolved
  rcases outcome with ⟨absent, rfl⟩ | ⟨var, found, present, matched, rfl⟩
  · have nothing : uncachedInstr asm M varMap item'.guid = none := by
      rw [uncachedInstr, absent]
      rfl
    constructor
    · rw [nothing]
      rcases assigned with bare | same
      · rw [← bare]
      · rw [← nothing, ← same]
    · intro var present
      rw [absent] at present
      cases present
  · have uncached : uncachedInstr asm M varMap item.guid = found.instr := by
      rw [uncachedInstr, present, Option.bind_eq_bind, Option.bind_some, matched]
      rfl
    constructor
    · rw [uncached]
      rcases assigned with bare | same
      · rw [bare, Option.or_none]
      · rw [same, uncached, Option.or_self]
    · intro other there
      rw [present, Option.some.injEq] at there
      rw [← there, matched]
      rfl

/-- All items get the instructions of uncached matches, whatever is remembered. -/
theorem resolveItems_uncached (remembers : Remembers asm M varMap s)
    (attached : ∀ item ∈ items, Attached varMap item)
    (assigned : ∀ item ∈ items, Assigned asm M varMap item)
    (resolved : resolveItems asm M items s = some (items', s')) :
    items' = items.map (fun item =>
        { item with instr := uncachedInstr asm M varMap item.guid }) ∧
      Matchable asm M varMap items ∧ SameGuids s'.varMap s.varMap := by
  induction items generalizing s items' with
  | nil =>
    cases resolved
    refine ⟨rfl, ?_, fun _ => rfl⟩
    intro item member
    cases member
  | cons item items ih =>
    simp only [resolveItems, Option.bind_eq_bind, Option.bind_eq_some_iff, Prod.exists,
      Option.pure_def, Option.some.injEq, Prod.mk.injEq] at resolved
    obtain ⟨ok, first', s₁, first, rest', s₂, rest, rfl, rfl⟩ := resolved
    have here := attached item List.mem_cons_self
    have next := (addressToInstruction_spec remembers here first).1
    obtain ⟨eq, defined⟩ := addressToInstruction_uncached remembers here
      (assigned item List.mem_cons_self) first
    obtain ⟨others, matchable, same⟩ := ih next
      (fun other member => attached other (List.mem_cons_of_mem _ member))
      (fun other member => assigned other (List.mem_cons_of_mem _ member)) rest
    refine ⟨by rw [eq, others, List.map_cons], ?_, ?_⟩
    · intro other member
      rcases List.mem_cons.mp member with rfl | later
      · exact defined
      · exact matchable other later
    · intro guid
      rw [same guid, addressToInstruction_sameGuids first guid]

/-- Resolving is defined if the matches are. -/
theorem resolveItems_defined (remembers : Remembers asm M varMap s)
    (attached : ∀ item ∈ items, Attached varMap item)
    (matchable : Matchable asm M varMap items) : (resolveItems asm M items s).isSome := by
  induction items generalizing s with
  | nil => rfl
  | cons item items ih =>
    have here := attached item List.mem_cons_self
    obtain ⟨⟨ok, item', s₁⟩, first⟩ := Option.isSome_iff_exists.mp
      (addressToInstruction_defined remembers here (matchable item List.mem_cons_self))
    have next := (addressToInstruction_spec remembers here first).1
    obtain ⟨⟨items', s₂⟩, rest⟩ := Option.isSome_iff_exists.mp
      (ih next (fun other member => attached other (List.mem_cons_of_mem _ member))
        (fun other member => matchable other (List.mem_cons_of_mem _ member)))
    simp only [resolveItems, first, rest, Option.bind_eq_bind, Option.bind_some]
    rfl

theorem Memoised.addressesToInstructions {s' : PmemVarGuidMap × PmemAddrTrace}
    (memoised : Memoised asm M varMap (current, trace))
    (resolved : PmemAddrTrace.addressesToInstructions asm M current trace = some s') :
    Memoised asm M varMap s' ∧ Matchable asm M varMap trace.items ∧
      s'.2.items = trace.items.map fun item =>
        { item with instr := uncachedInstr asm M varMap item.guid } := by
  obtain ⟨⟨items, s⟩, loop, outcome⟩ := Option.bind_eq_some_iff.mp resolved
  cases outcome
  obtain ⟨eq, matchable, same⟩ := resolveItems_uncached memoised.remembers memoised.attached
    memoised.assigned loop
  refine ⟨⟨resolveItems_remembers memoised.remembers memoised.attached loop, ?_, ?_, ?_⟩,
    matchable, eq⟩
  · intro guid
    rw [same guid, memoised.sameGuids guid]
  · intro item member
    rw [eq] at member
    obtain ⟨old, inside, rfl⟩ := List.mem_map.mp member
    exact memoised.attached old inside
  · intro item member
    rw [eq] at member
    obtain ⟨old, -, rfl⟩ := List.mem_map.mp member
    exact Or.inr rfl

end Resolving

section Runs

variable {s s' : PmemVarGuidMap × PmemAddrTrace} {op : TraceOp} {ops : List TraceOp}

theorem Memoised.traceStep (memoised : Memoised asm M varMap s)
    (step : PmemAddrTrace.traceStep asm M s op = some s') : Memoised asm M varMap s' := by
  cases op with
  | deserialize file =>
    obtain ⟨⟨ok, trace'⟩, read, rfl⟩ := Option.map_eq_some_iff.mp step
    apply @Memoised.deserialize _ _ _ _ _ file ok _ memoised
    cases result : PmemAddrTrace.deserialize file (some s.1) s.2 with
    | error e =>
      rw [result] at read
      cases read
    | ok value =>
      rw [result] at read
      cases read
      rfl
  | addressesToInstructions => exact (memoised.addressesToInstructions step).1
  | clear =>
    cases step
    refine ⟨memoised.remembers, memoised.sameGuids, ?_, ?_⟩
    · intro item member
      cases member
    · intro item member
      cases member

theorem Memoised.run (memoised : Memoised asm M varMap s)
    (run : ops.foldlM (PmemAddrTrace.traceStep asm M) s = some s') : Memoised asm M varMap s' := by
  induction ops generalizing s with
  | nil =>
    cases run
    exact memoised
  | cons op ops ih =>
    rw [List.foldlM_cons] at run
    obtain ⟨next, first, rest⟩ := Option.bind_eq_some_iff.mp run
    exact ih (memoised.traceStep first) rest

/-- After any run on a trace and a map, resolving is defined exactly if the matches of the
items' entries, as they were loaded, are; and it gives every item the instruction of that
match, none to the items without an entry. Between two calls an item has that instruction
or none. -/
theorem addressesToInstructions_uncached (varMap : PmemVarGuidMap)
    (run : ops.foldlM (PmemAddrTrace.traceStep asm M) (varMap, PmemAddrTrace.empty) = some s) :
    (∀ item ∈ s.2.items, Assigned asm M varMap item) ∧
      ((s.2.addressesToInstructions asm M s.1).isSome ↔ Matchable asm M varMap s.2.items) ∧
      ∀ s', s.2.addressesToInstructions asm M s.1 = some s' →
        s'.2.items = s.2.items.map fun item =>
          { item with instr := uncachedInstr asm M varMap item.guid } := by
  have memoised := (memoised_start varMap).run run
  refine ⟨memoised.assigned, ?_, ?_⟩
  · constructor
    · intro defined
      obtain ⟨s', resolved⟩ := Option.isSome_iff_exists.mp defined
      exact (memoised.addressesToInstructions resolved).2.1
    · intro matchable
      obtain ⟨⟨items, st⟩, loop⟩ := Option.isSome_iff_exists.mp
        (resolveItems_defined memoised.remembers memoised.attached matchable)
      rw [PmemAddrTrace.addressesToInstructions, loop]
      rfl
  · intro s' resolved
    exact (memoised.addressesToInstructions resolved).2.2

end Runs

end Growing

/-- The trace is read twice and resolved in between; a GUID has no entry. -/
def readTwice : List TraceOp :=
  [.deserialize (some "0x10,200\n0x20,7\n".toList), .addressesToInstructions,
    .deserialize (some "0x30,200\n".toList)]

theorem addressesToInstructions_uncached_readTwice :
    let asm := AsmWriter.unary
    let M := (loadHooked (some 12)).module
    let varMap := (loadHooked (some 12)).guidHookPoints asm
    ∃ s, readTwice.foldlM (traceStep asm M) (varMap, empty) = some s ∧
      (∀ item ∈ s.2.items, Assigned asm M varMap item) ∧
      ((s.2.addressesToInstructions asm M s.1).isSome ↔ Matchable asm M varMap s.2.items) ∧
      ∀ s', s.2.addressesToInstructions asm M s.1 = some s' →
        s'.2.items = s.2.items.map fun item =>
          { item with instr := uncachedInstr asm M varMap item.guid } := by
  intro asm M varMap
  have defined : (readTwice.foldlM (traceStep asm M) (varMap, empty)).isSome := by decide
  obtain ⟨s, run⟩ := Option.isSome_iff_exists.mp defined
  exact ⟨s, run, addressesToInstructions_uncached varMap run⟩

example : ((readTwice ++ [TraceOp.addressesToInstructions]).foldlM
    (traceStep AsmWriter.unary (loadHooked (some 12)).module)
    ((loadHooked (some 12)).guidHookPoints AsmWriter.unary, empty)).map
      (fun s => s.2.items.map PmemAddrTraceItem.instr) =
    some [some (loadAt (some 12)), none, some (loadAt (some 12))] := by
  decide

end PmemAddrTrace

end Arthas.Instrument
