import Arthas.Matcher.FirstMatch
import Arthas.Reactor.PoolRuns
import Arthas.Slicing.SliceCriteria
import Arthas.Slicing.SlicePipeline
import Arthas.Slicing.SlicerRuns

/-!
From the fault to the updates that are reverted (`core.cpp`): the fault instruction is located
and sliced, the trace tells where the instructions of the slices wrote, and the checkpoint log
which updates were made there.
-/

set_option autoImplicit false
set_option relaxedAutoImplicit false

namespace Arthas.Reactor

open Arthas.Lib Arthas.Utils Arthas.Matcher Arthas.Slicing ByteImage Checkpoint Multimap
  HalvingSearch Batching

section Locate

/-- `FileLine::fromCriterionStr` -/
def fromCriterionStr (criterion : Text) (result : FileLine) : Option (Bool × FileLine) :=
  match splitList criterion ":".toList with
  | file :: line :: _ => (atoi line).map fun line => (true, ⟨file, UInt32.ofInt line⟩)
  | _ => some (false, result)

/-- `fault_loc.substr(0, fault_loc.rfind(':'))` -/
def beforeLastColon (faultLoc : Text) : Text :=
  (faultLoc.reverse.dropWhile (· ≠ ':')).tail.reverse

/-- `Reactor::locate_fault_instr`; `processed` tells whether the matcher has a module. -/
def locateFaultInstr (asm : AsmWriter) (M : Module) (processed : Bool) (faultLoc instStr : Text) :
    Option (Option Instruction) :=
  if ¬ processed then some none
  else
    let n := faultLoc.count ':'
    if n = 1 ∨ n = 2 then do
      let criterion := if n = 1 then faultLoc else beforeLastColon faultLoc
      let (_, fileLine) ← fromCriterionStr criterion ⟨[], 0⟩
      let found ← matchInstr asm M fileLine instStr true true
      return found.instr
    else some none

end Locate

section Slice

variable {δ β γ ι φ : Type} [DecidableEq δ] [DecidableEq β] [DecidableEq γ] [DecidableEq ι]
  [DecidableEq φ]

/-- The `dep_flags` of `slice_fault_instr`: the default ones, and control dependences if the
options ask for them. -/
def faultDepFlags (sliceCtrl : Bool) : Nat :=
  let depFlags := SliceDependenceFlags.defUse ||| SliceDependenceFlags.memory
  if sliceCtrl then depFlags ||| SliceDependenceFlags.control else depFlags

/-- What `Reactor::slice_fault_instr` may leave, for the result of `compute_dependencies`: the
slices, unless it returned false, and the slicer. -/
inductive SliceFaultInstr (g : DependenceGraph δ β γ ι φ) (insts : φ → List ι) (faultInst : ι)
    (sliceCtrl : Bool) (fuel : Nat) (s : SlicerState δ β γ φ) :
    Bool → Option (List (List ι)) → SlicerState δ β γ φ → Prop where
  | uncomputed : SliceFaultInstr g insts faultInst sliceCtrl fuel s false none s
  | noGraph {used : Nat} {s' : SlicerState δ β γ φ}
      (slice : s.sliceInstruction g faultInst 0 .storing (faultDepFlags sliceCtrl) fuel =
        some (none, used, s')) : SliceFaultInstr g insts faultInst sliceCtrl fuel s true none s'
  | sliced {sg : GrowingGraph ι φ} {used : Nat} {s' : SlicerState δ β γ φ}
      {slices : List (List ι)}
      (slice : s.sliceInstruction g faultInst 0 .storing (faultDepFlags sliceCtrl) fuel =
        some (some sg, used, s')) (computed : SlicesOf insts sg slices) :
      SliceFaultInstr g insts faultInst sliceCtrl fuel s true (some slices) s'

variable {g : DependenceGraph δ β γ ι φ}

/-- The instruction is the fault instruction, held by the node, or one that a dependence of the
selected kinds reaches from there. -/
def FaultDependence (g : DependenceGraph δ β γ ι φ) (sliceCtrl : Bool) (faultInst : ι) (node : δ)
    (i : ι) : Prop :=
  i = faultInst ∨ g.Stored .backward (faultDepFlags sliceCtrl) node i

/-- The slices of a fault have the instructions that it depends on, and begin with its own. -/
theorem SliceFaultInstr.spec [Fintype δ] {insts : φ → List ι} {faultInst : ι}
    {sliceCtrl computed : Bool} {fuel walks : Nat} {s s' : SlicerState δ β γ φ}
    {slices : List (List ι)}
    (sliced : SliceFaultInstr g insts faultInst sliceCtrl fuel s computed (some slices) s')
    (backward : s.slicer.direction = .backward) (earlier : EarlierWalks g walks s.data)
    (few : walks < 2 ^ 32 - 1) (enough : Fintype.card δ < fuel) :
    ∃ node, g.getValue node = .instruction faultInst ∧
      (∀ i, i ∈ slices.flatten ↔ FaultDependence g sliceCtrl faultInst node i) ∧
      ∀ slice ∈ slices, slice.head? = some faultInst ∧ slice.Nodup := by
  cases sliced with
  | sliced slice computed =>
    obtain ⟨subdg, -, chosen⟩ := Option.bind_eq_some_iff.mp slice
    cases subdg with
    | none => cases chosen
    | some subdg =>
      dsimp only at chosen
      cases found : subdg.nodes.find? fun n => (g.getValue n).dynCast = some faultInst with
      | none =>
        rw [found] at chosen
        cases chosen
      | some node =>
        rw [found] at chosen
        have held : g.getValue node = .instruction faultInst := by
          have cast : (g.getValue node).dynCast = some faultInst := by
            simpa using List.find?_some found
          cases value : g.getValue node with
          | instruction inst =>
            rw [value] at cast
            exact congrArg _ (Option.some.inj cast)
          | other =>
            rw [value] at cast
            cases cast
        obtain ⟨left, made, rest⟩ := Option.bind_eq_some_iff.mp chosen
        obtain ⟨graphs, -, same⟩ := Option.map_eq_some_iff.mp rest
        obtain ⟨⟨built, data'⟩, run, rfl⟩ := Option.map_eq_some_iff.mp made
        obtain ⟨rfl, -⟩ := Prod.mk.inj same
        rw [backward] at run
        exact ⟨node, held, mem_slicesOf held (earlier.unmarked few) enough run computed⟩

end Slice

section Touched

/-- The numbers that a mark names. -/
def Mark.numbers : Mark → List Int
  | .reverted seqNumbers | .undone seqNumbers | .batch seqNumbers => seqNumbers
  | .reexecuted _ => []

/-- From `w` to `w'` only numbers with the property were handed over, reverted and undone. -/
def Touches (P : Int → Prop) (w w' : World) : Prop :=
  ∃ trace, w'.history = trace ++ w.history ∧ ∀ m ∈ marks trace, ∀ q ∈ m.numbers, P q

namespace Touches

variable {P Q : Int → Prop} {w w₁ w₂ : World}

theorem refl (w : World) : Touches P w w := ⟨[], rfl, by simp [marks]⟩

theorem trans (h : Touches P w w₁) (h' : Touches P w₁ w₂) : Touches P w w₂ := by
  obtain ⟨trace, before, named⟩ := h
  obtain ⟨trace', after, named'⟩ := h'
  refine ⟨trace' ++ trace, by rw [after, before, List.append_assoc], fun m member => ?_⟩
  rw [marks_append] at member
  exact (List.mem_append.mp member).elim (named m) (named' m)

theorem mono (h : Touches P w w₁) (more : ∀ q, P q → Q q) : Touches Q w w₁ := by
  obtain ⟨trace, before, named⟩ := h
  exact ⟨trace, before, fun m member q number => more q (named m member q number)⟩

theorem since (h : Touches P w w₁) : ∀ m ∈ marks (w.since w₁), ∀ q ∈ m.numbers, P q := by
  obtain ⟨trace, before, named⟩ := h
  rwa [since_eq before]

end Touches

/-- A search names numbers of the blocks that it tests. -/
theorem mem_trialMarks (answer : Nat → Bool) (i : Nat) (tried : List (List Int))
    (last : List Int) {m : Mark} (member : m ∈ trialMarks answer i tried last) {q : Int}
    (number : q ∈ m.numbers) : ∃ block ∈ tried ++ [last], q ∈ block := by
  induction tried generalizing i with
  | nil =>
    rcases List.mem_pair.mp member with rfl | rfl
    · exact ⟨last, List.mem_singleton_self _, mem_qsortReverse.mp number⟩
    · cases number
  | cons block tried ih =>
    have first : block ∈ block :: tried ++ [last] := List.mem_cons_self
    rcases List.mem_cons.mp member with rfl | member
    · exact ⟨block, first, mem_qsortReverse.mp number⟩
    rcases List.mem_cons.mp member with rfl | member
    · cases number
    rcases List.mem_cons.mp member with rfl | member
    · exact ⟨block, first, number⟩
    · obtain ⟨other, later, inside⟩ := ih (i + 1) member
      exact ⟨other, List.mem_cons_of_mem _ later, inside⟩

section Loop

variable {ι : Type*} [DecidableEq ι] (cLog : CheckpointLog) (env : Env) (pmemLibrary : PmemLibrary)
  (poolAddress : UInt64)

/-- The search names the numbers that were collected. -/
theorem manyReversion_touches {fuel : Nat} (enough : 3 ≤ fuel) {st : SliceState}
    (count : st.world.binaryReversionCount = 0) {p : Progress}
    (run : manyReversion cLog env pmemLibrary poolAddress fuel st = some p) :
    Touches (· ∈ st.manyAddressSeq) st.world p.world := by
  by_cases many : st.manyAddressSeq.length > batchReexecution
  swap
  · rw [manyReversion, if_neg many] at run
    obtain rfl := Option.some.inj run
    exact .refl _
  let sorted := sortAscending st.manyAddressSeq
  let start : World := { st.world.log (.batch sorted) with binarySuccess := -1 }
  have mem_sorted : ∀ {q}, q ∈ sorted → q ∈ st.manyAddressSeq := (List.mem_insertionSort _).mp
  have nonempty : sorted ≠ [] := by
    have length : sorted.length = st.manyAddressSeq.length := List.length_insertionSort _ _
    rw [← List.length_pos_iff, length]
    exact Nat.lt_of_le_of_lt (Nat.zero_le _) many
  obtain ⟨ret, w', search, searched⟩ := binaryReversion_search cLog env pmemLibrary poolAddress 2
    (show 2 < fuel by omega) nonempty (w := start) (by
      rw [show start.binaryReversionCount = 0 from count]
      rfl)
  have batched : Touches (· ∈ st.manyAddressSeq) st.world start := by
    refine ⟨[.batch sorted], rfl, fun m member q number => ?_⟩
    obtain rfl := List.mem_singleton.mp member
    exact mem_sorted number
  have tested : Touches (· ∈ st.manyAddressSeq) start w' := by
    obtain ⟨trace, before, isTrial⟩ := searched.history
    refine ⟨trace, before, fun m member q number => ?_⟩
    rw [isTrial] at member
    obtain ⟨block, isTested, inside⟩ := mem_trialMarks _ _ _ _ member number
    exact mem_sorted ((tested_sublist _ _ _ _ block isTested).subset inside)
  have touched := batched.trans tested
  rw [manyReversion, if_pos many] at run
  simp only [start, sorted] at search
  simp only [search] at run
  split_ifs at run
  · obtain rfl := Option.some.inj run
    exact touched
  · obtain rfl := Option.some.inj run
    exact touched

/-- After the search, or with too little to search, the direct path is not taken when the
numbers of the slice are all pending. -/
theorem manyReversion_skips {fuel : Nat} (enough : 3 ≤ fuel) {st st' : SliceState}
    (count : st.world.binaryReversionCount = 0)
    (pending : st.sliceSeqNumbers.length ≤ st.manyAddressSeq.length)
    (search : manyReversion cLog env pmemLibrary poolAddress fuel st = some (.next st')) :
    directReversion cLog env pmemLibrary poolAddress st' = some (.next st') := by
  apply directReversion_skip
  by_cases more : st.manyAddressSeq.length > batchReexecution
  · obtain ⟨r, ms, again, -, -, ended⟩ :=
      manyReversion_spec cLog env pmemLibrary poolAddress enough st count more
    obtain rfl : r = .next st' := Option.some.inj (again.symm.trans search)
    exact Or.inl (by rw [ended.2.2])
  · rw [manyReversion, if_neg more] at search
    obtain rfl := Progress.next.inj (Option.some.inj search)
    exact Or.inr pending

variable (addrTrace : List (PmemAddrTraceItem ι)) (addressSeqNums : Multimap UInt64 Int)

/-- A slice item names the numbers that it brings up, and a number that was left pending. -/
theorem sliceItem_touches {P : Int → Prop} {fuel : Nat} (enough : 3 ≤ fuel) {depInst : ι}
    {st : SliceState} {a : Stage Int} (tracks : Tracks st a) (pending : ∀ q ∈ a.pending, P q)
    (numbers : ∀ q ∈ itemNumbers addrTrace addressSeqNums depInst, P q) {p : Progress}
    (run : sliceItem cLog env pmemLibrary poolAddress fuel addrTrace addressSeqNums depInst st =
      some p) : Touches P st.world p.world := by
  let xs := itemNumbers addrTrace addressSeqNums depInst
  let collected := (equalRange (traceInstrs addrTrace) (some depInst)).foldl
    (collectTraceItem addressSeqNums depInst) st
  obtain ⟨same, -⟩ := collected_spec addrTrace addressSeqNums depInst tracks
  have many : collected.manyAddressSeq = a.pending ++ fresh a.seen xs :=
    congrArg SliceState.manyAddressSeq same
  have slice : collected.sliceSeqNumbers = fresh a.seen xs :=
    congrArg SliceState.sliceSeqNumbers same
  have world : collected.world = st.world := by rw [show collected = _ from same]
  have named : ∀ q ∈ collected.manyAddressSeq, P q := by
    intro q member
    rw [many] at member
    rcases List.mem_append.mp member with old | new
    · exact pending q old
    · exact numbers q (mem_fresh.mp new).1
  have item : sliceItem cLog env pmemLibrary poolAddress fuel addrTrace addressSeqNums depInst st =
      andThen (manyReversion cLog env pmemLibrary poolAddress fuel collected) fun st =>
        andThen (directReversion cLog env pmemLibrary poolAddress st) fun st =>
          some (.next { st with sliceSeqNumbers := [], manyAddressClear := false }) := rfl
  rw [item] at run
  cases search : manyReversion cLog env pmemLibrary poolAddress fuel collected with
  | none =>
    rw [search] at run
    cases run
  | some r =>
    have touched := (manyReversion_touches cLog env pmemLibrary poolAddress enough
      (world ▸ tracks.count) search).mono named
    rw [world] at touched
    rw [search] at run
    cases r with
    | returned ret w =>
      obtain rfl := Option.some.inj run
      exact touched
    | next st' =>
      have skipped := manyReversion_skips cLog env pmemLibrary poolAddress enough
        (world ▸ tracks.count) (by rw [slice, many, List.length_append]; omega) search
      simp only [andThen, skipped] at run
      obtain rfl := Option.some.inj run
      exact touched

/-- So do the items of the slices, one after the other. -/
theorem sliceItems_touches {P : Int → Prop} {fuel : Nat} (enough : 3 ≤ fuel) (slice : List ι)
    (numbers : ∀ i ∈ slice, ∀ q ∈ itemNumbers addrTrace addressSeqNums i, P q) {st : SliceState}
    {a : Stage Int} (tracks : Tracks st a) (pending : ∀ q ∈ a.pending, P q) {p : Progress}
    (run : sliceItems cLog env pmemLibrary poolAddress fuel addrTrace addressSeqNums slice st =
      some p) : Touches P st.world p.world := by
  induction slice generalizing st a with
  | nil =>
    obtain rfl := Option.some.inj run
    exact .refl _
  | cons depInst slice ih =>
    have here := numbers depInst List.mem_cons_self
    obtain ⟨r, ms, item, looped⟩ := sliceItem_looped cLog env pmemLibrary poolAddress addrTrace
      addressSeqNums enough depInst tracks
    have touched := sliceItem_touches cLog env pmemLibrary poolAddress addrTrace addressSeqNums
      enough tracks pending here item
    simp only [sliceItems, item, andThen] at run
    cases r with
    | returned ret w =>
      obtain rfl := Option.some.inj run
      exact touched
    | next st' =>
      refine touched.trans (ih (fun i member => numbers i (List.mem_cons_of_mem _ member))
        looped.ended.1 (fun q member => ?_) run)
      have kept := step_flatten a (itemNumbers addrTrace addressSeqNums depInst)
      have among := List.mem_append_right
        (a.step (itemNumbers addrTrace addressSeqNums depInst)).1.flatten member
      rw [kept] at among
      rcases List.mem_append.mp among with old | new
      · exact pending q old
      · exact here q (mem_fresh.mp new).1

end Loop

end Touched

section Recorded

/-- Update `q` of the checkpoint log was made at the address. -/
def RecordedAt (cLog : CheckpointLog) (addr : UInt64) (q : Int) : Prop :=
  ∃ p ∈ cLog.versions, seqOf p = q ∧ p.1.cData.address = addr

theorem address_fillOrderedData (d : SingleData) (temp : Node) (j : Nat) :
    (fillOrderedData d temp j).address = temp.cData.address := by
  rw [fillOrderedData, copyOldVersions_eq]

/-- The records that a traversal inserts have the addresses of their updates. -/
theorem foldl_orderStep_recorded {cLog : CheckpointLog} (ps : List (Node × Nat))
    (versions : ∀ p ∈ ps, p ∈ cLog.versions) (st : Checkpoint.Ordering)
    (before : ∀ q n, st.sLog.find q = some n → RecordedAt cLog n.orderedData.address q) :
    ∀ q n, (ps.foldl orderStep st).sLog.find q = some n →
      RecordedAt cLog n.orderedData.address q := by
  induction ps generalizing st with
  | nil => exact before
  | cons p ps ih =>
    apply ih (fun r member => versions r (List.mem_cons_of_mem _ member)) (orderStep st p)
    intro q n found
    simp only [orderStep, find_insert] at found
    split_ifs at found with isKey
    · obtain rfl := Option.some.inj found
      exact ⟨p, versions p List.mem_cons_self, isKey.symm, (address_fillOrderedData _ _ _).symm⟩
    · exact before q n found

variable {ι : Type*} [DecidableEq ι]

omit [DecidableEq ι] in
/-- The numbers that the prepared log has for an address are those of updates made there. -/
theorem recorded_of_prepared {cLog : CheckpointLog} {lastPool : List (PmemAddrTraceItem ι)}
    {pop addr : UInt64} {q : Int}
    (member : q ∈ equalRange (addressSeqCreation (preparedLog cLog lastPool pop)) addr) :
    RecordedAt cLog addr q := by
  rw [mem_equalRange, addressSeqCreation, List.mem_map] at member
  obtain ⟨n, scanned, pair⟩ := member
  obtain ⟨rfl, rfl⟩ := Prod.mk.inj pair
  obtain ⟨tied, placed⟩ := preparedLog_kept cLog lastPool pop
  have record := tied.record n.sequenceNumber
  rw [placed.find_of_mem scanned, Option.map_some] at record
  obtain ⟨n₀, found, same⟩ := Option.map_eq_some_iff.mp record.symm
  have recorded := foldl_orderStep_recorded cLog.versions (fun _ => id)
    ⟨SingleData.uninit, SeqLog.empty logSize, 0⟩ (fun _ _ absurd => nomatch absurd) _ n₀ found
  have address : n₀.orderedData.address = n.orderedData.address := by
    have fixed := congrArg (fun m : SeqNode => m.orderedData.address) same
    exact fixed
  rwa [address] at recorded

omit [DecidableEq ι] in
/-- With numbers that are all different the prepared log has all of these. -/
theorem mem_prepared_iff {cLog : CheckpointLog} (numbered : cLog.Numbered)
    {lastPool : List (PmemAddrTraceItem ι)} {pop addr : UInt64} {q : Int} :
    q ∈ equalRange (addressSeqCreation (preparedLog cLog lastPool pop)) addr ↔
      RecordedAt cLog addr q := by
  refine ⟨recorded_of_prepared, ?_⟩
  rintro ⟨p, version, rfl, rfl⟩
  obtain ⟨tied, -⟩ := preparedLog_kept cLog lastPool pop
  obtain ⟨d, found, records⟩ := (sequenceLog_spec numbered logSize).1 p version
  have inTable : (preparedLog cLog lastPool pop).InTable (seqOf p) := by
    rw [SeqLog.InTable, hashCode, tied.size, sequenceLog_size]
    exact bucketIndex_bounds (by decide) (by decide) (numbered.nonneg p version)
  have record := tied.record (seqOf p)
  rw [found, Option.map_some] at record
  obtain ⟨n, here, same⟩ := Option.map_eq_some_iff.mp record
  have key : n.sequenceNumber = seqOf p := by
    have fixed := congrArg SeqNode.sequenceNumber same
    exact fixed
  have address : n.orderedData.address = p.1.cData.address := by
    have fixed := congrArg (fun m : SeqNode => m.orderedData.address) same
    exact fixed.trans records.address
  rw [mem_equalRange, addressSeqCreation, List.mem_map]
  exact ⟨n, SeqLog.mem_nodes_of_find inTable here, by rw [address, key]⟩

/-- The trace has an instruction of some kind write where update `q` was made. -/
def WrittenBy (addrTrace : List (PmemAddrTraceItem ι)) (cLog : CheckpointLog) (kind : ι → Prop)
    (q : Int) : Prop :=
  ∃ i, kind i ∧ ∃ item ∈ addrTrace, item.instr = some i ∧ RecordedAt cLog item.addr q

/-- The rounds bring up updates that instructions of the slices wrote. -/
theorem written_of_itemNumbers {addrTrace lastPool : List (PmemAddrTraceItem ι)}
    {cLog : CheckpointLog} {pop : UInt64} {kind : ι → Prop} {i : ι} (ofKind : kind i) {q : Int}
    (number : q ∈ itemNumbers addrTrace (addressSeqCreation (preparedLog cLog lastPool pop)) i) :
    WrittenBy addrTrace cLog kind q := by
  obtain ⟨item, listed, mapped⟩ := List.mem_flatMap.mp (List.mem_filter.mp number).1
  obtain ⟨traced, instr⟩ := instr_of_traced listed
  rw [addressNumbers, List.mem_reverse, sortDescending, List.mem_insertionSort] at mapped
  exact ⟨i, ofKind, item, traced, instr, recorded_of_prepared mapped⟩

/-- All of them, when the numbers are all different. -/
theorem mem_rounds_iff {addrTrace lastPool : List (PmemAddrTraceItem ι)} {cLog : CheckpointLog}
    (numbered : cLog.Numbered) {pop : UInt64} {faultSlices : List (List ι)} {q : Int} :
    q ∈ (sliceRounds addrTrace (addressSeqCreation (preparedLog cLog lastPool pop))
        faultSlices).flatten ↔ WrittenBy addrTrace cLog (· ∈ faultSlices.flatten) q := by
  constructor
  · intro member
    obtain ⟨round, listed, number⟩ := List.mem_flatten.mp member
    obtain ⟨i, ofSlice, rfl⟩ := List.mem_map.mp listed
    exact written_of_itemNumbers ofSlice number
  · rintro ⟨i, ofSlice, item, traced, instr, recorded⟩
    have nonneg : 0 ≤ q := by
      obtain ⟨p, version, rfl, -⟩ := recorded
      exact numbered.nonneg p version
    obtain ⟨slice, isSlice, inside⟩ := List.mem_flatten.mp ofSlice
    exact (mem_sliceRounds _ _ nonneg).mpr ⟨nonneg, slice, isSlice, i, inside, item, traced, instr,
      (mem_prepared_iff numbered).mpr recorded⟩

section Reaction

variable {env : Env} {state : ReactorState ι} {w w' opened : World} {faultSlices : List (List ι)}
  {pop : UInt64} {cLog : CheckpointLog} {fuel : Nat} {ret : Int}

/-- In slice mode the request runs the loop over the slices, from the opened pool. -/
theorem ReachesLoops.run_items (reaches : ReachesLoops env state w faultSlices pop cLog opened)
    (sliceMode : state.arckpt = false) (run : react env fuel state w = some (ret, w')) :
    let prepared : World :=
      { opened with pop := some pop, sLog := preparedLog cLog state.lastPool pop }
    Frame w prepared 0 [] ∧ ∃ p, p.world = w' ∧
      sliceItems cLog env state.pmemLibrary state.poolAddress fuel state.addrTrace
        (addressSeqCreation (preparedLog cLog state.lastPool pop)) faultSlices.flatten
        (SliceState.start (orderBySequenceNum (SeqLog.empty logSize) 0 cLog).2 prepared) =
          some p := by
  have frame := openPool_frame env state.pmemLibrary w
  rw [reaches.opens] at frame
  refine ⟨⟨frame.runs, frame.tries, frame.count, frame.success, frame.items, frame.history⟩, ?_⟩
  rw [reaches.react_eq, reactLoops, if_neg (by simp [sliceMode]), sliceLoop_eq] at run
  split at run
  · cases run
  · next looped =>
    obtain ⟨-, rfl⟩ := Prod.mk.inj (Option.some.inj run)
    exact ⟨_, rfl, looped⟩
  · next looped =>
    obtain ⟨-, rfl⟩ := Prod.mk.inj (Option.some.inj run)
    exact ⟨_, rfl, looped⟩

/-- A request in slice mode hands over, reverts and undoes only updates that instructions of the
slices wrote. -/
theorem react_touches (slices : state.faultSlices = some faultSlices)
    (sliceMode : state.arckpt = false) (count : w.binaryReversionCount = 0) (enough : 3 ≤ fuel)
    (run : react env fuel state w = some (ret, w')) :
    Touches (fun q => ∃ cLog, state.checkpoint = some cLog ∧
      WrittenBy state.addrTrace cLog (· ∈ faultSlices.flatten) q) w w' := by
  by_cases loops : ∃ faultSlices pop cLog opened,
      ReachesLoops env state w faultSlices pop cLog opened
  · obtain ⟨faultSlices', pop, cLog, opened, reaches⟩ := loops
    obtain rfl : faultSlices' = faultSlices := Option.some.inj (reaches.slices.symm.trans slices)
    obtain ⟨frame, p, rfl, looped⟩ := reaches.run_items sliceMode run
    obtain ⟨trace, before, unmarked⟩ := frame.history
    have first := Touches.mono (P := fun _ => False) (Q := fun q => ∃ cLog,
      state.checkpoint = some cLog ∧ WrittenBy state.addrTrace cLog (· ∈ faultSlices'.flatten) q)
      ⟨trace, before, by rw [unmarked]; simp⟩ fun _ absurd => absurd.elim
    refine first.trans (sliceItems_touches cLog env state.pmemLibrary state.poolAddress
      state.addrTrace _ enough faultSlices'.flatten (fun i member q number => ?_)
      (tracks_start _ (frame.count.trans count)) (by simp) looped)
    exact ⟨cLog, reaches.checkpoint, written_of_itemNumbers member number⟩
  · obtain ⟨ret', left, again, -, opened⟩ := react_ends fuel loops
    obtain rfl := (Prod.mk.inj (Option.some.inj (again.symm.trans run))).2
    rcases opened with rfl | ⟨pop, rfl⟩
    · exact .refl _
    · obtain ⟨trace, before, unmarked⟩ := (openPool_frame env state.pmemLibrary w).history
      exact ⟨trace, before, by rw [unmarked]; simp⟩

/-- When no re-execution succeeds the batches are, each once, the updates that instructions of
the slices wrote, but one at most. -/
theorem ReachesLoops.batches_eq (reaches : ReachesLoops env state w faultSlices pop cLog opened)
    (sliceMode : state.arckpt = false) (count : w.binaryReversionCount = 0) (enough : 3 ≤ fuel)
    (numbered : cLog.Numbered) (run : react env fuel state w = some (ret, w'))
    (failed : Mark.reexecuted true ∉ marks (w.since w')) :
    ∃ left : List Int, left.length ≤ 1 ∧
      ((batches (marks (w.since w'))).flatten ++ left).Nodup ∧
        ∀ q, q ∈ (batches (marks (w.since w'))).flatten ++ left ↔
          WrittenBy state.addrTrace cLog (· ∈ faultSlices.flatten) q := by
  obtain ⟨frame, p, rfl, looped⟩ := reaches.run_items sliceMode run
  let seqNums := addressSeqCreation (preparedLog cLog state.lastPool pop)
  let rounds := sliceRounds state.addrTrace seqNums faultSlices
  obtain ⟨p', ms, again, did⟩ := sliceItems_looped cLog env state.pmemLibrary state.poolAddress
    state.addrTrace seqNums enough faultSlices.flatten (tracks_start
      (orderBySequenceNum (SeqLog.empty logSize) 0 cLog).2 (frame.count.trans count))
  obtain rfl := Option.some.inj (again.symm.trans looped)
  have whole : marks (w.since p'.world) = ms := by
    obtain ⟨trace, before, unmarked⟩ := frame.history
    obtain ⟨trace', after, isMs⟩ := did.ran.history
    have both : p'.world.history = (trace' ++ trace) ++ w.history := by
      rw [after, List.append_assoc, ← before]
      rfl
    rw [since_eq both, marks_append, unmarked, isMs, List.nil_append]
  rw [whole] at failed ⊢
  cases p' with
  | returned ret' left => exact absurd (mem_answers_iff.mp did.ended.2) failed
  | next st =>
    have kept : (Batching.run ⟨[], []⟩ rounds).1.flatten ++
        (Batching.run (⟨[], []⟩ : Stage Int) rounds).2.pending = fresh [] rounds.flatten :=
      run_flatten _ _
    have perm : ((batches ms).flatten ++
        (Batching.run (⟨[], []⟩ : Stage Int) rounds).2.pending).Perm (fresh [] rounds.flatten) := by
      rw [← kept, did.ended.2]
      refine List.Perm.append_right _ (List.perm_iff_count.mpr fun q => ?_)
      exact count_flatten_sorted _ q
    refine ⟨_, run_pending_length_le rounds, perm.nodup_iff.mpr (nodup_fresh _ _), fun q => ?_⟩
    rw [perm.mem_iff, mem_fresh, and_iff_left (List.not_mem_nil)]
    exact mem_rounds_iff numbered

end Reaction

end Recorded

section Mitigation

variable {δ β γ ι φ : Type} [DecidableEq δ] [DecidableEq β] [DecidableEq γ] [DecidableEq ι]
  [DecidableEq φ] [Fintype δ] {g : DependenceGraph δ β γ ι φ} {insts : φ → List ι} {faultInst : ι}
  {sliceCtrl computed : Bool} {sliceFuel walks : Nat} {s s' : SlicerState δ β γ φ}
  {slices : List (List ι)} {env : Env} {state : ReactorState ι} {w w' opened : World}
  {pop : UInt64} {cLog : CheckpointLog} {fuel : Nat} {ret : Int}

/-- A mitigation in slice mode hands over, reverts and undoes only updates that were made where
the trace has the fault instruction, or one that it depends on, write to. -/
theorem react_reverts_dependences
    (sliced : SliceFaultInstr g insts faultInst sliceCtrl sliceFuel s computed (some slices) s')
    (backward : s.slicer.direction = .backward) (earlier : EarlierWalks g walks s.data)
    (few : walks < 2 ^ 32 - 1) (enoughSlicing : Fintype.card δ < sliceFuel)
    (handed : state.faultSlices = some slices) (sliceMode : state.arckpt = false)
    (count : w.binaryReversionCount = 0) (enough : 3 ≤ fuel)
    (run : react env fuel state w = some (ret, w')) :
    ∃ node, g.getValue node = .instruction faultInst ∧
      ∀ m ∈ marks (w.since w'), ∀ q ∈ m.numbers, ∃ cLog, state.checkpoint = some cLog ∧
        WrittenBy state.addrTrace cLog (FaultDependence g sliceCtrl faultInst node) q := by
  obtain ⟨node, held, values, -⟩ := sliced.spec backward earlier few enoughSlicing
  refine ⟨node, held, fun m member q number => ?_⟩
  obtain ⟨cLog, checkpoint, i, ofSlice, written⟩ :=
    (react_touches handed sliceMode count enough run).since m member q number
  exact ⟨cLog, checkpoint, i, (values i).mp ofSlice, written⟩

/-- When none of its re-executions succeeds it has tried all of these updates, each in one
batch, but one at most. -/
theorem react_tries_dependences
    (sliced : SliceFaultInstr g insts faultInst sliceCtrl sliceFuel s computed (some slices) s')
    (backward : s.slicer.direction = .backward) (earlier : EarlierWalks g walks s.data)
    (few : walks < 2 ^ 32 - 1) (enoughSlicing : Fintype.card δ < sliceFuel)
    (reaches : ReachesLoops env state w slices pop cLog opened) (sliceMode : state.arckpt = false)
    (count : w.binaryReversionCount = 0) (enough : 3 ≤ fuel) (numbered : cLog.Numbered)
    (run : react env fuel state w = some (ret, w'))
    (failed : Mark.reexecuted true ∉ marks (w.since w')) :
    ∃ node, g.getValue node = .instruction faultInst ∧ ∃ left : List Int, left.length ≤ 1 ∧
      ((batches (marks (w.since w'))).flatten ++ left).Nodup ∧
        ∀ q, q ∈ (batches (marks (w.since w'))).flatten ++ left ↔
          WrittenBy state.addrTrace cLog (FaultDependence g sliceCtrl faultInst node) q := by
  obtain ⟨node, held, values, -⟩ := sliced.spec backward earlier few enoughSlicing
  obtain ⟨left, short, nodup, members⟩ :=
    reaches.batches_eq sliceMode count enough numbered run failed
  refine ⟨node, held, left, short, nodup, fun q => ?_⟩
  simp only [members, WrittenBy, values]

end Mitigation

section Examples

/-- Instruction `true` uses the value of instruction `false`. -/
def useGraph : DependenceGraph Bool Unit Unit Bool Unit where
  getValue := .instruction
  getOpcode _ := .other
  getFunction _ := ()
  getBBlock _ := some ()
  getDG _ := some ()
  edges
    | .user, true => [false]
    | .use, false => [true]
    | _, _ => []
  blockControl _ := []
  blockRevControl _ := []
  getNodes _ := [false, true]
  edges_reverse k := by cases k <;> decide
  blockControl_reverse := by decide
  getBBlock_of_mem := by decide

/-- A slicer for `useGraph` that has made no slice. -/
def useSlicer : SlicerState Bool Unit Unit Unit where
  slicer := ⟨.backward, 0⟩
  funcDgMap := some [((), ⟨(), [false, true], none, [()]⟩)]
  statistics := .zero
  data := ⟨0, fun _ => 0, fun _ => 0, fun _ => 0, fun _ => 0⟩

theorem useSlicer_unwalked : EarlierWalks useGraph 0 useSlicer.data := .fresh rfl fun _ => rfl

/-- The slices of instruction `true`, from a slice graph whose edges can be sorted. -/
theorem exists_slices {g : DependenceGraph Bool Unit Unit Bool Unit}
    {s : SlicerState Bool Unit Unit Unit} {sg : GrowingGraph Bool Unit}
    {rest : Nat × SlicerState Bool Unit Unit Unit} (placed : PlacedGraph Nat Bool Unit)
    (slice : s.sliceInstruction g true 0 .storing (faultDepFlags false) 3 = some (some sg, rest))
    (same : placed.toSliceGraph = sg.toSliceGraph) (backward : sg.direction = .backward)
    (distances : ∀ n ∈ placed.nodes, (∀ e ∈ placed.distanced n, e.distance ≠ Int64.minValue) ∧
      ∀ z ∈ placed.distanced n, z.distance = 0 → ∀ e ∈ placed.distanced n,
        ∀ e' ∈ placed.distanced n, e.distance < 0 → e'.distance < 0 →
          e.distance = e'.distance) :
    ∃ slices, SliceFaultInstr g placed.insts true false 3 s true (some slices) rest.2 := by
  have valid : ∀ n ∈ placed.nodes,
      sliceEdgeComparator.StrictWeak {e | e ∈ placed.distanced n} := fun n member =>
    byDistance_strictWeak_iff.mpr (distances n member)
  obtain ⟨slices, computed⟩ := exists_slicesOf same backward valid
  exact ⟨slices, .sliced slice computed⟩

theorem useSlices : ∃ slices s',
    SliceFaultInstr useGraph (fun _ => [false, true]) true false 3 useSlicer true (some slices)
      s' := by
  let found := useSlicer.sliceInstruction useGraph true 0 .storing (faultDepFlags false) 3
  have defined : found = some (found.get (by decide)) := (Option.some_get _).symm
  let sg := (found.get (by decide)).1
  have built : sg = some (sg.get (by decide)) := (Option.some_get _).symm
  let placed : PlacedGraph Nat Bool Unit :=
    { (sg.get (by decide)).toSliceGraph with
      insts := fun _ => [false, true]
      mem_insts := by decide
      nodup_insts := by decide }
  have slice : found = some (some (sg.get (by decide)), (found.get (by decide)).2) := by
    rw [← built]
    exact defined
  obtain ⟨slices, sliced⟩ := exists_slices placed slice rfl (by decide) (by decide)
  exact ⟨slices, _, sliced⟩

/-- A request for instruction `true`, with a trace of instruction `false`. -/
def useState (slices : List (List Bool)) : ReactorState Bool where
  ready := true
  faultInst := some true
  faultSlices := some slices
  pmemFile := true
  pmemLibrary := .libpmemobj
  arckpt := false
  poolAddress := 64
  lastPool := [⟨0, 16, some false⟩]
  addrTrace := [⟨0, 16, some false⟩]
  checkpoint := some pairLog

/-- A reaction to the request gets to its loops, and never succeeds. -/
theorem useState_failed (slices : List (List Bool)) :
    ReachesLoops failingEnv (useState slices) pairWorld slices 128 pairLog
      (openPool failingEnv .libpmemobj pairWorld).2 ∧
    ∃ w', react failingEnv 3 (useState slices) pairWorld = some (1, w') ∧
      Mark.reexecuted true ∉ marks (pairWorld.since w') := by
  have reaches : ReachesLoops failingEnv (useState slices) pairWorld slices 128 pairLog
      (openPool failingEnv .libpmemobj pairWorld).2 :=
    ⟨rfl, rfl, rfl, rfl, rfl, List.cons_ne_nil _ _, rfl⟩
  obtain ⟨w', ms, run, ran, -⟩ := reaches.ran (le_refl 3) rfl
  refine ⟨reaches, w', run, ?_⟩
  rw [ran.since, ← mem_answers_iff, ran.mem_answers]
  rintro ⟨i, -, success⟩
  exact absurd success Bool.false_ne_true

theorem react_reverts_dependences_use : ∃ slices ret w',
    react failingEnv 3 (useState slices) pairWorld = some (ret, w') ∧
      ∃ node, useGraph.getValue node = .instruction true ∧
        ∀ m ∈ marks (pairWorld.since w'), ∀ q ∈ m.numbers, ∃ cLog,
          (useState slices).checkpoint = some cLog ∧
            WrittenBy (useState slices).addrTrace cLog
              (FaultDependence useGraph false true node) q := by
  obtain ⟨slices, s', sliced⟩ := useSlices
  obtain ⟨ret, w', run⟩ := react_returns failingEnv (le_refl 3) (useState slices)
    (w := pairWorld) rfl
  exact ⟨slices, ret, w', run, react_reverts_dependences sliced rfl useSlicer_unwalked (by decide)
    (by decide) rfl rfl rfl (le_refl 3) run⟩

theorem react_tries_dependences_use : ∃ slices ret w',
    react failingEnv 3 (useState slices) pairWorld = some (ret, w') ∧
      ∃ node, useGraph.getValue node = .instruction true ∧ ∃ left : List Int, left.length ≤ 1 ∧
        ((batches (marks (pairWorld.since w'))).flatten ++ left).Nodup ∧
          ∀ q, q ∈ (batches (marks (pairWorld.since w'))).flatten ++ left ↔
            WrittenBy (useState slices).addrTrace pairLog
              (FaultDependence useGraph false true node) q := by
  obtain ⟨slices, s', sliced⟩ := useSlices
  obtain ⟨reaches, w', run, failed⟩ := useState_failed slices
  exact ⟨slices, 1, w', run, react_tries_dependences sliced rfl useSlicer_unwalked (by decide)
    (by decide) reaches rfl rfl (le_refl 3) pairLog_numbered run failed⟩

end Examples

end Arthas.Reactor
