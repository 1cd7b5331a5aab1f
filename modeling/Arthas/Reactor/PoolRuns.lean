import Arthas.Reactor.PoolSafety

/-!
The writes of a whole run of `react` on an object pool: through the search, the slice
loop and the ArCkpt loop, from the addresses that the trace gave the log.
-/

set_option autoImplicit false
set_option relaxedAutoImplicit false

namespace Arthas.Reactor

open Arthas.Lib ByteImage Checkpoint Multimap HalvingSearch

variable {ι : Type*} [DecidableEq ι]

section Search

variable {cLog : CheckpointLog} {s₀ : SeqLog} {traced : List UInt64} {w₀ w w' : World}
  {tr : List Event}

theorem Settled.attempted (h : Settled cLog s₀ traced w₀ tr w) (env : Env) {l : List Int}
    (hl : Known s₀ l) :
    ∃ tr', Settled cLog s₀ traced w₀ tr' (afterAttempt cLog env .libpmemobj l w) ∧
      passed tr' = true := by
  let start : World := { w with binaryRevertedItems := l.length }
  let reverted := revertBySequenceNumberArray cLog l start
  let ran := afterReExecute env (pmemobjClose reverted.pop reverted)
  have hstart : Settled cLog s₀ traced w₀ tr start := h.congr rfl rfl rfl rfl
  obtain ⟨hbase, tr₁, hkept, hpassed⟩ := hstart.reverted env hl
  obtain ⟨tr₂, hkept', hpassed'⟩ := hkept.calm (Calm.countRun ran)
  exact hkept'.redo env hbase (hpassed'.trans hpassed)

theorem known_sorted {l : List Int} (h : ∀ q ∈ l, s₀.Holds q) : Known s₀ (qsortReverse l) :=
  fun q hq _ => h q (mem_qsortReverse.mp hq)

theorem Settled.givenUp (h : Settled cLog s₀ traced w₀ tr w) (env : Env) {block : List Int}
    (hl : ∀ q ∈ block, s₀.Holds q) :
    ∃ tr', Settled cLog s₀ traced w₀ tr' (givenUp cLog env .libpmemobj block w) ∧
      passed tr' = true := by
  obtain ⟨tr', hsettled, hpassed⟩ := h.attempted env (known_sorted hl)
  have hcounted : Settled cLog s₀ traced w₀ tr' { afterAttempt cLog env .libpmemobj
      (qsortReverse block) w with binaryReversionCount :=
        (afterAttempt cLog env .libpmemobj (qsortReverse block) w).binaryReversionCount + 1 } :=
    hsettled.congr rfl rfl rfl rfl
  exact hcounted.undone hl hpassed

/-- The search leaves the run settled, whichever way its calls end. -/
theorem Settled.searched (env : Env) (poolAddress : UInt64) {fuel : Nat} {l : List Int}
    (hne : l ≠ []) (hl : ∀ q ∈ l, s₀.Holds q) {ret : Int}
    (h : Settled cLog s₀ traced w₀ tr w)
    (hrun : binaryReversion cLog env .libpmemobj poolAddress fuel l 0 (l.length - 1) w =
      some (ret, w')) : ∃ tr', Settled cLog s₀ traced w₀ tr' w' := by
  induction fuel generalizing l w tr ret with
  | zero => cases hrun
  | succ fuel ih =>
    have hupper : ∀ q ∈ upper l, s₀.Holds q := fun q hq => hl q ((upper_sublist l).subset hq)
    have hlower : ∀ q ∈ lower l, s₀.Holds q := fun q hq => hl q ((lower_sublist l).subset hq)
    obtain ⟨trGiven, hgiven, -⟩ := h.givenUp env hupper
    rw [binaryReversion_succ cLog env .libpmemobj poolAddress fuel hne] at hrun
    split_ifs at hrun
    · obtain ⟨tr', hsettled, -⟩ := h.attempted env (known_sorted hupper)
      cases hrun
      exact ⟨tr', hsettled.congr rfl rfl rfl rfl⟩
    · obtain ⟨r, hr, heq⟩ := Option.map_eq_some_iff.mp hrun
      cases heq
      exact ih (upper_ne_nil hne) hupper hgiven hr
    · have hreset : Settled cLog s₀ traced w₀ trGiven
          { Reactor.givenUp cLog env .libpmemobj (upper l) w with binaryReversionCount := 0 } :=
        hgiven.congr rfl rfl rfl rfl
      obtain ⟨tr', hsettled, -⟩ := hreset.attempted env (known_sorted hlower)
      cases hrun
      refine ⟨tr', ?_⟩
      unfold afterLower
      split_ifs
      · exact hsettled.congr rfl rfl rfl rfl
      · exact hsettled
    · obtain ⟨r, hr, heq⟩ := Option.map_eq_some_iff.mp hrun
      cases heq
      exact ih (lower_ne_nil hne) hlower hgiven hr

/-- The ArCkpt loop keeps what is kept. -/
theorem Settled.arckpt (h : Settled cLog s₀ traced w₀ tr w) (env : Env) (poolAddress : UInt64)
    {cpktInd : Nat} (hknown : ∀ q : Int, 0 ≤ q → Known s₀ [q]) {ret : Int}
    (hrun : arckptLoop cLog env .libpmemobj poolAddress cpktInd w = some (ret, w')) :
    ∃ tr', Kept cLog s₀ traced w₀ tr' w' := by
  induction cpktInd generalizing w tr with
  | zero =>
    cases hrun
    exact ⟨tr, h.toKept⟩
  | succ cpktInd ih =>
    have hstart : Settled cLog s₀ traced w₀ tr { w with
        totalRevertedItems := w.totalRevertedItems + 1
        totalReexecutions := w.totalReexecutions + 1 } := h.congr rfl rfl rfl rfl
    obtain ⟨hbase, tr₁, hkept, hpassed⟩ :=
      hstart.reverted env (hknown ((cpktInd : Int) + 1) (by omega))
    rw [arckptLoop_succ] at hrun
    simp only at hrun
    split_ifs at hrun
    · cases hrun
      exact ⟨tr₁, hkept⟩
    · obtain ⟨tr₂, hsettled, -⟩ := hkept.redo env hbase hpassed
      exact ih hsettled hrun

end Search

section Slices

variable {cLog : CheckpointLog} {s₀ : SeqLog} {traced : List UInt64} {w₀ : World}

/-- The numbers collected so far have nodes in the table, and the run is settled. -/
structure Collects (cLog : CheckpointLog) (s₀ : SeqLog) (traced : List UInt64) (w₀ : World)
    (st : SliceState) : Prop where
  many : ∀ q ∈ st.manyAddressSeq, s₀.Holds q
  slice : ∀ q ∈ st.sliceSeqNumbers, s₀.Holds q
  settled : ∃ tr, Settled cLog s₀ traced w₀ tr st.world

/-- What a part of the slice loop keeps. -/
def Progresses (cLog : CheckpointLog) (s₀ : SeqLog) (traced : List UInt64) (w₀ : World) :
    Progress → Prop
  | .returned _ w => ∃ tr, Kept cLog s₀ traced w₀ tr w
  | .next st => Collects cLog s₀ traced w₀ st

theorem progresses_andThen {p : Option Progress} {f : SliceState → Option Progress} {r : Progress}
    (hp : ∀ r, p = some r → Progresses cLog s₀ traced w₀ r)
    (hf : ∀ st r, Collects cLog s₀ traced w₀ st → f st = some r → Progresses cLog s₀ traced w₀ r)
    (h : andThen p f = some r) : Progresses cLog s₀ traced w₀ r := by
  cases p with
  | none => cases h
  | some r' =>
    cases r' with
    | returned ret w =>
      cases h
      exact hp _ rfl
    | next st => exact hf st r (hp (.next st) rfl) h

theorem Settled.batch {tr : List Event} {w : World} (h : Settled cLog s₀ traced w₀ tr w)
    (l : List Int) : Settled cLog s₀ traced w₀ (.batch l :: tr) (w.log (.batch l)) where
  tied := h.tied
  history := congrArg (_ :: ·) h.history
  safe := by
    rw [List.forall_mem_cons, h.safe]
    rfl
  pop := h.pop
  address := h.address

theorem Collects.collect {st : SliceState} (h : Collects cLog s₀ traced w₀ st) {xs : List Int}
    (hxs : ∀ q ∈ xs, s₀.Holds q) : Collects cLog s₀ traced w₀ (xs.foldl collectNumber st) := by
  induction xs generalizing st with
  | nil => exact h
  | cons q xs ih =>
    refine ih ?_ fun p hp => hxs p (List.mem_cons_of_mem _ hp)
    have hq := hxs q List.mem_cons_self
    unfold collectNumber
    simp only
    split_ifs
    · refine ⟨fun p hp => ?_, fun p hp => ?_, h.settled⟩
      · rcases List.mem_append.mp hp with hp | hp
        · exact h.many p hp
        · exact List.mem_singleton.mp hp ▸ hq
      · rcases List.mem_append.mp hp with hp | hp
        · exact h.slice p hp
        · exact List.mem_singleton.mp hp ▸ hq
    · exact h

variable (env : Env) (poolAddress : UInt64) (fuel : Nat)

theorem Collects.many_reversion {st : SliceState} (h : Collects cLog s₀ traced w₀ st) (p : Progress)
    (hrun : manyReversion cLog env .libpmemobj poolAddress fuel st = some p) :
    Progresses cLog s₀ traced w₀ p := by
  obtain ⟨tr, hsettled⟩ := h.settled
  unfold manyReversion at hrun
  split_ifs at hrun with hmany
  · let many := sortAscending st.manyAddressSeq
    let start : World := { st.world.log (.batch many) with binarySuccess := -1 }
    have hlen : many.length = st.manyAddressSeq.length := List.length_insertionSort _ _
    have hne : many ≠ [] := by
      rw [← List.length_pos_iff, hlen]
      exact Nat.lt_of_le_of_lt (Nat.zero_le _) hmany
    have hheld : ∀ q ∈ many, s₀.Holds q := fun q hq =>
      h.many q ((List.mem_insertionSort _).mp hq)
    have hstart : Settled cLog s₀ traced w₀ (.batch many :: tr) start :=
      (hsettled.batch many).congr rfl rfl rfl rfl
    cases hsearch : binaryReversion cLog env .libpmemobj poolAddress fuel many 0 (many.length - 1)
        start with
    | none =>
      simp only [start, many] at hsearch
      simp only [hsearch] at hrun
      cases hrun
    | some r =>
      obtain ⟨tr', hdone⟩ := hstart.searched env poolAddress hne hheld hsearch
      simp only [start, many] at hsearch
      simp only [hsearch] at hrun
      split_ifs at hrun
      · cases hrun
        exact ⟨tr', hdone.tied, hdone.history, hdone.safe⟩
      · cases hrun
        exact ⟨by simp, h.slice, tr', hdone.congr rfl rfl rfl rfl⟩
  · cases hrun
    exact h

theorem Collects.direct_reversion {st : SliceState} (h : Collects cLog s₀ traced w₀ st)
    (p : Progress) (hrun : directReversion cLog env .libpmemobj poolAddress st = some p) :
    Progresses cLog s₀ traced w₀ p := by
  obtain ⟨tr, hsettled⟩ := h.settled
  unfold directReversion at hrun
  by_cases hdirect : st.sliceSeqNumbers.length ≥ 1 ∧
      st.manyAddressSeq.length < batchReexecution ∧ ¬ st.manyAddressClear
  swap
  · rw [if_neg hdirect] at hrun
    cases hrun
    exact h
  let decided := qsortReverse st.sliceSeqNumbers
  let start := st.world.log (.batch decided)
  let reverted := revertBySequenceNumberArray cLog decided start
  let ran := afterReExecute env (pmemobjClose reverted.pop reverted)
  have hpos : (decisionFuncSequenceArray st.sliceSeqNumbers [] 0).2 > 0 := by
    have := hdirect.1
    simp only [decisionFuncSequenceArray]
    omega
  rw [if_pos hdirect] at hrun
  simp only [decision_take, if_pos hpos, if_true, reExecuteFineGrain_eq, Option.map_some,
    Option.some.injEq] at hrun
  obtain ⟨hbase, tr₁, hkept, hpassed⟩ :=
    (hsettled.batch decided).reverted env (known_sorted h.slice)
  obtain ⟨tr₂, hkept', hpassed'⟩ := hkept.calm (Calm.countRun ran)
  obtain ⟨tr₃, hdone, -⟩ := hkept'.redo env hbase (hpassed'.trans hpassed)
  rw [← hrun]
  split_ifs
  · exact ⟨tr₃, hdone.tied, hdone.history, hdone.safe⟩
  · exact ⟨h.many, h.slice, tr₃, hdone.congr rfl rfl rfl rfl⟩

variable (addrTrace : List (PmemAddrTraceItem ι)) {addressSeqNums : Multimap UInt64 Int}
  (hnums : ∀ p ∈ addressSeqNums, s₀.Holds p.2)

include hnums

theorem Collects.slice_item (depInst : ι) {st : SliceState} (h : Collects cLog s₀ traced w₀ st)
    {p : Progress} (hrun : sliceItem cLog env .libpmemobj poolAddress fuel addrTrace addressSeqNums
      depInst st = some p) : Progresses cLog s₀ traced w₀ p := by
  have hcollect : Collects cLog s₀ traced w₀
      ((equalRange (traceInstrs addrTrace) (some depInst)).foldl
        (collectTraceItem addressSeqNums depInst) st) := by
    rw [foldl_collectTraceItem addressSeqNums depInst _ fun item hitem => (instr_of_traced hitem).2]
    apply h.collect
    intro q hq
    obtain ⟨item, -, hnum⟩ := List.mem_flatMap.mp hq
    rw [addressNumbers, List.mem_reverse, sortDescending, List.mem_insertionSort,
      mem_equalRange] at hnum
    exact hnums _ hnum
  refine progresses_andThen (hcollect.many_reversion env poolAddress fuel) ?_ hrun
  intro st₁ r h₁ hdirect
  refine progresses_andThen (h₁.direct_reversion env poolAddress) ?_ hdirect
  intro st₂ r' h₂ hreset
  cases hreset
  exact ⟨h₂.many, by simp, h₂.settled⟩

theorem Collects.slice_items (slice : List ι) {st : SliceState}
    (h : Collects cLog s₀ traced w₀ st) {p : Progress} (hrun : sliceItems cLog env .libpmemobj
      poolAddress fuel addrTrace addressSeqNums slice st = some p) :
    Progresses cLog s₀ traced w₀ p := by
  induction slice generalizing st p with
  | nil =>
    cases hrun
    exact h
  | cons depInst slice ih =>
    exact progresses_andThen
      (fun r hr => h.slice_item env poolAddress fuel addrTrace hnums depInst hr)
      (fun st' r h' hr => ih h' hr) hrun

end Slices

/-! The log as `react` prepares it. -/

/-- `lookup_modify`'s change of the record. -/
def setAddress (addr : UInt64) (d : SingleData) : SingleData :=
  { d with sortedPmemAddress := some addr }

/-- Setting the address of each pair's number sets that of `q` when the pairs bring it up,
always for the same offset. -/
theorem foldl_lookupModify {ps : List (UInt64 × Int)} {q : Int} (offset : UInt64)
    (hps : ∀ p ∈ ps, p.2 = q → p.1 = offset) (pop : UInt64) (s : SeqLog) :
    (ps.foldl (fun s p => lookupModify s p.2 (pop + p.1)) s).find q =
      if q ∈ ps.map Prod.snd then (s.find q).map (SeqNode.update (setAddress (pop + offset)))
      else s.find q := by
  induction ps generalizing s with
  | nil => rfl
  | cons p ps ih =>
    have hone : (lookupModify s p.2 (pop + p.1)).find q =
        if q = p.2 then (s.find p.2).map (SeqNode.update (setAddress (pop + p.1)))
        else s.find q := SeqLog.find_modify s p.2 q _
    rw [List.foldl_cons, ih (fun p' hp' => hps p' (List.mem_cons_of_mem _ hp')), hone]
    by_cases hq : q = p.2
    · have hoff : p.1 = offset := hps p List.mem_cons_self hq.symm
      subst hq
      rw [hoff, if_pos rfl, if_pos (List.mem_map_of_mem List.mem_cons_self)]
      split_ifs <;> cases s.find p.2 <;> rfl
    · simp [hq]

theorem sortCreation_eq (offsets : List UInt64) (pop : UInt64) (m : Multimap UInt64 Int)
    (s : SeqLog) :
    sortCreation offsets pop m s =
      (offsets.flatMap fun offset => (equalRange m offset).map fun q => (offset, q)).foldl
        (fun s p => lookupModify s p.2 (pop + p.1)) s := by
  unfold sortCreation
  induction offsets generalizing s with
  | nil => rfl
  | cons offset offsets ih =>
    rw [List.foldl_cons, ih, List.flatMap_cons, List.foldl_append, List.foldl_map]

/-- The traced offsets are given their address in the pool, and no others. -/
theorem find_sortCreation {s : SeqLog} (hs : s.WellPlaced) (offsets : List UInt64) (pop : UInt64)
    {q : Int} (hq : s.Holds q) :
    (sortCreation offsets pop (offsetSeqCreation s) s).find q =
      if (lookup s q).offset ∈ offsets then (s.find q).map (SeqNode.update (placedAt pop))
      else s.find q := by
  obtain ⟨n, hn⟩ := Option.isSome_iff_exists.mp hq.2
  have hlookup : lookup s q = n.orderedData := by rw [lookup, hn]; rfl
  have hpairs : ∀ offset, (offset, q) ∈ (offsets.flatMap fun offset =>
      (equalRange (offsetSeqCreation s) offset).map fun q => (offset, q)) ↔
      offset ∈ offsets ∧ offset = n.orderedData.offset := by
    intro offset
    simp only [List.mem_flatMap, List.mem_map, Prod.mk.injEq, mem_equalRange, offsetSeqCreation]
    constructor
    · rintro ⟨o, ho, p, ⟨n', hn', hoff, hnum⟩, rfl, rfl⟩
      have hfind := hs.find_of_mem hn'
      rw [hnum, hn] at hfind
      cases hfind
      exact ⟨ho, hoff.symm⟩
    · rintro ⟨ho, rfl⟩
      exact ⟨_, ho, q, ⟨n, SeqLog.mem_nodes_of_find hq.1 hn, rfl, SeqLog.find_key hn⟩, rfl, rfl⟩
  rw [sortCreation_eq, foldl_lookupModify (q := q) n.orderedData.offset, hlookup, hn]
  · have hmem : q ∈ (offsets.flatMap fun offset =>
        (equalRange (offsetSeqCreation s) offset).map fun q => (offset, q)).map Prod.snd ↔
        n.orderedData.offset ∈ offsets := by
      rw [List.mem_map]
      constructor
      · rintro ⟨⟨offset, q'⟩, hp, rfl⟩
        obtain ⟨ho, heq⟩ := (hpairs offset).mp hp
        exact heq ▸ ho
      · exact fun ho => ⟨(_, q), (hpairs _).mpr ⟨ho, rfl⟩, rfl⟩
    simp only [hmem]
    rfl
  · rintro ⟨offset, q'⟩ hp hq'
    cases hq'
    exact ((hpairs offset).mp hp).2

theorem foldl_lookupModify_kept {s₀ : SeqLog} (ps : List (UInt64 × Int)) (pop : UInt64)
    {s : SeqLog} (htied : Tied s₀ s) (hw : s.WellPlaced) :
    Tied s₀ (ps.foldl (fun s p => lookupModify s p.2 (pop + p.1)) s) ∧
      (ps.foldl (fun s p => lookupModify s p.2 (pop + p.1)) s).WellPlaced := by
  induction ps generalizing s with
  | nil => exact ⟨htied, hw⟩
  | cons p ps ih => exact ih (htied.modify p.2 fun _ => rfl) (hw.modify p.2 _)

omit [DecidableEq ι] in
theorem preparedLog_kept (cLog : CheckpointLog) (lastPool : List (PmemAddrTraceItem ι))
    (pop : UInt64) : Tied (sequenceLog logSize cLog) (preparedLog cLog lastPool pop) ∧
      (preparedLog cLog lastPool pop).WellPlaced := by
  unfold preparedLog
  rw [sortCreation_eq]
  exact foldl_lookupModify_kept _ pop (Tied.refl _) (sequenceLog_wellPlaced logSize cLog)

omit [DecidableEq ι] in
theorem address_preparedLog {cLog : CheckpointLog} {q : Int}
    (hq : (sequenceLog logSize cLog).Holds q) (lastPool : List (PmemAddrTraceItem ι))
    (pop : UInt64) : (lookup (preparedLog cLog lastPool pop) q).sortedPmemAddress =
      if (lookup (sequenceLog logSize cLog) q).offset ∈ lastPool.map (·.poolOffset) then
        some (pop + (lookup (sequenceLog logSize cLog) q).offset)
      else none := by
  obtain ⟨n, hn⟩ := Option.isSome_iff_exists.mp hq.2
  have hlookup : lookup (sequenceLog logSize cLog) q = n.orderedData := by rw [lookup, hn]; rfl
  have hfind := find_sortCreation (sequenceLog_wellPlaced logSize cLog)
    (lastPool.map (·.poolOffset)) pop hq
  rw [hlookup, hn] at hfind
  rw [hlookup, preparedLog, lookup, hfind]
  split_ifs
  · rfl
  · exact sequenceLog_unresolved hn

/-- A number that is not negative, and one that the scan meets, lies in the table. -/
theorem holds_of_nonneg {cLog : CheckpointLog} {q : Int} (hq : 0 ≤ q)
    (h : ((sequenceLog logSize cLog).find q).isSome) : (sequenceLog logSize cLog).Holds q := by
  refine ⟨?_, h⟩
  unfold SeqLog.InTable hashCode
  rw [sequenceLog_size]
  exact bucketIndex_bounds (by decide) (by decide) hq

omit [DecidableEq ι] in
theorem holds_of_scanned {cLog : CheckpointLog} {lastPool : List (PmemAddrTraceItem ι)}
    {pop : UInt64} {p : UInt64 × Int}
    (hp : p ∈ addressSeqCreation (preparedLog cLog lastPool pop)) :
    (sequenceLog logSize cLog).Holds p.2 := by
  obtain ⟨htied, hw⟩ := preparedLog_kept cLog lastPool pop
  obtain ⟨n, hn, rfl⟩ := List.mem_map.mp hp
  exact htied.holds.mp ⟨hw.inTable_of_mem hn, by rw [hw.find_of_mem hn]; rfl⟩

/-! The whole run. -/

theorem openPool_calm (env : Env) (pmemLibrary : PmemLibrary) (w : World) :
    Calm w (openPool env pmemLibrary w).2 := by
  cases pmemLibrary with
  | libpmemobj =>
    unfold openPool pmemobjOpen
    cases env.pmemobjOpen w.opens with
    | none => exact Calm.event rfl rfl ⟨rfl, trivial⟩
    | some pop => exact Calm.event rfl rfl ⟨rfl, trivial⟩
  | libpmem => exact Calm.same rfl rfl
  | libpmemobj2 => exact Calm.refl w

/-- The passes among the events of a run are ready, for the log built from its checkpoint
and the offsets of its trace. -/
def ReactorState.PassesReady (state : ReactorState ι) (events : List Event) : Prop :=
  ∀ cLog, state.checkpoint = some cLog →
    Ready cLog (sequenceLog logSize cLog) (state.lastPool.map (·.poolOffset)) events

/-- From the addresses of the trace on, a loop keeps what is kept. -/
theorem reactLoops_kept {env : Env} {fuel : Nat} {state : ReactorState ι}
    (hlib : state.pmemLibrary = .libpmemobj) {faultSlices : List (List ι)} {cLog : CheckpointLog}
    {pop : UInt64} {w₀ w w' : World} {ret : Int} {tr : List Event}
    (hlog : w.sLog = preparedLog cLog state.lastPool pop)
    (h : Settled cLog (sequenceLog logSize cLog) (state.lastPool.map (·.poolOffset)) w₀ tr w)
    (hrun : reactLoops env fuel state faultSlices cLog w = some (ret, w')) :
    ∃ tr', Kept cLog (sequenceLog logSize cLog) (state.lastPool.map (·.poolOffset)) w₀ tr' w' := by
  unfold reactLoops at hrun
  rw [hlib] at hrun
  split_ifs at hrun
  · refine h.arckpt env state.poolAddress (fun q hq p hp hfind => ?_) hrun
    rw [List.mem_singleton.mp hp] at hfind ⊢
    exact holds_of_nonneg hq hfind
  · have hstart : Collects cLog (sequenceLog logSize cLog) (state.lastPool.map (·.poolOffset)) w₀
        (SliceState.start (orderBySequenceNum (SeqLog.empty logSize) 0 cLog).2 w) :=
      ⟨by simp [SliceState.start], by simp [SliceState.start], tr, h⟩
    have hnums : ∀ p ∈ addressSeqCreation w.sLog, (sequenceLog logSize cLog).Holds p.2 :=
      fun p hp => holds_of_scanned (hlog ▸ hp)
    rw [sliceLoop_eq] at hrun
    cases hitems : sliceItems cLog env .libpmemobj state.poolAddress fuel state.addrTrace
        (addressSeqCreation w.sLog) faultSlices.flatten
        (SliceState.start (orderBySequenceNum (SeqLog.empty logSize) 0 cLog).2 w) with
    | none => simp only [hitems] at hrun; cases hrun
    | some p =>
      have hp := hstart.slice_items env state.poolAddress fuel state.addrTrace hnums _ hitems
      simp only [hitems] at hrun
      cases p with
      | returned ret' w'' =>
        cases hrun
        exact hp
      | next st =>
        cases hrun
        obtain ⟨tr', hsettled⟩ := hp.settled
        exact ⟨tr', hsettled.toKept⟩

theorem react_writes {env : Env} {fuel : Nat} {state : ReactorState ι}
    (hlib : state.pmemLibrary = .libpmemobj) {w w' : World} {ret : Int}
    (hrun : react env fuel state w = some (ret, w')) :
    (∀ e ∈ w.since w', e.InPool) ↔ state.PassesReady (w.since w') := by
  by_cases hloops : ∃ faultSlices pop cLog opened,
      ReachesLoops env state w faultSlices pop cLog opened
  swap
  · obtain ⟨ret', w'', hrun', -, hw'⟩ := react_ends fuel hloops
    rw [hrun] at hrun'
    cases hrun'
    have hcalm : Calm w w' := by
      rcases hw' with rfl | ⟨pop, rfl⟩
      · exact Calm.refl w'
      · exact (openPool_calm env state.pmemLibrary w).trans (Calm.same rfl rfl)
    obtain ⟨new, hnew, hquiet⟩ := hcalm.history
    rw [since_eq hnew]
    refine iff_of_true (fun e he => (hquiet e he).2) fun cLog _ => ?_
    exact ready_of_quiet fun e he => (hquiet e he).1
  obtain ⟨faultSlices, pop, cLog, opened, hreach⟩ := hloops
  have hopen := hreach.opens
  rw [hlib] at hopen
  unfold openPool pmemobjOpen at hopen
  cases hpool : env.pmemobjOpen w.opens with
  | none => simp [hpool] at hopen
  | some pop' =>
    simp only [hpool, Prod.mk.injEq, Option.some.injEq] at hopen
    obtain ⟨rfl, rfl⟩ := hopen
    rw [hreach.react_eq fuel] at hrun
    have hsettled : Settled cLog (sequenceLog logSize cLog) (state.lastPool.map (·.poolOffset)) w
        [.opened (some pop')] { w with
          base := some pop'
          opens := w.opens + 1
          history := .opened (some pop') :: w.history
          pop := some pop'
          sLog := preparedLog cLog state.lastPool pop' } := by
      refine {
        tied := (preparedLog_kept cLog state.lastPool pop').1
        history := rfl
        safe := ?_
        pop := rfl
        address := fun q hq b hb => ?_ }
      · exact iff_of_true (by simp [Event.InPool]) ⟨trivial, trivial⟩
      · cases hb
        have hnone : passed [.opened (some pop')] = false := rfl
        simp only [hnone, Bool.false_eq_true, false_or]
        exact address_preparedLog hq state.lastPool pop'
    obtain ⟨tr, hkept⟩ := reactLoops_kept hlib rfl hsettled hrun
    rw [since_eq hkept.history, hkept.safe]
    constructor
    · intro hready cLog' hlog
      rw [hreach.checkpoint] at hlog
      cases hlog
      exact hready
    · exact fun hready => hready cLog hreach.checkpoint

/-- In a run on an object pool every write goes into the open pool, to the offset of its
record, exactly when every pass is ready. -/
theorem react_writes_iff (env : Env) {fuel : Nat} (hfuel : 3 ≤ fuel) (state : ReactorState ι)
    (hlib : state.pmemLibrary = .libpmemobj) {w : World} (hcount : w.binaryReversionCount = 0) :
    ∃ ret w', react env fuel state w = some (ret, w') ∧
      ((∀ e ∈ w.since w', e.InPool) ↔ state.PassesReady (w.since w')) := by
  obtain ⟨ret, w', hrun⟩ := react_returns env hfuel state hcount
  exact ⟨ret, w', hrun, react_writes hlib hrun⟩

/-- A pool that opens, and a command that succeeds. -/
def succeedingEnv : Env := ⟨fun _ => .exited 0, fun _ m => m, fun _ => some 64, none⟩

/-- An ArCkpt request whose trace does not have the offsets of the checkpoint log. -/
def untracedState : ReactorState Nat := { pairState true with lastPool := [⟨80, 99, some 0⟩] }

theorem pairLog_five : (sequenceLog logSize pairLog).Holds 5 ∧
    Records laterEntry 2 (lookup (sequenceLog logSize pairLog) 5) := by
  have hversions : pairLog.versions = [(shrunkEntry, 0), (shrunkEntry, 1), (laterEntry, 0),
      (laterEntry, 1), (laterEntry, 2)] := rfl
  obtain ⟨d, hd, hrec⟩ := (sequenceLog_spec pairLog_numbered logSize).1 (laterEntry, 2)
    (by rw [hversions]; simp)
  have hfive : seqOf (laterEntry, 2) = 5 := rfl
  rw [hfive] at hd
  refine ⟨holds_of_nonneg (by decide) (by rw [hd]; rfl), ?_⟩
  rw [lookup, hd]
  exact hrec

theorem preparedLog_pair_highest (lastPool : List (PmemAddrTraceItem Nat)) (pop : UInt64) :
    findHighestSeqNum (preparedLog pairLog lastPool pop) = 5 := by
  obtain ⟨htied, hw⟩ := preparedLog_kept pairLog lastPool pop
  have hheld := htied.holds.mpr pairLog_five.1
  obtain ⟨n, hn⟩ := Option.isSome_iff_exists.mp hheld.2
  refine findHighestSeqNum_eq (SeqLog.mem_nodes_of_find hheld.1 hn) (SeqLog.find_key hn) (by decide)
    fun m hm => ?_
  have hfound : ((sequenceLog logSize pairLog).find m.sequenceNumber).isSome := by
    rw [← htied.isSome, hw.find_of_mem hm]
    rfl
  by_contra hgt
  have hseqs : pairLog.versions.map seqOf = [1, 2, 3, 4, 5] := by decide
  have hnot : m.sequenceNumber ∉ pairLog.versions.map seqOf := by
    rw [hseqs]
    simp only [List.mem_cons, List.not_mem_nil, or_false]
    omega
  rw [(sequenceLog_spec pairLog_numbered logSize).2.1 _ hnot] at hfound
  exact Bool.false_ne_true hfound

/-- The ArCkpt loop writes for the highest number, also when the first re-execution
succeeds. -/
theorem react_first_write {env : Env} {state : ReactorState ι} {w : World}
    {faultSlices : List (List ι)} {pop : UInt64} {cLog : CheckpointLog} {opened : World}
    (h : ReachesLoops env state w faultSlices pop cLog opened)
    (hlib : state.pmemLibrary = .libpmemobj) (harckpt : state.arckpt = true) (cpktInd : Nat)
    (hhigh : findHighestSeqNum (preparedLog cLog state.lastPool pop) = (cpktInd : Int) + 1)
    (hsucc : env.succeeds opened.coarseGrainedTries opened.runs = true)
    (hcopies : RevertCopies cLog
      (lookup (preparedLog cLog state.lastPool pop) ((cpktInd : Int) + 1))) (fuel : Nat) :
    ∃ w', react env fuel state w = some (1, w') ∧ .copy opened.base
      (lookup (preparedLog cLog state.lastPool pop) ((cpktInd : Int) + 1)).sortedPmemAddress
      (lookup (preparedLog cLog state.lastPool pop) ((cpktInd : Int) + 1)).offset ∈ w'.history := by
  let seqNum := (cpktInd : Int) + 1
  let prepared : World :=
    { opened with pop := some pop, sLog := preparedLog cLog state.lastPool pop }
  let counted : World := { prepared with
    totalRevertedItems := prepared.totalRevertedItems + 1
    totalReexecutions := prepared.totalReexecutions + 1 }
  let reverted := revertBySequenceNumberArray cLog [seqNum] counted
  refine ⟨arckptStep cLog env .libpmemobj seqNum prepared, ?_, ?_⟩
  · have htoNat : ((cpktInd : Int) + 1).toNat = cpktInd + 1 := by omega
    rw [h.react_eq, reactLoops, if_pos harckpt, hlib, hhigh, htoNat, arckptLoop_succ]
    simp only [hsucc, if_true]
    rfl
  · obtain ⟨new, hnew, -⟩ := ((Calm.close reverted.pop reverted).trans
      (Calm.afterReExecute env _)).history
    have hwrite := (revertOne_copyStep cLog).history (counted.log (.revert [seqNum] opened.base))
      seqNum
    have hfirst : RevertCopies cLog
        (lookup (counted.log (.revert [seqNum] opened.base)).sLog seqNum) := hcopies
    rw [if_pos hfirst] at hwrite
    have hcopy : prepared.copyEvent seqNum ∈ reverted.history := by
      rw [show reverted.history = _ from hwrite]
      exact List.mem_append_left _ (List.mem_singleton_self _)
    have hlast : (arckptStep cLog env .libpmemobj seqNum prepared).history =
        new ++ reverted.history := hnew
    rw [hlast]
    exact List.mem_append_right _ hcopy

/-- The first pass copies to an address that was never set. -/
theorem react_writes_unset : ¬ ∀ (env : Env) (fuel : Nat) (state : ReactorState Nat)
    (w w' : World) (ret : Int), state.pmemLibrary = .libpmemobj → w.binaryReversionCount = 0 →
    react env fuel state w = some (ret, w') → ∀ e ∈ w.since w', e.InPool := by
  intro h
  have hreach : ReachesLoops succeedingEnv untracedState pairWorld [[0]] 64 pairLog
      (openPool succeedingEnv .libpmemobj pairWorld).2 :=
    ⟨rfl, rfl, rfl, rfl, rfl, List.cons_ne_nil _ _, rfl⟩
  obtain ⟨hheld, hrec⟩ := pairLog_five
  have hcopies : RevertCopies pairLog
      (lookup (preparedLog pairLog untracedState.lastPool 64) 5) := by
    rw [(preparedLog_kept pairLog untracedState.lastPool 64).1.revertCopies]
    refine ⟨?_, Or.inl ?_⟩
    · rw [hrec.sequenceNumber]
      decide
    · rw [hrec.version]
      decide
  have hunset : (lookup (preparedLog pairLog untracedState.lastPool 64) 5).sortedPmemAddress =
      none := by
    rw [address_preparedLog hheld, hrec.offset]
    exact if_neg (by decide)
  obtain ⟨w', hrun, hcopy⟩ := react_first_write hreach rfl rfl 4
    (preparedLog_pair_highest _ _) rfl hcopies 3
  have hsince : pairWorld.since w' = w'.history := since_eq (List.append_nil _).symm
  obtain ⟨pop, -, hdst⟩ := h succeedingEnv 3 untracedState pairWorld w' 1 rfl rfl hrun _
    (hsince.symm ▸ hcopy)
  exact absurd (hunset.symm.trans hdst) (by simp)

theorem react_writes_iff_pair :
    ∃ ret w', react failingEnv 3 (pairState true) pairWorld = some (ret, w') ∧
      ((∀ e ∈ pairWorld.since w', e.InPool) ↔
        (pairState true).PassesReady (pairWorld.since w')) :=
  react_writes_iff failingEnv (le_refl 3) (pairState true) rfl rfl

end Arthas.Reactor
