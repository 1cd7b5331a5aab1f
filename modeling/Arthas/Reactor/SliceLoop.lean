import Arthas.Lib.Batching
import Arthas.Reactor.BinarySearch
import Arthas.Reactor.React

/-!
The slice loop hands the numbers it collects over in batches. `Batching.run` says which:
every slice item is a round, and a batch is searched when more than one number is
pending. The path that reverts directly is never taken.
-/

set_option autoImplicit false
set_option relaxedAutoImplicit false

namespace Arthas.Reactor

open Arthas.Lib ByteImage Checkpoint Multimap HalvingSearch Batching

variable {ι : Type*} [DecidableEq ι]

def Mark.answer : Mark → Option Bool
  | .reexecuted success => some success
  | _ => none

def Mark.batch? : Mark → Option (List Int)
  | .batch seqNumbers => some seqNumbers
  | _ => none

/-- The answers of the re-executions, in order. -/
def answers (ms : List Mark) : List Bool := ms.filterMap Mark.answer

/-- The batches handed over, in order. -/
def batches (ms : List Mark) : List (List Int) := ms.filterMap Mark.batch?

@[simp] theorem answers_append (ms ns : List Mark) : answers (ms ++ ns) = answers ms ++ answers ns :=
  List.filterMap_append

@[simp] theorem batches_append (ms ns : List Mark) : batches (ms ++ ns) = batches ms ++ batches ns :=
  List.filterMap_append

/-- Between the two states the marks `ms` were left, and the answers among them are the
next ones of the environment. -/
structure Ran (env : Env) (w w' : World) (ms : List Mark) : Prop where
  runs : w'.runs = w.runs + (answers ms).length
  tries : w'.coarseGrainedTries = w.coarseGrainedTries
  answered : answers ms = (List.range (answers ms).length).map fun i =>
    env.succeeds w.coarseGrainedTries (w.runs + i)
  history : ∃ trace, w'.history = trace ++ w.history ∧ marks trace = ms

namespace Ran

variable {env : Env}

theorem refl (w : World) : Ran env w w [] := ⟨rfl, rfl, rfl, [], rfl, rfl⟩

theorem trans {w w₁ w₂ : World} {ms ns : List Mark} (h : Ran env w w₁ ms)
    (h' : Ran env w₁ w₂ ns) : Ran env w w₂ (ms ++ ns) := by
  obtain ⟨trace, htrace, hms⟩ := h.history
  obtain ⟨trace', htrace', hns⟩ := h'.history
  refine ⟨?_, h'.tries.trans h.tries, ?_, trace' ++ trace, ?_, ?_⟩
  · rw [h'.runs, h.runs, answers_append, List.length_append, Nat.add_assoc]
  · have hnext := h'.answered
    rw [h.tries, h.runs] at hnext
    rw [answers_append, List.length_append, List.range_add, List.map_append, ← h.answered,
      List.map_map]
    congr 1
    refine hnext.trans (List.map_congr_left fun i _ => ?_)
    simp only [Function.comp, Nat.add_assoc]
  · rw [htrace', htrace, List.append_assoc]
  · rw [marks_append, hms, hns]

theorem of_frame {w w' : World} {n : Nat} {ms : List Mark} (h : Frame w w' n ms)
    (hans : answers ms = (List.range n).map fun i =>
      env.succeeds w.coarseGrainedTries (w.runs + i)) : Ran env w w' ms := by
  have hlen : (answers ms).length = n := by rw [hans, List.length_map, List.length_range]
  exact ⟨by rw [hlen]; exact h.runs, h.tries, by rw [hlen]; exact hans, h.history⟩

/-- Some re-execution succeeded exactly when one of the answers used up is a success. -/
theorem mem_answers {w w' : World} {ms : List Mark} (h : Ran env w w' ms) :
    true ∈ answers ms ↔
      ∃ i < (answers ms).length, env.succeeds w.coarseGrainedTries (w.runs + i) = true := by
  rw [h.answered]
  simp

theorem since {w w' : World} {ms : List Mark} (h : Ran env w w' ms) :
    marks (w.since w') = ms := by
  obtain ⟨trace, htrace, hms⟩ := h.history
  rw [since_eq htrace, hms]

end Ran

theorem mem_answers_iff {ms : List Mark} : true ∈ answers ms ↔ Mark.reexecuted true ∈ ms := by
  unfold answers
  rw [List.mem_filterMap]
  constructor
  · rintro ⟨m, hm, hans⟩
    cases m with
    | reexecuted success => exact (Option.some.inj hans) ▸ hm
    | reverted l => cases hans
    | undone l => cases hans
    | batch l => cases hans
  · exact fun h => ⟨_, h, rfl⟩

theorem answers_trialMarks (answer : Nat → Bool) (i : Nat) (tried : List (List Int))
    (last : List Int) : answers (trialMarks answer i tried last) =
      (List.range (tried.length + 1)).map fun k => answer (i + k) := by
  induction tried generalizing i with
  | nil => rfl
  | cons block tried ih =>
    have hhead : answers (trialMarks answer i (block :: tried) last) =
        answer i :: answers (trialMarks answer (i + 1) tried last) := rfl
    have hshift : ∀ k, answer (i + 1 + k) = answer (i + (k + 1)) := by
      intro k
      congr 1
      omega
    rw [hhead, ih, List.length_cons, List.range_succ_eq_map (n := tried.length + 1), List.map_cons,
      List.map_map]
    simp only [Function.comp_def, hshift]
    rfl

theorem batches_trialMarks (answer : Nat → Bool) (i : Nat) (tried : List (List Int))
    (last : List Int) : batches (trialMarks answer i tried last) = [] := by
  induction tried generalizing i with
  | nil => rfl
  | cons block tried ih => exact ih (i + 1)

theorem Searched.ran {cLog : CheckpointLog} {env : Env} {pmemLibrary : PmemLibrary}
    {w w' : World} {l : List Int} {o : Outcome Int}
    (h : Searched cLog env pmemLibrary w w' l o) :
    Ran env w w' (trialMarks (env.succeeds w.coarseGrainedTries) w.runs o.tried o.last) := by
  have hans := answers_trialMarks (env.succeeds w.coarseGrainedTries) w.runs o.tried o.last
  have hlen : (answers (trialMarks (env.succeeds w.coarseGrainedTries) w.runs o.tried
      o.last)).length = o.tried.length + 1 := by
    rw [hans, List.length_map, List.length_range]
  exact ⟨by rw [hlen]; exact h.runs, h.tries, by rw [hlen]; exact hans, h.history⟩

/-! Collecting the numbers of an instruction. -/

/-- The numbers an address maps to, in the order the loop meets them. -/
def addressNumbers (addressSeqNums : Multimap UInt64 Int) (addr : UInt64) : List Int :=
  (sortDescending (equalRange addressSeqNums addr)).reverse

/-- The numbers a slice item brings up: those its trace items' addresses map to, but -1. -/
def itemNumbers (addrTrace : List (PmemAddrTraceItem ι)) (addressSeqNums : Multimap UInt64 Int)
    (depInst : ι) : List Int :=
  ((equalRange (traceInstrs addrTrace) (some depInst)).flatMap fun traceItem =>
    addressNumbers addressSeqNums traceItem.addr).filter (· ≠ -1)

theorem collectNumber_spec (st : SliceState) (q : Int) {seen : List Int}
    (hseen : ∀ x, revLookup st.rLog x = 1 ↔ x ∈ seen) :
    let new := if q ≠ -1 ∧ q ∉ seen then [q] else []
    collectNumber st q =
        { st with
          manyAddressSeq := st.manyAddressSeq ++ new
          sliceSeqNumbers := st.sliceSeqNumbers ++ new
          rLog := (collectNumber st q).rLog } ∧
      ∀ x, revLookup (collectNumber st q).rLog x = 1 ↔ x ∈ new ++ seen := by
  have hcond : q ≠ -1 ∧ revLookup st.rLog q ≠ 1 ↔ q ≠ -1 ∧ q ∉ seen := by
    rw [← hseen q]
  unfold collectNumber
  simp only [hcond]
  by_cases hnew : q ≠ -1 ∧ q ∉ seen
  · simp only [if_pos hnew, true_and]
    intro x
    rw [revLookup_insert, List.singleton_append, List.mem_cons, ← hseen x]
    by_cases hx : x = q <;> simp [hx]
  · simp only [if_neg hnew, List.append_nil, List.nil_append, true_and]
    exact hseen

/-- Collecting a list of numbers appends those that are new. -/
theorem foldl_collectNumber (xs : List Int) (st : SliceState) {seen : List Int}
    (hseen : ∀ x, revLookup st.rLog x = 1 ↔ x ∈ seen) :
    let new := fresh seen (xs.filter (· ≠ -1))
    xs.foldl collectNumber st =
        { st with
          manyAddressSeq := st.manyAddressSeq ++ new
          sliceSeqNumbers := st.sliceSeqNumbers ++ new
          rLog := (xs.foldl collectNumber st).rLog } ∧
      ∀ x, revLookup (xs.foldl collectNumber st).rLog x = 1 ↔ x ∈ new ++ seen := by
  induction xs generalizing st seen with
  | nil => exact ⟨by simp [fresh], by simpa [fresh] using hseen⟩
  | cons q xs ih =>
    obtain ⟨hone, hseen'⟩ := collectNumber_spec st q hseen
    obtain ⟨hrest, hlog⟩ := ih (collectNumber st q) hseen'
    rw [List.foldl_cons]
    by_cases hq : q = -1
    · have hfilter : (q :: xs).filter (· ≠ -1) = xs.filter (· ≠ -1) := by simp [hq]
      have hnew : (if q ≠ -1 ∧ q ∉ seen then [q] else []) = [] := if_neg fun h => h.1 hq
      rw [hnew] at hone hrest hlog
      rw [hfilter]
      refine ⟨?_, hlog⟩
      rw [hrest, hone]
      simp
    · have hfilter : (q :: xs).filter (· ≠ -1) = q :: xs.filter (· ≠ -1) := by simp [hq]
      rw [hfilter, fresh]
      by_cases hmem : q ∈ seen
      · have hnew : (if q ≠ -1 ∧ q ∉ seen then [q] else []) = [] := if_neg fun h => h.2 hmem
        rw [hnew] at hone hrest hlog
        rw [if_pos hmem]
        refine ⟨?_, hlog⟩
        rw [hrest, hone]
        simp
      · have hnew : (if q ≠ -1 ∧ q ∉ seen then [q] else []) = [q] := if_pos ⟨hq, hmem⟩
        rw [hnew] at hone hrest hlog
        rw [if_neg hmem]
        refine ⟨?_, ?_⟩
        · rw [hrest, hone]
          simp
        · intro x
          rw [hlog x]
          simp only [List.mem_append, List.mem_cons, List.singleton_append]
          tauto

/-- The trace items of an instruction are collected as one list of numbers. -/
theorem foldl_collectTraceItem (addressSeqNums : Multimap UInt64 Int) (depInst : ι)
    (items : List (PmemAddrTraceItem ι)) (hitems : ∀ item ∈ items, item.instr = some depInst)
    (st : SliceState) :
    items.foldl (collectTraceItem addressSeqNums depInst) st =
      (items.flatMap fun item => addressNumbers addressSeqNums item.addr).foldl
        collectNumber st := by
  induction items generalizing st with
  | nil => rfl
  | cons item items ih =>
    have hone : collectTraceItem addressSeqNums depInst st item =
        (addressNumbers addressSeqNums item.addr).foldl collectNumber st :=
      if_pos (hitems item List.mem_cons_self)
    rw [List.foldl_cons, List.flatMap_cons, List.foldl_append, hone,
      ih fun other hother => hitems other (List.mem_cons_of_mem _ hother)]

theorem instr_of_traced {addrTrace : List (PmemAddrTraceItem ι)} {depInst : ι}
    {item : PmemAddrTraceItem ι}
    (h : item ∈ equalRange (traceInstrs addrTrace) (some depInst)) :
    item ∈ addrTrace ∧ item.instr = some depInst := by
  rw [mem_equalRange, traceInstrs, List.mem_map] at h
  obtain ⟨other, hmem, heq⟩ := h
  rw [Prod.mk.injEq] at heq
  obtain ⟨hinstr, rfl⟩ := heq
  exact ⟨hmem, hinstr⟩

/-! One slice item, and the whole loop. -/

/-- The state a progress has reached. -/
def Progress.world : Progress → World
  | .returned _ w => w
  | .next st => st.world

/-- Between two slice items the variables of the loop are at this stage of the batching. -/
structure Tracks (st : SliceState) (a : Stage Int) : Prop where
  pending : st.manyAddressSeq = a.pending
  seen : ∀ q, revLookup st.rLog q = 1 ↔ q ∈ a.seen
  cleared : st.sliceSeqNumbers = []
  flag : st.manyAddressClear = false
  count : st.world.binaryReversionCount = 0

/-- The number of re-executions for these batches when all of them fail. -/
def failedRuns (bs : List (List Int)) : Nat := (bs.map fun b => trials 2 b.length).sum

/-- What a part of the slice loop did, for the batches it handed over and the stage it
reached: as many re-executions as if all failed unless one of these succeeded, and an
early return only after a success. -/
structure Looped (env : Env) (w : World) (p : Progress) (ms : List Mark)
    (bs : List (List Int)) (a : Stage Int) : Prop where
  ran : Ran env w p.world ms
  length : (answers ms).length = failedRuns bs ∨ ∃ i < (answers ms).length, i < failedRuns bs ∧
    env.succeeds w.coarseGrainedTries (w.runs + i) = true
  ended : match p with
    | .returned ret _ => ret = 1 ∧ true ∈ answers ms
    | .next st => Tracks st a ∧ batches ms = bs.map sortAscending

section Loop

variable (cLog : CheckpointLog) (env : Env) (pmemLibrary : PmemLibrary) (poolAddress : UInt64)

theorem manyReversion_spec {fuel : Nat} (hfuel : 3 ≤ fuel) (st : SliceState)
    (hcount : st.world.binaryReversionCount = 0) (hmany : st.manyAddressSeq.length > 1) :
    ∃ p ms, manyReversion cLog env pmemLibrary poolAddress fuel st = some p ∧
      Ran env st.world p.world ms ∧
      ((answers ms).length = trials 2 st.manyAddressSeq.length ∨ ∃ i < (answers ms).length,
        i < trials 2 st.manyAddressSeq.length ∧
        env.succeeds st.world.coarseGrainedTries (st.world.runs + i) = true) ∧
      match p with
      | .returned ret _ => ret = 1 ∧ true ∈ answers ms
      | .next st' => batches ms = [sortAscending st.manyAddressSeq] ∧
        st'.world.binaryReversionCount = 0 ∧
        st' = { st with manyAddressSeq := [], manyAddressClear := true, world := st'.world } := by
  let many := sortAscending st.manyAddressSeq
  let start : World := { st.world.log (.batch many) with binarySuccess := -1 }
  have hlen : many.length = st.manyAddressSeq.length := List.length_insertionSort _ _
  have hne : many ≠ [] := List.length_pos_iff.mp (by omega)
  obtain ⟨ret, w', hrun, hs⟩ := binaryReversion_search cLog env pmemLibrary poolAddress 2
    (show 2 < fuel by omega) hne (w := start) (by
      rw [show start.binaryReversionCount = 0 from hcount]
      rfl)
  let answer := env.succeeds st.world.coarseGrainedTries
  let o := search answer 2 st.world.runs many
  have hbatch : Ran env st.world start [.batch many] :=
    ⟨rfl, rfl, rfl, [.batch many], rfl, rfl⟩
  have hran := hbatch.trans hs.ran
  have hans : answers ([.batch many] ++ trialMarks answer st.world.runs o.tried o.last) =
      (List.range (o.tried.length + 1)).map fun k => answer (st.world.runs + k) :=
    answers_trialMarks answer st.world.runs o.tried o.last
  have htested : (answers ([.batch many] ++
      trialMarks answer st.world.runs o.tried o.last)).length = o.tested.length := by
    rw [hans, List.length_map, List.length_range, Outcome.tested, List.length_append]
    rfl
  have htrials := length_tested answer 2 st.world.runs many
  let final : World := { w' with totalRevertedItems := w'.totalRevertedItems + w'.binaryRevertedItems }
  have hfinal : Ran env st.world final
      ([.batch many] ++ trialMarks answer st.world.runs o.tried o.last) :=
    ⟨hran.runs, hran.tries, hran.answered, hran.history⟩
  have hguard : st.manyAddressSeq.length > batchReexecution := hmany
  have hunfold : manyReversion cLog env pmemLibrary poolAddress fuel st =
      if final.binarySuccess = 1 then some (.returned 1 final)
      else some (.next { st with
        manyAddressSeq := [], manyAddressClear := true, world := final }) := by
    unfold manyReversion
    rw [if_pos hguard]
    simp only [start, many] at hrun
    simp only [hrun, final]
  have hverdict : final.binarySuccess = if o.success then 1 else -1 := hs.success
  rw [hunfold, hverdict]
  rw [hlen] at htrials
  rw [← htested] at htrials
  cases hsuccess : o.success with
  | true =>
    refine ⟨.returned 1 final, _, rfl, hfinal, htrials, rfl, ?_⟩
    rw [hans, List.mem_map]
    refine ⟨o.tried.length, List.mem_range.mpr (Nat.lt_succ_self _), ?_⟩
    rw [← hsuccess]
    exact (success_eq answer 2 st.world.runs many).symm
  | false =>
    refine ⟨.next { st with manyAddressSeq := [], manyAddressClear := true, world := final }, _, rfl,
      hfinal, htrials, ?_, hs.count, rfl⟩
    rw [batches_append, batches_trialMarks]
    rfl

/-- After a search, and with one number pending, the direct path is not taken. -/
theorem directReversion_skip {st : SliceState}
    (h : st.manyAddressClear = true ∨ st.sliceSeqNumbers.length ≤ st.manyAddressSeq.length) :
    directReversion cLog env pmemLibrary poolAddress st = some (.next st) := by
  unfold directReversion
  rw [if_neg]
  rintro ⟨hslice, hmany, hclear⟩
  rcases h with hflag | hle
  · exact hclear hflag
  · simp only [batchReexecution] at hmany
    omega

variable (addrTrace : List (PmemAddrTraceItem ι)) (addressSeqNums : Multimap UInt64 Int)

theorem collected_spec (depInst : ι) {st : SliceState} {a : Stage Int} (h : Tracks st a) :
    let new := fresh a.seen (itemNumbers addrTrace addressSeqNums depInst)
    let st' := (equalRange (traceInstrs addrTrace) (some depInst)).foldl
      (collectTraceItem addressSeqNums depInst) st
    st' = { st with
        manyAddressSeq := a.pending ++ new, sliceSeqNumbers := new, rLog := st'.rLog } ∧
      ∀ q, revLookup st'.rLog q = 1 ↔ q ∈ new ++ a.seen := by
  intro new st'
  let xs := (equalRange (traceInstrs addrTrace) (some depInst)).flatMap fun traceItem =>
    addressNumbers addressSeqNums traceItem.addr
  have hfold : st' = xs.foldl collectNumber st :=
    foldl_collectTraceItem addressSeqNums depInst _ (fun item hitem => (instr_of_traced hitem).2) st
  obtain ⟨hst, hlog⟩ := foldl_collectNumber xs st h.seen
  rw [← hfold] at hst hlog
  rw [h.pending, h.cleared, List.nil_append] at hst
  exact ⟨hst, hlog⟩

/-- One slice item is one round of the batching. -/
theorem sliceItem_looped {fuel : Nat} (hfuel : 3 ≤ fuel) (depInst : ι) {st : SliceState}
    {a : Stage Int} (h : Tracks st a) :
    ∃ p ms, sliceItem cLog env pmemLibrary poolAddress fuel addrTrace addressSeqNums depInst st =
        some p ∧
      Looped env st.world p ms (a.step (itemNumbers addrTrace addressSeqNums depInst)).1
        (a.step (itemNumbers addrTrace addressSeqNums depInst)).2 := by
  let xs := itemNumbers addrTrace addressSeqNums depInst
  let collected := (equalRange (traceInstrs addrTrace) (some depInst)).foldl
    (collectTraceItem addressSeqNums depInst) st
  obtain ⟨hst, hlog⟩ := collected_spec addrTrace addressSeqNums depInst h
  have hmany : collected.manyAddressSeq = a.pending ++ fresh a.seen xs :=
    congrArg SliceState.manyAddressSeq hst
  have hslice : collected.sliceSeqNumbers = fresh a.seen xs :=
    congrArg SliceState.sliceSeqNumbers hst
  have hflag : collected.manyAddressClear = false :=
    (congrArg SliceState.manyAddressClear hst).trans h.flag
  have hworld : collected.world = st.world := by
    rw [show collected = _ from hst]
  have hitem : sliceItem cLog env pmemLibrary poolAddress fuel addrTrace addressSeqNums depInst st =
      andThen (manyReversion cLog env pmemLibrary poolAddress fuel collected) fun st =>
        andThen (directReversion cLog env pmemLibrary poolAddress st) fun st =>
          some (.next { st with sliceSeqNumbers := [], manyAddressClear := false }) := rfl
  by_cases hlen : (a.pending ++ fresh a.seen xs).length > 1
  · have hstep : a.step xs = ([a.pending ++ fresh a.seen xs], ⟨fresh a.seen xs ++ a.seen, []⟩) :=
      if_pos hlen
    obtain ⟨p, ms, hp, hran, hruns, hend⟩ := manyReversion_spec cLog env pmemLibrary poolAddress
      hfuel collected (hworld ▸ h.count) (hmany ▸ hlen)
    rw [hworld, hmany] at hruns
    rw [hworld] at hran
    have hfailed : failedRuns [a.pending ++ fresh a.seen xs] =
        trials 2 (a.pending ++ fresh a.seen xs).length := rfl
    rw [hitem, hp, show itemNumbers addrTrace addressSeqNums depInst = xs from rfl, hstep]
    cases p with
    | returned ret w => exact ⟨_, ms, rfl, hran, hfailed ▸ hruns, hend⟩
    | next st' =>
      obtain ⟨hbatch, hcount, hst'⟩ := hend
      have hclear : st'.manyAddressClear = true := by rw [hst']
      simp only [andThen, directReversion_skip cLog env pmemLibrary poolAddress (Or.inl hclear)]
      refine ⟨_, ms, rfl, hran, hfailed ▸ hruns, ⟨?_, ?_, rfl, rfl, hcount⟩, ?_⟩
      · rw [hst']
      · rw [hst']
        exact hlog
      · rw [hbatch, hmany]
        rfl
  · have hstep : a.step xs = ([], ⟨fresh a.seen xs ++ a.seen, a.pending ++ fresh a.seen xs⟩) :=
      if_neg hlen
    have hmanyRev : manyReversion cLog env pmemLibrary poolAddress fuel collected =
        some (.next collected) := if_neg (hmany ▸ hlen)
    have hdirect : collected.sliceSeqNumbers.length ≤ collected.manyAddressSeq.length := by
      rw [hslice, hmany, List.length_append]
      omega
    rw [hitem, hmanyRev, show itemNumbers addrTrace addressSeqNums depInst = xs from rfl, hstep]
    simp only [andThen, directReversion_skip cLog env pmemLibrary poolAddress (Or.inr hdirect)]
    refine ⟨_, [], rfl, ?_, Or.inl rfl, ⟨hmany, hlog, rfl, rfl, ?_⟩, rfl⟩
    · exact hworld ▸ Ran.refl _
    · exact hworld ▸ h.count

/-- What two parts of the loop did one after the other. -/
theorem Looped.append {w : World} {st : SliceState} {p : Progress} {ms ns : List Mark}
    {bs cs : List (List Int)} {a a' : Stage Int} (h : Looped env w (.next st) ms bs a)
    (h' : Looped env st.world p ns cs a') : Looped env w p (ms ++ ns) (bs ++ cs) a' := by
  have hsum : failedRuns (bs ++ cs) = failedRuns bs + failedRuns cs := by
    unfold failedRuns
    rw [List.map_append, List.sum_append]
  have hruns : st.world.runs = w.runs + (answers ms).length := h.ran.runs
  refine ⟨h.ran.trans h'.ran, ?_, ?_⟩
  · rw [answers_append, List.length_append, hsum]
    rcases h.length with heq | ⟨i, hi, hi', hsucc⟩
    · rcases h'.length with heq' | ⟨i, hi, hi', hsucc⟩
      · exact Or.inl (by rw [heq, heq'])
      · refine Or.inr ⟨(answers ms).length + i, by omega, by omega, ?_⟩
        have htries : st.world.coarseGrainedTries = w.coarseGrainedTries := h.ran.tries
        rwa [htries, hruns, Nat.add_assoc] at hsucc
    · exact Or.inr ⟨i, by omega, by omega, hsucc⟩
  · have hend := h'.ended
    cases p with
    | returned ret w' => exact ⟨hend.1, by rw [answers_append]; exact List.mem_append_right _ hend.2⟩
    | next st' =>
      refine ⟨hend.1, ?_⟩
      rw [batches_append, h.ended.2, hend.2, List.map_append]

/-- A part that returned stays the last part, whatever was still to come, when it is known
how many re-executions were to come. -/
theorem Looped.returned {w w' : World} {ret : Int} {ms : List Mark} {bs cs : List (List Int)}
    {a a' : Stage Int} (h : Looped env w (.returned ret w') ms bs a) :
    Looped env w (.returned ret w') ms (bs ++ cs) a' := by
  have hsum : failedRuns (bs ++ cs) = failedRuns bs + failedRuns cs := by
    unfold failedRuns
    rw [List.map_append, List.sum_append]
  refine ⟨h.ran, ?_, h.ended⟩
  rcases h.length with heq | ⟨i, hi, hi', hsucc⟩
  · obtain ⟨i, hi, hsucc⟩ := h.ran.mem_answers.mp h.ended.2
    exact Or.inr ⟨i, hi, by omega, hsucc⟩
  · exact Or.inr ⟨i, hi, by omega, hsucc⟩

/-- The items of a slice are rounds, one after the other. -/
theorem sliceItems_looped {fuel : Nat} (hfuel : 3 ≤ fuel) (slice : List ι) {st : SliceState}
    {a : Stage Int} (h : Tracks st a) :
    let rounds := slice.map (itemNumbers addrTrace addressSeqNums)
    ∃ p ms, sliceItems cLog env pmemLibrary poolAddress fuel addrTrace addressSeqNums slice st =
        some p ∧ Looped env st.world p ms (run a rounds).1 (run a rounds).2 := by
  induction slice generalizing st a with
  | nil => exact ⟨_, [], rfl, Ran.refl _, Or.inl rfl, h, rfl⟩
  | cons depInst slice ih =>
    obtain ⟨p, ms, hp, hitem⟩ := sliceItem_looped cLog env pmemLibrary poolAddress addrTrace
      addressSeqNums hfuel depInst h
    simp only [sliceItems, hp, andThen, List.map_cons, run]
    cases p with
    | returned ret w' => exact ⟨_, ms, rfl, hitem.returned env⟩
    | next st' =>
      obtain ⟨p', ns, hp', hrest⟩ := ih hitem.ended.1
      exact ⟨p', ms ++ ns, hp', hitem.append env hrest⟩

theorem sliceItems_append {fuel : Nat} (slice rest : List ι) (st : SliceState) :
    sliceItems cLog env pmemLibrary poolAddress fuel addrTrace addressSeqNums (slice ++ rest) st =
      andThen
        (sliceItems cLog env pmemLibrary poolAddress fuel addrTrace addressSeqNums slice st)
        (sliceItems cLog env pmemLibrary poolAddress fuel addrTrace addressSeqNums rest) := by
  induction slice generalizing st with
  | nil => rfl
  | cons depInst slice ih =>
    rw [List.cons_append, sliceItems, sliceItems]
    cases sliceItem cLog env pmemLibrary poolAddress fuel addrTrace addressSeqNums depInst st with
    | none => rfl
    | some p =>
      cases p with
      | returned ret w => rfl
      | next st' => exact ih st'

/-- Nothing happens between two slices. -/
theorem sliceLoop_eq {fuel : Nat} (faultSlices : List (List ι)) (st : SliceState) :
    sliceLoop cLog env pmemLibrary poolAddress fuel addrTrace addressSeqNums faultSlices st =
      sliceItems cLog env pmemLibrary poolAddress fuel addrTrace addressSeqNums
        faultSlices.flatten st := by
  induction faultSlices generalizing st with
  | nil => rfl
  | cons slice faultSlices ih =>
    rw [List.flatten_cons, sliceItems_append, sliceLoop]
    congr 1
    funext st'
    exact ih st'

theorem tracks_start (totalSize : Nat) {w : World} (hcount : w.binaryReversionCount = 0) :
    Tracks (SliceState.start totalSize w) ⟨[], []⟩ :=
  ⟨rfl, fun _ => by simp [SliceState.start, revLookup, find_empty], rfl, rfl, hcount⟩

/-- The rounds of the slices of a fault. -/
def sliceRounds (faultSlices : List (List ι)) : List (List Int) :=
  faultSlices.flatten.map (itemNumbers addrTrace addressSeqNums)

theorem sliceLoop_looped {fuel : Nat} (hfuel : 3 ≤ fuel) (faultSlices : List (List ι))
    (totalSize : Nat) {w : World} (hcount : w.binaryReversionCount = 0) :
    ∃ p ms, sliceLoop cLog env pmemLibrary poolAddress fuel addrTrace addressSeqNums faultSlices
        (SliceState.start totalSize w) = some p ∧
      Looped env w p ms (run ⟨[], []⟩ (sliceRounds addrTrace addressSeqNums faultSlices)).1
        (run ⟨[], []⟩ (sliceRounds addrTrace addressSeqNums faultSlices)).2 := by
  rw [sliceLoop_eq]
  exact sliceItems_looped cLog env pmemLibrary poolAddress addrTrace addressSeqNums hfuel
    faultSlices.flatten (tracks_start totalSize hcount)

/-- `q` is a number to try: a trace item of an instruction of some slice has an address
that maps to it. -/
def Candidate (faultSlices : List (List ι)) (q : Int) : Prop :=
  0 ≤ q ∧ ∃ slice ∈ faultSlices, ∃ depInst ∈ slice, ∃ item ∈ addrTrace,
    item.instr = some depInst ∧ q ∈ equalRange addressSeqNums item.addr

theorem mem_sliceRounds {faultSlices : List (List ι)} {q : Int} (hq : 0 ≤ q) :
    q ∈ (sliceRounds addrTrace addressSeqNums faultSlices).flatten ↔
      Candidate addrTrace addressSeqNums faultSlices q := by
  have haddr : ∀ addr, q ∈ addressNumbers addressSeqNums addr ↔
      q ∈ equalRange addressSeqNums addr := fun addr => by
    rw [addressNumbers, List.mem_reverse, sortDescending, List.mem_insertionSort]
  have hne : q ≠ -1 := by omega
  constructor
  · intro h
    obtain ⟨round, hround, hmem⟩ := List.mem_flatten.mp h
    obtain ⟨depInst, hdep, rfl⟩ := List.mem_map.mp hround
    obtain ⟨slice, hslice, hdep⟩ := List.mem_flatten.mp hdep
    obtain ⟨item, hitem, hnum⟩ := List.mem_flatMap.mp (List.mem_filter.mp hmem).1
    obtain ⟨htrace, hinstr⟩ := instr_of_traced hitem
    exact ⟨hq, slice, hslice, depInst, hdep, item, htrace, hinstr, (haddr _).mp hnum⟩
  · rintro ⟨-, slice, hslice, depInst, hdep, item, htrace, hinstr, hnum⟩
    refine List.mem_flatten.mpr ⟨_, List.mem_map_of_mem
      (List.mem_flatten.mpr ⟨slice, hslice, hdep⟩), List.mem_filter.mpr ⟨?_, by simpa using hne⟩⟩
    refine List.mem_flatMap.mpr ⟨item, mem_equalRange.mpr ?_, (haddr _).mpr hnum⟩
    exact List.mem_map.mpr ⟨item, htrace, by rw [hinstr]⟩

/-- The condition for no candidate to be left over: after the last slice item with two
new numbers or more, the items with one new number are even in number, or else the
number new last is not one to try. -/
def PairsUp (faultSlices : List (List ι)) : Prop :=
  let rounds := sliceRounds addrTrace addressSeqNums faultSlices
  Even (trailingOnes (freshCounts [] rounds)) ∨
    ∃ q, (fresh [] rounds.flatten).getLast? = some q ∧ q < 0

theorem count_flatten_sorted (bs : List (List Int)) (q : Int) :
    (bs.map sortAscending).flatten.count q = bs.flatten.count q := by
  induction bs with
  | nil => rfl
  | cons b bs ih =>
    have hperm : (sortAscending b).count q = b.count q := (List.perm_insertionSort _ b).count_eq q
    rw [List.map_cons, List.flatten_cons, List.flatten_cons, List.count_append, List.count_append,
      ih, hperm]

/-- In a run without success every candidate is in one batch, and none is left pending,
exactly when the single new numbers pair up. -/
theorem sliceLoop_complete_iff {fuel : Nat} (hfuel : 3 ≤ fuel) (faultSlices : List (List ι))
    (totalSize : Nat) {w : World} (hcount : w.binaryReversionCount = 0) :
    ∃ p, sliceLoop cLog env pmemLibrary poolAddress fuel addrTrace addressSeqNums faultSlices
        (SliceState.start totalSize w) = some p ∧
      (Mark.reexecuted true ∉ marks (w.since p.world) → ∃ st, p = .next st ∧
        ((∀ q, Candidate addrTrace addressSeqNums faultSlices q →
            (batches (marks (w.since st.world))).flatten.count q = 1 ∧ q ∉ st.manyAddressSeq) ↔
          PairsUp addrTrace addressSeqNums faultSlices)) := by
  obtain ⟨p, ms, hp, hloop⟩ := sliceLoop_looped cLog env pmemLibrary poolAddress addrTrace
    addressSeqNums hfuel faultSlices totalSize hcount
  refine ⟨p, hp, fun hfail => ?_⟩
  rw [hloop.ran.since, ← mem_answers_iff] at hfail
  cases p with
  | returned ret w' => exact absurd hloop.ended.2 hfail
  | next st =>
    refine ⟨st, rfl, ?_⟩
    let rounds := sliceRounds addrTrace addressSeqNums faultSlices
    have hsince : marks (w.since st.world) = ms := hloop.ran.since
    have hpending : st.manyAddressSeq = (run ⟨[], []⟩ rounds).2.pending := hloop.ended.1.pending
    have hflat : (run (⟨[], []⟩ : Stage Int) rounds).1.flatten ++ (run ⟨[], []⟩ rounds).2.pending =
        fresh [] rounds.flatten := run_flatten _ _
    have honce : ∀ q, Candidate addrTrace addressSeqNums faultSlices q →
        ((batches (marks (w.since st.world))).flatten.count q = 1 ∧ q ∉ st.manyAddressSeq ↔
          q ∉ st.manyAddressSeq) := by
      intro q hq
      have hmem : q ∈ fresh [] rounds.flatten := mem_fresh.mpr
        ⟨(mem_sliceRounds addrTrace addressSeqNums hq.1).mpr hq, List.not_mem_nil⟩
      have hcountq := List.count_eq_one_of_mem (nodup_fresh [] rounds.flatten) hmem
      rw [← hflat, List.count_append] at hcountq
      rw [hsince, hloop.ended.2, count_flatten_sorted, hpending]
      constructor
      · exact fun h => h.2
      · intro h
        rw [List.count_eq_zero_of_not_mem h, Nat.add_zero] at hcountq
        exact ⟨hcountq, h⟩
    rw [forall_congr' fun q => imp_congr_right (honce q), hpending]
    constructor
    · intro hclean
      rcases run_pending_eq rounds with hnil | ⟨x, hx, hlast⟩
      · exact Or.inl ((run_pending_eq_nil_iff rounds).mp hnil)
      · refine Or.inr ⟨x, hlast, ?_⟩
        by_contra hneg
        have hx0 : 0 ≤ x := by omega
        have hmem : x ∈ rounds.flatten := (mem_fresh.mp (List.mem_of_getLast? hlast)).1
        apply hclean x ((mem_sliceRounds addrTrace addressSeqNums hx0).mp hmem)
        rw [hx]
        exact List.mem_singleton_self x
    · rintro (heven | ⟨x, hlast, hneg⟩) q hq hmem
      · rw [(run_pending_eq_nil_iff rounds).mpr heven] at hmem
        exact List.not_mem_nil hmem
      · rcases run_pending_eq rounds with hnil | ⟨y, hy, hlast'⟩
        · rw [hnil] at hmem
          exact List.not_mem_nil hmem
        · have hxy : x = y := Option.some.inj (hlast.symm.trans hlast')
          rw [hy, List.mem_singleton] at hmem
          have := hq.1
          omega

end Loop

/-- A trace of one access, by instruction 0 to address 5. -/
def singleTrace : List (PmemAddrTraceItem Nat) := [⟨5, 0, some 0⟩]

/-- A fault with one candidate: it is collected, and no path ever reverts it. -/
theorem sliceLoop_drops_single : ¬ ∀ (cLog : CheckpointLog) (env : Env)
    (pmemLibrary : PmemLibrary) (poolAddress : UInt64) (addrTrace : List (PmemAddrTraceItem Nat))
    (addressSeqNums : Multimap UInt64 Int) (faultSlices : List (List Nat)) (totalSize : Nat)
    (w : World) (st : SliceState), w.binaryReversionCount = 0 →
    sliceLoop cLog env pmemLibrary poolAddress 3 addrTrace addressSeqNums faultSlices
      (SliceState.start totalSize w) = some (.next st) →
    Mark.reexecuted true ∉ marks (w.since st.world) →
    ∀ q, Candidate addrTrace addressSeqNums faultSlices q →
      (batches (marks (w.since st.world))).flatten.count q = 1 ∧ q ∉ st.manyAddressSeq := by
  intro h
  obtain ⟨p, ms, hp, hloop⟩ := sliceLoop_looped pairLog failingEnv .libpmemobj 64 singleTrace
    [(5, 1)] (le_refl 3) [[0]] 1 (w := pairWorld) rfl
  have hfail : true ∉ answers ms := by
    rw [hloop.ran.mem_answers]
    rintro ⟨i, -, hsucc⟩
    exact absurd hsucc Bool.false_ne_true
  cases p with
  | returned ret w' => exact hfail hloop.ended.2
  | next st =>
    have hcand : Candidate singleTrace [(5, 1)] [[0]] 1 :=
      ⟨by decide, [0], by decide, 0, by decide, ⟨5, 0, some 0⟩, List.mem_singleton_self _, rfl,
        by decide⟩
    have hpending : st.manyAddressSeq = [1] := hloop.ended.1.pending
    have hmarks : marks (pairWorld.since st.world) = ms := hloop.ran.since
    have hout := (h pairLog failingEnv .libpmemobj 64 singleTrace [(5, 1)] [[0]] 1 pairWorld st rfl
      hp (by rwa [hmarks, ← mem_answers_iff]) 1 hcand).2
    rw [hpending] at hout
    exact hout (List.mem_singleton_self 1)

theorem sliceLoop_complete_iff_single :
    ∃ p, sliceLoop pairLog failingEnv .libpmemobj 64 3 singleTrace [(5, 1), (5, 2)] [[0]]
        (SliceState.start 2 pairWorld) = some p ∧
      (Mark.reexecuted true ∉ marks (pairWorld.since p.world) → ∃ st, p = .next st ∧
        ((∀ q, Candidate singleTrace [(5, 1), (5, 2)] [[0]] q →
            (batches (marks (pairWorld.since st.world))).flatten.count q = 1 ∧
              q ∉ st.manyAddressSeq) ↔
          PairsUp singleTrace [(5, 1), (5, 2)] [[0]])) :=
  sliceLoop_complete_iff pairLog failingEnv .libpmemobj 64 singleTrace [(5, 1), (5, 2)] (le_refl 3)
    [[0]] 2 rfl

end Arthas.Reactor
