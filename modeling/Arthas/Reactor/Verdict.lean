import Arthas.Reactor.SliceLoop

/-!
What the value returned by `react` says. The exits before the pool is opened return
`false`; every later one returns a value that converts to `true`, whether or not any
re-execution succeeded.
-/

set_option autoImplicit false
set_option relaxedAutoImplicit false

namespace Arthas.Reactor

open Arthas.Lib ByteImage Checkpoint HalvingSearch Batching

variable {ι : Type*} [DecidableEq ι]

section Loops

variable (cLog : CheckpointLog) (env : Env) (pmemLibrary : PmemLibrary) (poolAddress : UInt64)

/-- The state after one number of the ArCkpt loop was reverted and the command run. -/
def arckptStep (seqNum : Int) (w : World) : World :=
  let reverted := revertBySequenceNumberArray cLog [seqNum] { w with
    totalRevertedItems := w.totalRevertedItems + 1
    totalReexecutions := w.totalReexecutions + 1 }
  afterReExecute env
    (if pmemLibrary = .libpmemobj then pmemobjClose reverted.pop reverted else reverted)

theorem arckptStep_frame (seqNum : Int) (w : World) :
    Frame w (arckptStep cLog env pmemLibrary seqNum w) 1
      [.reverted [seqNum], .reexecuted (env.succeeds w.coarseGrainedTries w.runs)] := by
  let counted : World := { w with
    totalRevertedItems := w.totalRevertedItems + 1
    totalReexecutions := w.totalReexecutions + 1 }
  have hcounted : Frame w counted 0 [] := ⟨rfl, rfl, rfl, rfl, rfl, [], rfl, rfl⟩
  have hreverted := hcounted.trans (Frame.revertArray cLog [seqNum] counted)
  unfold arckptStep
  split
  · have hclosed := hreverted.trans
      (Frame.close (revertBySequenceNumberArray cLog [seqNum] counted).pop _)
    have hran := hclosed.trans (Frame.afterReExecute env _)
    rwa [hclosed.tries, hclosed.runs] at hran
  · have hran := hreverted.trans (Frame.afterReExecute env _)
    rwa [hreverted.tries, hreverted.runs] at hran

theorem arckptLoop_succ (cpktInd : Nat) (w : World) :
    arckptLoop cLog env pmemLibrary poolAddress (cpktInd + 1) w =
      let w' := arckptStep cLog env pmemLibrary ((cpktInd : Int) + 1) w
      if env.succeeds w.coarseGrainedTries w.runs then some (1, w')
      else arckptLoop cLog env pmemLibrary poolAddress cpktInd
        { (redoPmemAddresses env w').2 with pop := (redoPmemAddresses env w').1 } := by
  let counted : World := { w with
    totalRevertedItems := w.totalRevertedItems + 1
    totalReexecutions := w.totalReexecutions + 1 }
  let reverted := revertBySequenceNumberArray cLog [(cpktInd : Int) + 1] counted
  let closed := if pmemLibrary = .libpmemobj then pmemobjClose reverted.pop reverted else reverted
  have hframe : Frame counted closed 0 [.reverted [(cpktInd : Int) + 1]] := by
    have hreverted := Frame.revertArray cLog [(cpktInd : Int) + 1] counted
    simp only [closed]
    split
    · exact hreverted.trans (Frame.close reverted.pop reverted)
    · exact hreverted
  have hrun : reExecuteFineGrain env poolAddress (-1) closed =
      some (retOf (env.succeeds w.coarseGrainedTries w.runs), afterReExecute env closed) := by
    rw [reExecuteFineGrain_eq, hframe.tries, hframe.runs]
    rfl
  rw [arckptLoop]
  simp only [closed, reverted, counted] at hrun
  simp only [hrun, retOf_eq_one]
  rfl

/-- The ArCkpt loop returns 1, after as many runs as it had numbers unless one of these
runs succeeded. -/
theorem arckptLoop_ran (cpktInd : Nat) (w : World) :
    ∃ w' ms, arckptLoop cLog env pmemLibrary poolAddress cpktInd w = some (1, w') ∧
      Ran env w w' ms ∧
      ((answers ms).length = cpktInd ∨ ∃ i < (answers ms).length, i < cpktInd ∧
        env.succeeds w.coarseGrainedTries (w.runs + i) = true) := by
  induction cpktInd generalizing w with
  | zero => exact ⟨w, [], rfl, Ran.refl w, Or.inl rfl⟩
  | succ cpktInd ih =>
    have hstep : Ran env w (arckptStep cLog env pmemLibrary ((cpktInd : Int) + 1) w) _ :=
      Ran.of_frame (arckptStep_frame cLog env pmemLibrary ((cpktInd : Int) + 1) w) rfl
    rw [arckptLoop_succ]
    cases hans : env.succeeds w.coarseGrainedTries w.runs with
    | true => exact ⟨_, _, rfl, hstep, Or.inr ⟨0, Nat.one_pos, Nat.succ_pos _, hans⟩⟩
    | false =>
      let next := redoPmemAddresses env (arckptStep cLog env pmemLibrary ((cpktInd : Int) + 1) w)
      have hredo := Frame.redo env (arckptStep cLog env pmemLibrary ((cpktInd : Int) + 1) w)
      have hnext : Ran env w { next.2 with pop := next.1 } _ := hstep.trans (Ran.of_frame
        ⟨hredo.runs, hredo.tries, hredo.count, hredo.success, hredo.items, hredo.history⟩ rfl)
      obtain ⟨w', ms, hrun, hran, hlen⟩ := ih { next.2 with pop := next.1 }
      refine ⟨w', _, hrun, hnext.trans hran, ?_⟩
      rw [answers_append, List.length_append]
      have htries : ({ next.2 with pop := next.1 } : World).coarseGrainedTries =
          w.coarseGrainedTries := hnext.tries
      have hruns : ({ next.2 with pop := next.1 } : World).runs = w.runs + 1 := hnext.runs
      rw [htries, hruns] at hlen
      change 1 + (answers ms).length = cpktInd + 1 ∨ _
      rcases hlen with heq | ⟨i, hi, hi', hsucc⟩
      · exact Or.inl (by omega)
      · refine Or.inr ⟨i + 1, ?_, by omega, ?_⟩
        · change i + 1 < 1 + (answers ms).length
          omega
        · rwa [Nat.add_assoc, Nat.add_comm 1 i] at hsucc

end Loops

/-- Where the answers used up are as many as planned unless one of them is a success,
some re-execution succeeded exactly when one of the planned ones would. -/
theorem Ran.mem_answers_planned {env : Env} {w w' : World} {ms : List Mark} (h : Ran env w w' ms)
    {n : Nat} (hlen : (answers ms).length = n ∨ ∃ i < (answers ms).length, i < n ∧
      env.succeeds w.coarseGrainedTries (w.runs + i) = true) :
    true ∈ answers ms ↔ ∃ i < n, env.succeeds w.coarseGrainedTries (w.runs + i) = true := by
  rw [h.mem_answers]
  rcases hlen with heq | ⟨i, hi, hi', hsucc⟩
  · rw [heq]
  · exact ⟨fun _ => ⟨i, hi', hsucc⟩, fun _ => ⟨i, hi, hsucc⟩⟩

/-- The exits of `react` that return `false`. -/
def EarlyExit (env : Env) (state : ReactorState ι) (w : World) : Prop :=
  ¬ state.ready ∨ state.faultInst = none ∨ state.faultSlices = none ∨ ¬ state.pmemFile ∨
    ((openPool env state.pmemLibrary w).1.isSome ∧ state.lastPool = [])

/-- The number of re-executions that the loops run when all of them fail. -/
def plannedRuns (state : ReactorState ι) (faultSlices : List (List ι)) (cLog : CheckpointLog)
    (pop : UInt64) : Nat :=
  let sLog := preparedLog cLog state.lastPool pop
  if state.arckpt then (findHighestSeqNum sLog).toNat
  else failedRuns
    (run ⟨[], []⟩ (sliceRounds state.addrTrace (addressSeqCreation sLog) faultSlices)).1

/-- The pool and the checkpoint are there, and one of the planned re-executions succeeds. -/
def Mitigated (env : Env) (state : ReactorState ι) (w : World) : Prop :=
  ∃ faultSlices pop cLog, state.ready ∧ state.faultInst.isSome ∧
    state.faultSlices = some faultSlices ∧ state.pmemFile ∧
    (openPool env state.pmemLibrary w).1 = some pop ∧ state.lastPool ≠ [] ∧
    state.checkpoint = some cLog ∧ ∃ i < plannedRuns state faultSlices cLog pop,
      env.succeeds w.coarseGrainedTries (w.runs + i) = true

theorem openPool_frame (env : Env) (pmemLibrary : PmemLibrary) (w : World) :
    Frame w (openPool env pmemLibrary w).2 0 [] := by
  cases pmemLibrary with
  | libpmemobj =>
    unfold openPool pmemobjOpen
    cases env.pmemobjOpen w.opens with
    | none => exact ⟨rfl, rfl, rfl, rfl, rfl, [.opened none], rfl, rfl⟩
    | some pop => exact ⟨rfl, rfl, rfl, rfl, rfl, [.opened (some pop)], rfl, rfl⟩
  | libpmem => exact ⟨rfl, rfl, rfl, rfl, rfl, [], rfl, rfl⟩
  | libpmemobj2 => exact Frame.refl w

/-- The part of `react` after the checkpoint was opened. -/
def reactLoops (env : Env) (fuel : Nat) (state : ReactorState ι) (faultSlices : List (List ι))
    (cLog : CheckpointLog) (w : World) : Option (Int × World) :=
  if state.arckpt then
    arckptLoop cLog env state.pmemLibrary state.poolAddress (findHighestSeqNum w.sLog).toNat w
  else
    match sliceLoop cLog env state.pmemLibrary state.poolAddress fuel state.addrTrace
      (addressSeqCreation w.sLog) faultSlices
      (SliceState.start (orderBySequenceNum (SeqLog.empty logSize) 0 cLog).2 w) with
    | none => none
    | some (.returned ret w) => some (ret, w)
    | some (.next st) => some (1, st.world)

theorem reactLoops_ran (env : Env) {fuel : Nat} (hfuel : 3 ≤ fuel) (state : ReactorState ι)
    (faultSlices : List (List ι)) (cLog : CheckpointLog) (pop : UInt64) {w : World}
    (hlog : w.sLog = preparedLog cLog state.lastPool pop) (hcount : w.binaryReversionCount = 0) :
    ∃ w' ms, reactLoops env fuel state faultSlices cLog w = some (1, w') ∧ Ran env w w' ms ∧
      (true ∈ answers ms ↔ ∃ i < plannedRuns state faultSlices cLog pop,
        env.succeeds w.coarseGrainedTries (w.runs + i) = true) := by
  unfold reactLoops plannedRuns
  simp only [hlog]
  split
  · obtain ⟨w', ms, hrun, hran, hlen⟩ := arckptLoop_ran cLog env state.pmemLibrary
      state.poolAddress (findHighestSeqNum (preparedLog cLog state.lastPool pop)).toNat w
    exact ⟨w', ms, hrun, hran, hran.mem_answers_planned hlen⟩
  · obtain ⟨p, ms, hp, hloop⟩ := sliceLoop_looped cLog env state.pmemLibrary state.poolAddress
      state.addrTrace (addressSeqCreation (preparedLog cLog state.lastPool pop)) hfuel faultSlices
      (orderBySequenceNum (SeqLog.empty logSize) 0 cLog).2 hcount
    rw [hp]
    cases p with
    | returned ret w' =>
      obtain ⟨rfl, -⟩ := hloop.ended
      exact ⟨w', ms, rfl, hloop.ran, hloop.ran.mem_answers_planned hloop.length⟩
    | next st => exact ⟨st.world, ms, rfl, hloop.ran, hloop.ran.mem_answers_planned hloop.length⟩

/-- `react` gets to its loops, with these slices, this log and the pool mapped there. -/
structure ReachesLoops (env : Env) (state : ReactorState ι) (w : World)
    (faultSlices : List (List ι)) (pop : UInt64) (cLog : CheckpointLog) (opened : World) :
    Prop where
  ready : state.ready = true
  inst : state.faultInst.isSome
  slices : state.faultSlices = some faultSlices
  file : state.pmemFile = true
  opens : openPool env state.pmemLibrary w = (some pop, opened)
  pool : state.lastPool ≠ []
  checkpoint : state.checkpoint = some cLog

section Reached

variable {env : Env} {state : ReactorState ι} {w : World} {faultSlices : List (List ι)}
  {pop : UInt64} {cLog : CheckpointLog} {opened : World}

theorem ReachesLoops.react_eq (h : ReachesLoops env state w faultSlices pop cLog opened) (fuel : Nat) :
    react env fuel state w = reactLoops env fuel state faultSlices cLog
      { opened with pop := some pop, sLog := preparedLog cLog state.lastPool pop } := by
  obtain ⟨faultInst, hinst⟩ := Option.isSome_iff_exists.mp h.inst
  unfold react
  simp only [h.ready, not_true_eq_false, if_false, hinst, h.slices, h.file, h.opens,
    List.isEmpty_iff, h.pool, h.checkpoint]
  rfl

/-- A call that does not get to the loops only opens the pool, if that, and returns 0 in
the exits that are early. -/
theorem react_ends (fuel : Nat) (hends : ¬ ∃ faultSlices pop cLog opened,
      ReachesLoops env state w faultSlices pop cLog opened) :
    ∃ ret w', react env fuel state w = some (ret, w') ∧ (ret = 0 ↔ EarlyExit env state w) ∧
      (w' = w ∨ ∃ pop, w' = { (openPool env state.pmemLibrary w).2 with pop := pop }) := by
  unfold react
  by_cases hready : state.ready = true
  swap
  · exact ⟨0, w, if_pos hready, iff_of_true rfl (Or.inl hready), Or.inl rfl⟩
  cases hinst : state.faultInst with
  | none =>
    exact ⟨0, w, by simp [hready], iff_of_true rfl (Or.inr (Or.inl hinst)), Or.inl rfl⟩
  | some faultInst =>
    cases hslices : state.faultSlices with
    | none =>
      exact ⟨0, w, by simp [hready], iff_of_true rfl (Or.inr (Or.inr (Or.inl hslices))),
        Or.inl rfl⟩
    | some faultSlices =>
      by_cases hfile : state.pmemFile = true
      swap
      · exact ⟨0, w, by simp [hready, hfile],
          iff_of_true rfl (Or.inr (Or.inr (Or.inr (Or.inl hfile)))), Or.inl rfl⟩
      cases hopen : openPool env state.pmemLibrary w with
      | mk opened w₁ =>
        cases opened with
        | none =>
          refine ⟨-1, { w₁ with pop := none }, by simp [hready, hfile], ?_, Or.inr ⟨none, rfl⟩⟩
          apply iff_of_false (by decide)
          simp [EarlyExit, hready, hinst, hslices, hfile, hopen]
        | some pop =>
          by_cases hpool : state.lastPool = []
          · refine ⟨0, { w₁ with pop := some pop }, by simp [hready, hfile, hpool], ?_,
              Or.inr ⟨some pop, rfl⟩⟩
            exact iff_of_true rfl (Or.inr (Or.inr (Or.inr (Or.inr ⟨by rw [hopen]; rfl, hpool⟩))))
          cases hlog : state.checkpoint with
          | none =>
            refine ⟨1, { w₁ with pop := some pop }, by simp [hready, hfile, hpool], ?_,
              Or.inr ⟨some pop, rfl⟩⟩
            apply iff_of_false (by decide)
            simp [EarlyExit, hready, hinst, hslices, hfile, hpool]
          | some cLog =>
            exact absurd ⟨faultSlices, pop, cLog, w₁, hready, by rw [hinst]; rfl, hslices, hfile,
              hopen, hpool, hlog⟩ hends

omit [DecidableEq ι] in
theorem ReachesLoops.not_earlyExit (h : ReachesLoops env state w faultSlices pop cLog opened) :
    ¬ EarlyExit env state w := by
  rintro (hready | hinst | hslices | hfile | ⟨-, hpool⟩)
  · exact hready h.ready
  · exact absurd h.inst (by simp [hinst])
  · exact absurd (h.slices.symm.trans hslices) (by simp)
  · exact hfile h.file
  · exact h.pool hpool

/-- Where the loops are reached, one of their runs succeeds exactly when one of those
planned does. -/
theorem ReachesLoops.mitigated_iff (h : ReachesLoops env state w faultSlices pop cLog opened) :
    Mitigated env state w ↔ ∃ i < plannedRuns state faultSlices cLog pop,
      env.succeeds w.coarseGrainedTries (w.runs + i) = true := by
  constructor
  · rintro ⟨slices', pop', cLog', -, -, hslices, -, hpop, -, hlog, hsucc⟩
    rw [h.slices] at hslices
    rw [h.opens] at hpop
    rw [h.checkpoint] at hlog
    cases hslices
    cases hpop
    cases hlog
    exact hsucc
  · exact fun hsucc => ⟨faultSlices, pop, cLog, h.ready, h.inst, h.slices, h.file,
      by rw [h.opens], h.pool, h.checkpoint, hsucc⟩

theorem Mitigated.reaches (h : Mitigated env state w) : ∃ faultSlices pop cLog opened,
      ReachesLoops env state w faultSlices pop cLog opened := by
  obtain ⟨faultSlices, pop, cLog, hready, hinst, hslices, hfile, hpop, hpool, hlog, -⟩ := h
  exact ⟨faultSlices, pop, cLog, (openPool env state.pmemLibrary w).2, hready, hinst, hslices,
    hfile, Prod.ext hpop rfl, hpool, hlog⟩

/-- What a call that reaches the loops returns, and how often it ran the command. -/
theorem ReachesLoops.ran (h : ReachesLoops env state w faultSlices pop cLog opened) {fuel : Nat}
    (hfuel : 3 ≤ fuel) (hcount : w.binaryReversionCount = 0) :
    ∃ w' ms, react env fuel state w = some (1, w') ∧ Ran env w w' ms ∧
      (true ∈ answers ms ↔ ∃ i < plannedRuns state faultSlices cLog pop,
        env.succeeds w.coarseGrainedTries (w.runs + i) = true) := by
  have hframe := openPool_frame env state.pmemLibrary w
  rw [h.opens] at hframe
  let prepared : World :=
    { opened with pop := some pop, sLog := preparedLog cLog state.lastPool pop }
  obtain ⟨w', ms, hrun, hran, hplanned⟩ := reactLoops_ran env hfuel state faultSlices cLog pop
    (w := prepared) rfl (hframe.count.trans hcount)
  have hprepared : Ran env w prepared [] := ⟨hframe.runs, hframe.tries, rfl, hframe.history⟩
  have htries : prepared.coarseGrainedTries = w.coarseGrainedTries := hframe.tries
  have hruns : prepared.runs = w.runs := hframe.runs
  rw [htries, hruns] at hplanned
  exact ⟨w', ms, (h.react_eq fuel).trans hrun, hprepared.trans hran, hplanned⟩

end Reached

/-- Every call of `react` returns. -/
theorem react_returns (env : Env) {fuel : Nat} (hfuel : 3 ≤ fuel) (state : ReactorState ι)
    {w : World} (hcount : w.binaryReversionCount = 0) :
    ∃ ret w', react env fuel state w = some (ret, w') := by
  by_cases hloops : ∃ faultSlices pop cLog opened,
      ReachesLoops env state w faultSlices pop cLog opened
  · obtain ⟨faultSlices, pop, cLog, opened, hreach⟩ := hloops
    obtain ⟨w', ms, hrun, -⟩ := hreach.ran hfuel hcount
    exact ⟨1, w', hrun⟩
  · obtain ⟨ret, w', hrun, -⟩ := react_ends fuel hloops
    exact ⟨ret, w', hrun⟩

/-- The pool cannot be opened. -/
def closedEnv : Env := ⟨fun _ => .exited 0, fun _ m => m, fun _ => none, none⟩

/-- A request for a fault with one slice, in ArCkpt mode when asked for. -/
def pairState (arckpt : Bool) : ReactorState Nat where
  ready := true
  faultInst := some 0
  faultSlices := some [[0]]
  pmemFile := true
  pmemLibrary := .libpmemobj
  arckpt := arckpt
  poolAddress := 64
  lastPool := [⟨80, 16, some 0⟩]
  addrTrace := [⟨80, 16, some 0⟩]
  checkpoint := some pairLog

end Arthas.Reactor
