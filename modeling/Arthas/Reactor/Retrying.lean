import Arthas.Lib.Retry
import Arthas.Reactor.Attempt

/-!
Re-executing the target program with coarse-grained reversions: which of the attempts is
the last, what `re_execute` then returns, and how often the command runs. The counter
`coarse_grained_tries` is never incremented, and the result of the recursive call is
discarded.
-/

set_option autoImplicit false
set_option relaxedAutoImplicit false

namespace Arthas.Reactor

open Arthas.Lib Checkpoint Retry

/-- The `int` that `system` returns for a status: eight bits with the exit code over eight
with the signal and the core dump flag, or -1. -/
def WaitStatus.encode (coreDumped : Bool) : WaitStatus → Int
  | .exited code => 256 * code.toNat
  | .signaled signal => signal + if coreDumped then 128 else 0
  | .launchFailure => -1

/-- `WIFEXITED`, a mask by `0x7f`. -/
def wifexited (status : Int) : Bool := status % 128 = 0

/-- `WEXITSTATUS`, a mask by `0xff00` and a shift. -/
def wexitstatus (status : Int) : Int := status / 256 % 256

/-- The test of `re_execute` on the encoded status. -/
theorem exitedWithError_encode (coreDumped : Bool) (status : WaitStatus)
    (valid : ∀ signal, status = .signaled signal → 0 < signal ∧ signal < 127) :
    (wifexited (status.encode coreDumped) ∧ wexitstatus (status.encode coreDumped) ≠ 0) ↔
      status.exitedWithError := by
  cases status with
  | exited code =>
    have bound : code.toNat < 256 := code.toNat_lt
    have zero : code = 0 ↔ code.toNat = 0 := UInt8.toNat_inj.symm
    have low : (256 * code.toNat : Int) % 128 = 0 := by omega
    have high : (256 * code.toNat : Int) / 256 % 256 = code.toNat := by omega
    simp only [wifexited, wexitstatus, WaitStatus.encode, WaitStatus.exitedWithError, low, high,
      decide_true, true_and, bne_iff_ne, ne_eq, zero, Int.natCast_eq_zero]
  | signaled signal =>
    obtain ⟨positive, bound⟩ := valid signal rfl
    have masked : ¬ (WaitStatus.signaled signal).encode coreDumped % 128 = 0 := by
      cases coreDumped <;> simp only [WaitStatus.encode] <;> omega
    simp [wifexited, masked, WaitStatus.exitedWithError]
  | launchFailure => simp [wifexited, WaitStatus.encode, WaitStatus.exitedWithError]

/-- The last attempt that a reversion type and a starting number allow. -/
def lastAttempt : ReversionType → Int → Option Nat
  | .fineGrain, _ => some 0
  | .coarseGrainSequence, seqNum => some (seqNum + 1).toNat
  | .coarseGrainNaive, _ => none

/-- The statuses that the command ends with from now on. -/
def Env.fails (env : Env) (w : World) (k : Nat) : Prop :=
  (env.status (w.runs + k)).exitedWithError

instance (env : Env) (w : World) (k : Nat) : Decidable (env.fails w k) :=
  inferInstanceAs (Decidable (_ = true))

/-- The status of the command that was run last. -/
def lastStatus (env : Env) (w : World) : WaitStatus := env.status (w.runs - 1)

section Step

variable {env : Env} {oldPop : UInt64} {reversionType : ReversionType} {seqNum : Int} {w : World}
  (going : w.coarseGrainedTries ≠ maxCoarseAttempts)

theorem Frame.seqCoarseGrainReversion (seqNum : Int) (pop : Option UInt64) (oldPop : UInt64)
    (w : World) : Frame w (seqCoarseGrainReversion seqNum pop oldPop w) 0 [] := by
  unfold Reactor.seqCoarseGrainReversion revertBySequenceNumberNonslice
  simp only
  split_ifs
  · exact refl w
  · exact memcpy w _ _

include going

/-- A command that does not exit with an error is the last one. -/
theorem reExecute_done (succeeds : ¬ env.fails w 0) (fuel : Nat) :
    reExecute env oldPop (fuel + 1) reversionType seqNum w = some (1, (system env w).2) := by
  have status : (system env w).1.exitedWithError = false := Bool.not_eq_true _ ▸ succeeds
  rw [reExecute]
  simp [show (system env w).2.coarseGrainedTries ≠ maxCoarseAttempts from going, status]

variable (oldPop) in
/-- After an error that no attempt may follow, the call fails. -/
theorem reExecute_giveUp (failed : env.fails w 0) (last : lastAttempt reversionType seqNum = some 0) :
    ∃ ended, Frame w ended 1 [] ∧
      ∀ fuel, reExecute env oldPop (fuel + 1) reversionType seqNum w = some (-1, ended) := by
  let pop := (reopenForRetry env (system env w).2).1
  have ran := (Frame.system env w).trans (Frame.reopen env (system env w).2)
  have status : (system env w).1.exitedWithError = true := failed
  cases reversionType with
  | fineGrain =>
    refine ⟨_, ran.trans (Frame.close pop _), fun fuel => ?_⟩
    rw [reExecute]
    simp [show (system env w).2.coarseGrainedTries ≠ maxCoarseAttempts from going, status, pop]
  | coarseGrainNaive => cases last
  | coarseGrainSequence =>
    have negative : seqNum < 0 := by
      have zero := Option.some.inj last
      omega
    refine ⟨_, ran, fun fuel => ?_⟩
    rw [reExecute]
    simp [show (system env w).2.coarseGrainedTries ≠ maxCoarseAttempts from going, status, negative]

variable (oldPop) in
/-- After any other error the call goes on with the next number, and succeeds if that call
returns at all. -/
theorem reExecute_retry (failed : env.fails w 0)
    (more : lastAttempt reversionType seqNum ≠ some 0) :
    ∃ reverted, Frame w reverted 1 [] ∧
      ∀ fuel, reExecute env oldPop (fuel + 1) reversionType seqNum w =
        (reExecute env oldPop fuel reversionType (seqNum - 1) reverted).map fun r => (1, r.2) := by
  let pop := (reopenForRetry env (system env w).2).1
  have ran := (Frame.system env w).trans (Frame.reopen env (system env w).2)
  have status : (system env w).1.exitedWithError = true := failed
  cases reversionType with
  | fineGrain => exact absurd rfl more
  | coarseGrainNaive =>
    refine ⟨_, ran.trans (Frame.close pop _), fun fuel => ?_⟩
    rw [reExecute]
    simp [show (system env w).2.coarseGrainedTries ≠ maxCoarseAttempts from going, status, pop]
  | coarseGrainSequence =>
    have natural : ¬ seqNum < 0 := by
      intro negative
      refine more (congrArg some ?_)
      omega
    refine ⟨_, ran.trans ((Frame.seqCoarseGrainReversion seqNum pop oldPop _).trans
      (Frame.close pop _)), fun fuel => ?_⟩
    rw [reExecute]
    simp [show (system env w).2.coarseGrainedTries ≠ maxCoarseAttempts from going, status, pop, natural]

end Step

theorem lastAttempt_pred {reversionType : ReversionType} {seqNum : Int}
    (more : lastAttempt reversionType seqNum ≠ some 0) :
    lastAttempt reversionType (seqNum - 1) = (lastAttempt reversionType seqNum).map (· - 1) := by
  cases reversionType with
  | fineGrain => exact absurd rfl more
  | coarseGrainNaive => rfl
  | coarseGrainSequence =>
    simp only [lastAttempt, Option.map_some, Option.some.injEq]
    omega

theorem Frame.fails_succ {env : Env} {w w' : World} {ms : List Mark} (h : Frame w w' 1 ms) :
    env.fails w' = fun j => env.fails w (j + 1) := by
  funext j
  rw [Env.fails, Env.fails, h.runs, Nat.add_assoc, Nat.add_comm 1 j]

/-- The attempts of a call, and when they end. -/
abbrev Env.EndsAt (env : Env) (w : World) (reversionType : ReversionType) (seqNum : Int) (k : Nat) :
    Prop :=
  Retry.EndsAt (env.fails w) (lastAttempt reversionType seqNum) k

/-- What the call returns after attempt `k`: only an error of the first one is reported. -/
def returned (env : Env) (w : World) (k : Nat) : Int :=
  if k = 0 ∧ env.fails w 0 then -1 else 1

section Run

variable {env : Env} {oldPop : UInt64} {reversionType : ReversionType} {seqNum : Int} {w : World}

variable (oldPop) in
/-- With fuel for the last attempt the call returns after it. -/
theorem reExecute_returns {fuel k : Nat} (going : w.coarseGrainedTries ≠ maxCoarseAttempts)
    (run : env.EndsAt w reversionType seqNum k) (enough : k < fuel) :
    ∃ w', reExecute env oldPop fuel reversionType seqNum w = some (returned env w k, w') ∧
      w'.runs = w.runs + k + 1 := by
  induction fuel generalizing k seqNum w with
  | zero => omega
  | succ fuel ih =>
    by_cases failed : env.fails w 0
    · by_cases last : lastAttempt reversionType seqNum = some 0
      · obtain ⟨ended, frame, equal⟩ := reExecute_giveUp oldPop going failed last
        have first : k = 0 := Nat.le_zero.mp (run.within 0 last)
        subst first
        exact ⟨ended, by rw [equal, returned, if_pos ⟨rfl, failed⟩], frame.runs⟩
      · obtain ⟨reverted, frame, equal⟩ := reExecute_retry oldPop going failed last
        obtain ⟨k, rfl⟩ : ∃ j, k = j + 1 := by
          apply Nat.exists_eq_succ_of_ne_zero
          intro first
          subst first
          exact last (run.ends failed)
        have rest : env.EndsAt reverted reversionType (seqNum - 1) k := by
          rw [Env.EndsAt, frame.fails_succ, lastAttempt_pred last]
          exact (endsAt_succ failed last).mp run
        obtain ⟨w', again, runs⟩ := ih (frame.tries ▸ going) rest (Nat.lt_of_succ_lt_succ enough)
        refine ⟨w', ?_, by rw [runs, frame.runs]; omega⟩
        have dropped : returned env w (k + 1) = 1 := if_neg fun first => Nat.succ_ne_zero k first.1
        rw [equal, again, dropped]
        rfl
    · have first : k = 0 := by
        by_contra later
        exact failed (run.failed 0 (Nat.pos_of_ne_zero later))
      subst first
      exact ⟨_, by rw [reExecute_done going failed, returned, if_neg (fun h => failed h.2)], rfl⟩

/-- A call that returns has made its last attempt. -/
theorem reExecute_ended {fuel : Nat} {r : Int × World}
    (going : w.coarseGrainedTries ≠ maxCoarseAttempts)
    (result : reExecute env oldPop fuel reversionType seqNum w = some r) :
    ∃ k < fuel, env.EndsAt w reversionType seqNum k := by
  induction fuel generalizing seqNum w r with
  | zero => cases result
  | succ fuel ih =>
    by_cases failed : env.fails w 0
    · by_cases last : lastAttempt reversionType seqNum = some 0
      · exact ⟨0, Nat.succ_pos fuel, endsAt_zero.mpr fun _ => last⟩
      · obtain ⟨reverted, frame, equal⟩ := reExecute_retry oldPop going failed last
        rw [equal] at result
        obtain ⟨inner, again, -⟩ := Option.map_eq_some_iff.mp result
        obtain ⟨k, below, rest⟩ := ih (frame.tries ▸ going) again
        rw [Env.EndsAt, frame.fails_succ, lastAttempt_pred last] at rest
        exact ⟨k + 1, Nat.succ_lt_succ below, (endsAt_succ failed last).mpr rest⟩
    · exact ⟨0, Nat.succ_pos fuel, endsAt_zero.mpr fun h => absurd h failed⟩

/-- Once the counter is at its maximum, the command runs once and the call fails. -/
theorem reExecute_max (full : w.coarseGrainedTries = maxCoarseAttempts) (fuel : Nat) :
    reExecute env oldPop (fuel + 1) reversionType seqNum w = some (-1, (system env w).2) := by
  rw [reExecute]
  simp [show (system env w).2.coarseGrainedTries = maxCoarseAttempts from full]

theorem reExecute_eq_max {fuel : Nat} {ret : Int} {w' : World}
    (full : w.coarseGrainedTries = maxCoarseAttempts)
    (result : reExecute env oldPop fuel reversionType seqNum w = some (ret, w')) :
    ret = -1 ∧ w' = (system env w).2 := by
  cases fuel with
  | zero => cases result
  | succ fuel =>
    rw [reExecute_max full, Option.some.injEq, Prod.mk.injEq] at result
    exact ⟨result.1.symm, result.2.symm⟩

/-- What a returning call returns, and after how many runs. -/
theorem reExecute_spec {fuel : Nat} {ret : Int} {w' : World}
    (going : w.coarseGrainedTries ≠ maxCoarseAttempts)
    (result : reExecute env oldPop fuel reversionType seqNum w = some (ret, w')) :
    ∃ k, env.EndsAt w reversionType seqNum k ∧ ret = returned env w k ∧ w'.runs = w.runs + k + 1 := by
  obtain ⟨k, enough, run⟩ := reExecute_ended going result
  obtain ⟨w'', again, runs⟩ := reExecute_returns oldPop going run enough
  rw [result, Option.some.injEq, Prod.mk.injEq] at again
  exact ⟨k, run, again.1, again.2 ▸ runs⟩

/-- A command that exits by itself and not with an error exits with 0. -/
theorem status_of_clean {k : Nat} (succeeds : ¬ env.fails w k)
    (exits : ∃ code, env.status (w.runs + k) = .exited code) :
    env.status (w.runs + k) = .exited 0 := by
  obtain ⟨code, status⟩ := exits
  rw [Env.fails, status, WaitStatus.exitedWithError, bne_iff_ne, ne_eq, not_not] at succeeds
  rw [status, succeeds]

/-- A command that fails exits by itself. -/
theorem exits_of_fails {k : Nat} (fails : env.fails w k) :
    ∃ code, env.status (w.runs + k) = .exited code := by
  cases status : env.status (w.runs + k) with
  | exited code => exact ⟨code, rfl⟩
  | signaled signal =>
    rw [Env.fails, status] at fails
    cases fails
  | launchFailure =>
    rw [Env.fails, status] at fails
    cases fails

/-- The last attempt fails after the first one only where the numbers run out. -/
theorem numbers_ran_out {k : Nat} (run : env.EndsAt w reversionType seqNum k) (later : k ≠ 0)
    (failed : env.fails w k) :
    reversionType = .coarseGrainSequence ∧ 0 ≤ seqNum ∧ seqNum + 1 = k := by
  have last := run.ends failed
  cases reversionType with
  | fineGrain => exact absurd (Option.some.inj last).symm later
  | coarseGrainNaive => cases last
  | coarseGrainSequence =>
    have number := Option.some.inj last
    refine ⟨rfl, ?_, ?_⟩ <;> omega

end Run

section Verdict

variable (env : Env) (oldPop : UInt64) (reversionType : ReversionType) (seqNum : Int) (w : World)

/-- A call returns success only after a clean exit exactly when every command it can come to
exits by itself, and, where the numbers run out, one of them before that does so without an
error. -/
theorem reExecute_success_iff :
    (∀ fuel w', reExecute env oldPop fuel reversionType seqNum w = some (1, w') →
        lastStatus env w' = .exited 0) ↔
      w.coarseGrainedTries = maxCoarseAttempts ∨
        (∀ k, (∀ m ∈ lastAttempt reversionType seqNum, k ≤ m) → (∀ j < k, env.fails w j) →
          ∃ code, env.status (w.runs + k) = .exited code) ∧
        (reversionType = .coarseGrainSequence → 0 ≤ seqNum →
          ∃ k : Nat, (k : Int) ≤ seqNum + 1 ∧ ¬ env.fails w k) := by
  constructor
  · intro property
    by_cases full : w.coarseGrainedTries = maxCoarseAttempts
    · exact Or.inl full
    · -- A call that ends with attempt `k` and returns success has a clean exit there.
      have last : ∀ k, env.EndsAt w reversionType seqNum k → ¬ (k = 0 ∧ env.fails w 0) →
          env.status (w.runs + k) = .exited 0 := by
        intro k run reported
        obtain ⟨w', result, runs⟩ := reExecute_returns oldPop full run (Nat.lt_succ_self k)
        rw [returned, if_neg reported] at result
        have status := property (k + 1) w' result
        rwa [lastStatus, runs, Nat.add_sub_cancel] at status
      refine Or.inr ⟨fun k within failed => ?_, ?_⟩
      · by_cases fails : env.fails w k
        · exact exits_of_fails fails
        · exact ⟨0, last k ⟨failed, within, fun h => absurd h fails⟩
            fun h => fails (h.1.symm ▸ h.2)⟩
      · rintro rfl natural
        by_contra none
        push Not at none
        have run : env.EndsAt w .coarseGrainSequence seqNum (seqNum + 1).toNat := by
          refine ⟨fun j below => none j (by omega), ?_, fun _ => rfl⟩
          intro m bound
          exact (Option.some.inj bound).le
        have failed := none (seqNum + 1).toNat (by omega)
        have status := last _ run (by omega)
        rw [Env.fails, status] at failed
        cases failed
  · intro condition fuel w' result
    have going : w.coarseGrainedTries ≠ maxCoarseAttempts := fun full => by
      obtain ⟨ret, -⟩ := reExecute_eq_max full result
      cases ret
    obtain ⟨exits, spared⟩ := condition.resolve_left going
    obtain ⟨k, run, ret, runs⟩ := reExecute_spec going result
    rw [lastStatus, runs, Nat.add_sub_cancel]
    apply status_of_clean ?_ (exits k run.within run.failed)
    intro failed
    have later : k ≠ 0 := by
      rintro rfl
      rw [returned, if_pos ⟨rfl, failed⟩] at ret
      cases ret
    obtain ⟨sequence, natural, number⟩ := numbers_ran_out run later failed
    obtain ⟨j, early, succeeds⟩ := spared sequence natural
    rcases Nat.lt_or_ge j k with below | above
    · exact succeeds (run.failed j below)
    · have same : j = k := by omega
      exact succeeds (same ▸ failed)

/-- A command that is killed counts as a success. -/
theorem reExecute_killed : ¬ ∀ (env : Env) (oldPop : UInt64) (reversionType : ReversionType)
    (seqNum : Int) (w : World) (fuel : Nat) (w' : World),
    reExecute env oldPop fuel reversionType seqNum w = some (1, w') →
      lastStatus env w' = .exited 0 := by
  intro claim
  let killed : Env := ⟨fun _ => .signaled 9, fun _ pool => pool, fun _ => some 0, none⟩
  have status := claim killed 0 .fineGrain (-1)
    (World.start (SeqLog.empty 1) (fun _ => 0) (some 0)) 1 _ rfl
  cases status

/-- The command runs at most `MAX_COARSE_ATTEMPTS + 1` times exactly when the counter is
already at the maximum, the reversion type and the number allow no more attempts, or one of
these attempts does not exit with an error. -/
theorem reExecute_bounded_iff :
    (∃ fuel ret w', reExecute env oldPop fuel reversionType seqNum w = some (ret, w') ∧
        (w'.runs : Int) ≤ w.runs + (maxCoarseAttempts + 1)) ↔
      w.coarseGrainedTries = maxCoarseAttempts ∨ reversionType = .fineGrain ∨
        (reversionType = .coarseGrainSequence ∧ seqNum + 1 ≤ maxCoarseAttempts) ∨
        ∃ k : Nat, (k : Int) ≤ maxCoarseAttempts ∧ ¬ env.fails w k := by
  have five : ∀ k : Nat, (k : Int) ≤ maxCoarseAttempts ↔ k ≤ 5 := fun k => by
    rw [maxCoarseAttempts]
    omega
  have limited : (∃ m ∈ lastAttempt reversionType seqNum, m ≤ 5) ↔ reversionType = .fineGrain ∨
      (reversionType = .coarseGrainSequence ∧ seqNum + 1 ≤ maxCoarseAttempts) := by
    cases reversionType with
    | fineGrain => simp [lastAttempt]
    | coarseGrainNaive => simp [lastAttempt]
    | coarseGrainSequence =>
      simp [lastAttempt, maxCoarseAttempts]
  have ended : (∃ k ≤ 5, EndsAt (env.fails w) (lastAttempt reversionType seqNum) k) ↔ _ :=
    exists_endsAt_le 5
  rw [limited] at ended
  simp only [five]
  rw [← or_assoc (a := reversionType = .fineGrain), ← ended]
  constructor
  · rintro ⟨fuel, ret, w', result, bound⟩
    by_cases full : w.coarseGrainedTries = maxCoarseAttempts
    · exact Or.inl full
    · obtain ⟨k, run, -, runs⟩ := reExecute_spec full result
      refine Or.inr ⟨k, ?_, run⟩
      rw [maxCoarseAttempts] at bound
      omega
  · intro condition
    by_cases full : w.coarseGrainedTries = maxCoarseAttempts
    · refine ⟨1, _, _, reExecute_max full 0, ?_⟩
      rw [maxCoarseAttempts, system]
      push_cast
      omega
    · obtain ⟨k, early, run⟩ := condition.resolve_left full
      obtain ⟨w', result, runs⟩ := reExecute_returns oldPop full run (Nat.lt_succ_self k)
      refine ⟨k + 1, _, w', result, ?_⟩
      rw [maxCoarseAttempts]
      omega

/-- With a command that always exits with an error, naive reversion never returns. -/
theorem reExecute_unbounded : ¬ ∀ (env : Env) (oldPop : UInt64) (reversionType : ReversionType)
    (seqNum : Int) (w : World), w.coarseGrainedTries = 0 →
    ∃ fuel ret w', reExecute env oldPop fuel reversionType seqNum w = some (ret, w') ∧
      (w'.runs : Int) ≤ w.runs + (maxCoarseAttempts + 1) := by
  intro claim
  let failing : Env := ⟨fun _ => .exited 1, fun _ pool => pool, fun _ => some 0, none⟩
  obtain ⟨fuel, ret, w', result, -⟩ := claim failing 0 .coarseGrainNaive 0
    (World.start (SeqLog.empty 1) (fun _ => 0) (some 0)) rfl
  obtain ⟨k, run, -⟩ := reExecute_spec (by decide) result
  cases run.ends rfl

end Verdict

end Arthas.Reactor
