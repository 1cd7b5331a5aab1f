import Arthas.Lib.HalvingSearch
import Arthas.Reactor.Attempt
import Arthas.Reactor.RevertSet

/-!
The binary reversion is a halving search. Its halves, its two exits and its recursion
are those of the search with two further halvings, the answers being those of the
re-executed command; what it leaves in the pool is the reversion of the last block.
-/

set_option autoImplicit false
set_option relaxedAutoImplicit false

namespace Arthas.Reactor

open Arthas.Lib ByteImage Checkpoint Journal HalvingSearch

/-- What happens when the blocks are tried and undone one after the other, and the last
one is tried and kept. -/
def trialMarks (answer : Nat → Bool) : Nat → List (List Int) → List Int → List Mark
  | i, [], last => [.reverted (qsortReverse last), .reexecuted (answer i)]
  | i, block :: tried, last =>
    .reverted (qsortReverse block) :: .reexecuted (answer i) :: .undone block ::
      trialMarks answer (i + 1) tried last

theorem left_eq {l : List Int} (hl : l ≠ []) :
    l.take ((0 : Int) + ((l.length : Int) - 1 - 0).tdiv 2 + 1).toNat = lower l := by
  have hpos : 0 < l.length := List.length_pos_iff.mpr hl
  unfold lower
  rw [Int.tdiv_eq_ediv_of_nonneg (by omega)]
  congr 1
  omega

theorem right_eq {l : List Int} (hl : l ≠ []) :
    l.drop (if (0 : Int) + ((l.length : Int) - 1 - 0).tdiv 2 = 0 ∧ l.length = 1 then
        (0 : Int) + ((l.length : Int) - 1 - 0).tdiv 2
      else (0 : Int) + ((l.length : Int) - 1 - 0).tdiv 2 + 1).toNat = upper l := by
  have hpos : 0 < l.length := List.length_pos_iff.mpr hl
  unfold upper
  rw [Int.tdiv_eq_ediv_of_nonneg (by omega)]
  by_cases hone : l.length = 1
  · simp [hone]
  · rw [if_neg fun h => hone h.2, if_neg hone]
    congr 1
    omega

/-- The state after a block was tried and undone. -/
def givenUp (cLog : CheckpointLog) (env : Env) (pmemLibrary : PmemLibrary) (block : List Int)
    (w : World) : World :=
  let tried := afterAttempt cLog env pmemLibrary (qsortReverse block) w
  undoBySequenceNumberArray block
    { tried with binaryReversionCount := tried.binaryReversionCount + 1 }

theorem qsortReverse_ne_nil {l : List Int} (h : l ≠ []) : qsortReverse l ≠ [] := by
  rw [← List.length_pos_iff, (qsortReverse_perm l).length_eq]
  exact List.length_pos_iff.mpr h

theorem givenUp_spec (cLog : CheckpointLog) (env : Env) (pmemLibrary : PmemLibrary)
    (block : List Int) (w : World) :
    let w' := givenUp cLog env pmemLibrary block w
    w'.runs = w.runs + 1 ∧ w'.coarseGrainedTries = w.coarseGrainedTries ∧
      w'.binaryReversionCount = w.binaryReversionCount + 1 ∧
      w'.binarySuccess = w.binarySuccess ∧
      ∃ trace, w'.history = trace ++ w.history ∧ marks trace =
        [.reverted (qsortReverse block), .reexecuted (env.succeeds w.coarseGrainedTries w.runs),
          .undone block] := by
  have hatt := Frame.afterAttempt cLog env pmemLibrary (qsortReverse block) w
  let tried := afterAttempt cLog env pmemLibrary (qsortReverse block) w
  have hundo := Frame.undoArray block
    { tried with binaryReversionCount := tried.binaryReversionCount + 1 }
  obtain ⟨trace, htrace, hmarks⟩ := hatt.history
  obtain ⟨trace', htrace', hmarks'⟩ := hundo.history
  refine ⟨hundo.runs.trans hatt.runs, hundo.tries.trans hatt.tries, ?_,
    hundo.success.trans hatt.success, trace' ++ trace, ?_, ?_⟩
  · exact hundo.count.trans (congrArg (· + 1) hatt.count)
  · exact htrace'.trans (by rw [List.append_assoc]; exact congrArg (trace' ++ ·) htrace)
  · rw [marks_append, hmarks, hmarks']
    rfl

/-- The state after the upper half was undone and the lower half tried last. -/
def afterLower (cLog : CheckpointLog) (env : Env) (pmemLibrary : PmemLibrary) (l : List Int)
    (w : World) : World :=
  let last := afterAttempt cLog env pmemLibrary (qsortReverse (lower l))
    { givenUp cLog env pmemLibrary (upper l) w with binaryReversionCount := 0 }
  if env.succeeds w.coarseGrainedTries (w.runs + 1) then { last with binarySuccess := 1 } else last

theorem revertArray_pool_congr {cLog : CheckpointLog} {w w' : World} (hpool : w'.pool = w.pool)
    {l : List Int} (hstep : ∀ q ∈ l, stepOf cLog (w'.view q) = stepOf cLog (w.view q)) :
    (revertBySequenceNumberArray cLog l w').pool = (revertBySequenceNumberArray cLog l w).pool := by
  unfold revertBySequenceNumberArray
  rw [foldl_revertOne_pool, foldl_revertOne_pool]
  simp only [log_view, log_pool, hpool]
  rw [List.map_congr_left hstep]

section Pool

variable {cLog : CheckpointLog} {env : Env} (hidle : ∀ i m, env.effect i m = m)
  {pmemLibrary : PmemLibrary} (hopen : Reopens env pmemLibrary)

include hidle hopen

theorem afterAttempt_reverts (block : List Int) {w : World} (hw : w.Mapped) :
    (afterAttempt cLog env pmemLibrary (qsortReverse block) w).pool =
      (revertBySequenceNumberArray cLog (qsortReverse block) w).pool := by
  rw [(afterAttempt_pool cLog hidle hopen (qsortReverse block) hw).2.1]
  exact @revertArray_pool_congr cLog w
    { w with binaryRevertedItems := (qsortReverse block).length } rfl _ fun _ _ => rfl

/-- A block that was tried and undone leaves the pool as it was. -/
theorem givenUp_pool {l block : List Int} (hasc : l.Pairwise (· < ·)) (hsub : block.Sublist l)
    {w : World} (hw : w.Mapped) (hrev : ∀ q ∈ l, Revertible w q) :
    let w' := givenUp cLog env pmemLibrary block w
    w'.Mapped ∧ w'.pool = w.pool ∧ SameOutline l w w' := by
  intro w'
  let start : World := { w with binaryRevertedItems := (qsortReverse block).length }
  let reverted := revertBySequenceNumberArray cLog (qsortReverse block) start
  obtain ⟨hmapped, hpool, hview⟩ := afterAttempt_pool cLog hidle hopen (qsortReverse block) hw
  let tried := afterAttempt cLog env pmemLibrary (qsortReverse block) w
  let counted : World := { tried with binaryReversionCount := tried.binaryReversionCount + 1 }
  have hout : SameOutline l w reverted := sameOutline_revertArray cLog l (qsortReverse block) start
  have hplaced : ∀ q ∈ l, reverted.sLog.Holds q ∧ reverted.Placed q := fun q hq =>
    ⟨(hout.revertible hq (hrev q hq)).holds, (hout.revertible hq (hrev q hq)).placed⟩
  have hblock : sortAscending block = block :=
    (hasc.sublist hsub |>.imp le_of_lt).insertionSort_eq
  have hnd : block.Nodup := (hasc.sublist hsub).imp ne_of_lt
  refine ⟨World.Mapped.congr (w := counted) hmapped (undoArray_mapping block counted), ?_, ?_⟩
  · have halike : Alike (qsortReverse block)
        (counted.log (.undo block counted.base)) ((qsortReverse block).foldl (revertOne cLog)
          (start.log (.revert (qsortReverse block) start.base))) := by
      refine ⟨hpool, fun q hq => ?_⟩
      have hql : q ∈ l := hsub.subset (mem_qsortReverse.mp hq)
      exact (hview q (hplaced q hql).1 (hplaced q hql).2).2
    have hnumber : ∀ q ∈ qsortReverse block, (w.view q).1.sequenceNumber ≠ -1 := fun q hq =>
      (hrev q (hsub.subset (mem_qsortReverse.mp hq))).number
    have hround := undo_after_revert cLog (qsortReverse block)
      (start.log (.revert (qsortReverse block) start.base)) _
      ((qsortReverse_perm block).nodup_iff.mpr hnd) hnumber halike
    have horder : (qsortReverse block).reverse = block := by
      rw [qsortReverse_eq, List.reverse_reverse, hblock]
    rw [horder] at hround
    refine hround.trans (roundTrip_of_covered (fun s hs => ?_) _)
    obtain ⟨q, hq, rfl⟩ := List.mem_map.mp hs
    exact (hrev q (hsub.subset (mem_qsortReverse.mp hq))).covered cLog
  · intro q hq hholds
    obtain ⟨hholds', hout'⟩ := hout q hq hholds
    obtain ⟨hheld, hseen⟩ := hview q hholds' (hplaced q hq).2
    have hundo : w'.view q = tried.view q := by
      change World.view (block.foldl undoOne (counted.log (.undo block counted.base))) q = _
      rw [foldl_undoOne_view]
      rfl
    refine ⟨?_, ?_⟩
    · change (block.foldl undoOne (counted.log (.undo block counted.base))).sLog.Holds q
      rw [foldl_undoOne_sLog]
      exact hheld
    · rw [World.outline, hundo, hseen]
      exact hout'

end Pool

/-- What a finished call did, for the outcome of the search it makes. -/
structure Searched (cLog : CheckpointLog) (env : Env) (pmemLibrary : PmemLibrary)
    (w w' : World) (l : List Int) (o : Outcome Int) : Prop where
  runs : w'.runs = w.runs + o.tried.length + 1
  tries : w'.coarseGrainedTries = w.coarseGrainedTries
  count : w'.binaryReversionCount = 0
  success : w'.binarySuccess = if o.success then 1 else w.binarySuccess
  items : w'.binaryRevertedItems = o.last.length
  history : ∃ trace, w'.history = trace ++ w.history ∧ marks trace =
    trialMarks (env.succeeds w.coarseGrainedTries) w.runs o.tried o.last
  pool : (∀ i m, env.effect i m = m) → Reopens env pmemLibrary → w.Mapped →
    l.Pairwise (· < ·) → (∀ q ∈ l, Revertible w q) →
    w'.pool = (revertBySequenceNumberArray cLog (qsortReverse o.last) w).pool

section Search

variable (cLog : CheckpointLog) (env : Env) (pmemLibrary : PmemLibrary)

/-- A last attempt, the counters being set around it. -/
theorem searched_last (l block : List Int) (w : World) (count : Int) (success : Bool) :
    Searched cLog env pmemLibrary w { afterAttempt cLog env pmemLibrary (qsortReverse block)
      { w with binaryReversionCount := count } with
        binaryReversionCount := 0
        binarySuccess := if success then 1 else w.binarySuccess } l ⟨[], block, success⟩ := by
  have hatt := Frame.afterAttempt cLog env pmemLibrary (qsortReverse block)
    { w with binaryReversionCount := count }
  refine ⟨hatt.runs, hatt.tries, rfl, rfl, ?_, hatt.history, ?_⟩
  · exact hatt.items.trans (qsortReverse_perm block).length_eq
  · intro hidle hopen hw _ _
    refine (afterAttempt_reverts hidle hopen block
      (w := { w with binaryReversionCount := count }) hw).trans ?_
    exact @revertArray_pool_congr cLog w { w with binaryReversionCount := count } rfl _ fun _ _ => rfl

/-- A search that goes on after a block was given up. -/
theorem searched_giveUp {l block next : List Int} (hblock : block.Sublist l)
    (hnext : next.Sublist l) {w w' : World} {o : Outcome Int}
    (hlast : o.last.Sublist next)
    (h : Searched cLog env pmemLibrary (givenUp cLog env pmemLibrary block w) w' next o) :
    Searched cLog env pmemLibrary w w' l (o.giveUp block) := by
  obtain ⟨hruns, htries, -, hsuccess, trace, htrace, hmarks⟩ :=
    givenUp_spec cLog env pmemLibrary block w
  obtain ⟨trace', htrace', hmarks'⟩ := h.history
  refine ⟨?_, h.tries.trans htries, h.count, ?_, h.items, ⟨trace' ++ trace, ?_, ?_⟩, ?_⟩
  · rw [h.runs, hruns, Outcome.giveUp, List.length_cons]
    omega
  · rw [h.success, hsuccess]
    rfl
  · rw [htrace', htrace, List.append_assoc]
  · rw [marks_append, hmarks, hmarks', htries, hruns]
    rfl
  · intro hidle hopen hw hasc hrev
    obtain ⟨hmapped, hpool, hout⟩ := givenUp_pool hidle hopen hasc hblock hw hrev
    rw [h.pool hidle hopen hmapped (hasc.sublist hnext)
      fun q hq => hout.revertible (hnext.subset hq) (hrev q (hnext.subset hq))]
    apply revertArray_pool_congr hpool
    intro q hq
    have hql : q ∈ l := hnext.subset (hlast.subset (mem_qsortReverse.mp hq))
    exact hout.stepOf_eq cLog hql (hrev q hql).holds

/-- One call at a list with a number in it: the upper half is tried, and what follows
depends on the answer, on the count of attempts and on the half's size. -/
theorem binaryReversion_succ (poolAddress : UInt64) (fuel : Nat) {l : List Int} (hl : l ≠ [])
    (w : World) :
    binaryReversion cLog env pmemLibrary poolAddress (fuel + 1) l 0 (l.length - 1) w =
      if env.succeeds w.coarseGrainedTries w.runs then
        if w.binaryReversionCount + 1 > binaryReversionAttempts ∨ (upper l).length = 1 then
          some (0, { afterAttempt cLog env pmemLibrary (qsortReverse (upper l)) w with
            binaryReversionCount := 0, binarySuccess := 1 })
        else
          (binaryReversion cLog env pmemLibrary poolAddress fuel (upper l) 0 ((upper l).length - 1)
            (givenUp cLog env pmemLibrary (upper l) w)).map fun r => (-1, r.2)
      else if w.binaryReversionCount + 1 > binaryReversionAttempts ∨ (lower l).length = 1 then
        some (1, afterLower cLog env pmemLibrary l w)
      else
        (binaryReversion cLog env pmemLibrary poolAddress fuel (lower l) 0 ((lower l).length - 1)
          (givenUp cLog env pmemLibrary (upper l) w)).map fun r => (-1, r.2) := by
  have hpos : 0 < l.length := List.length_pos_iff.mpr hl
  have hle : (l.length : Int) - 1 ≥ 0 := by omega
  have hup := qsortReverse_ne_nil (upper_ne_nil hl)
  have hlow := qsortReverse_ne_nil (lower_ne_nil hl)
  have hcount : (afterAttempt cLog env pmemLibrary (qsortReverse (upper l)) w).binaryReversionCount =
      w.binaryReversionCount := (Frame.afterAttempt cLog env pmemLibrary _ w).count
  obtain ⟨hruns, htries, hgiven, -⟩ := givenUp_spec cLog env pmemLibrary (upper l) w
  rw [binaryReversion]
  simp only [if_pos hle, left_eq hl, right_eq hl, decision_take, attempt_eq _ _ _ _ hup, hcount]
  cases hans : env.succeeds w.coarseGrainedTries w.runs with
  | true =>
    simp only [retOf, if_true]
    split_ifs
    · rfl
    · rw [givenUp, hcount]
  | false =>
    have hundo : undoBySequenceNumberArray (upper l)
        { afterAttempt cLog env pmemLibrary (qsortReverse (upper l)) w with
          binaryReversionCount := w.binaryReversionCount + 1 } =
        givenUp cLog env pmemLibrary (upper l) w := by
      rw [givenUp, hcount]
    have hret : retOf false ≠ 1 := by decide
    have hlast : attempt cLog env pmemLibrary poolAddress (qsortReverse (lower l)) (retOf false)
        { givenUp cLog env pmemLibrary (upper l) w with binaryReversionCount := 0 } =
        some (retOf (env.succeeds w.coarseGrainedTries (w.runs + 1)),
          afterAttempt cLog env pmemLibrary (qsortReverse (lower l))
            { givenUp cLog env pmemLibrary (upper l) w with binaryReversionCount := 0 }) := by
      rw [← htries, ← hruns]
      exact attempt_eq cLog env pmemLibrary poolAddress hlow _ _
    rw [if_neg hret, if_neg Bool.false_ne_true, hundo, hgiven, hlast, Option.map_some]
    simp only [retOf_eq_one, afterLower]

theorem eq_setCounters {v : World} {count success : Int} (hcount : v.binaryReversionCount = count)
    (hsuccess : v.binarySuccess = success) :
    v = { v with binaryReversionCount := count, binarySuccess := success } := by
  subst hcount hsuccess
  rfl

/-- The attempt at the lower half, after which the call returns. -/
theorem searched_lower (l : List Int) (w : World) :
    Searched cLog env pmemLibrary w (afterLower cLog env pmemLibrary l w) l
      ⟨[upper l], lower l, env.succeeds w.coarseGrainedTries (w.runs + 1)⟩ := by
  let last := afterAttempt cLog env pmemLibrary (qsortReverse (lower l))
    { givenUp cLog env pmemLibrary (upper l) w with binaryReversionCount := 0 }
  have hframe := Frame.afterAttempt cLog env pmemLibrary (qsortReverse (lower l))
    { givenUp cLog env pmemLibrary (upper l) w with binaryReversionCount := 0 }
  have hset : afterLower cLog env pmemLibrary l w = { last with
      binaryReversionCount := 0
      binarySuccess := if env.succeeds w.coarseGrainedTries (w.runs + 1) then 1
        else (givenUp cLog env pmemLibrary (upper l) w).binarySuccess } := by
    unfold afterLower
    cases env.succeeds w.coarseGrainedTries (w.runs + 1) with
    | true => exact eq_setCounters (v := { last with binarySuccess := 1 }) hframe.count rfl
    | false => exact eq_setCounters hframe.count hframe.success
  rw [hset]
  exact searched_giveUp cLog env pmemLibrary (upper_sublist l) (lower_sublist l)
    (List.Sublist.refl _) (searched_last cLog env pmemLibrary (lower l) (lower l) _ 0 _)

/-- The attempt at the upper half, after which the call returns. -/
theorem searched_upper (l : List Int) (w : World) :
    Searched cLog env pmemLibrary w
      { afterAttempt cLog env pmemLibrary (qsortReverse (upper l)) w with
        binaryReversionCount := 0, binarySuccess := 1 } l ⟨[], upper l, true⟩ :=
  searched_last cLog env pmemLibrary l (upper l) w w.binaryReversionCount true

/-- Every call with `budget` further halvings returns, and makes that search. -/
theorem binaryReversion_search (poolAddress : UInt64) (budget : Nat) {fuel : Nat}
    (hfuel : budget < fuel) {l : List Int} (hl : l ≠ []) {w : World}
    (hcount : w.binaryReversionCount = binaryReversionAttempts - budget) :
    ∃ ret w', binaryReversion cLog env pmemLibrary poolAddress fuel l 0 (l.length - 1) w =
        some (ret, w') ∧
      Searched cLog env pmemLibrary w w' l
        (search (env.succeeds w.coarseGrainedTries) budget w.runs l) := by
  induction budget generalizing fuel l w with
  | zero =>
    obtain ⟨fuel, rfl⟩ : ∃ k, fuel = k + 1 := ⟨fuel - 1, by omega⟩
    have hstop : w.binaryReversionCount + 1 > binaryReversionAttempts := by omega
    rw [binaryReversion_succ cLog env pmemLibrary poolAddress fuel hl w, search]
    simp only [hstop, true_or, if_true]
    cases hans : env.succeeds w.coarseGrainedTries w.runs with
    | true => exact ⟨_, _, rfl, searched_upper cLog env pmemLibrary l w⟩
    | false => exact ⟨_, _, rfl, searched_lower cLog env pmemLibrary l w⟩
  | succ budget ih =>
    obtain ⟨fuel, rfl⟩ : ∃ k, fuel = k + 1 := ⟨fuel - 1, by omega⟩
    have hgo : ¬ w.binaryReversionCount + 1 > binaryReversionAttempts := by
      rw [hcount]
      push_cast
      omega
    obtain ⟨hruns, htries, hgiven, -⟩ := givenUp_spec cLog env pmemLibrary (upper l) w
    have hnext : (givenUp cLog env pmemLibrary (upper l) w).binaryReversionCount =
        binaryReversionAttempts - budget := by
      rw [hgiven, hcount]
      push_cast
      ring
    rw [binaryReversion_succ cLog env pmemLibrary poolAddress fuel hl w, search]
    simp only [hgo, false_or]
    cases hans : env.succeeds w.coarseGrainedTries w.runs with
    | true =>
      simp only [if_true]
      split_ifs with hone
      · exact ⟨_, _, rfl, searched_upper cLog env pmemLibrary l w⟩
      · obtain ⟨ret, w', hrun, hs⟩ := ih (show budget < fuel by omega) (upper_ne_nil hl) hnext
        rw [htries, hruns] at hs
        refine ⟨-1, w', by rw [hrun]; rfl, ?_⟩
        exact searched_giveUp cLog env pmemLibrary (upper_sublist l) (upper_sublist l)
          (tested_sublist _ _ _ _ _ (List.mem_append_right _ (List.mem_singleton_self _))) hs
    | false =>
      simp only [Bool.false_eq_true, if_false]
      split_ifs with hone
      · exact ⟨_, _, rfl, searched_lower cLog env pmemLibrary l w⟩
      · obtain ⟨ret, w', hrun, hs⟩ := ih (show budget < fuel by omega) (lower_ne_nil hl) hnext
        rw [htries, hruns] at hs
        refine ⟨-1, w', by rw [hrun]; rfl, ?_⟩
        exact searched_giveUp cLog env pmemLibrary (upper_sublist l) (lower_sublist l)
          (tested_sublist _ _ _ _ _ (List.mem_append_right _ (List.mem_singleton_self _))) hs

end Search

/-- The events between two states of a run, newest first. -/
def World.since (w w' : World) : List Event :=
  w'.history.take (w'.history.length - w.history.length)

theorem since_eq {w w' : World} {trace : List Event} (h : w'.history = trace ++ w.history) :
    w.since w' = trace := by
  simp [World.since, h]

theorem getLast_trialMarks (answer : Nat → Bool) (i : Nat) (tried : List (List Int))
    (last : List Int) :
    (trialMarks answer i tried last).getLast? = some (.reexecuted (answer (i + tried.length))) := by
  induction tried generalizing i with
  | nil => rfl
  | cons block tried ih =>
    have hnext := ih (i + 1)
    have hindex : i + 1 + tried.length = i + (block :: tried).length := by
      rw [List.length_cons]
      omega
    rw [hindex] at hnext
    simp [trialMarks, List.getLast?_cons, hnext]

/-- The call ends with its last block reverted and every block before it undone. The
last block is an eighth of the list at most, after four runs at most. -/
theorem binaryReversion_keeps_last (cLog : CheckpointLog) {env : Env} {pmemLibrary : PmemLibrary}
    (poolAddress : UInt64) (hidle : ∀ i m, env.effect i m = m) (hopen : Reopens env pmemLibrary)
    {w : World} (hmapped : w.Mapped) {l : List Int} (hl : 1 ≤ l.length)
    (hasc : l.Pairwise (· < ·)) (hrev : ∀ q ∈ l, Revertible w q)
    (hcount : w.binaryReversionCount = 0) (hsuccess : w.binarySuccess = -1) {fuel : Nat}
    (hfuel : 3 ≤ fuel) :
    ∃ ret w' tried last,
      binaryReversion cLog env pmemLibrary poolAddress fuel l 0 (l.length - 1) w =
        some (ret, w') ∧
      (∀ block ∈ tried ++ [last], block.Sublist l ∧ block ≠ []) ∧
      marks (w.since w') =
        trialMarks (env.succeeds w.coarseGrainedTries) w.runs tried last ∧
      w'.pool = (revertBySequenceNumberArray cLog (qsortReverse last) w).pool ∧
      w'.binaryRevertedItems = last.length ∧ last.length ≤ (l.length + 7) / 8 ∧
      w'.runs = w.runs + tried.length + 1 ∧ tried.length + 1 ≤ 4 ∧
      w'.binaryReversionCount = 0 ∧
      (w'.binarySuccess = 1 ↔ (marks (w.since w')).getLast? = some (.reexecuted true)) := by
  have hne : l ≠ [] := List.length_pos_iff.mp hl
  let answer := env.succeeds w.coarseGrainedTries
  let o := search answer 2 w.runs l
  obtain ⟨ret, w', hrun, hs⟩ := binaryReversion_search cLog env pmemLibrary poolAddress 2
    (show 2 < fuel by omega) hne (w := w) (by rw [hcount]; rfl)
  obtain ⟨trace, htrace, hmarks⟩ := hs.history
  have hsince : marks (w.since w') = trialMarks answer w.runs o.tried o.last := by
    rw [since_eq htrace, hmarks]
  refine ⟨ret, w', o.tried, o.last, hrun, ?_, hsince, hs.pool hidle hopen hmapped hasc hrev,
    hs.items, length_last_le answer 2 w.runs hne, hs.runs, ?_, hs.count, ?_⟩
  · exact fun block hblock =>
      ⟨tested_sublist answer 2 w.runs l block hblock, tested_ne_nil answer 2 w.runs hne block hblock⟩
  · exact Nat.succ_le_succ (length_tried_le answer 2 w.runs l)
  · have hverdict : o.success = answer (w.runs + o.tried.length) := success_eq answer 2 w.runs l
    have hend : w'.binarySuccess = if o.success then 1 else -1 := hsuccess ▸ hs.success
    rw [hend, hverdict, hsince, getLast_trialMarks]
    cases answer (w.runs + o.tried.length) <;> decide

/-- A command that always fails and leaves the pool, which opens at another address. -/
def failingEnv : Env := ⟨fun _ => .exited 1, fun _ m => m, fun _ => some 128, none⟩

theorem failingEnv_reopens : Reopens failingEnv .libpmemobj := fun _ => rfl

theorem pairWorld_revertible : ∀ q ∈ ([4, 5] : List Int), Revertible pairWorld q := by
  intro q hq
  rcases List.mem_pair.mp hq with rfl | rfl
  · exact ⟨⟨by decide, by decide⟩, by decide, rfl, by decide, by decide⟩
  · exact ⟨⟨by decide, by decide⟩, by decide, rfl, by decide, by decide⟩

theorem binaryReversion_keeps_last_pair :
    ∃ ret w' tried last,
      binaryReversion pairLog failingEnv .libpmemobj 64 3 [4, 5] 0 (([4, 5] : List Int).length - 1)
        pairWorld = some (ret, w') ∧
      (∀ block ∈ tried ++ [last], block.Sublist [4, 5] ∧ block ≠ []) ∧
      marks (pairWorld.since w') =
        trialMarks (failingEnv.succeeds pairWorld.coarseGrainedTries) pairWorld.runs tried last ∧
      w'.pool = (revertBySequenceNumberArray pairLog (qsortReverse last) pairWorld).pool ∧
      w'.binaryRevertedItems = last.length ∧ last.length ≤ (([4, 5] : List Int).length + 7) / 8 ∧
      w'.runs = pairWorld.runs + tried.length + 1 ∧ tried.length + 1 ≤ 4 ∧
      w'.binaryReversionCount = 0 ∧
      (w'.binarySuccess = 1 ↔
        (marks (pairWorld.since w')).getLast? = some (.reexecuted true)) :=
  binaryReversion_keeps_last pairLog 64 (fun _ _ => rfl) failingEnv_reopens ⟨rfl, rfl⟩ (by decide)
    (by decide) pairWorld_revertible rfl rfl (le_refl 3)

/-- Each re-execution succeeded exactly when `P` held of the numbers reverted by then and
not undone since; `reverted` are those at the start. -/
def Obeys (P : Set Int → Prop) : Set Int → List Mark → Prop
  | _, [] => True
  | reverted, .reverted l :: rest => Obeys P (reverted ∪ {q | q ∈ l}) rest
  | reverted, .undone l :: rest => Obeys P (reverted \ {q | q ∈ l}) rest
  | reverted, .reexecuted success :: rest =>
    (success = true ↔ P reverted) ∧ Obeys P reverted rest
  | reverted, .batch _ :: rest => Obeys P reverted rest

/-- Obedient runs answer each trial by what `P` says of the block alone. -/
theorem truthful_of_obeys {P : Set Int → Prop} (answer : Nat → Bool) (i : Nat)
    (tried : List (List Int)) (last : List Int)
    (h : Obeys P ∅ (trialMarks answer i tried last)) :
    Truthful answer (fun block => P {q | q ∈ block}) i (tried ++ [last]) := by
  have hset : ∀ block : List Int, (∅ : Set Int) ∪ {q | q ∈ qsortReverse block} = {q | q ∈ block} := by
    intro block
    ext q
    simp [mem_qsortReverse]
  induction tried generalizing i with
  | nil =>
    simp only [trialMarks, Obeys, hset] at h
    exact ⟨h.1, trivial⟩
  | cons block tried ih =>
    simp only [trialMarks, Obeys, hset, sdiff_self, Set.bot_eq_empty] at h
    exact ⟨h.1, ih (i + 1) h.2⟩

end Arthas.Reactor
