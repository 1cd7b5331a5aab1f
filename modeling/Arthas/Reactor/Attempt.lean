import Arthas.Reactor.Addresses
import Arthas.Reactor.BinaryReversion

/-!
What one attempt of the binary reversion does: to the counters and the history in any
case, and to the pool when reopening works and re-execution leaves the pool alone.
-/

set_option autoImplicit false
set_option relaxedAutoImplicit false

namespace Arthas.Reactor

open Arthas.Lib ByteImage Checkpoint Journal

/-- The passes, re-executions and batches among the events. -/
inductive Mark where
  | reverted (seqNumbers : List Int)
  | undone (seqNumbers : List Int)
  | reexecuted (success : Bool)
  | batch (seqNumbers : List Int)
  deriving DecidableEq

def Event.mark : Event → Option Mark
  | .revert seqNumbers _ => some (.reverted seqNumbers)
  | .undo seqNumbers _ => some (.undone seqNumbers)
  | .reexecuted ret => some (.reexecuted (ret = 1))
  | .batch seqNumbers => some (.batch seqNumbers)
  | _ => none

/-- The marks of a history, oldest first. -/
def marks (history : List Event) : List Mark := (history.filterMap Event.mark).reverse

theorem marks_append (new old : List Event) : marks (new ++ old) = marks old ++ marks new := by
  simp [marks]

/-- What re-execution number `run` answers to a fine-grain request. -/
def Env.succeeds (env : Env) (coarseGrainedTries : Int) (run : Nat) : Bool :=
  coarseGrainedTries ≠ maxCoarseAttempts && !(env.status run).exitedWithError

/-- From `w` to `w'` there were `n` runs of the command and the marks `ms`, and none of
the counters of the search moved. -/
structure Frame (w w' : World) (n : Nat) (ms : List Mark) : Prop where
  runs : w'.runs = w.runs + n
  tries : w'.coarseGrainedTries = w.coarseGrainedTries
  count : w'.binaryReversionCount = w.binaryReversionCount
  success : w'.binarySuccess = w.binarySuccess
  items : w'.binaryRevertedItems = w.binaryRevertedItems
  history : ∃ trace, w'.history = trace ++ w.history ∧ marks trace = ms

namespace Frame

theorem refl (w : World) : Frame w w 0 [] := ⟨rfl, rfl, rfl, rfl, rfl, [], rfl, rfl⟩

theorem trans {w w₁ w₂ : World} {m n : Nat} {ms ns : List Mark} (h : Frame w w₁ m ms)
    (h' : Frame w₁ w₂ n ns) : Frame w w₂ (m + n) (ms ++ ns) := by
  obtain ⟨trace, htrace, hms⟩ := h.history
  obtain ⟨trace', htrace', hns⟩ := h'.history
  refine ⟨by rw [h'.runs, h.runs, Nat.add_assoc], h'.tries.trans h.tries, h'.count.trans h.count,
    h'.success.trans h.success, h'.items.trans h.items, trace' ++ trace, ?_, ?_⟩
  · rw [htrace', htrace, List.append_assoc]
  · rw [marks_append, hms, hns]

theorem log (w : World) (e : Event) : Frame w (w.log e) 0 e.mark.toList := by
  refine ⟨rfl, rfl, rfl, rfl, rfl, [e], rfl, ?_⟩
  cases h : e.mark <;> simp [marks, h]

theorem memcpy (w : World) (d : SingleData) (bytes : List UInt8) :
    Frame w (w.memcpy d bytes) 0 [] :=
  ⟨rfl, rfl, rfl, rfl, rfl, [.copy w.base d.sortedPmemAddress d.offset], rfl, rfl⟩

theorem revertOne (cLog : CheckpointLog) (w : World) (q : Int) :
    Frame w (revertOne cLog w q) 0 [] := by
  unfold Reactor.revertOne
  simp only
  split_ifs
  · exact refl w
  · cases searchForOffset (lookup w.sLog q).oldCheckpointEntry cLog with
    | none => exact refl w
    | some cNode => exact memcpy w _ _
  · exact refl w
  · have hsave : Frame w (lookupUndoSave w q (lookup w.sLog q).size) 0 [] :=
      ⟨rfl, rfl, rfl, rfl, rfl, [], rfl, rfl⟩
    exact hsave.trans (memcpy _ _ _)

theorem undoOne (w : World) (q : Int) : Frame w (undoOne w q) 0 [] := by
  unfold Reactor.undoOne undoBySequenceNumber
  simp only
  split
  · exact refl w
  · exact memcpy w _ _

theorem foldl {f : World → Int → World} (hf : ∀ w q, Frame w (f w q) 0 []) (l : List Int)
    (w : World) : Frame w (l.foldl f w) 0 [] := by
  induction l generalizing w with
  | nil => exact refl w
  | cons q l ih => exact (hf w q).trans (ih (f w q))

theorem revertArray (cLog : CheckpointLog) (l : List Int) (w : World) :
    Frame w (revertBySequenceNumberArray cLog l w) 0 [.reverted l] :=
  (log w (.revert l w.base)).trans (foldl (revertOne cLog) l _)

theorem undoArray (l : List Int) (w : World) :
    Frame w (undoBySequenceNumberArray l w) 0 [.undone l] :=
  (log w (.undo l w.base)).trans (foldl undoOne l _)

theorem close (pop : Option UInt64) (w : World) : Frame w (pmemobjClose pop w) 0 [] :=
  ⟨rfl, rfl, rfl, rfl, rfl, [.closed pop], rfl, rfl⟩

theorem redo (env : Env) (w : World) : Frame w (redoPmemAddresses env w).2 0 [] := by
  unfold redoPmemAddresses pmemobjOpen
  cases h : env.pmemobjOpen w.opens with
  | none => exact ⟨rfl, rfl, rfl, rfl, rfl, [.opened none], rfl, rfl⟩
  | some pop => exact ⟨rfl, rfl, rfl, rfl, rfl, [.opened (some pop)], rfl, rfl⟩

theorem reopen (env : Env) (w : World) : Frame w (reopenForRetry env w).2 0 [] := by
  unfold reopenForRetry
  have hfirst := redo env w
  cases h : redoPmemAddresses env w with
  | mk pop w₁ =>
    rw [h] at hfirst
    cases pop with
    | some pop => exact hfirst
    | none => exact hfirst.trans ((log w₁ .killScript).trans (redo env _))

theorem system (env : Env) (w : World) : Frame w (system env w).2 1 [] :=
  ⟨rfl, rfl, rfl, rfl, rfl, [.ran (env.status w.runs)], rfl, rfl⟩

end Frame

/-- The return value that stands for an answer. -/
def retOf (success : Bool) : Int := if success then 1 else -1

theorem retOf_eq_one {success : Bool} : retOf success = 1 ↔ success = true := by
  cases success <;> decide

/-- The state a fine-grain re-execution leaves: after a failure the pool was opened
again and closed. -/
def afterReExecute (env : Env) (w : World) : World :=
  let ran := (system env w).2
  let ended :=
    if w.coarseGrainedTries ≠ maxCoarseAttempts ∧ (env.status w.runs).exitedWithError then
      pmemobjClose (reopenForRetry env ran).1 (reopenForRetry env ran).2
    else ran
  ended.log (.reexecuted (retOf (env.succeeds w.coarseGrainedTries w.runs)))

theorem reExecuteFineGrain_eq (env : Env) (poolAddress : UInt64) (seqNum : Int) (w : World) :
    reExecuteFineGrain env poolAddress seqNum w =
      some (retOf (env.succeeds w.coarseGrainedTries w.runs), afterReExecute env w) := by
  have htries : (system env w).2.coarseGrainedTries = w.coarseGrainedTries := rfl
  have hstatus : (system env w).1 = env.status w.runs := rfl
  unfold reExecuteFineGrain reExecute afterReExecute Env.succeeds
  simp only [htries, hstatus]
  by_cases hmax : w.coarseGrainedTries = maxCoarseAttempts
  · simp [hmax, retOf]
  · cases herr : (env.status w.runs).exitedWithError <;> simp [hmax, retOf]

theorem Frame.afterReExecute (env : Env) (w : World) :
    Frame w (afterReExecute env w) 1
      [.reexecuted (env.succeeds w.coarseGrainedTries w.runs)] := by
  have hlog := fun v => Frame.log v
    (.reexecuted (retOf (env.succeeds w.coarseGrainedTries w.runs)))
  have hmark : (Event.reexecuted (retOf (env.succeeds w.coarseGrainedTries w.runs))).mark.toList =
      [.reexecuted (env.succeeds w.coarseGrainedTries w.runs)] := by
    cases env.succeeds w.coarseGrainedTries w.runs <;> rfl
  rw [hmark] at hlog
  unfold Reactor.afterReExecute
  simp only
  split
  · exact (Frame.system env w).trans ((Frame.reopen env _).trans ((Frame.close _ _).trans (hlog _)))
  · exact (Frame.system env w).trans (hlog _)

/-- The state an attempt at some numbers leaves. -/
def afterAttempt (cLog : CheckpointLog) (env : Env) (pmemLibrary : PmemLibrary)
    (decided : List Int) (w : World) : World :=
  let reverted := revertBySequenceNumberArray cLog decided
    { w with binaryRevertedItems := decided.length }
  if pmemLibrary = .libpmemobj then
    let ran := afterReExecute env (pmemobjClose reverted.pop reverted)
    let reopened := redoPmemAddresses env
      { ran with totalReexecutions := ran.totalReexecutions + 1 }
    { reopened.2 with pop := reopened.1 }
  else
    let ran := afterReExecute env reverted
    { ran with totalReexecutions := ran.totalReexecutions + 1 }

theorem attempt_eq (cLog : CheckpointLog) (env : Env) (pmemLibrary : PmemLibrary)
    (poolAddress : UInt64) {decided : List Int} (hne : decided ≠ []) (reqFlag2 : Int) (w : World) :
    attempt cLog env pmemLibrary poolAddress decided reqFlag2 w =
      some (retOf (env.succeeds w.coarseGrainedTries w.runs),
        afterAttempt cLog env pmemLibrary decided w) := by
  have hpos : decided.length > 0 := List.length_pos_iff.mpr hne
  have hframe := Frame.revertArray cLog decided { w with binaryRevertedItems := decided.length }
  unfold attempt afterAttempt
  by_cases hlib : pmemLibrary = .libpmemobj
  · simp only [hlib, if_true, if_pos hpos, reExecuteFineGrain_eq, Option.map_some]
    rw [(Frame.close _ _).tries, (Frame.close _ _).runs, hframe.tries, hframe.runs]
    rfl
  · simp only [hlib, if_false, if_pos hpos, reExecuteFineGrain_eq, Option.map_some]
    rw [hframe.tries, hframe.runs]
    rfl

/-- An attempt reverts its numbers and runs the command once. -/
theorem Frame.afterAttempt (cLog : CheckpointLog) (env : Env) (pmemLibrary : PmemLibrary)
    (decided : List Int) (w : World) :
    Frame { w with binaryRevertedItems := decided.length }
      (afterAttempt cLog env pmemLibrary decided w) 1
      [.reverted decided, .reexecuted (env.succeeds w.coarseGrainedTries w.runs)] := by
  have hrevert := Frame.revertArray cLog decided { w with binaryRevertedItems := decided.length }
  have hcount : ∀ v : World,
      Frame v { v with totalReexecutions := v.totalReexecutions + 1 } 0 [] :=
    fun v => ⟨rfl, rfl, rfl, rfl, rfl, [], rfl, rfl⟩
  have hpop : ∀ (v : World) (pop : Option UInt64), Frame v { v with pop := pop } 0 [] :=
    fun v pop => ⟨rfl, rfl, rfl, rfl, rfl, [], rfl, rfl⟩
  unfold Reactor.afterAttempt
  simp only
  split
  · have hclosed := hrevert.trans (Frame.close (revertBySequenceNumberArray cLog decided
      { w with binaryRevertedItems := decided.length }).pop _)
    have hran := hclosed.trans (Frame.afterReExecute env _)
    rw [hclosed.tries, hclosed.runs] at hran
    exact (hran.trans (hcount _)).trans ((Frame.redo env _).trans (hpop _ _))
  · have hran := hrevert.trans (Frame.afterReExecute env _)
    rw [hrevert.tries, hrevert.runs] at hran
    exact hran.trans (hcount _)

/-! The pool side. -/

/-- How opening the pool answers: an object pool always opens, any other file never
does, and is then left where it was mapped. -/
def Reopens (env : Env) : PmemLibrary → Prop
  | .libpmemobj => ∀ i, (env.pmemobjOpen i).isSome
  | _ => ∀ i, env.pmemobjOpen i = none

/-- A number whose reversion can be undone: it is in the table, goes to its own offset of
the mapped pool, and has an earlier version that is no longer than its own. -/
structure Revertible (w : World) (q : Int) : Prop where
  holds : w.sLog.Holds q
  number : (lookup w.sLog q).sequenceNumber ≠ -1
  placed : w.Placed q
  version : 1 ≤ (lookup w.sLog q).version
  size : (lookup w.sLog q).oldSize ((lookup w.sLog q).version - 1).toNat ≤ (lookup w.sLog q).size

/-- What the view says of a number, less the buffer that saves the pool. -/
def World.outline (w : World) (q : Int) : SingleData × Option UInt64 :=
  ({ (w.view q).1 with data := [] }, (w.view q).2)

/-- The numbers of `l` keep their nodes and their outlines. -/
def SameOutline (l : List Int) (w w' : World) : Prop :=
  ∀ q ∈ l, w.sLog.Holds q → w'.sLog.Holds q ∧ w'.outline q = w.outline q

theorem SameOutline.trans {l : List Int} {w w₁ w₂ : World} (h : SameOutline l w w₁)
    (h' : SameOutline l w₁ w₂) : SameOutline l w w₂ := by
  intro q hq hholds
  obtain ⟨hheld, hout⟩ := h q hq hholds
  obtain ⟨hheld', hout'⟩ := h' q hq hheld
  exact ⟨hheld', hout'.trans hout⟩

theorem SameOutline.revertible {l : List Int} {w w' : World} (h : SameOutline l w w') {q : Int}
    (hq : q ∈ l) (hrev : Revertible w q) : Revertible w' q := by
  obtain ⟨hheld, hout⟩ := h q hq hrev.holds
  obtain ⟨hd, hplace⟩ := Prod.mk.injEq .. ▸ hout
  have hfields := hd
  simp only [World.view, SingleData.mk.injEq] at hfields
  obtain ⟨-, hoffset, -, hsize, hnum, hver, -, holds, -, -, -⟩ := hfields
  refine ⟨hheld, hnum ▸ hrev.number, ?_, hver ▸ hrev.version, ?_⟩
  · exact hplace.trans (hrev.placed.trans (congrArg some hoffset.symm))
  · rw [hver, holds, hsize]
    exact hrev.size

theorem stepOf_outline (cLog : CheckpointLog) (w : World) (q : Int) :
    stepOf cLog (w.outline q) = stepOf cLog (w.view q) := by
  unfold stepOf World.outline
  cases (w.view q).2 with
  | none => rfl
  | some place => exact stepAt_congr place rfl

theorem SameOutline.stepOf_eq {l : List Int} {w w' : World} (h : SameOutline l w w')
    (cLog : CheckpointLog) {q : Int} (hq : q ∈ l) (hholds : w.sLog.Holds q) :
    stepOf cLog (w'.view q) = stepOf cLog (w.view q) := by
  rw [← stepOf_outline, (h q hq hholds).2, stepOf_outline]

theorem Revertible.covered {w : World} {q : Int} (h : Revertible w q) (cLog : CheckpointLog) :
    (stepOf cLog (w.view q)).Covered := by
  have hnot : ¬ ((lookup w.sLog q).version - 1 < 0) := by
    have := h.version
    omega
  rw [stepOf_view, h.placed, Option.map_some, Option.getD_some, stepAt, if_neg h.number, if_neg hnot]
  exact overwrite_covered ((List.length_take_le _ _).trans h.size)

theorem revertOne_holds {cLog : CheckpointLog} {w : World} {p q : Int} (h : w.sLog.Holds q) :
    (revertOne cLog w p).sLog.Holds q := by
  unfold revertOne
  simp only
  split_ifs
  · exact h
  · cases searchForOffset (lookup w.sLog p).oldCheckpointEntry cLog <;> exact h
  · exact h
  · refine ⟨h.1, ?_⟩
    change ((w.sLog.modify p _).find q).isSome
    rw [SeqLog.find_modify]
    split_ifs with hpq
    · simpa [← hpq] using h.2
    · exact h.2

theorem savedView_outline (pool : Image) (r : SingleData × Option UInt64) :
    { (savedView pool r).1 with data := [] } = { r.1 with data := [] } ∧
      (savedView pool r).2 = r.2 := by
  obtain ⟨d, place⟩ := r
  unfold savedView
  split_ifs
  · exact ⟨rfl, rfl⟩
  · cases place <;> exact ⟨rfl, rfl⟩

theorem revertOne_outline (cLog : CheckpointLog) (w : World) (p q : Int) :
    (revertOne cLog w p).outline q = w.outline q := by
  unfold World.outline
  rw [revertOne_view]
  split_ifs with h
  · rw [h]
    exact Prod.ext (savedView_outline w.pool (w.view p)).1 (savedView_outline w.pool (w.view p)).2
  · rfl

theorem sameOutline_revertArray (cLog : CheckpointLog) (l decided : List Int) (w : World) :
    SameOutline l w (revertBySequenceNumberArray cLog decided w) := by
  apply List.foldlRecOn (motive := SameOutline l w) decided (revertOne cLog)
  · exact fun q _ hholds => ⟨hholds, rfl⟩
  · intro v hv p _
    exact hv.trans fun q _ hholds =>
      ⟨revertOne_holds hholds, revertOne_outline cLog v p q⟩

/-- The logs agree on the held records up to their addresses. -/
def Readdressed (s s' : SeqLog) : Prop :=
  ∀ q, s.Holds q → s'.Holds q ∧ ∀ pop, placedAt pop (lookup s' q) = placedAt pop (lookup s q)

theorem Readdressed.refl (s : SeqLog) : Readdressed s s := fun _ h => ⟨h, fun _ => rfl⟩

theorem holds_assignAddresses {s : SeqLog} {q : Int} (h : s.Holds q) (pop : UInt64) :
    (assignAddresses s pop).Holds q := by
  refine ⟨h.1, ?_⟩
  rw [find_assignAddresses, if_pos h.1, Option.isSome_map]
  exact h.2

theorem Readdressed.assign {s s' : SeqLog} (h : Readdressed s s') (pop : UInt64) :
    Readdressed s (assignAddresses s' pop) := by
  intro q hq
  obtain ⟨hq', hd⟩ := h q hq
  refine ⟨holds_assignAddresses hq' pop, fun pop' => ?_⟩
  rw [lookup_assignAddresses hq' pop]
  exact hd pop'

/-- In a pool mapped anew with fresh addresses a held number is seen as before. -/
theorem view_of_readdressed {w w' : World} {s : SeqLog} {pop : UInt64}
    (hs : Readdressed w.sLog s) (hbase : w'.base = some pop)
    (hlog : w'.sLog = assignAddresses s pop) {q : Int} (hq : w.sLog.Holds q)
    (hplaced : w.Placed q) : w'.sLog.Holds q ∧ w'.view q = w.view q := by
  obtain ⟨hq', hd⟩ := hs q hq
  have hlookup : lookup w'.sLog q = placedAt pop (lookup w.sLog q) := by
    rw [hlog, lookup_assignAddresses hq' pop, hd pop]
  refine ⟨hlog ▸ holds_assignAddresses hq' pop, ?_⟩
  rw [hplaced.view_eq, World.view, hlookup, place_placedAt hbase]
  rfl

theorem redo_some {env : Env} {w : World} (h : (env.pmemobjOpen w.opens).isSome) :
    ∃ pop, (redoPmemAddresses env w).1 = some pop ∧
      (redoPmemAddresses env w).2.base = some pop ∧
      (redoPmemAddresses env w).2.sLog = assignAddresses w.sLog pop ∧
      (redoPmemAddresses env w).2.pool = w.pool := by
  obtain ⟨pop, hpop⟩ := Option.isSome_iff_exists.mp h
  refine ⟨pop, ?_⟩
  simp [redoPmemAddresses, pmemobjOpen, hpop]

/-- Re-executing leaves the records up to their addresses, and the pool as the command
left it. -/
theorem afterReExecute_readdressed {env : Env} (hidle : ∀ i m, env.effect i m = m)
    (hopen : ∀ i, (env.pmemobjOpen i).isSome) (w : World) :
    Readdressed w.sLog (afterReExecute env w).sLog ∧ (afterReExecute env w).pool = w.pool := by
  have hpool : (system env w).2.pool = w.pool := hidle _ _
  unfold afterReExecute
  simp only
  split
  · obtain ⟨pop, hfst, -, hlog, hp⟩ := redo_some (hopen (system env w).2.opens)
    have hreopen : reopenForRetry env (system env w).2 =
        (some pop, (redoPmemAddresses env (system env w).2).2) := by
      unfold reopenForRetry
      rw [show redoPmemAddresses env (system env w).2 =
        (some pop, (redoPmemAddresses env (system env w).2).2) from Prod.ext hfst rfl]
    rw [hreopen]
    refine ⟨?_, hp.trans hpool⟩
    change Readdressed w.sLog (redoPmemAddresses env (system env w).2).2.sLog
    rw [hlog]
    exact (Readdressed.refl w.sLog).assign pop
  · exact ⟨Readdressed.refl w.sLog, hpool⟩

/-- Where no pool opens, re-executing changes neither the records nor the mapping. -/
theorem afterReExecute_closed {env : Env} (hidle : ∀ i m, env.effect i m = m)
    (hclosed : ∀ i, env.pmemobjOpen i = none) (w : World) :
    (afterReExecute env w).sLog = w.sLog ∧ (afterReExecute env w).base = w.base ∧
      (afterReExecute env w).pop = w.pop ∧ (afterReExecute env w).pool = w.pool := by
  unfold afterReExecute
  simp only
  split
  · simp [reopenForRetry, redoPmemAddresses, pmemobjOpen, hclosed, pmemobjClose, World.log, system,
      hidle]
  · exact ⟨rfl, rfl, rfl, hidle _ _⟩

/-- The pool is open, and the variable `pop` is where it is mapped. -/
def World.Mapped (w : World) : Prop := w.base.isSome ∧ w.pop = w.base

theorem revertOne_mapping (cLog : CheckpointLog) (w : World) (q : Int) :
    (revertOne cLog w q).base = w.base ∧ (revertOne cLog w q).pop = w.pop := by
  unfold revertOne
  simp only
  split_ifs
  · exact ⟨rfl, rfl⟩
  · cases searchForOffset (lookup w.sLog q).oldCheckpointEntry cLog <;> exact ⟨rfl, rfl⟩
  · exact ⟨rfl, rfl⟩
  · exact ⟨rfl, rfl⟩

theorem undoOne_mapping (w : World) (q : Int) :
    (undoOne w q).base = w.base ∧ (undoOne w q).pop = w.pop := by
  unfold undoOne undoBySequenceNumber
  simp only
  split <;> exact ⟨rfl, rfl⟩

theorem foldl_mapping {step : World → Int → World}
    (kept : ∀ w q, (step w q).base = w.base ∧ (step w q).pop = w.pop) (l : List Int) (w : World) :
    (l.foldl step w).base = w.base ∧ (l.foldl step w).pop = w.pop := by
  apply List.foldlRecOn (motive := fun v => v.base = w.base ∧ v.pop = w.pop) l step ⟨rfl, rfl⟩
  intro v hv q _
  obtain ⟨hbase, hpop⟩ := kept v q
  exact ⟨hbase.trans hv.1, hpop.trans hv.2⟩

theorem revertArray_mapping (cLog : CheckpointLog) (l : List Int) (w : World) :
    (revertBySequenceNumberArray cLog l w).base = w.base ∧
      (revertBySequenceNumberArray cLog l w).pop = w.pop :=
  foldl_mapping (revertOne_mapping cLog) l _

theorem undoArray_mapping (l : List Int) (w : World) :
    (undoBySequenceNumberArray l w).base = w.base ∧ (undoBySequenceNumberArray l w).pop = w.pop :=
  foldl_mapping undoOne_mapping l _

theorem World.Mapped.congr {w w' : World} (h : w.Mapped)
    (same : w'.base = w.base ∧ w'.pop = w.pop) : w'.Mapped := by
  unfold World.Mapped
  rw [same.1, same.2]
  exact h

/-- An attempt leaves the pool as its revert pass left it, open and seen as then. -/
theorem afterAttempt_pool (cLog : CheckpointLog) {env : Env} (hidle : ∀ i m, env.effect i m = m)
    {pmemLibrary : PmemLibrary} (hopen : Reopens env pmemLibrary) (decided : List Int) {w : World}
    (hw : w.Mapped) :
    let reverted := revertBySequenceNumberArray cLog decided
      { w with binaryRevertedItems := decided.length }
    let w' := afterAttempt cLog env pmemLibrary decided w
    w'.Mapped ∧ w'.pool = reverted.pool ∧
      ∀ q, reverted.sLog.Holds q → reverted.Placed q →
        w'.sLog.Holds q ∧ w'.view q = reverted.view q := by
  intro reverted w'
  have hmapped : reverted.Mapped :=
    World.Mapped.congr (w := { w with binaryRevertedItems := decided.length }) hw
      (revertArray_mapping cLog decided _)
  by_cases hlib : pmemLibrary = .libpmemobj
  · subst hlib
    let ran := afterReExecute env (pmemobjClose reverted.pop reverted)
    obtain ⟨hlogs, hpool⟩ :=
      afterReExecute_readdressed hidle hopen (pmemobjClose reverted.pop reverted)
    obtain ⟨pop, hfst, hbase, hlog, hp⟩ := redo_some
      (w := { ran with totalReexecutions := ran.totalReexecutions + 1 }) (hopen ran.opens)
    have hw' : w' = { (redoPmemAddresses env
        { ran with totalReexecutions := ran.totalReexecutions + 1 }).2 with
      pop := (redoPmemAddresses env
        { ran with totalReexecutions := ran.totalReexecutions + 1 }).1 } := rfl
    rw [hw']
    refine ⟨⟨?_, hfst.trans hbase.symm⟩, hp.trans hpool, fun q hq hplaced => ?_⟩
    · change (redoPmemAddresses env _).2.base.isSome
      rw [hbase]
      rfl
    · exact view_of_readdressed (w := reverted) hlogs hbase hlog hq hplaced
  · have hclosed : ∀ i, env.pmemobjOpen i = none := by
      cases pmemLibrary with
      | libpmemobj => exact absurd rfl hlib
      | libpmem => exact hopen
      | libpmemobj2 => exact hopen
    have hw' : w' = afterAttempt cLog env pmemLibrary decided w := rfl
    unfold afterAttempt at hw'
    simp only [if_neg hlib] at hw'
    obtain ⟨hlog, hbase, hpop, hpool⟩ := afterReExecute_closed hidle hclosed reverted
    rw [hw']
    refine ⟨?_, hpool, fun q hq _ => ⟨?_, ?_⟩⟩
    · change (afterReExecute env reverted).base.isSome ∧
        (afterReExecute env reverted).pop = (afterReExecute env reverted).base
      rw [hbase, hpop]
      exact hmapped
    · change (afterReExecute env reverted).sLog.Holds q
      rw [hlog]
      exact hq
    · change World.view (afterReExecute env reverted) q = reverted.view q
      unfold World.view World.place
      rw [hlog, hbase]

end Arthas.Reactor
