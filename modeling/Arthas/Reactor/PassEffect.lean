import Arthas.Reactor.Rollback
import Arthas.Reactor.SequenceLog

/-!
Reverting one number is one step of a journal over the pool: `stepOf` reads the step
off the record, and a revert pass applies the steps of its numbers in order. An undo
pass over the same numbers in the opposite order makes the round trip of the journal,
also when the pool was moved in between.
-/

set_option autoImplicit false
set_option relaxedAutoImplicit false

namespace Arthas.Reactor

open Arthas.Lib ByteImage Checkpoint Journal

/-- What a pass sees of a number: its record without the address, and the place the
address stands for in the mapped pool. -/
def World.view (w : World) (q : Int) : SingleData × Option UInt64 :=
  ({ lookup w.sLog q with sortedPmemAddress := none }, w.place (lookup w.sLog q))

/-- Two worlds in which every pass over the list does the same to the pool. -/
structure Alike (l : List Int) (v w : World) : Prop where
  pool : v.pool = w.pool
  view : ∀ q ∈ l, v.view q = w.view q

/-- The journal step of reverting a record that lies at `place`. A record of version
0 saves nothing, whatever it copies from its old entry. -/
def stepAt (cLog : CheckpointLog) (d : SingleData) (place : UInt64) : Step UInt64 UInt8 :=
  if d.sequenceNumber = -1 then .idle
  else if d.version - 1 < 0 then
    if d.oldCheckpointEntry ≠ 0 then
      match searchForOffset d.oldCheckpointEntry cLog with
      | some cNode => overwrite place 0 (cNode.cData.bytes cNode.cData.version)
      | none => .idle
    else .idle
  else
    overwrite place d.size
      ((d.oldData (d.version - 1).toNat).take (d.oldSize (d.version - 1).toNat))

def stepOf (cLog : CheckpointLog) (r : SingleData × Option UInt64) : Step UInt64 UInt8 :=
  match r.2 with
  | some place => stepAt cLog r.1 place
  | none => .idle

/-- The view of a number after it was reverted in a pool of this content. -/
def savedView (pool : Image) (r : SingleData × Option UInt64) : SingleData × Option UInt64 :=
  if r.1.sequenceNumber = -1 ∨ r.1.version - 1 < 0 then r
  else
    match r.2 with
    | some place => ({ r.1 with
        data := overwritePrefix r.1.data (slice pool place r.1.size) }, some place)
    | none => r

def undoPool (pool : Image) (r : SingleData × Option UInt64) : Image :=
  if r.1.version - 1 < 0 then pool
  else
    match r.2 with
    | some place => blit pool place (r.1.data.take r.1.size)
    | none => pool

/-- The buffer that saves the pool plays no part in the step. -/
theorem stepAt_congr {cLog : CheckpointLog} {d d' : SingleData} (place : UInt64)
    (h : { d with data := [] } = { d' with data := [] }) :
    stepAt cLog d place = stepAt cLog d' place := by
  rw [SingleData.mk.injEq] at h
  obtain ⟨-, -, -, hsize, hnum, hver, hdata, holds, hentry, -, -⟩ := h
  simp only [stepAt, hsize, hnum, hver, hdata, holds, hentry]

theorem stepOf_savedView (cLog : CheckpointLog) (pool : Image) (r : SingleData × Option UInt64) :
    stepOf cLog (savedView pool r) = stepOf cLog r := by
  obtain ⟨d, place⟩ := r
  unfold savedView
  split
  · rfl
  · cases place with
    | none => rfl
    | some place => exact stepAt_congr place rfl

@[simp] theorem log_view (w : World) (e : Event) : (w.log e).view = w.view := rfl

@[simp] theorem log_pool (w : World) (e : Event) : (w.log e).pool = w.pool := rfl

theorem memcpy_view (w : World) (d : SingleData) (bytes : List UInt8) :
    (w.memcpy d bytes).view = w.view := rfl

/-- A record with a number is really in the table. -/
theorem find_of_number {sLog : SeqLog} {q : Int} (h : (lookup sLog q).sequenceNumber ≠ -1) :
    ∃ n, sLog.find q = some n ∧ lookup sLog q = n.orderedData := by
  cases hf : sLog.find q with
  | none => simp [lookup, hf, SingleData.errorData] at h
  | some n => exact ⟨n, rfl, by simp [lookup, hf]⟩

theorem lookup_modify (sLog : SeqLog) (q q' : Int) (f : SingleData → SingleData) :
    lookup (sLog.modify q f) q' =
      if q' = q ∧ (sLog.find q).isSome then f (lookup sLog q) else lookup sLog q' := by
  unfold lookup
  rw [SeqLog.find_modify]
  by_cases hq : q' = q
  · subst hq
    cases hf : sLog.find q' <;> simp [SeqNode.update]
  · simp [hq]

theorem saveBytes_address (w : World) (size : Nat) (d : SingleData) :
    (saveBytes w size d).sortedPmemAddress = d.sortedPmemAddress := by
  unfold saveBytes
  split <;> rfl

theorem lookupUndoSave_view (w : World) (q q' : Int) (size : Nat)
    (hq : (lookup w.sLog q).sequenceNumber ≠ -1) :
    (lookupUndoSave w q size).view q' =
      if q' = q then
        ({ saveBytes w size (lookup w.sLog q) with sortedPmemAddress := none },
          w.place (lookup w.sLog q))
      else w.view q' := by
  obtain ⟨n, hn, -⟩ := find_of_number hq
  simp only [World.view, lookupUndoSave, lookup_modify, hn, Option.isSome_some, and_true]
  split
  · refine Prod.ext rfl ?_
    simp only [World.place, saveBytes_address]
  · rfl

theorem stepOf_view (cLog : CheckpointLog) (w : World) (q : Int) :
    stepOf cLog (w.view q) =
      ((w.place (lookup w.sLog q)).map (stepAt cLog (lookup w.sLog q))).getD .idle := by
  unfold stepOf World.view
  cases w.place (lookup w.sLog q) <;> rfl

/-- A copy into the pool is one overwrite, whatever it saves. -/
theorem memcpy_pool (w : World) (d : SingleData) (bytes : List UInt8) (n : Nat) :
    (w.memcpy d bytes).pool =
      (((w.place d).map fun place => overwrite place n bytes).getD .idle).apply w.pool := by
  unfold World.memcpy
  cases w.place d <;> rfl

theorem revertOne_pool (cLog : CheckpointLog) (w : World) (q : Int) :
    (revertOne cLog w q).pool = (stepOf cLog (w.view q)).apply w.pool := by
  have hidle : ((w.place (lookup w.sLog q)).map fun _ => (Step.idle : Step UInt64 UInt8)).getD
      .idle = .idle := by
    cases w.place (lookup w.sLog q) <;> rfl
  rw [stepOf_view]
  unfold revertOne stepAt
  simp only
  split_ifs with hnum hver hlink
  · rw [hidle]
    rfl
  · cases searchForOffset (lookup w.sLog q).oldCheckpointEntry cLog with
    | none => exact congrArg (fun s => Step.apply s w.pool) hidle.symm
    | some cNode => exact memcpy_pool w _ _ 0
  · rw [hidle]
    rfl
  · exact memcpy_pool (lookupUndoSave w q (lookup w.sLog q).size) _ _ _

theorem revertOne_view (cLog : CheckpointLog) (w : World) (q q' : Int) :
    (revertOne cLog w q).view q' = if q' = q then savedView w.pool (w.view q) else w.view q' := by
  by_cases hsave : (lookup w.sLog q).sequenceNumber = -1 ∨ (lookup w.sLog q).version - 1 < 0
  · have hkeep : savedView w.pool (w.view q) = w.view q := if_pos hsave
    have hview : (revertOne cLog w q).view = w.view := by
      unfold revertOne
      simp only
      split_ifs with hnum hver hlink
      · rfl
      · cases searchForOffset (lookup w.sLog q).oldCheckpointEntry cLog <;> rfl
      · rfl
      · exact absurd hsave (by simp [hnum, hver])
    rw [hkeep, hview]
    split_ifs with hq
    · rw [hq]
    · rfl
  · rw [not_or] at hsave
    have hrev : revertOne cLog w q = revertBySequenceNumber (lookup w.sLog q) q
        ((lookup w.sLog q).version - 1) w := by
      simp only [revertOne, if_neg hsave.1, if_neg hsave.2]
    rw [hrev, revertBySequenceNumber, memcpy_view, lookupUndoSave_view w q q' _ hsave.1]
    split_ifs
    · have hnot : ¬ ((w.view q).1.sequenceNumber = -1 ∨ (w.view q).1.version - 1 < 0) :=
        not_or.mpr hsave
      rw [savedView, if_neg hnot]
      unfold World.view saveBytes
      cases w.place (lookup w.sLog q) <;> rfl
    · rfl

theorem undoOne_view (w : World) (q : Int) : (undoOne w q).view = w.view := by
  unfold undoOne undoBySequenceNumber
  simp only
  split <;> rfl

theorem undoOne_pool (w : World) (q : Int) : (undoOne w q).pool = undoPool w.pool (w.view q) := by
  unfold undoOne undoBySequenceNumber undoPool World.view
  by_cases hver : (lookup w.sLog q).version - 1 < 0
  · rw [if_pos hver, if_pos hver]
  · rw [if_neg hver, if_neg hver]
    unfold World.memcpy
    cases w.place (lookup w.sLog q) <;> rfl

theorem take_overwritePrefix (buffer bytes : List UInt8) :
    (overwritePrefix buffer bytes).take bytes.length = bytes := by
  simp [overwritePrefix]

/-- Undoing a number puts back what its step had saved of the pool. -/
theorem undoPool_savedView (cLog : CheckpointLog) (snapshot m : Image)
    {r : SingleData × Option UInt64} (hnum : r.1.sequenceNumber ≠ -1) :
    undoPool m (savedView snapshot r) = (stepOf cLog r).restore snapshot m := by
  obtain ⟨d, place⟩ := r
  by_cases hver : d.version - 1 < 0
  · have hkeep : savedView snapshot (d, place) = (d, place) := if_pos (Or.inr hver)
    rw [hkeep, undoPool, if_pos hver]
    cases place with
    | none => rfl
    | some place =>
      simp only [stepOf, stepAt, if_neg hnum, if_pos hver]
      split_ifs
      · cases searchForOffset d.oldCheckpointEntry cLog with
        | none => rfl
        | some cNode => rw [overwrite_restore]; rfl
      · rfl
  · have hsave : ¬ (d.sequenceNumber = -1 ∨ d.version - 1 < 0) := not_or.mpr ⟨hnum, hver⟩
    cases place with
    | none => simp [savedView, undoPool, stepOf]
    | some place =>
      simp only [savedView, if_neg hsave, undoPool, if_neg hver, stepOf, stepAt, if_neg hnum]
      rw [overwrite_restore]
      congr 1
      have h := take_overwritePrefix d.data (slice snapshot place d.size)
      rwa [length_slice] at h

/-- After any part of a revert pass a number still has its step. -/
theorem stepOf_foldl_revertOne (cLog : CheckpointLog) (l : List Int) (w : World) (q : Int) :
    stepOf cLog ((l.foldl (revertOne cLog) w).view q) = stepOf cLog (w.view q) := by
  induction l generalizing w with
  | nil => rfl
  | cons p l ih =>
    rw [List.foldl_cons, ih, revertOne_view]
    split_ifs with h
    · rw [h, stepOf_savedView]
    · rfl

/-- A number outside a revert pass keeps its view. -/
theorem foldl_revertOne_view (cLog : CheckpointLog) (l : List Int) (w : World) {q : Int}
    (hq : q ∉ l) : (l.foldl (revertOne cLog) w).view q = w.view q := by
  induction l generalizing w with
  | nil => rfl
  | cons p l ih =>
    rw [List.mem_cons, not_or] at hq
    rw [List.foldl_cons, ih _ hq.2, revertOne_view, if_neg hq.1]

theorem foldl_undoOne_view (l : List Int) (w : World) : (l.foldl undoOne w).view = w.view := by
  induction l generalizing w with
  | nil => rfl
  | cons p l ih => rw [List.foldl_cons, ih, undoOne_view]

theorem foldl_undoOne_sLog (l : List Int) (w : World) : (l.foldl undoOne w).sLog = w.sLog := by
  induction l generalizing w with
  | nil => rfl
  | cons p l ih =>
    rw [List.foldl_cons, ih]
    unfold undoOne undoBySequenceNumber
    simp only
    split <;> rfl

/-- A revert pass applies the steps of its numbers, repeated or not, in order. -/
theorem foldl_revertOne_pool (cLog : CheckpointLog) (l : List Int) (w : World) :
    (l.foldl (revertOne cLog) w).pool =
      applyAll (l.map fun q => stepOf cLog (w.view q)) w.pool := by
  induction l generalizing w with
  | nil => rfl
  | cons p l ih =>
    rw [List.foldl_cons, ih, List.map_cons, applyAll_cons, revertOne_pool]
    congr 1
    apply List.map_congr_left
    intro q _
    exact stepOf_foldl_revertOne cLog [p] w q

/-- Undoing a reverted list from its end is the round trip of its steps. -/
theorem undo_after_revert (cLog : CheckpointLog) (l : List Int) (w v : World) (hnd : l.Nodup)
    (hnum : ∀ q ∈ l, (w.view q).1.sequenceNumber ≠ -1)
    (hv : Alike l v (l.foldl (revertOne cLog) w)) :
    (l.reverse.foldl undoOne v).pool =
      roundTrip (l.map fun q => stepOf cLog (w.view q)) w.pool := by
  induction l generalizing w with
  | nil => exact hv.pool
  | cons q l ih =>
    rw [List.nodup_cons] at hnd
    have hother : ∀ p ∈ l, (revertOne cLog w q).view p = w.view p := by
      intro p hp
      rw [revertOne_view, if_neg (ne_of_mem_of_not_mem hp hnd.1)]
    have hrest := ih (revertOne cLog w q) hnd.2
      (fun p hp => by rw [hother p hp]; exact hnum p (List.mem_cons_of_mem _ hp))
      ⟨hv.pool, fun p hp => hv.view p (List.mem_cons_of_mem _ hp)⟩
    have hself : (l.reverse.foldl undoOne v).view q = savedView w.pool (w.view q) := by
      rw [foldl_undoOne_view, hv.view q List.mem_cons_self, List.foldl_cons,
        foldl_revertOne_view cLog l _ hnd.1, revertOne_view, if_pos rfl]
    have hmap : l.map (fun p => stepOf cLog ((revertOne cLog w q).view p)) =
        l.map fun p => stepOf cLog (w.view p) :=
      List.map_congr_left fun p hp => by rw [hother p hp]
    rw [List.reverse_cons, List.foldl_append, List.foldl_cons, List.foldl_nil, undoOne_pool, hself,
      undoPool_savedView cLog _ _ (hnum q List.mem_cons_self), hrest, hmap, revertOne_pool]
    rfl

/-! The two orders in which a list is passed over. -/

theorem qsortReverse_perm (l : List Int) : (qsortReverse l).Perm l := List.perm_insertionSort _ l

theorem mem_qsortReverse {l : List Int} {q : Int} : q ∈ qsortReverse l ↔ q ∈ l :=
  (qsortReverse_perm l).mem_iff

theorem sortAscending_pairwise (l : List Int) : (sortAscending l).Pairwise (· ≤ ·) :=
  List.pairwise_insertionSort _ l

theorem qsortReverse_pairwise (l : List Int) : (qsortReverse l).Pairwise (· ≥ ·) := by
  have hr : (fun a b => reverseCmpfunc a b ≤ 0) = fun a b : Int => a ≥ b := by
    funext a b
    exact propext (by unfold reverseCmpfunc; omega)
  unfold qsortReverse
  simp only [hr]
  exact List.pairwise_insertionSort _ l

/-- The descending order is the ascending one read from its end. -/
theorem qsortReverse_eq (l : List Int) : qsortReverse l = (sortAscending l).reverse := by
  refine ((qsortReverse_perm l).trans ?_).eq_of_pairwise' (qsortReverse_pairwise l) ?_
  · exact ((List.reverse_perm _).trans (List.perm_insertionSort _ l)).symm
  · exact List.pairwise_reverse.mpr (sortAscending_pairwise l)

/-- What `decision_func_sequence_array` hands over from a count of 0. -/
theorem decision_take (l buffer : List Int) :
    (decisionFuncSequenceArray l buffer 0).1.take (decisionFuncSequenceArray l buffer 0).2 =
      qsortReverse l := by
  have hlen : (qsortReverse l).length = l.length := (qsortReverse_perm l).length_eq
  simp [decisionFuncSequenceArray, ← hlen]

end Arthas.Reactor
