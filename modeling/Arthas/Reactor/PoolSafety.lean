import Arthas.Reactor.Verdict

/-!
Where the reversion writes. Reverting and undoing copy to the address kept with the
record, which is set from the trace when the pool is first opened, and for every node
when it is opened again. A run keeps everything else of the records, and every write of
a pass goes into the open pool exactly when the pool is open in that pass and, in the
first pass, the offset is one of the trace.
-/

set_option autoImplicit false
set_option relaxedAutoImplicit false

namespace Arthas.Reactor

open Arthas.Lib ByteImage Checkpoint Multimap HalvingSearch

variable {ι : Type*} [DecidableEq ι]

/-- A write goes into the open pool, to the offset of its record. -/
def Event.InPool : Event → Prop
  | .copy base dst offset => ∃ pop, base = some pop ∧ dst = some (pop + offset)
  | _ => True

def Event.isPass : Event → Bool
  | .revert _ _ => true
  | .undo _ _ => true
  | _ => false

/-- Some pass was made; the events are those of a run, newest first. -/
def passed (events : List Event) : Bool := events.any Event.isPass

/-- Reverting the record copies something. -/
def RevertCopies (cLog : CheckpointLog) (d : SingleData) : Prop :=
  d.sequenceNumber ≠ -1 ∧ (¬ d.version - 1 < 0 ∨
    d.oldCheckpointEntry ≠ 0 ∧ (searchForOffset d.oldCheckpointEntry cLog).isSome)

/-- Undoing the record copies something. -/
def UndoCopies (d : SingleData) : Prop := ¬ d.version - 1 < 0

/-- The pool is open where a pass has something to copy, and the first pass copies
nothing to an offset outside the trace. `s₀` is the log as it was built. -/
def PassReady (cLog : CheckpointLog) (s₀ : SeqLog) (traced : List UInt64) (earlier : List Event) :
    Event → Prop
  | .revert seqNumbers base => ∀ q ∈ seqNumbers, RevertCopies cLog (lookup s₀ q) →
      base.isSome ∧ (passed earlier ∨ (lookup s₀ q).offset ∈ traced)
  | .undo seqNumbers base => ∀ q ∈ seqNumbers, UndoCopies (lookup s₀ q) →
      base.isSome ∧ (passed earlier ∨ (lookup s₀ q).offset ∈ traced)
  | _ => True

/-- Every pass of a run is ready. -/
def Ready (cLog : CheckpointLog) (s₀ : SeqLog) (traced : List UInt64) : List Event → Prop
  | [] => True
  | e :: earlier => PassReady cLog s₀ traced earlier e ∧ Ready cLog s₀ traced earlier

/-- An event that is neither a pass nor a write. -/
def Event.Quiet (e : Event) : Prop := e.isPass = false ∧ e.InPool

section Events

variable {cLog : CheckpointLog} {s₀ : SeqLog} {traced : List UInt64}

theorem passed_append (new earlier : List Event) :
    passed (new ++ earlier) = (passed new || passed earlier) := List.any_append

theorem ready_append {new : List Event} (hnew : ∀ e ∈ new, e.isPass = false)
    (earlier : List Event) :
    Ready cLog s₀ traced (new ++ earlier) ↔ Ready cLog s₀ traced earlier := by
  induction new with
  | nil => rfl
  | cons e new ih =>
    have hpass : PassReady cLog s₀ traced (new ++ earlier) e := by
      have hnot := hnew e List.mem_cons_self
      cases e <;> trivial
    rw [List.cons_append, Ready, and_iff_right hpass]
    exact ih fun e' he' => hnew e' (List.mem_cons_of_mem _ he')

theorem ready_of_quiet {events : List Event} (h : ∀ e ∈ events, e.isPass = false) :
    Ready cLog s₀ traced events := by
  have hready := (@ready_append cLog s₀ traced events h []).mpr trivial
  rwa [List.append_nil] at hready

end Events

/-! What a run keeps of the records. -/

/-- The record less the bytes saved from the pool and the address. -/
def fixedPart (d : SingleData) : SingleData := { d with data := [], sortedPmemAddress := none }

/-- `s` has the nodes of `s₀`, with the same records up to saved bytes and addresses. -/
structure Tied (s₀ s : SeqLog) : Prop where
  size : s.size = s₀.size
  record : ∀ q, (s.find q).map (SeqNode.update fixedPart) =
    (s₀.find q).map (SeqNode.update fixedPart)

namespace Tied

variable {s₀ s : SeqLog}

theorem refl (s : SeqLog) : Tied s s := ⟨rfl, fun _ => rfl⟩

theorem modify (h : Tied s₀ s) (q : Int) {f : SingleData → SingleData}
    (hf : ∀ d, fixedPart (f d) = fixedPart d) : Tied s₀ (s.modify q f) := by
  refine ⟨h.size, fun p => ?_⟩
  rw [← h.record p, SeqLog.find_modify]
  split_ifs with hp
  · rw [hp]
    cases s.find q with
    | none => rfl
    | some n => simp [SeqNode.update, hf]
  · rfl

theorem assign (h : Tied s₀ s) (pop : UInt64) : Tied s₀ (assignAddresses s pop) := by
  refine ⟨h.size, fun p => ?_⟩
  rw [← h.record p, find_assignAddresses]
  split_ifs
  · cases s.find p with
    | none => rfl
    | some n => rfl
  · rfl

theorem isSome (h : Tied s₀ s) (q : Int) : (s.find q).isSome = (s₀.find q).isSome := by
  have hrec := congrArg Option.isSome (h.record q)
  rwa [Option.isSome_map, Option.isSome_map] at hrec

theorem holds (h : Tied s₀ s) {q : Int} : s.Holds q ↔ s₀.Holds q := by
  unfold SeqLog.Holds SeqLog.InTable hashCode
  rw [h.isSome, h.size]

theorem lookup_eq (h : Tied s₀ s) (q : Int) :
    fixedPart (lookup s q) = fixedPart (lookup s₀ q) := by
  have hrec := h.record q
  unfold lookup
  cases hs : s.find q with
  | none =>
    cases hs₀ : s₀.find q with
    | none => rfl
    | some n => simp [hs, hs₀] at hrec
  | some n =>
    cases hs₀ : s₀.find q with
    | none => simp [hs, hs₀] at hrec
    | some n₀ =>
      rw [hs, hs₀] at hrec
      exact congrArg SeqNode.orderedData (Option.some.inj hrec)

theorem offset_eq (h : Tied s₀ s) (q : Int) : (lookup s q).offset = (lookup s₀ q).offset := by
  have hoff := congrArg SingleData.offset (h.lookup_eq q)
  exact hoff

end Tied

theorem revertCopies_fixedPart (cLog : CheckpointLog) (d : SingleData) :
    RevertCopies cLog (fixedPart d) ↔ RevertCopies cLog d := Iff.rfl

theorem Tied.revertCopies {s₀ s : SeqLog} (h : Tied s₀ s) (cLog : CheckpointLog) (q : Int) :
    RevertCopies cLog (lookup s q) ↔ RevertCopies cLog (lookup s₀ q) := by
  rw [← revertCopies_fixedPart, h.lookup_eq, revertCopies_fixedPart]

theorem Tied.undoCopies {s₀ s : SeqLog} (h : Tied s₀ s) (q : Int) :
    UndoCopies (lookup s q) ↔ UndoCopies (lookup s₀ q) := by
  have hver := congrArg SingleData.version (h.lookup_eq q)
  exact not_congr (by rw [show (lookup s q).version = (lookup s₀ q).version from hver])

/-- A record that is copied belongs to a node. -/
theorem RevertCopies.find {cLog : CheckpointLog} {s : SeqLog} {q : Int}
    (h : RevertCopies cLog (lookup s q)) : (s.find q).isSome := by
  cases hs : s.find q with
  | some n => rfl
  | none =>
    refine absurd ?_ h.1
    rw [lookup, hs]
    rfl

/-! The writes of one pass. -/

/-- What decides where a number is copied. -/
def World.aim (w : World) (q : Int) : Option UInt64 × SingleData :=
  (w.base, { lookup w.sLog q with data := [] })

/-- The write that copies to the record of `q`. -/
def World.copyEvent (w : World) (q : Int) : Event :=
  .copy w.base (lookup w.sLog q).sortedPmemAddress (lookup w.sLog q).offset

/-- The step for one number copies when `C` says so, to where the record says, and leaves
the aims as they are. -/
structure CopyStep (step : World → Int → World) (C : SingleData → Prop) [DecidablePred C] :
    Prop where
  history : ∀ w q, (step w q).history =
    (if C (lookup w.sLog q) then [w.copyEvent q] else []) ++ w.history
  aim : ∀ w p q, (step w p).aim q = w.aim q
  blind : ∀ d, C { d with data := [] } ↔ C d

/-- The writes of a pass go into the open pool exactly when each number that is copied has
the address of its offset there. -/
theorem CopyStep.foldl {step : World → Int → World} {C : SingleData → Prop} [DecidablePred C]
    (h : CopyStep step C) (l : List Int) (w : World) :
    ∃ copies, (l.foldl step w).history = copies ++ w.history ∧
      (∀ e ∈ copies, e.isPass = false) ∧
      ((∀ e ∈ copies, e.InPool) ↔ ∀ q ∈ l, C (lookup w.sLog q) → (w.copyEvent q).InPool) := by
  induction l generalizing w with
  | nil => exact ⟨[], rfl, by simp, by simp⟩
  | cons p l ih =>
    obtain ⟨copies, hhist, hquiet, hin⟩ := ih (step w p)
    have hsame : ∀ q, (C (lookup (step w p).sLog q) ↔ C (lookup w.sLog q)) ∧
        (step w p).copyEvent q = w.copyEvent q := by
      intro q
      have haim := h.aim w p q
      have hd := congrArg Prod.snd haim
      have hbase : (step w p).base = w.base := congrArg Prod.fst haim
      constructor
      · rw [← h.blind, ← h.blind (lookup w.sLog q)]
        exact iff_of_eq (congrArg C hd)
      · have haddr := congrArg SingleData.sortedPmemAddress hd
        have hoff := congrArg SingleData.offset hd
        simp only [World.aim] at haddr hoff
        simp only [World.copyEvent, hbase, haddr, hoff]
    refine ⟨copies ++ (if C (lookup w.sLog p) then [w.copyEvent p] else []), ?_, ?_, ?_⟩
    · rw [List.foldl_cons, hhist, h.history, List.append_assoc]
    · intro e he
      rcases List.mem_append.mp he with he | he
      · exact hquiet e he
      · split_ifs at he
        · rw [List.mem_singleton.mp he]
          rfl
        · exact absurd he List.not_mem_nil
    · simp only [List.forall_mem_append, List.forall_mem_cons, hin, (hsame _).1, (hsame _).2]
      rw [and_comm]
      apply and_congr_left'
      split_ifs with hC <;> simp [hC]

instance (cLog : CheckpointLog) : DecidablePred (RevertCopies cLog) :=
  fun _ => inferInstanceAs (Decidable (_ ∧ _))

instance : DecidablePred UndoCopies := fun _ => inferInstanceAs (Decidable (¬ _))

/-- Reverting a number changes the log by saving bytes for it, if at all. -/
theorem revertOne_sLog (cLog : CheckpointLog) (w : World) (q : Int) :
    (revertOne cLog w q).sLog = w.sLog ∨
      ∃ size, (revertOne cLog w q).sLog = w.sLog.modify q (saveBytes w size) := by
  unfold revertOne
  simp only
  split_ifs
  · exact Or.inl rfl
  · cases searchForOffset (lookup w.sLog q).oldCheckpointEntry cLog <;> exact Or.inl rfl
  · exact Or.inl rfl
  · exact Or.inr ⟨_, rfl⟩

theorem revertOne_copyStep (cLog : CheckpointLog) : CopyStep (revertOne cLog) (RevertCopies cLog) := by
  refine ⟨fun w q => ?_, fun w p q => ?_, fun d => Iff.rfl⟩
  · unfold revertOne RevertCopies
    simp only
    by_cases hnum : (lookup w.sLog q).sequenceNumber = -1
    · simp [hnum]
    · by_cases hver : (lookup w.sLog q).version - 1 < 0
      · by_cases hlink : (lookup w.sLog q).oldCheckpointEntry = 0
        · simp [hver, hlink]
        · have hcases := (searchForOffset (lookup w.sLog q).oldCheckpointEntry cLog).eq_none_or_eq_some
          rcases hcases with hfind | ⟨cNode, hfind⟩
          · simp [hver, hfind]
          · simp only [hnum, hver, hlink, hfind, if_true, if_false, ne_eq, not_false_eq_true,
              true_and, Option.isSome_some, not_true_eq_false, or_true]
            rfl
      · simp only [hnum, hver, if_true, if_false, ne_eq, not_false_eq_true, true_and, true_or]
        rfl
  · apply Prod.ext (revertOne_mapping cLog w p).1
    simp only [World.aim]
    rcases revertOne_sLog cLog w p with hlog | ⟨size, hlog⟩
    · rw [hlog]
    · rw [hlog, lookup_modify]
      split_ifs with hsame
      · rw [hsame.1]
        unfold saveBytes
        cases w.place (lookup w.sLog p) <;> rfl
      · rfl

theorem undoOne_copyStep : CopyStep undoOne UndoCopies := by
  refine ⟨fun w q => ?_, fun w p q => ?_, fun d => Iff.rfl⟩
  · unfold undoOne undoBySequenceNumber UndoCopies
    simp only
    by_cases hver : (lookup w.sLog q).version - 1 < 0
    · simp [hver]
    · simp only [hver, if_false, if_true, not_false_eq_true]
      rfl
  · unfold undoOne undoBySequenceNumber
    simp only
    split_ifs <;> rfl

/-! What holds in a run. -/

/-- What a run from `w₀` has kept when it made the events `tr`: the records are those of
`s₀`, and the writes went into the open pool exactly when the passes were ready. -/
structure Kept (cLog : CheckpointLog) (s₀ : SeqLog) (traced : List UInt64) (w₀ : World)
    (tr : List Event) (w : World) : Prop where
  tied : Tied s₀ w.sLog
  history : w.history = tr ++ w₀.history
  safe : (∀ e ∈ tr, e.InPool) ↔ Ready cLog s₀ traced tr

/-- Between the steps of the loops, moreover, `pop` is where the pool is mapped, and the
addresses are those of this mapping, after the first pass for every node and before it
for the traced offsets. -/
structure Settled (cLog : CheckpointLog) (s₀ : SeqLog) (traced : List UInt64) (w₀ : World)
    (tr : List Event) (w : World) : Prop extends Kept cLog s₀ traced w₀ tr w where
  pop : w.pop = w.base
  address : ∀ q, s₀.Holds q → ∀ b, w.base = some b → (lookup w.sLog q).sortedPmemAddress =
    if passed tr ∨ (lookup s₀ q).offset ∈ traced then some (b + (lookup s₀ q).offset) else none

/-- From `w` to `w'` there was no pass and no write, and the records stayed. -/
structure Calm (w w' : World) : Prop where
  tied : ∀ s₀, Tied s₀ w.sLog → Tied s₀ w'.sLog
  history : ∃ new, w'.history = new ++ w.history ∧ ∀ e ∈ new, e.Quiet

namespace Calm

theorem refl (w : World) : Calm w w := ⟨fun _ h => h, [], rfl, by simp⟩

theorem trans {w w₁ w₂ : World} (h : Calm w w₁) (h' : Calm w₁ w₂) : Calm w w₂ := by
  obtain ⟨new, hnew, hquiet⟩ := h.history
  obtain ⟨new', hnew', hquiet'⟩ := h'.history
  refine ⟨fun s₀ hs => h'.tied s₀ (h.tied s₀ hs), new' ++ new, ?_, fun e he => ?_⟩
  · rw [hnew', hnew, List.append_assoc]
  · rcases List.mem_append.mp he with he | he
    · exact hquiet' e he
    · exact hquiet e he

theorem event {w w' : World} {e : Event} (hlog : w'.sLog = w.sLog)
    (hhist : w'.history = e :: w.history) (he : e.Quiet) : Calm w w' :=
  ⟨fun _ hs => hlog ▸ hs, [e], hhist, by simpa using he⟩

theorem same {w w' : World} (hlog : w'.sLog = w.sLog) (hhist : w'.history = w.history) :
    Calm w w' := ⟨fun _ hs => hlog ▸ hs, [], hhist, by simp⟩

theorem setPop (pop : Option UInt64) (w : World) : Calm w { w with pop := pop } := same rfl rfl

theorem countRun (w : World) : Calm w { w with totalReexecutions := w.totalReexecutions + 1 } :=
  same rfl rfl

theorem close (pop : Option UInt64) (w : World) : Calm w (pmemobjClose pop w) :=
  event rfl rfl ⟨rfl, trivial⟩

theorem redo (env : Env) (w : World) : Calm w (redoPmemAddresses env w).2 := by
  unfold redoPmemAddresses pmemobjOpen
  cases env.pmemobjOpen w.opens with
  | none => exact event rfl rfl ⟨rfl, trivial⟩
  | some pop =>
    exact ⟨fun _ hs => hs.assign pop, [.opened (some pop)], rfl, by simp [Event.Quiet,
      Event.isPass, Event.InPool]⟩

theorem reopen (env : Env) (w : World) : Calm w (reopenForRetry env w).2 := by
  have hfirst := redo env w
  unfold reopenForRetry
  cases h : redoPmemAddresses env w with
  | mk pop w₁ =>
    rw [h] at hfirst
    cases pop with
    | some pop => exact hfirst
    | none =>
      have hkill : Calm w₁ (w₁.log .killScript) := event rfl rfl ⟨rfl, trivial⟩
      exact hfirst.trans (hkill.trans (redo env _))

theorem afterReExecute (env : Env) (w : World) : Calm w (afterReExecute env w) := by
  have hrun : Calm w (system env w).2 := event rfl rfl ⟨rfl, trivial⟩
  have hlog : ∀ (v : World) (ret : Int), Calm v (v.log (.reexecuted ret)) :=
    fun v ret => event rfl rfl ⟨rfl, trivial⟩
  unfold Reactor.afterReExecute
  simp only
  split
  · exact hrun.trans ((reopen env _).trans ((close _ _).trans (hlog _ _)))
  · exact hrun.trans (hlog _ _)

end Calm

theorem redo_pop {env : Env} {w : World} (hbase : w.base = none) :
    (redoPmemAddresses env w).1 = (redoPmemAddresses env w).2.base := by
  unfold redoPmemAddresses pmemobjOpen
  cases env.pmemobjOpen w.opens with
  | none => exact hbase.symm
  | some pop => rfl

theorem close_base {pop : Option UInt64} {w : World} (h : pop = w.base) :
    (pmemobjClose pop w).base = none := by
  unfold pmemobjClose
  simp only
  split_ifs with hsome
  · rfl
  · rw [← h]
    exact Option.not_isSome_iff_eq_none.mp fun hpop => hsome ⟨hpop, h⟩

/-- After the command was run no pool is open. -/
theorem afterReExecute_base {env : Env} {w : World} (hbase : w.base = none) :
    (afterReExecute env w).base = none := by
  have hran : (system env w).2.base = none := hbase
  have hreopen : ∀ v : World, v.base = none →
      (reopenForRetry env v).1 = (reopenForRetry env v).2.base := by
    intro v hv
    have hfirst := @redo_pop env v hv
    unfold reopenForRetry
    cases h : redoPmemAddresses env v with
    | mk pop w₁ =>
      rw [h] at hfirst
      cases pop with
      | some pop => exact hfirst
      | none =>
        have hnone : (w₁.log .killScript).base = none := hfirst.symm
        exact redo_pop hnone
  unfold afterReExecute
  simp only
  split
  · exact close_base (hreopen _ hran)
  · exact hran

section Steps

variable {cLog : CheckpointLog} {s₀ : SeqLog} {traced : List UInt64} {w₀ w w' : World}
  {tr : List Event}

/-- Events that are neither passes nor writes keep what is kept. -/
theorem Kept.calm (h : Kept cLog s₀ traced w₀ tr w) (hcalm : Calm w w') :
    ∃ tr', Kept cLog s₀ traced w₀ tr' w' ∧ passed tr' = passed tr := by
  obtain ⟨new, hnew, hquiet⟩ := hcalm.history
  have hnot : ∀ e ∈ new, e.isPass = false := fun e he => (hquiet e he).1
  refine ⟨new ++ tr, ⟨hcalm.tied s₀ h.tied, ?_, ?_⟩, ?_⟩
  · rw [hnew, h.history, List.append_assoc]
  · rw [ready_append hnot, ← h.safe, List.forall_mem_append]
    exact and_iff_right fun e he => (hquiet e he).2
  · have hnone : passed new = false := by simpa [passed] using hnot
    rw [passed_append, hnone, Bool.false_or]

/-- One pass: its writes go into the open pool exactly when it is ready. -/
theorem Settled.pass (h : Settled cLog s₀ traced w₀ tr w) {step : World → Int → World}
    {C : SingleData → Prop} [DecidablePred C] (hstep : CopyStep step C) {l : List Int} {e : Event}
    (hpass : e.isPass = true) (hin : e.InPool)
    (hready : PassReady cLog s₀ traced tr e ↔ ∀ q ∈ l, C (lookup s₀ q) →
      w.base.isSome ∧ (passed tr ∨ (lookup s₀ q).offset ∈ traced))
    (hcopies : ∀ q, C (lookup w.sLog q) ↔ C (lookup s₀ q))
    (hheld : ∀ q ∈ l, C (lookup s₀ q) → s₀.Holds q)
    (htied : Tied s₀ (l.foldl step (w.log e)).sLog) :
    ∃ tr', Kept cLog s₀ traced w₀ tr' (l.foldl step (w.log e)) ∧ passed tr' = true := by
  obtain ⟨copies, hhist, hquiet, hwrites⟩ := hstep.foldl l (w.log e)
  have haddr : ∀ q ∈ l, C (lookup s₀ q) → (((w.log e).copyEvent q).InPool ↔
      w.base.isSome ∧ (passed tr ∨ (lookup s₀ q).offset ∈ traced)) := by
    intro q hq hC
    have hoff := h.tied.offset_eq q
    have hset := h.address q (hheld q hq hC)
    constructor
    · rintro ⟨b, hb, hdst⟩
      refine ⟨by rw [show w.base = some b from hb]; rfl, ?_⟩
      by_contra hnot
      have hnone := hset b hb
      rw [if_neg hnot] at hnone
      exact absurd (hnone.symm.trans hdst) (by simp)
    · rintro ⟨hsome, hor⟩
      obtain ⟨b, hb⟩ := Option.isSome_iff_exists.mp hsome
      refine ⟨b, hb, ?_⟩
      have hdst := hset b hb
      rw [if_pos hor, ← hoff] at hdst
      exact hdst
  refine ⟨copies ++ e :: tr, ⟨htied, ?_, ?_⟩, ?_⟩
  · rw [hhist]
    simp only [World.log, h.history, List.append_assoc, List.cons_append]
  · rw [ready_append hquiet, Ready, ← h.safe, List.forall_mem_append, List.forall_mem_cons, hwrites,
      hready, and_iff_right hin]
    refine and_congr_left' (forall_congr' fun q => imp_congr_right fun hq => ?_)
    rw [show (w.log e).sLog = w.sLog from rfl, hcopies q]
    exact imp_congr_right fun hC => haddr q hq hC
  · rw [passed_append, passed, passed, List.any_cons, hpass, Bool.true_or, Bool.or_true]

theorem revertArray_tied (htied : Tied s₀ w.sLog) (l : List Int) :
    Tied s₀ (revertBySequenceNumberArray cLog l w).sLog := by
  apply List.foldlRecOn (motive := fun v => Tied s₀ v.sLog) (b := w.log (.revert l w.base)) l
    (revertOne cLog) htied
  intro v hv q _
  rcases revertOne_sLog cLog v q with hlog | ⟨size, hlog⟩
  · rw [hlog]
    exact hv
  · rw [hlog]
    apply hv.modify q
    intro d
    unfold saveBytes
    cases v.place d <;> rfl

/-- Numbers whose nodes, if they have any, lie in the table. -/
def Known (s₀ : SeqLog) (l : List Int) : Prop := ∀ q ∈ l, (s₀.find q).isSome → s₀.Holds q

/-- A revert pass, the pool closed, and the command run. -/
theorem Settled.reverted (h : Settled cLog s₀ traced w₀ tr w) (env : Env) {l : List Int}
    (hl : Known s₀ l) :
    let reverted := revertBySequenceNumberArray cLog l w
    let ran := afterReExecute env (pmemobjClose reverted.pop reverted)
    ran.base = none ∧ ∃ tr', Kept cLog s₀ traced w₀ tr' ran ∧ passed tr' = true := by
  intro reverted ran
  obtain ⟨hbase, hpop⟩ := revertArray_mapping cLog l w
  have hclosed : (pmemobjClose reverted.pop reverted).base = none :=
    close_base (by rw [hpop, hbase, h.pop])
  obtain ⟨tr₁, hkept, hpassed⟩ := h.pass (revertOne_copyStep cLog) (l := l)
    (e := .revert l w.base) rfl trivial Iff.rfl (fun q => h.tied.revertCopies cLog q)
    (fun q hq hC => hl q hq hC.find) (revertArray_tied h.tied l)
  obtain ⟨tr₂, hkept', hpassed'⟩ :=
    Kept.calm hkept ((Calm.close reverted.pop reverted).trans (Calm.afterReExecute env _))
  exact ⟨afterReExecute_base hclosed, tr₂, hkept', hpassed'.trans hpassed⟩

/-- Opening the pool again settles the run, whether or not it opens. -/
theorem Kept.redo (h : Kept cLog s₀ traced w₀ tr w) (env : Env) (hbase : w.base = none)
    (hpassed : passed tr = true) :
    ∃ tr', Settled cLog s₀ traced w₀ tr'
      { (redoPmemAddresses env w).2 with pop := (redoPmemAddresses env w).1 } ∧
      passed tr' = true := by
  obtain ⟨tr', hkept, hpassed'⟩ := h.calm ((Calm.redo env w).trans
    (Calm.setPop (redoPmemAddresses env w).1 (redoPmemAddresses env w).2))
  refine ⟨tr', { hkept with pop := redo_pop hbase, address := fun q hq b hb => ?_ },
    hpassed'.trans hpassed⟩
  rw [if_pos (Or.inl (hpassed'.trans hpassed))]
  have hopen : (env.pmemobjOpen w.opens).isSome := by
    by_contra hnone
    have hsame : (redoPmemAddresses env w).2.base = w.base := by
      simp [redoPmemAddresses, pmemobjOpen, Option.not_isSome_iff_eq_none.mp hnone]
    exact absurd (hb.symm.trans (hsame.trans hbase)) (by simp)
  obtain ⟨pop, -, hpop, hlog, -⟩ := redo_some hopen
  have hb' : pop = b := Option.some.inj (hpop.symm.trans hb)
  change (lookup (redoPmemAddresses env w).2.sLog q).sortedPmemAddress = _
  rw [hlog, lookup_assignAddresses (h.tied.holds.mpr hq), hb', placedAt, h.tied.offset_eq]

/-- An undo pass. -/
theorem Settled.undone (h : Settled cLog s₀ traced w₀ tr w) {l : List Int}
    (hl : ∀ q ∈ l, s₀.Holds q) (hpassed : passed tr = true) :
    ∃ tr', Settled cLog s₀ traced w₀ tr' (undoBySequenceNumberArray l w) ∧ passed tr' = true := by
  have hlog : (undoBySequenceNumberArray l w).sLog = w.sLog := foldl_undoOne_sLog l _
  obtain ⟨hbase, hpop⟩ := undoArray_mapping l w
  obtain ⟨tr', hkept, hpassed'⟩ := h.pass undoOne_copyStep (l := l) (e := .undo l w.base) rfl
    trivial Iff.rfl (fun q => h.tied.undoCopies q) (fun q hq _ => hl q hq)
    (show Tied s₀ (undoBySequenceNumberArray l w).sLog from hlog ▸ h.tied)
  refine ⟨tr', { hkept with
    pop := hpop.trans (h.pop.trans hbase.symm), address := fun q hq b hb => ?_ }, hpassed'⟩
  rw [hlog, h.address q hq b (hbase.symm.trans hb), hpassed, hpassed']

theorem Settled.congr (h : Settled cLog s₀ traced w₀ tr w) (hlog : w'.sLog = w.sLog)
    (hhist : w'.history = w.history) (hbase : w'.base = w.base) (hpop : w'.pop = w.pop) :
    Settled cLog s₀ traced w₀ tr w' where
  tied := hlog ▸ h.tied
  history := hhist.trans h.history
  safe := h.safe
  pop := by rw [hpop, hbase, h.pop]
  address := by
    rw [hlog, hbase]
    exact h.address

end Steps

end Arthas.Reactor
