import Arthas.Reactor.PoolRuns

/-!
The ArCkpt mode goes back in time. The checkpoint log numbers the updates of the pool; each
turn of the loop takes back one number, from the highest down, and runs the command on what
the pool was before that update.
-/

set_option autoImplicit false
set_option relaxedAutoImplicit false

namespace Arthas.Reactor

open Arthas.Lib ByteImage Checkpoint Journal

/-- What reverting a version lays down at the entry: the version before it; for the first one
the last version of the older entry, if there is one. -/
def laidDown (cLog : CheckpointLog) (temp : Node) : Nat → List UInt8
  | 0 =>
    if temp.cData.oldCheckpointEntry ≠ 0 then
      match searchForOffset temp.cData.oldCheckpointEntry cLog with
      | some cNode => cNode.cData.bytes cNode.cData.version
      | none => []
    else []
  | j + 1 => temp.cData.bytes j

/-- The places of the entry: those of its versions, and those that reverting it writes to. -/
def Reach (cLog : CheckpointLog) (temp : Node) (a : UInt64) : Prop :=
  ∃ j ≤ temp.cData.version, covers temp.offset (temp.cData.size j) a ∨
    covers temp.offset (laidDown cLog temp j).length a

/-- The entries are versioned in the order of their numbers, and no place belongs to two. -/
structure Checkpoint.CheckpointLog.Apart (cLog : CheckpointLog) : Prop where
  increasing : ∀ temp ∈ cLog.entries, ∀ i j, i < j → j ≤ temp.cData.version →
    temp.cData.sequenceNumber i < temp.cData.sequenceNumber j
  disjoint : ∀ temp ∈ cLog.entries, ∀ temp' ∈ cLog.entries, temp ≠ temp' →
    ∀ a, ¬ (Reach cLog temp a ∧ Reach cLog temp' a)

/-- The pool holds the entry as it was before the update with the number: with the bytes of
its last version below the number, if it has one. -/
def AsOf (temp : Node) (number : Int) (pool : Image) : Prop :=
  ∀ j ≤ temp.cData.version, temp.cData.sequenceNumber j < number →
    (∀ i, j < i → i ≤ temp.cData.version → number ≤ temp.cData.sequenceNumber i) →
    slice pool temp.offset (temp.cData.size j) = temp.cData.bytes j

section Effects

/-- The pool after re-executing is what the command made of it. -/
theorem redo_pool (env : Env) (w : World) : (redoPmemAddresses env w).2.pool = w.pool := by
  unfold redoPmemAddresses pmemobjOpen
  cases env.pmemobjOpen w.opens <;> rfl

theorem reopen_pool (env : Env) (w : World) : (reopenForRetry env w).2.pool = w.pool := by
  have first := redo_pool env w
  unfold reopenForRetry
  cases h : redoPmemAddresses env w with
  | mk pop w₁ =>
    rw [h] at first
    cases pop with
    | some pop => exact first
    | none => exact (redo_pool env _).trans first

theorem afterReExecute_pool (env : Env) (w : World) :
    (afterReExecute env w).pool = env.effect w.runs w.pool := by
  unfold afterReExecute
  simp only
  split
  · exact reopen_pool env _
  · rfl

/-- Where no pool opens, the records and the mapping stay. -/
theorem afterReExecute_mapping {env : Env} (closed : ∀ i, env.pmemobjOpen i = none) (w : World) :
    (afterReExecute env w).sLog = w.sLog ∧ (afterReExecute env w).base = w.base := by
  unfold afterReExecute
  simp only
  split
  · simp [reopenForRetry, redoPmemAddresses, pmemobjOpen, closed, pmemobjClose, World.log, system]
  · exact ⟨rfl, rfl⟩

end Effects

section Aimed

/-- The table is that of the log, and the pool is mapped where its addresses say. -/
structure Aimed (cLog : CheckpointLog) (w : World) : Prop where
  tied : Tied (sequenceLog logSize cLog) w.sLog
  placed : ∀ q, (sequenceLog logSize cLog).Holds q → w.Placed q

variable {cLog : CheckpointLog} {w : World}

/-- Reverting the number of a version lays down what was there before it. -/
theorem Aimed.patch_recorded (numbered : cLog.Numbered) (aimed : Aimed cLog w) {temp : Node}
    {j : Nat} (member : (temp, j) ∈ cLog.versions) :
    (stepOf cLog (w.view (temp.cData.sequenceNumber j))).patch =
      window temp.offset (laidDown cLog temp j) := by
  obtain ⟨d, found, records⟩ := (sequenceLog_spec numbered logSize).1 _ member
  have nonneg : 0 ≤ temp.cData.sequenceNumber j := numbered.nonneg _ member
  have isRecord : lookup (sequenceLog logSize cLog) (temp.cData.sequenceNumber j) = d := by
    simp [lookup, show temp.cData.sequenceNumber j = seqOf (temp, j) from rfl, found]
  have holds := holds_of_nonneg nonneg (by
    rw [show temp.cData.sequenceNumber j = seqOf (temp, j) from rfl, found]
    rfl)
  have same : fixedPart (lookup w.sLog (temp.cData.sequenceNumber j)) = fixedPart d :=
    isRecord ▸ aimed.tied.lookup_eq (temp.cData.sequenceNumber j)
  have offset : (lookup w.sLog (temp.cData.sequenceNumber j)).offset = temp.offset :=
    (congrArg SingleData.offset same).trans records.offset
  have unresolved : { d with sortedPmemAddress := none } = d := by rw [← records.unresolved]
  have step : stepOf cLog (w.view (temp.cData.sequenceNumber j)) =
      stepAt cLog d temp.offset := by
    rw [(aimed.placed _ holds).view_eq, offset, ← unresolved]
    exact stepAt_congr temp.offset same
  have number : d.sequenceNumber ≠ -1 := by
    have isNumber : d.sequenceNumber = temp.cData.sequenceNumber j := records.sequenceNumber
    omega
  have version : d.version = (j : Int) := records.version
  rw [step, stepAt, if_neg number, version, records.oldCheckpointEntry]
  cases j with
  | zero =>
    rw [if_pos (by decide), laidDown]
    split_ifs
    · cases searchForOffset temp.cData.oldCheckpointEntry cLog <;> rfl
    · rfl
  | succ j =>
    have previous : ((j + 1 : Nat) - 1 : Int).toNat = j := by omega
    have whole : (temp.cData.bytes j).take (temp.cData.size j) = temp.cData.bytes j := by
      rw [CheckpointData.bytes, List.take_take, min_self]
    rw [if_neg (by omega), previous, records.oldData j (Nat.lt_succ_self j),
      records.oldSize j (Nat.lt_succ_self j), whole]
    rfl

/-- A number without a version has no effect. -/
theorem Aimed.step_unrecorded (numbered : cLog.Numbered) (aimed : Aimed cLog w) {q : Int}
    (unrecorded : ¬ Recorded cLog q) : stepOf cLog (w.view q) = .idle := by
  have missing : lookup (sequenceLog logSize cLog) q = .errorData := by
    rw [lookup, (sequenceLog_spec numbered logSize).2.1 q unrecorded]
    rfl
  have error : (w.view q).1.sequenceNumber = -1 := by
    have same := congrArg SingleData.sequenceNumber (aimed.tied.lookup_eq q)
    rw [missing] at same
    exact same
  unfold stepOf
  cases (w.view q).2 with
  | none => rfl
  | some place => exact if_pos error

theorem revertArray_outline (cLog : CheckpointLog) (l : List Int) (w : World) (q : Int) :
    (revertBySequenceNumberArray cLog l w).outline q = w.outline q := by
  apply List.foldlRecOn (motive := fun v => v.outline q = w.outline q)
    (b := w.log (.revert l w.base)) l (revertOne cLog) rfl
  exact fun v kept p _ => (revertOne_outline cLog v p q).trans kept

/-- Reverting changes neither the table up to saved bytes nor where the records go. -/
theorem Aimed.reverted (aimed : Aimed cLog w) (l : List Int) :
    Aimed cLog (revertBySequenceNumberArray cLog l w) where
  tied := revertArray_tied aimed.tied l
  placed q holds := by
    have same := revertArray_outline cLog l w q
    have place := congrArg Prod.snd same
    have offset := congrArg (SingleData.offset ∘ Prod.fst) same
    exact place.trans ((aimed.placed q holds).trans (congrArg some offset.symm))

/-- A pool opened anew is mapped where the new addresses say. -/
theorem aimed_redo {env : Env} (tied : Tied (sequenceLog logSize cLog) w.sLog)
    (opens : (env.pmemobjOpen w.opens).isSome) (pop : Option UInt64) :
    Aimed cLog { (redoPmemAddresses env w).2 with pop := pop } := by
  obtain ⟨mapped, -, base, log, -⟩ := redo_some opens
  refine ⟨?_, fun q holds => ?_⟩
  · change Tied _ (redoPmemAddresses env w).2.sLog
    rw [log]
    exact tied.assign mapped
  · have found : lookup (redoPmemAddresses env w).2.sLog q = placedAt mapped (lookup w.sLog q) := by
      rw [log, lookup_assignAddresses (tied.holds.mpr holds)]
    change (redoPmemAddresses env w).2.place (lookup (redoPmemAddresses env w).2.sLog q) = _
    rw [found, place_placedAt base]
    rfl

/-- A turn of the ArCkpt loop that goes on: the number is taken back, and the command has run
on the pool. -/
theorem Aimed.turn (aimed : Aimed cLog w) {env : Env} {pmemLibrary : PmemLibrary}
    (reopens : Reopens env pmemLibrary) (q : Int) :
    let ran := arckptStep cLog env pmemLibrary q w
    let next := { (redoPmemAddresses env ran).2 with pop := (redoPmemAddresses env ran).1 }
    ran.pool = env.effect w.runs ((stepOf cLog (w.view q)).apply w.pool) ∧
      ran.runs = w.runs + 1 ∧ next.pool = ran.pool ∧ next.runs = w.runs + 1 ∧
      next.coarseGrainedTries = w.coarseGrainedTries ∧ Aimed cLog next := by
  intro ran next
  let reverted := revertBySequenceNumberArray cLog [q] { w with
    totalRevertedItems := w.totalRevertedItems + 1
    totalReexecutions := w.totalReexecutions + 1 }
  have start : Aimed cLog { w with
      totalRevertedItems := w.totalRevertedItems + 1
      totalReexecutions := w.totalReexecutions + 1 } := ⟨aimed.tied, aimed.placed⟩
  have after : Aimed cLog reverted := start.reverted [q]
  have pool : reverted.pool = (stepOf cLog (w.view q)).apply w.pool := revertOne_pool cLog _ q
  have frame := arckptStep_frame cLog env pmemLibrary q w
  let closed := if pmemLibrary = .libpmemobj then pmemobjClose reverted.pop reverted else reverted
  have isRan : ran = afterReExecute env closed := rfl
  have closedPool : closed.pool = reverted.pool ∧ closed.runs = w.runs ∧
      closed.sLog = reverted.sLog := by
    have runs : reverted.runs = w.runs := (Frame.revertArray cLog [q] _).runs
    simp only [closed]
    split_ifs <;> exact ⟨rfl, runs, rfl⟩
  have redo := Frame.redo env ran
  refine ⟨?_, frame.runs, redo_pool env ran, redo.runs.trans frame.runs,
    redo.tries.trans frame.tries, ?_⟩
  · rw [isRan, afterReExecute_pool, closedPool.1, closedPool.2.1, pool]
  · by_cases isObj : pmemLibrary = .libpmemobj
    · subst isObj
      have tied : Tied (sequenceLog logSize cLog) ran.sLog :=
        (Calm.afterReExecute env closed).tied _ (closedPool.2.2 ▸ after.tied)
      exact aimed_redo tied (reopens _) _
    · have never : ∀ i, env.pmemobjOpen i = none := by
        cases pmemLibrary with
        | libpmemobj => exact absurd rfl isObj
        | libpmem => exact reopens
        | libpmemobj2 => exact reopens
      have open' : closed = reverted := if_neg isObj
      obtain ⟨log, base⟩ := afterReExecute_mapping never closed
      have stays : (redoPmemAddresses env ran).2.sLog = reverted.sLog ∧
          (redoPmemAddresses env ran).2.base = reverted.base := by
        simp only [redoPmemAddresses, pmemobjOpen, never, isRan]
        exact ⟨log.trans (open' ▸ rfl), base.trans (open' ▸ rfl)⟩
      refine ⟨?_, fun p holds => ?_⟩
      · change Tied _ (redoPmemAddresses env ran).2.sLog
        rw [stays.1]
        exact after.tied
      · have placed := after.placed p holds
        simp only [World.Placed, World.place] at placed ⊢
        rw [stays.1, stays.2]
        exact placed

end Aimed

section Past

variable {cLog : CheckpointLog} {temp : Node}

theorem slice_congr {off : UInt64} {n : Nat} {m m' : Image}
    (same : ∀ a, covers off n a → m' a = m a) : slice m' off n = slice m off n := by
  refine List.map_congr_left fun i member => same _ ?_
  rw [covers, base_add_sub, decide_eq_true_eq, UInt64.toNat_ofNat']
  exact (Nat.mod_le i _).trans_lt (List.mem_range.mp member)

/-- What happens outside its reach is nothing to an entry. -/
theorem AsOf.congr {number : Int} {m m' : Image} (held : AsOf temp number m)
    (same : ∀ a, Reach cLog temp a → m' a = m a) : AsOf temp number m' := by
  intro j known below above
  rw [← held j known below above]
  exact slice_congr fun a covered => same a ⟨j, known, Or.inl covered⟩

/-- Where no version of the entry has the number, nothing is between it and the next. -/
theorem AsOf.skip {number : Int} {m : Image} (held : AsOf temp (number + 1) m)
    (other : ∀ i ≤ temp.cData.version, temp.cData.sequenceNumber i ≠ number) :
    AsOf temp number m := by
  intro j known below above
  refine held j known (by omega) fun i later within => ?_
  have atLeast := above i later within
  have differs := other i within
  omega

/-- Taking back a number brings its entry to what it was before, and no other entry is
touched. -/
theorem asOf_reverted (numbered : cLog.Numbered) (apart : cLog.Apart) {w : World}
    (aimed : Aimed cLog w) (entry : temp ∈ cLog.entries) {number : Int} {m m' : Image}
    (held : AsOf temp (number + 1) m ∨
      ∃ j, 1 ≤ j ∧ j ≤ temp.cData.version ∧ temp.cData.sequenceNumber j = number)
    (same : ∀ a, Reach cLog temp a → m' a = (stepOf cLog (w.view number)).apply m a) :
    AsOf temp number m' := by
  by_cases own : ∃ i ≤ temp.cData.version, temp.cData.sequenceNumber i = number
  · obtain ⟨i, known, rfl⟩ := own
    have patch := aimed.patch_recorded numbered (mem_versions.mpr ⟨entry, known⟩)
    intro j within below above
    have earlier : j < i := by
      by_contra late
      rcases Nat.eq_or_lt_of_le (Nat.le_of_not_lt late) with rfl | after
      · exact lt_irrefl _ below
      · exact lt_asymm below (apart.increasing temp entry i j after within)
    obtain rfl : i = j + 1 := by
      by_contra skipped
      have between := apart.increasing temp entry (j + 1) i (by omega) known
      exact absurd (above (j + 1) (Nat.lt_succ_self j) (by omega)) (by omega)
    have length : (temp.cData.bytes j).length = temp.cData.size j :=
      CheckpointData.length_bytes _ within
    rw [← length]
    apply slice_eq_of_window (length ▸ temp.cData.size_lt j within)
    intro a v there
    have covered := (window_isSome_iff _ _ _).mp (Option.isSome_iff_exists.mpr ⟨v, there⟩)
    rw [same a ⟨j + 1, known, Or.inr covered⟩, Step.apply, patch]
    exact congrArg (Option.getD · (m a)) there
  · have others : ∀ i ≤ temp.cData.version, temp.cData.sequenceNumber i ≠ number :=
      fun i known isNumber => own ⟨i, known, isNumber⟩
    have unnumbered : ¬ ∃ j, 1 ≤ j ∧ j ≤ temp.cData.version ∧
        temp.cData.sequenceNumber j = number := by
      rintro ⟨j, -, known, isNumber⟩
      exact own ⟨j, known, isNumber⟩
    have before := held.resolve_right unnumbered
    refine (before.skip others).congr fun a reached => (same a reached).trans ?_
    by_cases recorded : Recorded cLog number
    · obtain ⟨⟨temp', i⟩, member, rfl⟩ := List.mem_map.mp recorded
      obtain ⟨entry', known⟩ := mem_versions.mp member
      have differ : temp ≠ temp' := fun isSame => own ⟨i, isSame ▸ known, by rw [isSame]; rfl⟩
      have patch := aimed.patch_recorded numbered member
      have untouched : window temp'.offset (laidDown cLog temp' i) a = none := by
        by_contra written
        have covered := (window_isSome_iff _ _ _).mp (Option.isSome_iff_ne_none.mpr written)
        exact apart.disjoint temp entry temp' entry' differ a
          ⟨reached, i, known, Or.inr covered⟩
      rw [seqOf, Step.apply, patch, untouched]
      rfl
    · rw [aimed.step_unrecorded numbered recorded]
      rfl

/-- Places that belong to no entry are never written to. -/
theorem apply_outside (numbered : cLog.Numbered) {w : World} (aimed : Aimed cLog w) {a : UInt64}
    (outside : ∀ temp ∈ cLog.entries, ¬ Reach cLog temp a) (number : Int) (m : Image) :
    (stepOf cLog (w.view number)).apply m a = m a := by
  by_cases recorded : Recorded cLog number
  · obtain ⟨⟨temp, i⟩, member, rfl⟩ := List.mem_map.mp recorded
    obtain ⟨entry, known⟩ := mem_versions.mp member
    have untouched : window temp.offset (laidDown cLog temp i) a = none := by
      by_contra written
      have covered := (window_isSome_iff _ _ _).mp (Option.isSome_iff_ne_none.mpr written)
      exact outside temp entry ⟨i, known, Or.inr covered⟩
    rw [seqOf, Step.apply, aimed.patch_recorded numbered member, untouched]
    rfl
  · rw [aimed.step_unrecorded numbered recorded]
    rfl

end Past

section Loop

variable {cLog : CheckpointLog} {env : Env} {pmemLibrary : PmemLibrary}

/-- What the entry holds while the numbers from `above` down to `left + 1` are taken back: it
was current before, or one of these numbers is of a version that has one before it. -/
def Restorable (temp : Node) (pool : Image) (above left : Nat) : Prop :=
  AsOf temp ((above : Int) + 1) pool ∨ ∃ j, 1 ≤ j ∧ j ≤ temp.cData.version ∧
    (left : Int) < temp.cData.sequenceNumber j ∧ temp.cData.sequenceNumber j ≤ above

/-- The ArCkpt loop stops at the first success, or when no number is left; the pool is then
what it was before the updates that were taken back, wherever the command left it alone. -/
theorem arckptLoop_past (numbered : cLog.Numbered) (apart : cLog.Apart)
    (reopens : Reopens env pmemLibrary) (poolAddress : UInt64) {n : Nat} {w w' : World} {ret : Int}
    (aimed : Aimed cLog w)
    (run : arckptLoop cLog env pmemLibrary poolAddress n w = some (ret, w')) :
    ∃ left, w'.runs + left = w.runs + n ∧
      (left = 0 ∨ env.succeeds w.coarseGrainedTries (w'.runs - 1) = true) ∧
      (∀ temp ∈ cLog.entries, (∀ a, Reach cLog temp a → ∀ i m, env.effect i m a = m a) →
        Restorable temp w.pool n left → AsOf temp ((left : Int) + 1) w'.pool) ∧
      ∀ a, (∀ temp ∈ cLog.entries, ¬ Reach cLog temp a) → (∀ i m, env.effect i m a = m a) →
        w'.pool a = w.pool a := by
  induction n generalizing w with
  | zero =>
    obtain ⟨-, rfl⟩ := Prod.mk.inj (Option.some.inj run)
    refine ⟨0, rfl, Or.inl rfl, fun temp entry quiet held => ?_, fun a outside quiet => rfl⟩
    rcases held with held | ⟨j, -, -, above, below⟩
    · exact held
    · omega
  | succ n ih =>
    obtain ⟨ran, runs, samePool, nextRuns, nextTries, next⟩ := aimed.turn reopens ((n : Int) + 1)
    have restored : ∀ temp ∈ cLog.entries,
        (∀ a, Reach cLog temp a → ∀ i m, env.effect i m a = m a) →
        (AsOf temp ((n : Int) + 1 + 1) w.pool ∨ ∃ j, 1 ≤ j ∧ j ≤ temp.cData.version ∧
          temp.cData.sequenceNumber j = (n : Int) + 1) →
        AsOf temp ((n : Int) + 1) (arckptStep cLog env pmemLibrary ((n : Int) + 1) w).pool := by
      intro temp entry quiet held
      refine asOf_reverted numbered apart aimed entry held fun a reached => ?_
      rw [ran, quiet a reached]
    have outside : ∀ a, (∀ temp ∈ cLog.entries, ¬ Reach cLog temp a) →
        (∀ i m, env.effect i m a = m a) →
        (arckptStep cLog env pmemLibrary ((n : Int) + 1) w).pool a = w.pool a := by
      intro a apart' quiet
      rw [ran, quiet, apply_outside numbered aimed apart']
    rw [arckptLoop_succ] at run
    simp only at run
    split_ifs at run with success
    · obtain ⟨-, rfl⟩ := Prod.mk.inj (Option.some.inj run)
      refine ⟨n, by omega, Or.inr (by rw [runs, Nat.add_sub_cancel]; exact success),
        fun temp entry quiet held => restored temp entry quiet ?_, outside⟩
      rcases held with held | ⟨j, first, known, above, below⟩
      · exact Or.inl held
      · exact Or.inr ⟨j, first, known, by omega⟩
    · obtain ⟨left, count, ended, past, frame⟩ := ih next run
      rw [nextRuns] at count
      rw [nextTries] at ended
      refine ⟨left, by omega, ended, fun temp entry quiet held => past temp entry quiet ?_,
        fun a apart' quiet => (frame a apart' quiet).trans (samePool ▸ outside a apart' quiet)⟩
      rw [Restorable, samePool]
      rcases held with held | ⟨j, first, known, above, below⟩
      · exact Or.inl (restored temp entry quiet (Or.inl held))
      · by_cases last : temp.cData.sequenceNumber j = (n : Int) + 1
        · exact Or.inl (restored temp entry quiet (Or.inr ⟨j, first, known, last⟩))
        · exact Or.inr ⟨j, first, known, above, by omega⟩

end Loop

section React

variable {ι : Type*} [DecidableEq ι]

/-- The offsets of all the entries are in the trace. -/
def Traced (cLog : CheckpointLog) (lastPool : List (PmemAddrTraceItem ι)) : Prop :=
  ∀ temp ∈ cLog.entries, temp.offset ∈ lastPool.map (·.poolOffset)

omit [DecidableEq ι] in
theorem aimed_preparedLog {cLog : CheckpointLog} (numbered : cLog.Numbered)
    {lastPool : List (PmemAddrTraceItem ι)} (traced : Traced cLog lastPool) {w : World}
    {pop : UInt64} (base : w.base = some pop) :
    Aimed cLog { w with pop := some pop, sLog := preparedLog cLog lastPool pop } where
  tied := (preparedLog_kept cLog lastPool pop).1
  placed q holds := by
    have tied := (preparedLog_kept cLog lastPool pop).1
    obtain ⟨recorded, others, -⟩ := sequenceLog_spec numbered logSize
    have isRecorded : Recorded cLog q := by
      by_contra unrecorded
      exact absurd holds.2 (by simp [others q unrecorded])
    obtain ⟨⟨temp, j⟩, member, rfl⟩ := List.mem_map.mp isRecorded
    obtain ⟨d, found, records⟩ := recorded _ member
    have offset : (lookup (sequenceLog logSize cLog) (seqOf (temp, j))).offset = temp.offset := by
      rw [lookup, found]
      exact records.offset
    have address := address_preparedLog holds lastPool pop
    rw [offset, if_pos (traced temp (mem_versions.mp member).1)] at address
    have same := tied.offset_eq (seqOf (temp, j))
    simp only [World.Placed, World.place, base, address, same, offset, base_add_sub]

omit [DecidableEq ι] in
/-- No version has a number above the highest. -/
theorem le_highest {cLog : CheckpointLog} (numbered : cLog.Numbered)
    (lastPool : List (PmemAddrTraceItem ι)) (pop : UInt64) {p : Node × Nat}
    (member : p ∈ cLog.versions) :
    seqOf p ≤ findHighestSeqNum (preparedLog cLog lastPool pop) := by
  obtain ⟨d, found, -⟩ := (sequenceLog_spec numbered logSize).1 p member
  have holds := holds_of_nonneg (numbered.nonneg p member) (by rw [found]; rfl)
  have held := (preparedLog_kept cLog lastPool pop).1.holds.mpr holds
  obtain ⟨n, isNode⟩ := Option.isSome_iff_exists.mp held.2
  have scanned := SeqLog.mem_nodes_of_find held.1 isNode
  have highest := foldl_highest
    ((preparedLog cLog lastPool pop).nodes.map SeqNode.sequenceNumber) (-1)
  rw [List.foldl_map] at highest
  rw [findHighestSeqNum, highest, ← SeqLog.find_key isNode]
  exact (foldl_max_spec _ _).2.2 _ (List.mem_map_of_mem scanned)

theorem openPool_opened {env : Env} {pmemLibrary : PmemLibrary} {w opened : World} {pop : UInt64}
    (opens : openPool env pmemLibrary w = (some pop, opened)) :
    opened.base = some pop ∧ opened.pool = w.pool := by
  cases pmemLibrary with
  | libpmemobj =>
    simp only [openPool, pmemobjOpen] at opens
    split at opens
    · obtain ⟨isPop, rfl⟩ := Prod.mk.inj opens
      exact ⟨isPop, rfl⟩
    · exact absurd (Prod.mk.inj opens).1 (by simp)
  | libpmem =>
    obtain ⟨isPop, rfl⟩ := Prod.mk.inj opens
    exact ⟨isPop, rfl⟩
  | libpmemobj2 => exact absurd (Prod.mk.inj opens).1 (by simp)

/-- Entries that lie apart at their largest and are linked to no older entry. -/
theorem Checkpoint.CheckpointLog.Separate.apart {cLog : CheckpointLog} (separate : cLog.Separate) :
    cLog.Apart where
  increasing := separate.increasing
  disjoint temp entry temp' entry' differ a := by
    have within : ∀ temp ∈ cLog.entries, Reach cLog temp a → inRange temp a := by
      rintro temp entry ⟨j, known, covered | covered⟩
      · exact covers_mono (size_le_largestSize _ known) covered
      · cases j with
        | zero => simp [laidDown, separate.unlinked temp entry, covers] at covered
        | succ j =>
          have length := CheckpointData.length_bytes temp.cData (j := j) (by omega)
          rw [laidDown, length] at covered
          exact covers_mono (size_le_largestSize _ (by omega)) covered
    exact fun both => separate.disjoint temp entry temp' entry' differ a
      ⟨within temp entry both.1, within temp' entry' both.2⟩

/-- An ArCkpt request whose trace has the offsets of the checkpoint log. -/
def tracedState : ReactorState Nat :=
  { pairState true with lastPool := [⟨64, 0, some 0⟩, ⟨80, 16, some 0⟩] }

end React

end Arthas.Reactor
