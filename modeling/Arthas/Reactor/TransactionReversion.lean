import Arthas.Reactor.OrderedLogs
import Arthas.Reactor.PoolSafety

/-!
Reverting the other updates of the transactions of some numbers (`revert_by_transaction` of
`rollback.c`). The chain of a bucket is walked without a look at the transaction of its
nodes, once for each number.
-/

set_option autoImplicit false
set_option relaxedAutoImplicit false

namespace Arthas.Reactor

open Arthas.Lib Checkpoint

/-- The arguments of a call of `revert_by_sequence_number`. -/
structure RevertCall where
  searchData : SingleData
  seqNum : Int
  rollbackVersion : Int

/-- The state of `revert_by_transaction`, with the calls it has made, which it never reads. -/
structure TxReversion where
  world : World
  calls : List RevertCall

/-- A record is looked up and reverted. -/
def TxReversion.revert (seqNum rollbackVersion : Int) (st : TxReversion) : TxReversion :=
  let searchData := lookup st.world.sLog seqNum
  ⟨revertBySequenceNumber searchData seqNum rollbackVersion st.world,
    st.calls ++ [⟨searchData, seqNum, rollbackVersion⟩]⟩

/-- The body of the loop over a chain of the transaction log. -/
def revertTxNode (seqNumbers : List Int) (st : TxReversion) (tTemp : TxNode) : TxReversion :=
  let alreadyReverted := seqNumbers.any fun seqNum => tTemp.orderedData.sequenceNumber == seqNum
  if tTemp.orderedData.version ≠ 0 ∧ ¬ alreadyReverted then
    st.revert tTemp.orderedData.sequenceNumber (tTemp.orderedData.version - 1)
  else st

/-- The body of the loop over the numbers. -/
def revertTxOf (tLog : TxLog) (seqNumbers : List Int) (st : TxReversion) (seqNum : Int) :
    TxReversion :=
  let searchData := lookup st.world.sLog seqNum
  let pos := txhashCode tLog searchData.txId
  (tLog.list pos).foldl (revertTxNode seqNumbers) st

def revertByTransaction (tLog : TxLog) (seqNumbers : List Int) (w : World) : TxReversion :=
  seqNumbers.foldl (revertTxOf tLog seqNumbers) ⟨w, []⟩

/-- The version is not listed, has a previous one, and shares its transaction with a listed
one. -/
structure Sibling (cLog : CheckpointLog) (seqNumbers : List Int) (p : Node × Nat) : Prop where
  unlisted : seqOf p ∉ seqNumbers
  previous : 1 ≤ p.2
  shared : ∃ l ∈ cLog.versions, seqOf l ∈ seqNumbers ∧ txOf l = txOf p

/-- The siblings are reverted to their previous versions, each once, and nothing else is. -/
structure RevertsSiblings (cLog : CheckpointLog) (sLog : SeqLog) (seqNumbers : List Int)
    (calls : List RevertCall) : Prop where
  only : ∀ c ∈ calls, ∃ p ∈ cLog.versions, Sibling cLog seqNumbers p ∧ c.seqNum = seqOf p ∧
    c.rollbackVersion = p.2 - 1 ∧ fixedPart c.searchData = fixedPart (lookup sLog (seqOf p))
  once : ∀ p ∈ cLog.versions, Sibling cLog seqNumbers p →
    (calls.map RevertCall.seqNum).count (seqOf p) = 1

/-- The listed versions whose tx ids fall into the bucket of an unlisted version with a
previous one are at most one, and of its transaction. -/
structure BucketsApart (cLog : CheckpointLog) (tLog : TxLog) (seqNumbers : List Int) : Prop where
  same : ∀ p ∈ cLog.versions, 1 ≤ p.2 → seqOf p ∉ seqNumbers →
    ∀ l ∈ cLog.versions, seqOf l ∈ seqNumbers →
      txhashCode tLog (txOf l) = txhashCode tLog (txOf p) → txOf l = txOf p
  one : ∀ p ∈ cLog.versions, 1 ≤ p.2 → seqOf p ∉ seqNumbers →
    ∀ l ∈ cLog.versions, ∀ l' ∈ cLog.versions, seqOf l ∈ seqNumbers → seqOf l' ∈ seqNumbers →
      txhashCode tLog (txOf l) = txhashCode tLog (txOf p) →
      txhashCode tLog (txOf l') = txhashCode tLog (txOf p) → seqOf l = seqOf l'

/-- The versions of a bucket that are reverted when it is walked, in the order of its chain. -/
def revertedIn (cLog : CheckpointLog) (tLog : TxLog) (seqNumbers : List Int) (pos : Int) :
    List (Node × Nat) :=
  (cLog.versions.filter fun p => txhashCode tLog (txOf p) = pos).reverse.filter fun p =>
    p.2 ≠ 0 ∧ seqOf p ∉ seqNumbers

section Calls

variable {s₀ : SeqLog}

/-- The call that reverts a version. -/
structure CallOf (s₀ : SeqLog) (p : Node × Nat) (c : RevertCall) : Prop where
  seqNum : c.seqNum = seqOf p
  rollbackVersion : c.rollbackVersion = p.2 - 1
  record : fixedPart c.searchData = fixedPart (lookup s₀ (seqOf p))

theorem revertBySequenceNumber_tied {w : World} (h : Tied s₀ w.sLog) (d : SingleData)
    (seqNum rollbackVersion : Int) :
    Tied s₀ (revertBySequenceNumber d seqNum rollbackVersion w).sLog := by
  apply h.modify seqNum
  intro d
  unfold saveBytes
  cases w.place d <;> rfl

/-- Walking a chain reverts its unlisted versions that have a previous one. -/
theorem foldl_revertTxNode (seqNumbers : List Int) {chain : List TxNode}
    {ps : List (Node × Nat)}
    (hchain : List.Forall₂ (fun n p => n.txId = txOf p ∧ Records p.1 p.2 n.orderedData) chain ps)
    {st : TxReversion} (htied : Tied s₀ st.world.sLog) :
    let st' := chain.foldl (revertTxNode seqNumbers) st
    Tied s₀ st'.world.sLog ∧ ∃ calls, st'.calls = st.calls ++ calls ∧
      List.Forall₂ (CallOf s₀) (ps.filter fun p => p.2 ≠ 0 ∧ seqOf p ∉ seqNumbers) calls := by
  induction hchain generalizing st with
  | nil => exact ⟨htied, [], (List.append_nil _).symm, List.Forall₂.nil⟩
  | @cons n p chain ps hrecord hchain ih =>
    have hseq : n.orderedData.sequenceNumber = seqOf p := hrecord.2.sequenceNumber
    have hversion : n.orderedData.version = p.2 := hrecord.2.version
    have hcond : (n.orderedData.version ≠ 0 ∧
        ¬ (seqNumbers.any fun seqNum => n.orderedData.sequenceNumber == seqNum) = true) ↔
          p.2 ≠ 0 ∧ seqOf p ∉ seqNumbers := by
      rw [hseq, hversion]
      simp
    rw [List.foldl_cons]
    by_cases hreverted : p.2 ≠ 0 ∧ seqOf p ∉ seqNumbers
    · have hstep : revertTxNode seqNumbers st n = st.revert (seqOf p) (p.2 - 1) := by
        rw [revertTxNode, if_pos (hcond.mpr hreverted), hseq, hversion]
      have hcall : CallOf s₀ p ⟨lookup st.world.sLog (seqOf p), seqOf p, p.2 - 1⟩ :=
        ⟨rfl, rfl, htied.lookup_eq (seqOf p)⟩
      have hreverted' : Tied s₀ (st.revert (seqOf p) (p.2 - 1)).world.sLog :=
        revertBySequenceNumber_tied htied _ _ _
      obtain ⟨htied', calls, hcalls, hall⟩ := ih hreverted'
      rw [hstep, List.filter_cons_of_pos (by simpa using hreverted)]
      refine ⟨htied', _ :: calls, ?_, List.Forall₂.cons hcall hall⟩
      rw [hcalls, TxReversion.revert, List.append_assoc]
      rfl
    · have hstep : revertTxNode seqNumbers st n = st := if_neg fun h => hreverted (hcond.mp h)
      rw [hstep, List.filter_cons_of_neg (by simpa using hreverted)]
      exact ih htied

variable {cLog : CheckpointLog} {tLog : TxLog}

/-- The reversion walks the bucket of each number. -/
theorem foldl_revertTxOf (hindex : TxIndex cLog tLog) (listed seqNumbers : List Int)
    {st : TxReversion} (htied : Tied s₀ st.world.sLog) :
    ∃ calls, (listed.foldl (revertTxOf tLog seqNumbers) st).calls = st.calls ++ calls ∧
      List.Forall₂ (CallOf s₀) (listed.flatMap fun q =>
        revertedIn cLog tLog seqNumbers (txhashCode tLog (lookup s₀ q).txId)) calls := by
  induction listed generalizing st with
  | nil => exact ⟨[], (List.append_nil _).symm, List.Forall₂.nil⟩
  | cons q listed ih =>
    have htx : (lookup st.world.sLog q).txId = (lookup s₀ q).txId := by
      have hfixed := congrArg SingleData.txId (htied.lookup_eq q)
      exact hfixed
    obtain ⟨htied', calls, hcalls, hall⟩ := foldl_revertTxNode seqNumbers
      (hindex (txhashCode tLog (lookup s₀ q).txId)) htied
    have hstep : revertTxOf tLog seqNumbers st q =
        (tLog.list (txhashCode tLog (lookup s₀ q).txId)).foldl (revertTxNode seqNumbers) st := by
      rw [revertTxOf, htx]
    obtain ⟨rest, hrest, hall'⟩ := ih htied'
    rw [List.foldl_cons, hstep, hrest, hcalls, List.flatMap_cons]
    exact ⟨calls ++ rest, List.append_assoc _ _ _, List.rel_append hall hall'⟩

end Calls

section Counting

variable {cLog : CheckpointLog} {tLog : TxLog} {seqNumbers : List Int}

theorem mem_revertedIn {pos : Int} {p : Node × Nat} :
    p ∈ revertedIn cLog tLog seqNumbers pos ↔ p ∈ cLog.versions ∧
      txhashCode tLog (txOf p) = pos ∧ 1 ≤ p.2 ∧ seqOf p ∉ seqNumbers := by
  simp only [revertedIn, List.mem_filter, List.mem_reverse, decide_eq_true_eq, Nat.one_le_iff_ne_zero]
  exact and_assoc

/-- A number occurs in the walks as often as a listed number has its bucket. -/
theorem count_reverted (hnum : cLog.Numbered) {p : Node × Nat} (hp : p ∈ cLog.versions)
    (hprevious : 1 ≤ p.2) (hunlisted : seqOf p ∉ seqNumbers) (bucket : Int → Int)
    (listed : List Int) :
    ((listed.flatMap fun q => revertedIn cLog tLog seqNumbers (bucket q)).map seqOf).count (seqOf p) =
      (listed.filter fun q => bucket q = txhashCode tLog (txOf p)).length := by
  induction listed with
  | nil => rfl
  | cons q listed ih =>
    have hnodup : ((revertedIn cLog tLog seqNumbers (bucket q)).map seqOf).Nodup := by
      have hsub : (revertedIn cLog tLog seqNumbers (bucket q)).Sublist cLog.versions.reverse :=
        List.filter_sublist.trans List.filter_sublist.reverse
      apply (hsub.map seqOf).nodup
      rw [List.map_reverse]
      exact List.nodup_reverse.mpr hnum.distinct
    have hmem : seqOf p ∈ (revertedIn cLog tLog seqNumbers (bucket q)).map seqOf ↔
        bucket q = txhashCode tLog (txOf p) := by
      constructor
      · intro h
        obtain ⟨p', hp', hseq⟩ := List.mem_map.mp h
        obtain ⟨hversion, hbucket, -⟩ := mem_revertedIn.mp hp'
        have hsame := List.inj_on_of_nodup_map hnum.distinct hversion hp hseq
        rw [← hsame, hbucket]
      · intro hbucket
        exact List.mem_map_of_mem (mem_revertedIn.mpr ⟨hp, hbucket.symm, hprevious, hunlisted⟩)
    rw [List.flatMap_cons, List.map_append, List.count_append, ih]
    by_cases hbucket : bucket q = txhashCode tLog (txOf p)
    · rw [List.count_eq_one_of_mem hnodup (hmem.mpr hbucket),
        List.filter_cons_of_pos (by simpa using hbucket), List.length_cons]
      omega
    · rw [List.count_eq_zero_of_not_mem (mt hmem.mp hbucket),
        List.filter_cons_of_neg (by simpa using hbucket)]
      omega

end Counting

/-- Each call reverts one of the versions. -/
theorem exists_of_mem_calls {s₀ : SeqLog} {ps : List (Node × Nat)} {calls : List RevertCall}
    (h : List.Forall₂ (CallOf s₀) ps calls) {c : RevertCall} (hc : c ∈ calls) :
    ∃ p ∈ ps, CallOf s₀ p c := by
  induction h with
  | nil => exact absurd hc List.not_mem_nil
  | @cons p c' ps calls hcall hcalls ih =>
    rcases List.mem_cons.mp hc with rfl | hc
    · exact ⟨p, List.mem_cons_self, hcall⟩
    · obtain ⟨p', hp', hcall'⟩ := ih hc
      exact ⟨p', List.mem_cons_of_mem _ hp', hcall'⟩

theorem map_seqNum_calls {s₀ : SeqLog} {ps : List (Node × Nat)} {calls : List RevertCall}
    (h : List.Forall₂ (CallOf s₀) ps calls) : calls.map RevertCall.seqNum = ps.map seqOf := by
  induction h with
  | nil => rfl
  | cons hcall hcalls ih => rw [List.map_cons, List.map_cons, hcall.seqNum, ih]

theorem txId_lookup {cLog : CheckpointLog} (hnum : cLog.Numbered) (size : Nat) {l : Node × Nat}
    (hl : l ∈ cLog.versions) : (lookup (sequenceLog size cLog) (seqOf l)).txId = txOf l := by
  obtain ⟨d, hfind, hrecords⟩ := (sequenceLog_spec hnum size).1 l hl
  rw [lookup, hfind]
  exact hrecords.txId

/-- A list without duplicates has one element if all are equal to one of them. -/
theorem length_eq_one_iff_forall {l : List Int} (hl : l.Nodup) {a : Int} (ha : a ∈ l) :
    l.length = 1 ↔ ∀ b ∈ l, b = a := by
  constructor
  · intro hone b hb
    obtain ⟨c, rfl⟩ := List.length_eq_one_iff.mp hone
    rw [List.mem_singleton.mp hb, List.mem_singleton.mp ha]
  · intro hall
    have hperm : l.Perm [a] := by
      apply (List.perm_ext_iff_of_nodup hl (List.nodup_singleton a)).mpr
      intro b
      rw [List.mem_singleton]
      exact ⟨hall b, fun hb => hb ▸ ha⟩
    rw [hperm.length_eq, List.length_singleton]

section Main

variable {cLog : CheckpointLog} (size txSize : Nat) (seqNumbers : List Int)

/-- The calls revert the versions of the buckets of the listed numbers, in this order. -/
theorem revertByTransaction_calls {w : World} (htied : Tied (sequenceLog size cLog) w.sLog) :
    List.Forall₂ (CallOf (sequenceLog size cLog))
      (seqNumbers.flatMap fun q => revertedIn cLog (TxLog.empty txSize) seqNumbers
        (txhashCode (TxLog.empty txSize) (lookup (sequenceLog size cLog) q).txId))
      (revertByTransaction (orderByTxId (TxLog.empty txSize) cLog) seqNumbers w).calls := by
  have hhash : ∀ key, txhashCode (orderByTxId (TxLog.empty txSize) cLog) key =
      txhashCode (TxLog.empty txSize) key := fun key => by
    rw [txhashCode, orderByTxId_size]
    rfl
  have hstart : Tied (sequenceLog size cLog) (⟨w, []⟩ : TxReversion).world.sLog := htied
  obtain ⟨calls, hcalls, hall⟩ := foldl_revertTxOf (txIndex txSize cLog) seqNumbers seqNumbers
    hstart
  rw [revertByTransaction, hcalls, List.nil_append]
  simpa only [revertedIn, hhash] using hall

variable (hnum : cLog.Numbered)

include hnum

/-- A version that may be reverted is reverted once for each listed version of its bucket. -/
theorem count_calls {w : World} (htied : Tied (sequenceLog size cLog) w.sLog) {p : Node × Nat}
    (hp : p ∈ cLog.versions) (hprevious : 1 ≤ p.2) (hunlisted : seqOf p ∉ seqNumbers) :
    ((revertByTransaction (orderByTxId (TxLog.empty txSize) cLog) seqNumbers w).calls.map
        RevertCall.seqNum).count (seqOf p) =
      (seqNumbers.filter fun q => txhashCode (TxLog.empty txSize)
        (lookup (sequenceLog size cLog) q).txId = txhashCode (TxLog.empty txSize) (txOf p)).length := by
  rw [map_seqNum_calls (revertByTransaction_calls size txSize seqNumbers htied)]
  exact count_reverted hnum hp hprevious hunlisted _ seqNumbers

/-- The numbers of the listed versions in the bucket of `p`. -/
theorem mem_bucket {l : Node × Nat} (hl : l ∈ cLog.versions) (p : Node × Nat) :
    (seqOf l ∈ seqNumbers.filter fun q => txhashCode (TxLog.empty txSize)
        (lookup (sequenceLog size cLog) q).txId = txhashCode (TxLog.empty txSize) (txOf p)) ↔
      seqOf l ∈ seqNumbers ∧
        txhashCode (TxLog.empty txSize) (txOf l) = txhashCode (TxLog.empty txSize) (txOf p) := by
  rw [List.mem_filter, txId_lookup hnum size hl, decide_eq_true_eq]

variable {seqNumbers}

/-- A version that is met at all is reverted, so it is a sibling. -/
theorem RevertsSiblings.sibling {w : World} (htied : Tied (sequenceLog size cLog) w.sLog)
    (h : RevertsSiblings cLog (sequenceLog size cLog) seqNumbers
      (revertByTransaction (orderByTxId (TxLog.empty txSize) cLog) seqNumbers w).calls)
    {p : Node × Nat} (hp : p ∈ cLog.versions) (hprevious : 1 ≤ p.2) (hunlisted : seqOf p ∉ seqNumbers)
    {l : Node × Nat} (hl : l ∈ cLog.versions) (hin : seqOf l ∈ seqNumbers)
    (hhash : txhashCode (TxLog.empty txSize) (txOf l) = txhashCode (TxLog.empty txSize) (txOf p)) :
    Sibling cLog seqNumbers p := by
  have hmem := (mem_bucket size txSize seqNumbers hnum hl p).mpr ⟨hin, hhash⟩
  have hpos := List.length_pos_of_mem hmem
  rw [← count_calls size txSize seqNumbers hnum htied hp hprevious hunlisted] at hpos
  obtain ⟨c, hc, hseq⟩ := List.mem_map.mp (List.count_pos_iff.mp hpos)
  obtain ⟨p', hp', hsibling, hseq', -⟩ := h.only c hc
  have hsame := List.inj_on_of_nodup_map hnum.distinct hp' hp (hseq'.symm.trans hseq)
  exact hsame ▸ hsibling

/-- A sibling is reverted once exactly if all listed versions of its bucket are one of them. -/
theorem count_calls_eq_one_iff (hnodup : seqNumbers.Nodup) {w : World}
    (htied : Tied (sequenceLog size cLog) w.sLog) {p : Node × Nat} (hp : p ∈ cLog.versions)
    (hsibling : Sibling cLog seqNumbers p) {l : Node × Nat} (hl : l ∈ cLog.versions)
    (hin : seqOf l ∈ seqNumbers)
    (hhash : txhashCode (TxLog.empty txSize) (txOf l) = txhashCode (TxLog.empty txSize) (txOf p)) :
    ((revertByTransaction (orderByTxId (TxLog.empty txSize) cLog) seqNumbers w).calls.map
        RevertCall.seqNum).count (seqOf p) = 1 ↔
      ∀ q ∈ seqNumbers.filter fun q => txhashCode (TxLog.empty txSize)
        (lookup (sequenceLog size cLog) q).txId = txhashCode (TxLog.empty txSize) (txOf p),
        q = seqOf l := by
  rw [count_calls size txSize seqNumbers hnum htied hp hsibling.previous hsibling.unlisted]
  exact length_eq_one_iff_forall (hnodup.filter _)
    ((mem_bucket size txSize seqNumbers hnum hl p).mpr ⟨hin, hhash⟩)

/-- A sibling is met once, so all listed versions of its bucket are one. -/
theorem RevertsSiblings.one (hnodup : seqNumbers.Nodup) {w : World}
    (htied : Tied (sequenceLog size cLog) w.sLog)
    (h : RevertsSiblings cLog (sequenceLog size cLog) seqNumbers
      (revertByTransaction (orderByTxId (TxLog.empty txSize) cLog) seqNumbers w).calls)
    {p : Node × Nat} (hp : p ∈ cLog.versions) (hsibling : Sibling cLog seqNumbers p)
    {l l' : Node × Nat} (hl : l ∈ cLog.versions) (hl' : l' ∈ cLog.versions)
    (hin : seqOf l ∈ seqNumbers) (hin' : seqOf l' ∈ seqNumbers)
    (hhash : txhashCode (TxLog.empty txSize) (txOf l) = txhashCode (TxLog.empty txSize) (txOf p))
    (hhash' : txhashCode (TxLog.empty txSize) (txOf l') =
      txhashCode (TxLog.empty txSize) (txOf p)) : seqOf l = seqOf l' := by
  apply (count_calls_eq_one_iff size txSize hnum hnodup htied hp hsibling hl' hin' hhash').mp
    (h.once p hp hsibling)
  exact (mem_bucket size txSize seqNumbers hnum hl p).mpr ⟨hin, hhash⟩

/-- Where the buckets keep the transactions apart, each sibling is met once. -/
theorem BucketsApart.revertsSiblings (hnodup : seqNumbers.Nodup)
    (hpresent : ∀ q ∈ seqNumbers, q ∈ cLog.versions.map seqOf) {w : World}
    (htied : Tied (sequenceLog size cLog) w.sLog)
    (h : BucketsApart cLog (TxLog.empty txSize) seqNumbers) :
    RevertsSiblings cLog (sequenceLog size cLog) seqNumbers
      (revertByTransaction (orderByTxId (TxLog.empty txSize) cLog) seqNumbers w).calls := by
  have hcalls := revertByTransaction_calls size txSize seqNumbers htied
  constructor
  · intro c hc
    obtain ⟨p, hp, hcall⟩ := exists_of_mem_calls hcalls hc
    obtain ⟨q, hq, hwalk⟩ := List.mem_flatMap.mp hp
    obtain ⟨hversion, hhash, hprevious, hunlisted⟩ := mem_revertedIn.mp hwalk
    obtain ⟨l, hl, rfl⟩ := List.mem_map.mp (hpresent q hq)
    rw [txId_lookup hnum size hl] at hhash
    have hshared := h.same p hversion hprevious hunlisted l hl hq hhash.symm
    exact ⟨p, hversion, ⟨hunlisted, hprevious, l, hl, hq, hshared⟩, hcall.seqNum,
      hcall.rollbackVersion, hcall.record⟩
  · intro p hp hsibling
    obtain ⟨l, hl, hin, htx⟩ := hsibling.shared
    apply (count_calls_eq_one_iff size txSize hnum hnodup htied hp hsibling hl hin
      (by rw [htx])).mpr
    intro q hq
    obtain ⟨l', hl', rfl⟩ := List.mem_map.mp (hpresent q (List.mem_filter.mp hq).1)
    obtain ⟨hin', hhash'⟩ := (mem_bucket size txSize seqNumbers hnum hl' p).mp hq
    exact h.one p hp hsibling.previous hsibling.unlisted l' hl' l hl hin' hin hhash' (by rw [htx])

/-- The siblings of the listed versions are reverted as they should exactly when the buckets
of the transaction log keep the transactions apart. -/
theorem revertByTransaction_iff (hnodup : seqNumbers.Nodup)
    (hpresent : ∀ q ∈ seqNumbers, q ∈ cLog.versions.map seqOf) {w : World}
    (htied : Tied (sequenceLog size cLog) w.sLog) :
    RevertsSiblings cLog (sequenceLog size cLog) seqNumbers
        (revertByTransaction (orderByTxId (TxLog.empty txSize) cLog) seqNumbers w).calls ↔
      BucketsApart cLog (TxLog.empty txSize) seqNumbers := by
  constructor
  · intro h
    constructor
    · intro p hp hprevious hunlisted l hl hin hhash
      have hsibling := h.sibling size txSize hnum htied hp hprevious hunlisted hl hin hhash
      obtain ⟨l₀, hl₀, hin₀, htx⟩ := hsibling.shared
      have hseq := h.one size txSize hnum hnodup htied hp hsibling hl hl₀ hin hin₀ hhash (by rw [htx])
      rw [List.inj_on_of_nodup_map hnum.distinct hl hl₀ hseq, htx]
    · intro p hp hprevious hunlisted l hl l' hl' hin hin' hhash hhash'
      have hsibling := h.sibling size txSize hnum htied hp hprevious hunlisted hl hin hhash
      exact h.one size txSize hnum hnodup htied hp hsibling hl hl' hin hin' hhash hhash'
  · intro h
    exact h.revertsSiblings size txSize hnum hnodup hpresent htied

end Main

/-- An entry at offset 8 with three versions, the numbers 1 to 3 of transaction 7. -/
def threeVersions : Node where
  offset := 8
  cData := { laterEntry.cData with
    sequenceNumber j := j + 1
    txId _ := 7 }

def threeVersionsLog : CheckpointLog := .ofEntries [threeVersions]

theorem threeVersionsLog_versions :
    threeVersionsLog.versions = [(threeVersions, 0), (threeVersions, 1), (threeVersions, 2)] :=
  rfl

theorem threeVersionsLog_numbered : threeVersionsLog.Numbered := by
  constructor <;> rw [threeVersionsLog_versions] <;> simp [seqOf, threeVersions]

theorem revertByTransaction_iff_one :
    RevertsSiblings threeVersionsLog (sequenceLog 100 threeVersionsLog) [1]
        (revertByTransaction (orderByTxId (TxLog.empty 100) threeVersionsLog) [1]
          (World.start (sequenceLog 100 threeVersionsLog) (fun _ => 0) none)).calls ↔
      BucketsApart threeVersionsLog (TxLog.empty 100) [1] :=
  revertByTransaction_iff 100 100 threeVersionsLog_numbered (by decide)
    (by rw [threeVersionsLog_versions]; decide) (Tied.refl _)

/-- With two versions of a transaction listed, the third is reverted twice. -/
theorem revertByTransaction_twice :
    let calls := (revertByTransaction (orderByTxId (TxLog.empty 100) threeVersionsLog) [1, 2]
      (World.start (sequenceLog 100 threeVersionsLog) (fun _ => 0) none)).calls
    calls.map (fun c => (c.seqNum, c.rollbackVersion)) = [(3, 1), (3, 1)] ∧
      ¬ RevertsSiblings threeVersionsLog (sequenceLog 100 threeVersionsLog) [1, 2] calls := by
  intro calls
  have hcalls : calls.map (fun c => (c.seqNum, c.rollbackVersion)) = [(3, 1), (3, 1)] := by
    decide +kernel
  refine ⟨hcalls, fun h => ?_⟩
  have hsibling : Sibling threeVersionsLog [1, 2] (threeVersions, 2) :=
    ⟨by decide, by decide, (threeVersions, 0),
      by rw [threeVersionsLog_versions]; exact List.mem_cons_self, by decide, rfl⟩
  have hone := h.once (threeVersions, 2) (by rw [threeVersionsLog_versions]; simp) hsibling
  have hnumbers : calls.map RevertCall.seqNum = [3, 3] := by
    have hmap := congrArg (List.map Prod.fst) hcalls
    rwa [List.map_map] at hmap
  rw [hnumbers] at hone
  revert hone
  decide

end Arthas.Reactor
