import Mathlib
import Arthas.Lib.Relocation
import Arthas.Reactor.Checkpoint
import Arthas.Reactor.Machine

/-!
Reopening the checkpoint file (`reconstruct_checkpoint`). The file is mapped at another
base each time; its pointers are shifted in place while the structure is walked through
them. The objects in the file do not overlap: nodes, the words of the bucket array and the
bytes behind data pointers are each kept by their offsets.
-/

set_option autoImplicit false
set_option relaxedAutoImplicit false

namespace Arthas.Reactor.Checkpoint

open Arthas.Lib Arthas.Lib.Relocation

/-- `struct node`, with its pointers as they are stored. -/
structure StoredNode where
  offset : UInt64
  address : UInt64
  data : Nat → UInt64
  size : Nat → Nat
  version : Int
  sequenceNumber : Nat → Int
  oldCheckpointEntry : UInt64
  txId : Nat → Int
  next : UInt64

/-- The checkpoint file; `heads` holds the words of the bucket array, `oldPool` is the base
that was recorded last. -/
structure CheckpointImage where
  size : Nat
  variableCount : Int
  list : UInt64
  heads : Heap UInt64
  nodes : Heap StoredNode
  bytes : ByteImage.Image
  oldPool : UInt64

/-- The loop over `j` up to `version`. -/
def rebaseData (oldPool pop : UInt64) (temp : StoredNode) : StoredNode :=
  (List.range (temp.version + 1).toNat).foldl (fun temp j =>
    let offset := temp.data j - oldPool
    { temp with data := Function.update temp.data j (pop + offset) }) temp

def rebaseNext (oldPool pop : UInt64) (temp : StoredNode) : StoredNode :=
  if temp.next ≠ 0 then
    let offset := temp.next - oldPool
    { temp with next := pop + offset }
  else temp

/-- The body of the loop over a chain. -/
def rebaseNode (oldPool pop : UInt64) (temp : StoredNode) : StoredNode :=
  rebaseNext oldPool pop (rebaseData oldPool pop temp)

section Loops

variable (oldPool : CheckpointImage → UInt64) (pop : UInt64)

/-- `while (temp)`, with the old base as it is read for each node; `none` when the chain is
longer than `fuel` or leaves the file. -/
def rebaseChain (fuel : Nat) (temp : UInt64) (img : CheckpointImage) : Option CheckpointImage :=
  if temp = 0 then some img
  else
    match fuel with
    | 0 => none
    | fuel + 1 =>
      (img.nodes (temp - pop)).bind fun node =>
        let node := rebaseNode (oldPool img) pop node
        rebaseChain fuel node.next
          { img with nodes := Function.update img.nodes (temp - pop) (some node) }

/-- The place of `list[i]` in the file. -/
def slot (list : UInt64) (i : Nat) : UInt64 := list + UInt64.ofNat (8 * i)

/-- The body of the loop over the buckets. -/
def rebaseBucket (fuel : Nat) (img : CheckpointImage) (i : Nat) : Option CheckpointImage :=
  (img.heads (slot (img.list - pop) i)).bind fun temp =>
    if temp ≠ 0 then
      let offset := temp - oldPool img
      let temp := pop + offset
      rebaseChain oldPool pop fuel temp { img with
        heads := Function.update img.heads (slot (img.list - pop) i) (some temp) }
    else rebaseChain oldPool pop fuel temp img

end Loops

/-- `(int)c_log->size` -/
def CheckpointImage.buckets (img : CheckpointImage) : List Nat :=
  List.range (toInt32 img.size).toNat

/-- The branch for `libpmemobj2`, which reads `*old_pool` anew each time. -/
def reconstructPmemobj2 (fuel : Nat) (img : CheckpointImage) (pop : UInt64) :
    Option CheckpointImage :=
  let offset := img.list - img.oldPool
  let img := { img with list := pop + offset }
  (img.buckets.foldlM (rebaseBucket CheckpointImage.oldPool pop fuel) img).map fun img =>
    { img with oldPool := pop }

/-- The branch for `libpmem` and `libpmemobj`, which reads the old base once. -/
def reconstructPmem (fuel : Nat) (img : CheckpointImage) (pmemaddr : UInt64) :
    Option CheckpointImage :=
  let oldPool := img.oldPool
  let offset := img.list - oldPool
  let img := { img with list := pmemaddr + offset }
  (img.buckets.foldlM (rebaseBucket (fun _ => oldPool) pmemaddr fuel) img).map fun img =>
    { img with oldPool := pmemaddr }

/-- `reconstruct_checkpoint`, of a file that could be mapped at a base. -/
def reconstructCheckpoint (fuel : Nat) (pmemLibrary : PmemLibrary) (img : CheckpointImage)
    (base : UInt64) : Option CheckpointImage :=
  match pmemLibrary with
  | .libpmemobj2 => reconstructPmemobj2 fuel img base
  | .libpmem | .libpmemobj => reconstructPmem fuel img base

/-- What the log tells of one version. -/
structure StoredVersion where
  size : Nat
  sequenceNumber : Int
  txId : Int
  bytes : List UInt8
  deriving DecidableEq

structure StoredEntry where
  offset : UInt64
  versions : List StoredVersion
  deriving DecidableEq

/-- A node read through its pointers, with the file at a base. -/
def readEntry (base : UInt64) (img : CheckpointImage) (temp : StoredNode) : StoredEntry where
  offset := temp.offset
  versions := (List.range (temp.version + 1).toNat).map fun j =>
    { size := temp.size j
      sequenceNumber := temp.sequenceNumber j
      txId := temp.txId j
      bytes := ByteImage.slice img.bytes (temp.data j - base) (temp.size j) }

/-- The log read through the pointers: the buckets in order, the nodes of each chain in
order. -/
def readLog (fuel : Nat) (base : UInt64) (img : CheckpointImage) :
    Option (List (List StoredEntry)) :=
  img.buckets.mapM fun i =>
    (img.heads (slot (img.list - base) i)).bind fun head =>
      (walk base StoredNode.next img.nodes fuel head).map fun chain =>
        chain.map (readEntry base img)

/-- A checkpoint file laid out at a base: the bucket array at offset `list`, and in each
bucket a chain through the offsets of `chains`, all of them different. -/
structure LaidOut (base : UInt64) (img : CheckpointImage) (list : UInt64)
    (chains : List (List UInt64)) : Prop where
  size : img.size = chains.length
  few : img.size < 2 ^ 31
  recorded : img.oldPool = base
  array : img.list = base + list
  heads : ∀ i chain, chains[i]? = some chain →
    img.heads (slot list i) = some (pointerTo base chain.head?)
  linked : ∀ chain ∈ chains, Linked base StoredNode.next img.nodes chain
  distinct : chains.flatten.Nodup
  versions : ∀ off ∈ chains.flatten, ∀ n ∈ img.nodes off, n.version < maxVersions

section Nodes

variable {old new : UInt64}

theorem rebaseData_spec (old new : UInt64) (temp : StoredNode) (k : Nat) :
    (List.range k).foldl (fun temp j =>
      { temp with data := Function.update temp.data j (new + (temp.data j - old)) }) temp =
      { temp with data := fun j => if j < k then shift old new (temp.data j) else temp.data j } := by
  induction k with
  | zero => simp
  | succ k ih =>
    rw [List.range_succ, List.foldl_append, ih, List.foldl_cons, List.foldl_nil]
    congr 1
    funext j
    by_cases here : j = k
    · subst here
      simp [shift]
    · have below : j < k + 1 ↔ j < k := by omega
      simp [Function.update_of_ne here, below]

/-- A node after the body of the loop: each data pointer in use and the link were shifted
once. -/
theorem rebaseNode_eq (old new : UInt64) (temp : StoredNode) :
    rebaseNode old new temp = { temp with
      data := fun j => if j < (temp.version + 1).toNat then shift old new (temp.data j)
        else temp.data j
      next := shiftLink old new temp.next } := by
  have data := rebaseData_spec old new temp (temp.version + 1).toNat
  rw [rebaseNode, rebaseData, data, rebaseNext]
  by_cases last : temp.next = 0
  · simp [last, shiftLink]
  · simp [last, shiftLink, shift]

theorem rebaseNode_next (temp : StoredNode) :
    (rebaseNode old new temp).next = shiftLink old new temp.next := by
  rw [rebaseNode_eq]

/-- A shifted node reads at the new base as the node did at the old one. -/
theorem readEntry_rebaseNode (img img' : CheckpointImage) (same : img'.bytes = img.bytes)
    (temp : StoredNode) :
    readEntry new img' (rebaseNode old new temp) = readEntry old img temp := by
  rw [rebaseNode_eq]
  simp only [readEntry, same, StoredEntry.mk.injEq, true_and]
  apply List.map_congr_left
  intro j member
  rw [if_pos (List.mem_range.mp member), shift_sub]

end Nodes

section Buckets

variable {oldPool : CheckpointImage → UInt64} {old new list : UInt64} {img : CheckpointImage}
  {chains : List (List UInt64)} {fuel : Nat}

/-- The loop over a chain changes the nodes only, while the old base is read as `old`. -/
theorem rebaseChain_eq (reads : ∀ nodes, oldPool { img with nodes := nodes } = old)
    (temp : UInt64) (nodes : Heap StoredNode) :
    rebaseChain oldPool new fuel temp { img with nodes := nodes } =
      (changeAlong new StoredNode.next (rebaseNode old new) fuel temp nodes).map fun nodes =>
        { img with nodes := nodes } := by
  induction fuel generalizing temp nodes with
  | zero =>
    unfold rebaseChain changeAlong
    split <;> rfl
  | succ fuel ih =>
    unfold rebaseChain changeAlong
    split
    · rfl
    · simp only [reads]
      cases nodes (temp - new) with
      | none => rfl
      | some node => exact ih _ _

/-- The words of the bucket array after the first `k` buckets. -/
def headsAfter (old new list : UInt64) (k : Nat) (heads : Heap UInt64) : Heap UInt64 :=
  fun off => if ∃ i < k, off = slot list i then (heads off).map (shiftLink old new) else heads off

theorem slot_inj {i j : Nat} (hi : i < 2 ^ 31) (hj : j < 2 ^ 31)
    (same : slot list i = slot list j) : i = j := by
  have offsets := congrArg (fun p => (p - list).toNat) same
  simp only [slot, ByteImage.base_add_sub] at offsets
  rw [UInt64.toNat_ofNat_of_lt' (by simp only [UInt64.size]; omega),
    UInt64.toNat_ofNat_of_lt' (by simp only [UInt64.size]; omega)] at offsets
  omega

theorem headsAfter_later {k i : Nat} (later : k ≤ i) (hi : i < 2 ^ 31) (heads : Heap UInt64) :
    headsAfter old new list k heads (slot list i) = heads (slot list i) := by
  apply if_neg
  rintro ⟨j, earlier, same⟩
  have eq := slot_inj hi (by omega) same
  omega

theorem headsAfter_done {k i : Nat} (earlier : i < k) (heads : Heap UInt64) :
    headsAfter old new list k heads (slot list i) =
      (heads (slot list i)).map (shiftLink old new) :=
  if_pos ⟨i, earlier, rfl⟩

theorem headsAfter_succ {k : Nat} {heads : Heap UInt64} {temp : UInt64}
    (head : heads (slot list k) = some temp) :
    Function.update (headsAfter old new list k heads) (slot list k)
      (some (shiftLink old new temp)) = headsAfter old new list (k + 1) heads := by
  funext off
  by_cases here : off = slot list k
  · subst here
    rw [Function.update_self, headsAfter_done (Nat.lt_succ_self k), head, Option.map_some]
  · rw [Function.update_of_ne here, headsAfter, headsAfter]
    refine if_congr ⟨?_, ?_⟩ rfl rfl
    · rintro ⟨i, below, eq⟩
      exact ⟨i, Nat.lt_succ_of_lt below, eq⟩
    · rintro ⟨i, below, rfl⟩
      exact ⟨i, lt_of_le_of_ne (Nat.le_of_lt_succ below) fun same => here (same ▸ rfl), rfl⟩

/-- The file after the first `k` buckets. -/
def imageAfter (old new list : UInt64) (chains : List (List UInt64)) (img : CheckpointImage)
    (k : Nat) : CheckpointImage :=
  { img with
    list := new + list
    heads := headsAfter old new list k img.heads
    nodes := changeAt (rebaseNode old new) (chains.take k).flatten img.nodes }

theorem take_succ_flatten {k : Nat} {chain : List UInt64} (bucket : chains[k]? = some chain) :
    (chains.take (k + 1)).flatten = (chains.take k).flatten ++ chain := by
  rw [List.take_add_one, bucket, Option.toList_some, List.flatten_append, List.flatten_singleton]

/-- An empty bucket is left as it is. -/
theorem imageAfter_empty {k : Nat} (few : k < 2 ^ 31) (bucket : chains[k]? = some [])
    (head : img.heads (slot list k) = some 0) :
    imageAfter old new list chains img (k + 1) = imageAfter old new list chains img k := by
  have link : shiftLink old new 0 = 0 := if_pos rfl
  have heads : headsAfter old new list (k + 1) img.heads = headsAfter old new list k img.heads := by
    rw [← headsAfter_succ head, link]
    apply Function.update_eq_self_iff.mpr
    rw [headsAfter_later le_rfl few, head]
  simp only [imageAfter, heads, take_succ_flatten bucket, List.append_nil]

/-- No object of the layout is placed at address 0. -/
def Nonnull (chains : List (List UInt64)) (base : UInt64) : Prop :=
  ∀ off ∈ chains.flatten, base + off ≠ 0

theorem Nonnull.chain {base : UInt64} (nonnull : Nonnull chains base) {chain : List UInt64}
    (member : chain ∈ chains) : ∀ off ∈ chain, base + off ≠ 0 :=
  fun off inside => nonnull off (List.mem_flatten.mpr ⟨chain, member, inside⟩)

/-- One bucket: its head and every node of its chain are shifted, each once. -/
theorem rebaseBucket_step (laid : LaidOut old img list chains) (before : Nonnull chains old)
    (after : Nonnull chains new)
    (reads : ∀ heads nodes,
      oldPool { img with list := new + list, heads := heads, nodes := nodes } = old)
    (enough : ∀ chain ∈ chains, chain.length ≤ fuel) {k : Nat} {chain : List UInt64}
    (bucket : chains[k]? = some chain) :
    rebaseBucket oldPool new fuel (imageAfter old new list chains img k) k =
      some (imageAfter old new list chains img (k + 1)) := by
  have few : k < 2 ^ 31 := by
    have inside := (List.getElem?_eq_some_iff.mp bucket).1
    have size := laid.size
    have small := laid.few
    omega
  have member := List.mem_of_getElem? bucket
  have head := laid.heads k chain bucket
  have taken := take_succ_flatten bucket
  have heads : Function.update (headsAfter old new list k img.heads) (slot list k)
      (some (shiftLink old new (pointerTo old chain.head?))) =
      headsAfter old new list (k + 1) img.heads := headsAfter_succ head
  have link : shiftLink old new (pointerTo old chain.head?) = pointerTo new chain.head? :=
    shiftLink_pointerTo fun off first => before.chain member off (List.mem_of_mem_head? first)
  have place : (imageAfter old new list chains img k).list - new = list :=
    ByteImage.base_add_sub new list
  have read : (imageAfter old new list chains img k).heads (slot list k) =
      some (pointerTo old chain.head?) :=
    (headsAfter_later le_rfl few img.heads).trans head
  have base : oldPool (imageAfter old new list chains img k) = old := reads _ _
  rw [rebaseBucket, place, read, Option.bind_some, base]
  by_cases empty : pointerTo old chain.head? = 0
  · have none : chain = [] := by
      cases chain with
      | nil => rfl
      | cons off rest => exact absurd empty (before.chain member off List.mem_cons_self)
    subst none
    rw [if_neg (not_not.mpr empty), imageAfter_empty few bucket head]
    unfold rebaseChain
    exact if_pos rfl
  · have shifted : new + (pointerTo old chain.head? - old) = pointerTo new chain.head? := by
      rw [← link, shiftLink, if_neg empty, shift]
    have distinct : ((chains.take k).flatten ++ chain).Nodup := by
      rw [← taken]
      exact laid.distinct.sublist (List.Sublist.flatten (List.take_sublist _ _))
    have loop := @rebaseChain_eq oldPool old new
      { img with list := new + list, heads := headsAfter old new list (k + 1) img.heads } fuel
      (reads _) (pointerTo new chain.head?)
      (changeAt (rebaseNode old new) (chains.take k).flatten img.nodes)
    rw [changeAlong_linked (fun n => rebaseNode_next n) (laid.linked chain member)
      (fun off inside => ⟨before.chain member off inside, after.chain member off inside⟩) distinct
      (enough chain member)] at loop
    rw [link] at heads
    rw [if_pos empty]
    simp only [imageAfter, shifted, heads, taken]
    exact loop

/-- All buckets. -/
theorem rebaseBuckets (laid : LaidOut old img list chains) (before : Nonnull chains old)
    (after : Nonnull chains new)
    (reads : ∀ heads nodes,
      oldPool { img with list := new + list, heads := heads, nodes := nodes } = old)
    (enough : ∀ chain ∈ chains, chain.length ≤ fuel) {k : Nat} (inside : k ≤ chains.length) :
    (List.range k).foldlM (rebaseBucket oldPool new fuel) (imageAfter old new list chains img 0) =
      some (imageAfter old new list chains img k) := by
  induction k with
  | zero => rfl
  | succ k ih =>
    have bucket : chains[k]? = some chains[k] := List.getElem?_eq_getElem inside
    rw [List.range_succ, List.foldlM_append, ih (Nat.le_of_succ_le inside)]
    simp [rebaseBucket_step laid before after reads enough bucket]

/-- The file after it was reopened. -/
def reopened (old new list : UInt64) (chains : List (List UInt64)) (img : CheckpointImage) :
    CheckpointImage :=
  { imageAfter old new list chains img chains.length with oldPool := new }

theorem LaidOut.buckets (laid : LaidOut old img list chains) :
    img.buckets = List.range chains.length := by
  have few := laid.few
  have exact32 : toInt32 (img.size : Int) = img.size := by
    rw [toInt32, Int.bmod_eq_of_le] <;> omega
  rw [CheckpointImage.buckets, exact32, Int.toNat_natCast, laid.size]

theorem imageAfter_zero (old new list : UInt64) (chains : List (List UInt64))
    (img : CheckpointImage) :
    imageAfter old new list chains img 0 = { img with list := new + list } := by
  have heads : headsAfter old new list 0 img.heads = img.heads := by
    funext off
    exact if_neg (by simp)
  simp only [imageAfter, heads, List.take_zero, List.flatten_nil, changeAt_nil]

/-- Either branch, run at a new base. -/
theorem reconstructCheckpoint_eq (pmemLibrary : PmemLibrary) (laid : LaidOut old img list chains)
    (before : Nonnull chains old) (after : Nonnull chains new)
    (enough : ∀ chain ∈ chains, chain.length ≤ fuel) :
    reconstructCheckpoint fuel pmemLibrary img new = some (reopened old new list chains img) := by
  have offset : img.list - img.oldPool = list := by
    rw [laid.array, laid.recorded, ByteImage.base_add_sub]
  have buckets : ({ img with list := new + list } : CheckpointImage).buckets =
      List.range chains.length := laid.buckets
  have again := @rebaseBuckets CheckpointImage.oldPool _ new _ _ _ _ laid before after
    (fun _ _ => laid.recorded) enough _ le_rfl
  have once := @rebaseBuckets (fun _ => img.oldPool) _ new _ _ _ _ laid before after
    (fun _ _ => laid.recorded) enough _ le_rfl
  rw [imageAfter_zero] at again once
  cases pmemLibrary with
  | libpmemobj2 =>
    simp only [reconstructCheckpoint, reconstructPmemobj2, offset, buckets, again, Option.map_some]
    rfl
  | libpmem | libpmemobj =>
    simp only [reconstructCheckpoint, reconstructPmem, offset, buckets, once, Option.map_some]
    rfl

/-- The reopened file is laid out in the same way at the new base. -/
theorem LaidOut.reopened (laid : LaidOut old img list chains) (before : Nonnull chains old) :
    LaidOut new (reopened old new list chains img) list chains where
  size := laid.size
  few := laid.few
  recorded := rfl
  array := rfl
  heads i chain bucket := by
    have inside := (List.getElem?_eq_some_iff.mp bucket).1
    have member := List.mem_of_getElem? bucket
    rw [Checkpoint.reopened, imageAfter]
    simp only
    rw [headsAfter_done inside, laid.heads i chain bucket, Option.map_some, Option.some.injEq]
    exact shiftLink_pointerTo fun off first => before.chain member off (List.mem_of_mem_head? first)
  linked chain member := by
    refine (laid.linked chain member).change (fun n => rebaseNode_next n)
      (before.chain member) fun off inside => ?_
    rw [List.take_length]
    exact List.mem_flatten.mpr ⟨chain, member, inside⟩
  distinct := laid.distinct
  versions off member n found := by
    rw [Checkpoint.reopened, imageAfter] at found
    simp only [List.take_length, changeAt_of_mem member, Option.mem_def, Option.map_eq_some_iff]
      at found
    obtain ⟨node, inside, rfl⟩ := found
    rw [rebaseNode_eq]
    exact laid.versions off member node inside

end Buckets

section Reading

variable {base old new list : UInt64} {img : CheckpointImage} {chains : List (List UInt64)}
  {fuel : Nat}

theorem mapM_some {α β : Type} {f : α → Option β} {g : α → β} {l : List α}
    (each : ∀ a ∈ l, f a = some (g a)) : l.mapM f = some (l.map g) := by
  induction l with
  | nil => rfl
  | cons a l ih =>
    have rest := ih fun b member => each b (List.mem_cons_of_mem _ member)
    rw [List.mapM_cons, each a List.mem_cons_self, rest]
    rfl

/-- The log of a file that is laid out at a base. -/
theorem readLog_laidOut (laid : LaidOut base img list chains) (nonnull : Nonnull chains base)
    (enough : ∀ chain ∈ chains, chain.length ≤ fuel) :
    readLog fuel base img = some (chains.map fun chain =>
      (chain.filterMap img.nodes).map (readEntry base img)) := by
  have place : img.list - base = list := by rw [laid.array, ByteImage.base_add_sub]
  have each : ∀ i ∈ List.range chains.length,
      ((img.heads (slot (img.list - base) i)).bind fun head =>
        (walk base StoredNode.next img.nodes fuel head).map fun chain =>
          chain.map (readEntry base img)) =
        some (((chains.getD i []).filterMap img.nodes).map (readEntry base img)) := by
    intro i member
    have inside := List.mem_range.mp member
    have bucket : chains[i]? = some chains[i] := List.getElem?_eq_getElem inside
    have here := List.mem_of_getElem? bucket
    rw [place, laid.heads i _ bucket, Option.bind_some, walk_linked (laid.linked _ here)
      (nonnull.chain here) (enough _ here), Option.map_some, List.getD_eq_getElem _ _ inside]
  rw [readLog, laid.buckets, mapM_some each]
  congr 1
  apply List.ext_getElem (by simp)
  intro i hi hi'
  have inside : i < chains.length := by simpa using hi'
  simp [inside]

/-- Reopening leaves the log as it was. -/
theorem readLog_reopened (laid : LaidOut old img list chains) (before : Nonnull chains old)
    (after : Nonnull chains new) (enough : ∀ chain ∈ chains, chain.length ≤ fuel) :
    readLog fuel new (reopened old new list chains img) = readLog fuel old img := by
  rw [readLog_laidOut (laid.reopened before) after enough, readLog_laidOut laid before enough]
  congr 1
  apply List.map_congr_left
  intro chain member
  rw [List.map_filterMap, List.map_filterMap]
  apply List.filterMap_congr
  intro off inside
  have changed : (reopened old new list chains img).nodes off =
      (img.nodes off).map (rebaseNode old new) := by
    rw [reopened, imageAfter]
    simp only [List.take_length]
    exact changeAt_of_mem (List.mem_flatten.mpr ⟨chain, member, inside⟩)
  rw [changed, Option.map_map]
  apply Option.map_congr
  intro node _
  exact readEntry_rebaseNode img _ rfl node

end Reading

/-- Reopening at one base after the other. -/
theorem reopening_run (pmemLibrary : PmemLibrary) {fuel : Nat} {base list : UInt64}
    {img : CheckpointImage} {chains : List (List UInt64)} (laid : LaidOut base img list chains)
    (nonnull : Nonnull chains base) (enough : ∀ chain ∈ chains, chain.length ≤ fuel)
    (bases : List UInt64) (later : ∀ b ∈ bases, Nonnull chains b) :
    ∃ img', bases.foldlM (reconstructCheckpoint fuel pmemLibrary) img = some img' ∧
      readLog fuel (bases.getLastD base) img' = readLog fuel base img := by
  induction bases generalizing base img with
  | nil => exact ⟨img, rfl, rfl⟩
  | cons b bases ih =>
    have first := later b List.mem_cons_self
    have opened := reconstructCheckpoint_eq pmemLibrary laid nonnull first enough
    obtain ⟨img', run, same⟩ := ih (laid.reopened nonnull) first
      (fun b' member => later b' (List.mem_cons_of_mem _ member))
    refine ⟨img', ?_, ?_⟩
    · rw [List.foldlM_cons, opened]
      exact run
    · rw [List.getLastD_cons, same]
      exact readLog_reopened laid nonnull first enough

/-- Reopening a well-formed checkpoint file at any sequence of bases returns, with enough
fuel for its chains, and preserves the log; in either branch. -/
theorem reopening_preserves_log (pmemLibrary : PmemLibrary) {base list : UInt64}
    {img : CheckpointImage} {chains : List (List UInt64)} (laid : LaidOut base img list chains)
    (nonnull : Nonnull chains base) (bases : List UInt64) (later : ∀ b ∈ bases, Nonnull chains b) :
    ∃ n, ∀ fuel, n ≤ fuel → ∃ img' log,
      bases.foldlM (reconstructCheckpoint fuel pmemLibrary) img = some img' ∧
      readLog fuel base img = some log ∧
      readLog fuel (bases.getLastD base) img' = some log := by
  refine ⟨chains.flatten.length, fun fuel enough => ?_⟩
  have fits : ∀ chain ∈ chains, chain.length ≤ fuel := fun chain member =>
    (List.Sublist.length_le (List.sublist_flatten_of_mem member)).trans enough
  obtain ⟨img', run, same⟩ := reopening_run pmemLibrary laid nonnull fits bases later
  have read := readLog_laidOut laid nonnull fits
  exact ⟨img', _, run, read, same.trans read⟩

section Examples

/-- One bucket with a chain of two nodes, at base 4096. -/
def twoNodes : CheckpointImage where
  size := 1
  variableCount := 2
  list := 4096 + 8
  heads off := if off = 8 then some (4096 + 16) else none
  nodes off :=
    if off = 16 then some ⟨1, 0, fun _ => 4096 + 200, fun _ => 4, 0, fun _ => 1, 0, fun _ => 7, 4096 + 64⟩
    else if off = 64 then some ⟨2, 0, fun _ => 4096 + 204, fun _ => 4, 1, fun j => j + 2, 0, fun _ => 8, 0⟩
    else none
  bytes off := off.toUInt8
  oldPool := 4096

theorem twoNodes_laidOut : LaidOut 4096 twoNodes 8 [[16, 64]] where
  size := rfl
  few := by decide
  recorded := rfl
  array := rfl
  heads i chain bucket := by
    have here : i = 0 := by
      have inside := (List.getElem?_eq_some_iff.mp bucket).1
      simpa using inside
    subst here
    cases bucket
    rfl
  linked chain member := by
    rw [List.mem_singleton.mp member]
    exact ⟨⟨_, rfl, rfl⟩, ⟨_, rfl, rfl⟩, trivial⟩
  distinct := by decide
  versions off member n found := by
    fin_cases member
    · cases found
      decide
    · cases found
      decide

theorem twoNodes_reopened :
    ∃ n, ∀ fuel, n ≤ fuel → ∃ img' log,
      [8192, 0, 4096].foldlM (reconstructCheckpoint fuel .libpmemobj2) twoNodes = some img' ∧
      readLog fuel 4096 twoNodes = some log ∧ readLog fuel 4096 img' = some log :=
  reopening_preserves_log .libpmemobj2 twoNodes_laidOut (by simp [Nonnull]) [8192, 0, 4096]
    (by simp [Nonnull])

end Examples

end Arthas.Reactor.Checkpoint
