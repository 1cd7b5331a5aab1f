import Mathlib.Data.List.Basic
import Arthas.Lib.ByteImage

/-!
Linked structures in an image that is mapped at different bases. A pointer is the base plus
an offset, or 0; objects are found by their offsets, so a chain whose links were shifted
once each is the same chain at the new base.
-/

set_option autoImplicit false
set_option relaxedAutoImplicit false

namespace Arthas.Lib.Relocation

open ByteImage

/-- A pointer into an image at `old`, for the same image at `new`. -/
def shift (old new p : UInt64) : UInt64 := new + (p - old)

theorem shift_add (old new off : UInt64) : shift old new (old + off) = new + off := by
  rw [shift, base_add_sub]

theorem shift_sub (old new p : UInt64) : shift old new p - new = p - old := base_add_sub _ _

/-- A pointer to an offset, or the null pointer. -/
def pointerTo (base : UInt64) : Option UInt64 → UInt64
  | none => 0
  | some off => base + off

/-- A pointer is shifted unless it is null. -/
def shiftLink (old new p : UInt64) : UInt64 := if p = 0 then 0 else shift old new p

theorem shiftLink_pointerTo {old new : UInt64} {off : Option UInt64}
    (nonnull : ∀ o ∈ off, old + o ≠ 0) :
    shiftLink old new (pointerTo old off) = pointerTo new off := by
  cases off with
  | none => simp [shiftLink, pointerTo]
  | some o => simp [shiftLink, pointerTo, nonnull o rfl, shift_add]

section Chains

variable {ν : Type*}

abbrev Heap (ν : Type*) := UInt64 → Option ν

section Linked

variable (base : UInt64) (next : ν → UInt64) (heap : Heap ν)

/-- The objects at the offsets are linked in this order, the last one to null. -/
def Linked : List UInt64 → Prop
  | [] => True
  | off :: rest => (∃ n, heap off = some n ∧ next n = pointerTo base rest.head?) ∧ Linked rest

/-- The objects on the chain from a pointer on; `none` when it is longer than `fuel` or
leaves the heap. -/
def walk (fuel : Nat) (p : UInt64) : Option (List ν) :=
  if p = 0 then some []
  else
    match fuel with
    | 0 => none
    | fuel + 1 => (heap (p - base)).bind fun n => (walk fuel (next n)).map (n :: ·)

end Linked

variable {base old new : UInt64} {next : ν → UInt64} {heap : Heap ν} {f : ν → ν}

theorem Linked.isSome {chain : List UInt64} (linked : Linked base next heap chain) {off : UInt64}
    (member : off ∈ chain) : (heap off).isSome := by
  induction chain with
  | nil => cases member
  | cons head rest ih =>
    obtain ⟨⟨n, found, -⟩, linked⟩ := linked
    rcases List.mem_cons.mp member with rfl | inside
    · simp [found]
    · exact ih linked inside

/-- Walking a chain visits its objects in order. -/
theorem walk_linked {chain : List UInt64} (linked : Linked base next heap chain)
    (nonnull : ∀ off ∈ chain, base + off ≠ 0) {fuel : Nat} (enough : chain.length ≤ fuel) :
    walk base next heap fuel (pointerTo base chain.head?) = some (chain.filterMap heap) := by
  induction chain generalizing fuel with
  | nil =>
    unfold walk
    simp [pointerTo]
  | cons off rest ih =>
    obtain ⟨⟨n, found, link⟩, linked⟩ := linked
    cases fuel with
    | zero => simp at enough
    | succ fuel =>
      have more := ih linked (fun o member => nonnull o (List.mem_cons_of_mem _ member))
        (Nat.le_of_succ_le_succ enough)
      rw [walk, List.head?_cons, pointerTo, if_neg (nonnull off List.mem_cons_self), base_add_sub,
        found, Option.bind_some, link, more, List.filterMap_cons, found]
      rfl

/-- The objects at some offsets, changed by `f`. -/
def changeAt (f : ν → ν) (offs : List UInt64) (heap : Heap ν) : Heap ν :=
  fun off => if off ∈ offs then (heap off).map f else heap off

theorem changeAt_nil : changeAt f [] heap = heap := by
  funext off
  simp [changeAt]

theorem changeAt_of_mem {offs : List UInt64} {off : UInt64} (member : off ∈ offs) :
    changeAt f offs heap off = (heap off).map f :=
  if_pos member

theorem changeAt_of_not_mem {offs : List UInt64} {off : UInt64} (other : off ∉ offs) :
    changeAt f offs heap off = heap off :=
  if_neg other

theorem changeAt_snoc {offs : List UInt64} {off : UInt64} {n : ν} (other : off ∉ offs)
    (found : heap off = some n) :
    Function.update (changeAt f offs heap) off (some (f n)) = changeAt f (offs ++ [off]) heap := by
  funext o
  by_cases same : o = off
  · subst same
    rw [Function.update_self, changeAt_of_mem (by simp), found, Option.map_some]
  · rw [Function.update_of_ne same]
    by_cases member : o ∈ offs
    · rw [changeAt_of_mem member, changeAt_of_mem (by simp [member])]
    · rw [changeAt_of_not_mem member, changeAt_of_not_mem (by simp [member, same])]

/-- The loop over a chain: every object is changed, and the changed object tells where the
chain goes on. -/
def changeAlong (base : UInt64) (next : ν → UInt64) (f : ν → ν) (fuel : Nat) (p : UInt64)
    (heap : Heap ν) : Option (Heap ν) :=
  if p = 0 then some heap
  else
    match fuel with
    | 0 => none
    | fuel + 1 => (heap (p - base)).bind fun n =>
        changeAlong base next f fuel (next (f n)) (Function.update heap (p - base) (some (f n)))

/-- If `f` shifts the link of every object, the loop changes the chain and nothing else,
each object once. -/
theorem changeAlong_linked (links : ∀ n, next (f n) = shiftLink old new (next n))
    {done chain : List UInt64} (linked : Linked old next heap chain)
    (nonnull : ∀ off ∈ chain, old + off ≠ 0 ∧ new + off ≠ 0)
    (distinct : (done ++ chain).Nodup) {fuel : Nat} (enough : chain.length ≤ fuel) :
    changeAlong new next f fuel (pointerTo new chain.head?) (changeAt f done heap) =
      some (changeAt f (done ++ chain) heap) := by
  induction chain generalizing done fuel with
  | nil =>
    unfold changeAlong
    simp [pointerTo]
  | cons off rest ih =>
    obtain ⟨⟨n, found, link⟩, linked⟩ := linked
    have apart : off ∉ done := fun member =>
      (List.nodup_append.mp distinct).2.2 off member off List.mem_cons_self rfl
    have restNonnull : ∀ o ∈ rest, old + o ≠ 0 ∧ new + o ≠ 0 := fun o member =>
      nonnull o (List.mem_cons_of_mem _ member)
    have goes : next (f n) = pointerTo new rest.head? := by
      rw [links, link]
      exact shiftLink_pointerTo fun o member => (restNonnull o (List.mem_of_mem_head? member)).1
    cases fuel with
    | zero => simp at enough
    | succ fuel =>
      rw [changeAlong, List.head?_cons, pointerTo, if_neg (nonnull off List.mem_cons_self).2]
      simp only [base_add_sub, changeAt_of_not_mem apart, found, Option.bind_some, goes,
        changeAt_snoc apart found]
      have apartRest : ((done ++ [off]) ++ rest).Nodup := by simpa using distinct
      have rest := ih linked restNonnull apartRest (Nat.le_of_succ_le_succ enough)
      simpa using rest

/-- The changed chain is linked at the new base. -/
theorem Linked.change (links : ∀ n, next (f n) = shiftLink old new (next n))
    {offs chain : List UInt64} (linked : Linked old next heap chain)
    (nonnull : ∀ off ∈ chain, old + off ≠ 0) (inside : ∀ off ∈ chain, off ∈ offs) :
    Linked new next (changeAt f offs heap) chain := by
  induction chain with
  | nil => trivial
  | cons off rest ih =>
    obtain ⟨⟨n, found, link⟩, linked⟩ := linked
    refine ⟨⟨f n, ?_, ?_⟩, ih linked (fun o member => nonnull o (List.mem_cons_of_mem _ member))
      fun o member => inside o (List.mem_cons_of_mem _ member)⟩
    · rw [changeAt_of_mem (inside off List.mem_cons_self), found, Option.map_some]
    · rw [links, link]
      exact shiftLink_pointerTo fun o member =>
        nonnull o (List.mem_cons_of_mem _ (List.mem_of_mem_head? member))

end Chains

end Arthas.Lib.Relocation
