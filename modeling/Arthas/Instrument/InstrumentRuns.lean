import Mathlib
import Arthas.Instrument.Bookkeeping

/-!
Runs of the instrumenter in runtime-library mode are transparent and keep their books
exactly if no call is hooked whose address is never assigned; the walk over a function
ends although the function grows under it.
-/

set_option autoImplicit false
set_option relaxedAutoImplicit false

namespace Arthas.Instrument

open Arthas.Lib Arthas.Utils Arthas.Matcher

namespace PmemAddrInstrumenter

section Specification

/-- The address an instruction is about: its pointer operand, or the result of a call that
allocates or maps. -/
def pointerOf (i : Instruction) : Option Value :=
  match i.op with
  | .load p | .store p | .getElementPtr p => some p
  | .call (some callee) operands =>
    let token := calleeToken callee
    if token = "pmemobj_create".toList ∨ callReturnsPmemVar token ∨ token = "mmap".toList then
      some i.value
    else if token = "pmemobj_tx_add_range_direct".toList ∨ token = "clflush".toList then
      operands[0]?
    else if token = "pmemobj_persist".toList then operands[1]?
    else none
  | .call none _ | .bitCast _ | .other => none

/-- Not a call of a fence, nor a call that lacks the argument with the address. -/
def AddressGiven (i : Instruction) : Prop :=
  match i.op with
  | .call (some callee) operands =>
    calleeToken callee ≠ "sfence".toList ∧
      (calleeToken callee = "pmemobj_tx_add_range_direct".toList ∨
        calleeToken callee = "clflush".toList → 0 < operands.length) ∧
      (calleeToken callee = "pmemobj_persist".toList → 1 < operands.length)
  | _ => True

def removeInserted (fresh : Nat) (F : Function) : Function :=
  { F with blocks := F.blocks.map (List.filter fun i => i.ptr < fresh) }

/-- An instruction with its one hook behind it, up to a cast, for an address and a GUID
that no other inserted hook has. -/
structure Followed (start st : PmemAddrInstrumenter) (i : Instruction) (addr : Value)
    (guid : UInt32) : Prop where
  mapped : st.hookPointGuidMap.find? i.ptr = some guid.toUInt64
  behind : ∃ cast hook, HookCode start.trackAddrFunc guid addr (cast ++ [hook]) cast hook ∧
    (∃ F ∈ st.module.functions, ∃ block ∈ F.blocks, ∃ front back,
      block = front ++ i :: (cast ++ hook :: back) ∧
        ∀ j ∈ back.head?, j.ptr < start.module.fresh) ∧
    ∀ j ∈ st.module.instructions, start.module.fresh ≤ j.ptr → ∀ arg f,
      j.op = .call (some runtimeHookName) [arg, .int32 guid, f] → j = hook

/-- What a run should leave behind. -/
structure Transparent (start : PmemAddrInstrumenter) (log : List (Instruction × Bool))
    (st : PmemAddrInstrumenter) : Prop where
  restored : st.module.functions.map (removeInserted start.module.fresh) = start.module.functions
  original : ∀ i ∈ hooked log, i ∈ start.module.instructions
  once : (hooked log).Nodup
  followed : ∀ i ∈ hooked log, ∃ addr guid, pointerOf i = some addr ∧ Followed start st i addr guid
  inverse : ∀ p g, st.hookPointGuidMap.find? p = some g ↔
    ∃ i, i.ptr = p ∧ st.guidHookPointMap.find? g = some i
  points : ∀ i, i ∈ hooked log ↔ ∃ g, st.guidHookPointMap.find? g = some i
  consecutive : ∀ g, (st.guidHookPointMap.find? g).isSome ↔
    start.currentGuid.toNat ≤ g.toNat ∧
      g.toNat < start.currentGuid.toNat + (hooked log).length

section Call

variable {i : Instruction} {callee : Text} {operands : List Value}

/-- A call that allocates or maps is about its own result. -/
theorem pointerOf_result (op : i.op = .call (some callee) operands)
    (returned : calleeToken callee = "pmemobj_create".toList ∨
      callReturnsPmemVar (calleeToken callee) ∨ calleeToken callee = "mmap".toList) :
    pointerOf i = some i.value ∧ AddressGiven i := by
  have other : ∀ name, ¬ (name = "pmemobj_create".toList ∨ callReturnsPmemVar name ∨
      name = "mmap".toList) → calleeToken callee ≠ name := by
    rintro name unlisted rfl
    exact unlisted returned
  simp only [pointerOf, AddressGiven, op, if_pos returned, true_and]
  refine ⟨other _ (by decide), fun first => ?_, fun persist => ?_⟩
  · rcases first with range | flush
    · exact (other _ (by decide) range).elim
    · exact (other _ (by decide) flush).elim
  · exact (other _ (by decide) persist).elim

/-- A call that adds a range to a transaction or flushes a line is about its first argument. -/
theorem pointerOf_first (op : i.op = .call (some callee) operands)
    (first : calleeToken callee = "pmemobj_tx_add_range_direct".toList ∨
      calleeToken callee = "clflush".toList) :
    pointerOf i = operands[0]? ∧ (AddressGiven i ↔ 0 < operands.length) := by
  have apart : ¬ (calleeToken callee = "pmemobj_create".toList ∨
      callReturnsPmemVar (calleeToken callee) ∨ calleeToken callee = "mmap".toList) ∧
      calleeToken callee ≠ "sfence".toList ∧ calleeToken callee ≠ "pmemobj_persist".toList := by
    rcases first with range | flush
    · rw [range]
      decide
    · rw [flush]
      decide
  obtain ⟨unlisted, noFence, noPersist⟩ := apart
  simp only [pointerOf, AddressGiven, op, if_neg unlisted, if_pos first, true_and]
  exact ⟨fun given => given.2.1 first,
    fun inside => ⟨noFence, fun _ => inside, fun persist => (noPersist persist).elim⟩⟩

/-- A call that persists an object is about its second argument. -/
theorem pointerOf_second (op : i.op = .call (some callee) operands)
    (persist : calleeToken callee = "pmemobj_persist".toList) :
    pointerOf i = operands[1]? ∧ (AddressGiven i ↔ 1 < operands.length) := by
  simp only [pointerOf, AddressGiven, op, persist]
  rw [if_neg (by decide), if_neg (by decide), if_pos trivial]
  exact ⟨rfl, fun given => given.2.2 trivial,
    fun inside => ⟨by decide, fun first => absurd first (by decide), fun _ => inside⟩⟩

/-- A fence is about no address. -/
theorem pointerOf_fence (op : i.op = .call (some callee) operands)
    (fence : calleeToken callee = "sfence".toList) : pointerOf i = none ∧ ¬ AddressGiven i := by
  simp only [pointerOf, AddressGiven, op, fence]
  rw [if_neg (by decide), if_neg (by decide), if_neg (by decide)]
  exact ⟨rfl, fun given => given.1 rfl⟩

/-- What an instruction about one of the arguments records. -/
theorem pointerOf_argument {n : Nat} (pointer : pointerOf i = operands[n]?)
    (given : AddressGiven i ↔ n < operands.length) :
    (AddressGiven i → pointerOf i = some (getOperand operands n)) ∧
      (¬ AddressGiven i → pointerOf i = none) := by
  rw [pointer, given]
  refine ⟨fun inside => ?_, fun outside => ?_⟩
  · simp [getOperand, inside]
  · exact List.getElem?_eq_none (not_lt.mp outside)

end Call

/-- Where an address is given, the hook records it; elsewhere it records the variable that
was never assigned. -/
theorem pointerOf_of_hookAddress {i : Instruction} {addr : Value}
    (found : hookAddress i = some addr) :
    (AddressGiven i → pointerOf i = some addr) ∧ (¬ AddressGiven i → pointerOf i = none) := by
  have result : pointerOf i = some addr ∧ AddressGiven i →
      (AddressGiven i → pointerOf i = some addr) ∧ (¬ AddressGiven i → pointerOf i = none) :=
    fun holds => ⟨fun _ => holds.1, fun missing => (missing holds.2).elim⟩
  unfold hookAddress at found
  split at found
  case h_1 p op | h_2 p op | h_3 p op =>
    cases found
    simp [pointerOf, AddressGiven, op]
  case h_4 op => cases found
  case h_6 op | h_7 op => cases found
  case h_5 callee operands op =>
    simp only at found
    split at found
    · next create =>
      cases found
      exact result (pointerOf_result op (Or.inl create))
    split at found
    · next returns =>
      cases found
      exact result (pointerOf_result op (Or.inr (Or.inl returns)))
    split at found
    · next range =>
      cases found
      obtain ⟨pointer, given⟩ := pointerOf_first op (Or.inl range)
      exact pointerOf_argument pointer given
    split at found
    · next notReturned _ inline =>
      rw [inline] at notReturned
      exact absurd (by decide) notReturned
    split at found
    · next persist =>
      cases found
      obtain ⟨pointer, given⟩ := pointerOf_second op persist
      exact pointerOf_argument pointer given
    split at found
    · next fence =>
      cases found
      obtain ⟨none, missing⟩ := pointerOf_fence op fence
      exact ⟨fun given => (missing given).elim, fun _ => none⟩
    split at found
    · next flush =>
      cases found
      obtain ⟨pointer, given⟩ := pointerOf_first op (Or.inr flush)
      exact pointerOf_argument pointer given
    split at found
    · next map =>
      cases found
      exact result (pointerOf_result op (Or.inr (Or.inr map)))
    · cases found

end Specification

section Transparency

variable {start st : PmemAddrInstrumenter} {hooks : List Instruction}
  {tail : Nat → List Instruction}

theorem Grown.restored (grown : Grown start hooks tail st) :
    st.module.functions.map (removeInserted start.module.fresh) = start.module.functions := by
  rw [grown.functions, List.map_map]
  refine (List.map_congr_left fun F inModule => ?_).trans (List.map_id _)
  simp only [Function.comp, removeInserted, expandFunction, List.map_map, id]
  congr 1
  refine (List.map_congr_left fun block inF => ?_).trans (List.map_id _)
  simp only [Function.comp, id]
  refine filter_expand (fun i inBlock => ?_) fun p j behind => ?_
  · have old : i ∈ start.module.instructions :=
      Module.mem_instructions.mpr ⟨F, inModule, List.mem_flatten.mpr ⟨block, inF, inBlock⟩⟩
    exact decide_eq_true (start.module.below i old)
  · exact decide_eq_false (not_lt.mpr (grown.inserted p j behind))

/-- The block of a hooked instruction, with its tail. -/
theorem Grown.block_of_hook (grown : Grown start hooks tail st) {i : Instruction}
    (old : i ∈ start.module.instructions) :
    ∃ F ∈ st.module.functions, ∃ block ∈ F.blocks, ∃ front back,
      block = front ++ i :: (tail i.ptr ++ back) ∧
        ∀ j ∈ back.head?, j.ptr < start.module.fresh := by
  obtain ⟨F, inModule, inF⟩ := Module.mem_instructions.mp old
  obtain ⟨block, inBlocks, inBlock⟩ := List.mem_flatten.mp inF
  obtain ⟨front, back, rfl⟩ := List.mem_iff_append.mp inBlock
  refine ⟨expandFunction tail F, grown.functions ▸ List.mem_map_of_mem inModule, _,
    List.mem_map_of_mem inBlocks, expand Instruction.ptr tail front,
    expand Instruction.ptr tail back, ?_, ?_⟩
  · rw [expand_append]
    rfl
  · intro j head
    cases back with
    | nil => cases head
    | cons b back =>
      cases head
      have behind : j ∈ front ++ i :: j :: back := by simp
      exact start.module.below j
        (Module.mem_instructions.mpr ⟨F, inModule, List.mem_flatten.mpr ⟨_, inBlocks, behind⟩⟩)

/-- No other inserted hook has the GUID of a hook. -/
theorem Grown.hook_alone (grown : Grown start hooks tail st)
    (room : start.currentGuid.toNat + hooks.length < 2 ^ 32) {k : Nat} {i : Instruction}
    (at_k : hooks[k]? = some i) {addr : Value} {cast : List Instruction} {hook : Instruction}
    (code : HookCode start.trackAddrFunc (start.guidAt k) addr (tail i.ptr) cast hook)
    {j : Instruction} (inside : j ∈ st.module.instructions) (new : start.module.fresh ≤ j.ptr)
    {arg f : Value}
    (call : j.op = .call (some runtimeHookName) [arg, .int32 (start.guidAt k), f]) : j = hook := by
  rcases grown.original_or_inserted inside with old | ⟨k', i', at_k', behind⟩
  · have below := start.module.below j old
    omega
  · obtain ⟨addr', cast', hook', -, code'⟩ := grown.code k' i' at_k'
    obtain ⟨arg', casts, call'⟩ := code'.call
    have isHook : j = hook' := by
      rw [code'.shape] at behind
      rcases List.mem_append.mp behind with inCast | last
      · cases casts with
        | same | constant => simp at inCast
        | cast c isCast =>
          rw [List.mem_singleton.mp inCast, isCast] at call
          cases call
      · exact List.mem_singleton.mp last
    have guids : start.guidAt k' = start.guidAt k := by
      rw [isHook, call'] at call
      simp only [Opcode.call.injEq, List.cons.injEq, Value.int32.injEq] at call
      exact call.2.2.1
    have index := (List.getElem?_eq_some_iff.mp at_k).1
    have index' := (List.getElem?_eq_some_iff.mp at_k').1
    have same : k' = k := guidAt_inj (by omega) (by omega) (congrArg UInt32.toUInt64 guids)
    subst same
    cases at_k.symm.trans at_k'
    have both := code.shape.symm.trans code'.shape
    have last := congrArg List.getLast? both
    simp only [List.getLast?_append, List.getLast?_singleton, Option.some_or,
      Option.some.injEq] at last
    exact isHook.trans last.symm

theorem Grown.followed (grown : Grown start hooks tail st)
    (room : start.currentGuid.toNat + hooks.length < 2 ^ 32) {i : Instruction} (member : i ∈ hooks) :
    ∃ addr guid, hookAddress i = some addr ∧ Followed start st i addr guid := by
  obtain ⟨k, at_k⟩ := List.mem_iff_getElem?.mp member
  obtain ⟨addr, cast, hook, found, code⟩ := grown.code k i at_k
  obtain ⟨F, inModule, block, inBlocks, front, back, eq, head⟩ :=
    grown.block_of_hook (grown.original i member)
  refine ⟨addr, start.guidAt k, found, (grown.hookPoints _ _).mpr ⟨k, i, at_k, rfl, rfl⟩,
    cast, hook, ⟨rfl, code.call⟩, ⟨F, inModule, block, inBlocks, front, back, ?_, head⟩,
    fun j inside new arg f call => grown.hook_alone room at_k code inside new call⟩
  rw [eq, code.shape]
  simp

theorem Grown.consecutive (grown : Grown start hooks tail st)
    (room : start.currentGuid.toNat + hooks.length < 2 ^ 32) (g : UInt64) :
    (st.guidHookPointMap.find? g).isSome ↔
      start.currentGuid.toNat ≤ g.toNat ∧ g.toNat < start.currentGuid.toNat + hooks.length := by
  constructor
  · intro mapped
    obtain ⟨i, found⟩ := Option.isSome_iff_exists.mp mapped
    obtain ⟨k, at_k, rfl⟩ := (grown.guids g i).mp found
    have index := (List.getElem?_eq_some_iff.mp at_k).1
    rw [UInt32.toNat_toUInt64, guidAt_toNat (by omega)]
    omega
  · rintro ⟨above, below⟩
    obtain ⟨k, eq⟩ := Nat.exists_eq_add_of_le above
    have index : k < hooks.length := by omega
    have found := (grown.guids g hooks[k]).mpr ⟨k, List.getElem?_eq_getElem index, ?_⟩
    · exact Option.isSome_iff_exists.mpr ⟨_, found⟩
    · apply UInt64.toNat_inj.mp
      rw [UInt32.toNat_toUInt64, guidAt_toNat (by omega), eq]

/-- A run leaves everything as it should be exactly if each hooked instruction has an
address to record. -/
theorem Grown.transparent_iff {log : List (Instruction × Bool)}
    (grown : Grown start (hooked log) tail st)
    (room : start.currentGuid.toNat + (hooked log).length < 2 ^ 32) :
    Transparent start log st ↔ ∀ i ∈ hooked log, AddressGiven i := by
  constructor
  · intro transparent i member
    obtain ⟨addr, -, given, -⟩ := transparent.followed i member
    obtain ⟨addr', -, found, -⟩ := grown.followed room member
    by_contra missing
    rw [(pointerOf_of_hookAddress found).2 missing] at given
    cases given
  · intro given
    refine
      { restored := grown.restored
        original := grown.original
        once := grown.once.of_map
        followed := fun i member => ?_
        inverse := fun p g => ?_
        points := fun i => ?_
        consecutive := grown.consecutive room }
    · obtain ⟨addr, guid, found, behind⟩ := grown.followed room member
      exact ⟨addr, guid, (pointerOf_of_hookAddress found).1 (given i member), behind⟩
    · rw [grown.hookPoints]
      constructor
      · rintro ⟨k, i, at_k, ptr, rfl⟩
        exact ⟨i, ptr, (grown.guids _ _).mpr ⟨k, at_k, rfl⟩⟩
      · rintro ⟨i, ptr, found⟩
        obtain ⟨k, at_k, rfl⟩ := (grown.guids g i).mp found
        exact ⟨k, i, at_k, ptr, rfl⟩
    · constructor
      · intro member
        obtain ⟨k, at_k⟩ := List.mem_iff_getElem?.mp member
        exact ⟨_, (grown.guids _ _).mpr ⟨k, at_k, rfl⟩⟩
      · rintro ⟨g, found⟩
        obtain ⟨k, at_k, -⟩ := (grown.guids g i).mp found
        exact List.mem_of_getElem? at_k

end Transparency

section Walk

/-- A bound on the turns of the walk that an instruction causes: itself, and the code that
may be inserted behind it. -/
def walkCost (l : List Instruction) : Nat :=
  (l.map fun i => if hookAddress i = none then 1 else 3).sum

theorem walkCost_append (l l' : List Instruction) : walkCost (l ++ l') = walkCost l + walkCost l' := by
  simp [walkCost]

variable {start st : PmemAddrInstrumenter}

theorem body_insertBehind {k : Nat} {i : Instruction} {bodies : List InstructionBody}
    {st' : PmemAddrInstrumenter} (inserted : st'.module = insertBehind st.module i bodies) :
    st'.body k = insertAfter Instruction.ptr i.ptr (place st.module.fresh bodies) (st.body k) := by
  simp only [body, inserted, insertBehind, List.getElem?_map, Option.map_map]
  cases st.module.functions[k]? with
  | none => rfl
  | some F => exact instructions_insertInFunction _ _ F

theorem mem_body {k : Nat} {i : Instruction} (inside : i ∈ st.body k) :
    i ∈ st.module.instructions := by
  unfold body at inside
  cases found : st.module.functions[k]? with
  | none => simp [found] at inside
  | some F =>
    rw [found] at inside
    exact Module.mem_instructions.mpr ⟨F, List.mem_of_getElem? found, inside⟩

theorem body_distinct (k : Nat) : ((st.body k).map Instruction.ptr).Nodup := by
  unfold body
  cases found : st.module.functions[k]? with
  | none => exact List.nodup_nil
  | some F =>
    have inFlat : F.instructions.Sublist st.module.instructions :=
      List.sublist_flatten_of_mem
        (List.mem_map_of_mem (f := Function.instructions) (List.mem_of_getElem? found))
    exact (inFlat.map _).nodup st.module.distinct

theorem nextInstr_split {i : Instruction} {front back : List Instruction}
    (before : ∀ j ∈ front, j.ptr ≠ i.ptr) :
    nextInstr i.ptr (front ++ i :: back) = back.head? := by
  have dropped : (front ++ i :: back).dropWhile (fun j => decide (j.ptr ≠ i.ptr)) = i :: back := by
    rw [List.dropWhile_append_of_pos fun j member => by simpa using before j member]
    simp
  rw [nextInstr, dropped]
  rfl

/-- One call in the middle of a function: what stands before stays, and what still has to
be walked costs less than before. -/
theorem instrumentInstr_body {k : Nat} {i : Instruction} {front back : List Instruction}
    (here : st.body k = front ++ i :: back) :
    ∃ new, (st.instrumentInstr i).2.body k = front ++ i :: (new ++ back) ∧
      walkCost (new ++ back) < walkCost (i :: back) := by
  have distinct : ((st.body k).map Instruction.ptr).Nodup := body_distinct k
  rw [here, List.map_append, List.map_cons, List.nodup_append, List.nodup_cons] at distinct
  obtain ⟨-, ⟨behind, -⟩, between⟩ := distinct
  have before : ∀ j ∈ front, j.ptr ≠ i.ptr := fun j member =>
    between _ (List.mem_map_of_mem member) _ List.mem_cons_self
  have after : ∀ j ∈ back, j.ptr ≠ i.ptr := fun j member same =>
    behind (List.mem_map.mpr ⟨j, member, same⟩)
  have grows : ∀ {bodies : List InstructionBody} {st' : PmemAddrInstrumenter},
      st'.module = insertBehind st.module i bodies →
      st'.body k = front ++ i :: (place st.module.fresh bodies ++ back) := fun inserted => by
    rw [body_insertBehind inserted, here]
    exact insertAfter_split rfl before after
  have cost : walkCost (i :: back) = (if hookAddress i = none then 1 else 3) + walkCost back := rfl
  have stays : ∃ new, st.body k = front ++ i :: (new ++ back) ∧
      walkCost (new ++ back) < walkCost (i :: back) := by
    refine ⟨[], here, ?_⟩
    rw [List.nil_append, cost]
    split <;> omega
  unfold instrumentInstr
  split
  · exact stays
  · split
    · exact stays
    · next addr found =>
      have dear : walkCost (i :: back) = 3 + walkCost back := by rw [cost, found]; rfl
      split
      · refine ⟨_, grows rfl, ?_⟩
        have cheap : walkCost (place st.module.fresh (st.printfCode i addr)) = 1 := by
          simp only [printfCode, place, walkCost, List.map_cons, List.map_nil]
          rw [if_pos (hookAddress_other_call rfl (by decide))]
          rfl
        rw [walkCost_append, cheap, dear]
        omega
      · refine ⟨_, grows rfl, ?_⟩
        obtain ⟨cast, hook, code⟩ := hookCode_placed st i addr
        have cheap : walkCost (place st.module.fresh (st.hookCode i addr)) ≤ 2 := by
          have ones : ∀ j ∈ place st.module.fresh (st.hookCode i addr),
              (if hookAddress j = none then 1 else 3) = 1 := fun j member =>
            if_pos (code.hookAddress_eq_none j member)
          have few : (place st.module.fresh (st.hookCode i addr)).length ≤ 2 := by
            obtain ⟨arg, casts, -⟩ := code.call
            rw [code.shape]
            cases casts <;> simp
          rw [walkCost, List.map_congr_left ones]
          simpa using few
        rw [walkCost_append, dear]
        omega

/-- The walk ends, and it is a run of calls. -/
theorem walk_returns (k n : Nat) {log : List (Instruction × Bool)} {front rest : List Instruction}
    (run : Calls start log st) (here : st.body k = front ++ rest) (instrumented : Bool)
    (enough : walkCost rest ≤ n) :
    ∃ r more st', walk k n rest.head? instrumented st = some (r, st') ∧
      Calls start (log ++ more) st' := by
  induction n generalizing log st front rest instrumented with
  | zero =>
    cases rest with
    | nil => exact ⟨instrumented, [], st, rfl, by rwa [List.append_nil]⟩
    | cons i back =>
      exfalso
      simp only [walkCost, List.map_cons, List.sum_cons] at enough
      split at enough <;> omega
  | succ n ih =>
    cases rest with
    | nil => exact ⟨instrumented, [], st, rfl, by rwa [List.append_nil]⟩
    | cons i back =>
      have inside : i ∈ st.module.instructions := mem_body (k := k) (by rw [here]; simp)
      obtain ⟨new, grown, cheaper⟩ := instrumentInstr_body here
      have distinct : (((st.instrumentInstr i).2.body k).map Instruction.ptr).Nodup :=
        body_distinct k
      rw [grown, List.map_append, List.map_cons, List.nodup_append] at distinct
      have before : ∀ j ∈ front, j.ptr ≠ i.ptr := fun j member =>
        distinct.2.2 _ (List.mem_map_of_mem member) _ List.mem_cons_self
      have next : (st.instrumentInstr i).2.body k = (front ++ [i]) ++ (new ++ back) := by
        rw [grown]
        simp
      obtain ⟨r, more, st', walked, rest⟩ := ih (run.call inside) next
        (instrumented || (st.instrumentInstr i).1) (by omega)
      refine ⟨r, (i, (st.instrumentInstr i).1) :: more, st', ?_, by simpa using rest⟩
      rw [List.head?_cons, walk]
      simp only
      rw [grown, nextInstr_split before]
      exact walked

theorem mem_instrumentInstr {i j : Instruction} (inside : j ∈ st.module.instructions) :
    j ∈ (st.instrumentInstr i).2.module.instructions := by
  have inserts : ∀ bodies, j ∈ (insertBehind st.module i bodies).instructions := fun bodies => by
    rw [Module.instructions]
    simp only [insertBehind]
    rw [flatMap_insertInFunction]
    exact mem_insertAfter_of_mem inside
  unfold instrumentInstr
  split
  · exact inside
  · split
    · exact inside
    · split
      · exact inserts _
      · exact inserts _

theorem mem_instrumentAll {values : List (Option Instruction)} {instrumented : Bool}
    {j : Instruction} (inside : j ∈ st.module.instructions) :
    j ∈ (instrumentAll values instrumented st).2.module.instructions := by
  induction values generalizing st instrumented with
  | nil => exact inside
  | cons value values ih =>
    cases value with
    | none => exact ih inside
    | some i => exact ih (mem_instrumentInstr inside)

theorem instrumentAll_calls {log : List (Instruction × Bool)} {values : List (Option Instruction)}
    (run : Calls start log st) (located : ∀ i, some i ∈ values → i ∈ st.module.instructions)
    (instrumented : Bool) :
    ∃ more, Calls start (log ++ more) (instrumentAll values instrumented st).2 := by
  induction values generalizing log st instrumented with
  | nil => exact ⟨[], by simpa [instrumentAll] using run⟩
  | cons value values ih =>
    cases value with
    | none => exact ih run (fun i member => located i (List.mem_cons_of_mem _ member)) instrumented
    | some i =>
      have inside := located i List.mem_cons_self
      obtain ⟨more, rest⟩ := ih (run.call inside)
        (fun j member => mem_instrumentInstr (located j (List.mem_cons_of_mem _ member)))
        (instrumented || (st.instrumentInstr i).1)
      exact ⟨(i, (st.instrumentInstr i).1) :: more, by simpa [instrumentAll] using rest⟩

end Walk

section Examples

/-- One function of one block, the instruction and a terminator. -/
def oneInstruction (op : Opcode) : PmemAddrInstrumenter where
  module :=
    { functions := [⟨"f".toList, none, [[⟨⟨op, false, none⟩, 0⟩, ⟨⟨.other, false, none⟩, 1⟩]]⟩]
      fresh := 2
      distinct := by simp [Function.instructions]
      below := by simp [Function.instructions] }
  trackWithPrintf := false
  trackAddrFunc := .constant 7 false
  printfFunc := .constant 8 false
  hookPointGuidMap := OrdMap.empty
  guidHookPointMap := OrdMap.empty
  currentGuid := pmemVarGuidStart
  instrumentCnt := 0

def firstInstruction (op : Opcode) : Instruction := ⟨⟨op, false, none⟩, 0⟩

def loadOp : Opcode := .load (.argument 5 false)

def fenceOp : Opcode := .call (some "llvm.x86.sse.sfence".toList) [.constant 6 false]

end Examples

end PmemAddrInstrumenter

end Arthas.Instrument
