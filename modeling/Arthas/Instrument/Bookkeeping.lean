import Mathlib
import Arthas.Instrument.Instrumenter

/-!
What a run of `instrumentInstr` calls leaves behind: the old functions with a tail of
inserted code behind each hooked instruction, and the two maps as the numbering of the
hooked instructions.
-/

set_option autoImplicit false
set_option relaxedAutoImplicit false

namespace Arthas.Instrument

open Arthas.Lib Arthas.Utils Arthas.Matcher

namespace PmemAddrInstrumenter

section Runs

/-- Calls of `instrumentInstr` for instructions the module has by then, inserted ones among
them, with what they return. -/
inductive Calls (start : PmemAddrInstrumenter) :
    List (Instruction × Bool) → PmemAddrInstrumenter → Prop where
  | nil : Calls start [] start
  | call {log : List (Instruction × Bool)} {st : PmemAddrInstrumenter} {i : Instruction} :
      Calls start log st → i ∈ st.module.instructions →
      Calls start (log ++ [(i, (st.instrumentInstr i).1)]) (st.instrumentInstr i).2

/-- The instructions for which a call returned true, in the order of the calls. -/
def hooked (log : List (Instruction × Bool)) : List Instruction :=
  log.filterMap fun c => if c.2 then some c.1 else none

/-- Before the first call, with tracking by the runtime library. -/
structure Unused (st : PmemAddrInstrumenter) : Prop where
  hookPoints : st.hookPointGuidMap = OrdMap.empty
  guids : st.guidHookPointMap = OrdMap.empty
  runtime : st.trackWithPrintf = false

/-- The GUID of the `k`-th hook. -/
def guidAt (start : PmemAddrInstrumenter) (k : Nat) : UInt32 :=
  UInt32.ofNat (start.currentGuid.toNat + k)

theorem hooked_snoc (log : List (Instruction × Bool)) (i : Instruction) (done : Bool) :
    hooked (log ++ [(i, done)]) = if done then hooked log ++ [i] else hooked log := by
  cases done <;> simp [hooked]

end Runs

section Code

/-- How an address becomes the first argument of a hook: as it is, as a constant or through
an inserted cast. -/
inductive Casts (addr : Value) : List Instruction → Value → Prop where
  | same : addr.hasI8PtrTy = true → Casts addr [] addr
  | constant : Casts addr [] (.constantCast addr)
  | cast (c : Instruction) : c.op = .bitCast addr → Casts addr [c] c.value

/-- The code inserted behind an instruction for the hook with a GUID. -/
structure HookCode (f : Value) (guid : UInt32) (addr : Value) (code cast : List Instruction)
    (hook : Instruction) : Prop where
  shape : code = cast ++ [hook]
  call : ∃ arg, Casts addr cast arg ∧
    hook.op = .call (some runtimeHookName) [arg, .int32 guid, f]

theorem hookCode_placed (st : PmemAddrInstrumenter) (i : Instruction) (addr : Value) :
    ∃ cast hook, HookCode st.trackAddrFunc st.currentGuid addr
      (place st.module.fresh (st.hookCode i addr)) cast hook := by
  simp only [hookCode, createBitCast]
  split
  · next pointer => exact ⟨[], _, rfl, addr, .same pointer, rfl⟩
  split
  · exact ⟨[], _, rfl, _, .constant, rfl⟩
  · exact ⟨[⟨⟨.bitCast addr, true, nextLoc st.module i⟩, st.module.fresh⟩], _, rfl, _,
      .cast _ rfl, rfl⟩

/-- A call of any other function is not hooked. -/
theorem hookAddress_other_call {i : Instruction} {callee : Text} {operands : List Value}
    (call : i.op = .call (some callee) operands)
    (unknown : callReturnsPmemVar (calleeToken callee) = false ∧
      calleeToken callee ∉ ["pmemobj_create".toList, "pmemobj_tx_add_range_direct".toList,
        "pmemobj_direct_inline".toList, "pmemobj_persist".toList, "sfence".toList,
        "clflush".toList, "mmap".toList]) : hookAddress i = none := by
  obtain ⟨returns, apart⟩ := unknown
  simp only [List.mem_cons, List.not_mem_nil, or_false, not_or] at apart
  obtain ⟨create, range, inline, persist, fence, flush, map⟩ := apart
  simp only [hookAddress, call, returns, Bool.false_eq_true, if_false]
  rw [if_neg create, if_neg range, if_neg inline, if_neg persist, if_neg fence, if_neg flush,
    if_neg map]

/-- No inserted instruction is of a kind that is hooked. -/
theorem HookCode.hookAddress_eq_none {f : Value} {guid : UInt32} {addr : Value}
    {code cast : List Instruction} {hook : Instruction}
    (inserted : HookCode f guid addr code cast hook) : ∀ j ∈ code, hookAddress j = none := by
  obtain ⟨arg, casts, call⟩ := inserted.call
  intro j member
  rw [inserted.shape] at member
  rcases List.mem_append.mp member with inCast | inHook
  · cases casts with
    | same | constant => simp at inCast
    | cast c isCast =>
      rw [List.mem_singleton.mp inCast, hookAddress, isCast]
  · rw [List.mem_singleton.mp inHook]
    exact hookAddress_other_call call (by decide)

end Code

section Step

variable {st : PmemAddrInstrumenter} {i : Instruction}

/-- What one call can do in runtime-library mode. -/
theorem instrumentInstr_cases (runtime : st.trackWithPrintf = false) :
    (st.instrumentInstr i = (false, st) ∧
      ((st.hookPointGuidMap.find? i.ptr).isSome ∨ hookAddress i = none)) ∨
    ∃ addr, st.hookPointGuidMap.find? i.ptr = none ∧ hookAddress i = some addr ∧
      st.instrumentInstr i = (true, { st with
        module := insertBehind st.module i (st.hookCode i addr)
        hookPointGuidMap := st.hookPointGuidMap.assign i.ptr st.currentGuid.toUInt64
        guidHookPointMap := st.guidHookPointMap.assign st.currentGuid.toUInt64 i
        currentGuid := st.currentGuid + 1
        instrumentCnt := st.instrumentCnt + 1 }) := by
  unfold instrumentInstr
  split
  · next before => exact Or.inl ⟨rfl, Or.inl before⟩
  · next before =>
    split
    · next other => exact Or.inl ⟨rfl, Or.inr other⟩
    · next addr found =>
      rw [if_neg (by simp [runtime])]
      exact Or.inr ⟨addr, by simpa using before, found, rfl⟩

end Step

section Growth

/-- Every block of a function with the tails behind its instructions. -/
def expandFunction (tail : Nat → List Instruction) (F : Function) : Function :=
  { F with blocks := F.blocks.map (expand Instruction.ptr tail) }

theorem instructions_expandFunction (tail : Nat → List Instruction) (F : Function) :
    (expandFunction tail F).instructions = expand Instruction.ptr tail F.instructions := by
  simp only [Function.instructions, expandFunction, expand, List.flatMap_def, List.map_flatten,
    List.flatten_flatten, List.map_map]
  rfl

/-- The state after some calls: `hooks` are the instructions hooked so far, and the tail
behind each holds its code. -/
structure Grown (start : PmemAddrInstrumenter) (hooks : List Instruction)
    (tail : Nat → List Instruction) (st : PmemAddrInstrumenter) : Prop where
  functions : st.module.functions = start.module.functions.map (expandFunction tail)
  fresh : start.module.fresh ≤ st.module.fresh
  runtime : st.trackWithPrintf = false
  callee : st.trackAddrFunc = start.trackAddrFunc
  original : ∀ i ∈ hooks, i ∈ start.module.instructions
  once : (hooks.map Instruction.ptr).Nodup
  counter : st.currentGuid = start.guidAt hooks.length
  inserted : ∀ p, ∀ j ∈ tail p, start.module.fresh ≤ j.ptr
  bare : ∀ p, p ∉ hooks.map Instruction.ptr → tail p = []
  code : ∀ k i, hooks[k]? = some i → ∃ addr cast hook, hookAddress i = some addr ∧
    HookCode start.trackAddrFunc (start.guidAt k) addr (tail i.ptr) cast hook
  hookPoints : ∀ p g, st.hookPointGuidMap.find? p = some g ↔
    ∃ k i, hooks[k]? = some i ∧ i.ptr = p ∧ g = (start.guidAt k).toUInt64
  guids : ∀ g i, st.guidHookPointMap.find? g = some i ↔
    ∃ k, hooks[k]? = some i ∧ g = (start.guidAt k).toUInt64

variable {start st : PmemAddrInstrumenter} {hooks : List Instruction}
  {tail : Nat → List Instruction}

theorem grown_start (unused : start.Unused) : Grown start [] (fun _ => []) start where
  functions := by
    have blocks : expand Instruction.ptr (fun _ => []) = id :=
      funext fun block => expand_nil_tails block
    have whole : expandFunction (fun _ => []) = id := funext fun F => by
      rw [expandFunction, blocks, List.map_id]
      rfl
    rw [whole, List.map_id]
  fresh := le_refl _
  runtime := unused.runtime
  callee := rfl
  original := by simp
  once := List.nodup_nil
  counter := by simp [guidAt]
  inserted := by simp
  bare _ _ := rfl
  code := by simp
  hookPoints := by simp [unused.hookPoints]
  guids := by simp [unused.guids]

theorem Grown.mem_instructions (grown : Grown start hooks tail st) {j : Instruction} :
    j ∈ st.module.instructions ↔ j ∈ expand Instruction.ptr tail start.module.instructions := by
  have flat : st.module.instructions = expand Instruction.ptr tail start.module.instructions := by
    rw [Module.instructions, grown.functions, List.flatMap_map, Module.instructions, expand,
      List.flatMap_assoc]
    exact List.flatMap_congr fun F _ => instructions_expandFunction tail F
  rw [flat]

/-- An instruction of the module is an old one, or it is not of a kind that is hooked. -/
theorem Grown.original_or_inserted (grown : Grown start hooks tail st) {j : Instruction}
    (inside : j ∈ st.module.instructions) :
    j ∈ start.module.instructions ∨ ∃ (k : Nat) (i : Instruction), hooks[k]? = some i ∧ j ∈ tail i.ptr := by
  rcases mem_expand.mp (grown.mem_instructions.mp inside) with old | ⟨i, -, behind⟩
  · exact Or.inl old
  · have here : i.ptr ∈ hooks.map Instruction.ptr := by
      by_contra absent
      rw [grown.bare _ absent] at behind
      cases behind
    obtain ⟨h, member, same⟩ := List.mem_map.mp here
    obtain ⟨k, at_k⟩ := List.mem_iff_getElem?.mp member
    exact Or.inr ⟨k, h, at_k, same ▸ behind⟩

theorem Grown.original_of_hookAddress (grown : Grown start hooks tail st) {j : Instruction}
    {addr : Value} (inside : j ∈ st.module.instructions) (found : hookAddress j = some addr) :
    j ∈ start.module.instructions := by
  rcases grown.original_or_inserted inside with old | ⟨k, i, at_k, behind⟩
  · exact old
  · obtain ⟨_, _, _, _, inserted⟩ := grown.code k i at_k
    rw [inserted.hookAddress_eq_none j behind] at found
    cases found

theorem Grown.ptr_ne_of_inserted (grown : Grown start hooks tail st) {i : Instruction}
    (old : i ∈ start.module.instructions) : ∀ p, ∀ j ∈ tail p, j.ptr ≠ i.ptr := by
  intro p j behind same
  have above := grown.inserted p j behind
  have below := start.module.below i old
  omega

theorem Grown.unhooked (grown : Grown start hooks tail st) {i : Instruction}
    (unmapped : st.hookPointGuidMap.find? i.ptr = none) : i.ptr ∉ hooks.map Instruction.ptr := by
  intro member
  obtain ⟨h, inside, same⟩ := List.mem_map.mp member
  obtain ⟨k, at_k⟩ := List.mem_iff_getElem?.mp inside
  have mapped := (grown.hookPoints i.ptr _).mpr ⟨k, h, at_k, same, rfl⟩
  rw [unmapped] at mapped
  cases mapped

theorem snoc_getElem? (l : List Instruction) (i j : Instruction) (k : Nat) :
    (l ++ [i])[k]? = some j ↔ l[k]? = some j ∨ k = l.length ∧ j = i := by
  rw [List.getElem?_append]
  split
  · next inside =>
    refine (or_iff_left ?_).symm
    rintro ⟨rfl, -⟩
    exact inside.false
  · next outside =>
    have none : l[k]? = none := List.getElem?_eq_none (not_lt.mp outside)
    rw [none, List.getElem?_singleton]
    split
    · next zero =>
      have last : k = l.length := by omega
      simp [last, eq_comm]
    · next beyond =>
      have notLast : k ≠ l.length := by omega
      simp [notLast]

theorem guidAt_toNat {n : Nat} (room : start.currentGuid.toNat + n < 2 ^ 32) :
    (start.guidAt n).toNat = start.currentGuid.toNat + n := by
  simp only [guidAt, UInt32.toNat_ofNat']
  exact Nat.mod_eq_of_lt room

theorem guidAt_inj {m n : Nat} (room : start.currentGuid.toNat + n < 2 ^ 32)
    (room' : start.currentGuid.toNat + m < 2 ^ 32)
    (same : (start.guidAt m).toUInt64 = (start.guidAt n).toUInt64) : m = n := by
  have values := congrArg UInt64.toNat same
  simp only [UInt32.toNat_toUInt64, guidAt_toNat room, guidAt_toNat room'] at values
  omega

section Hook

variable {i : Instruction}

theorem Grown.hooks_ne (grown : Grown start hooks tail st)
    (unmapped : st.hookPointGuidMap.find? i.ptr = none) {k : Nat} {j : Instruction}
    (at_k : hooks[k]? = some j) : j.ptr ≠ i.ptr := by
  intro same
  exact grown.unhooked unmapped (List.mem_map.mpr ⟨j, List.mem_of_getElem? at_k, same⟩)

/-- Code behind an old instruction that is not hooked becomes its tail. -/
theorem Grown.hook_functions (grown : Grown start hooks tail st)
    (old : i ∈ start.module.instructions) (unmapped : st.hookPointGuidMap.find? i.ptr = none)
    (bodies : List InstructionBody) :
    (insertBehind st.module i bodies).functions = start.module.functions.map
      (expandFunction (Function.update tail i.ptr (place st.module.fresh bodies))) := by
  have apart := grown.ptr_ne_of_inserted old
  simp only [insertBehind, grown.functions, List.map_map]
  apply List.map_congr_left
  intro F _
  simp only [Function.comp, insertInFunction, expandFunction, List.map_map]
  congr 1
  apply List.map_congr_left
  intro block _
  exact insertAfter_expand (grown.bare _ (grown.unhooked unmapped)) apart

/-- The instruction is a hook point with the next GUID. -/
theorem Grown.hook_hookPoints (grown : Grown start hooks tail st)
    (unmapped : st.hookPointGuidMap.find? i.ptr = none) (p : Nat) (g : UInt64) :
    (st.hookPointGuidMap.assign i.ptr st.currentGuid.toUInt64).find? p = some g ↔
      ∃ k j, (hooks ++ [i])[k]? = some j ∧ j.ptr = p ∧ g = (start.guidAt k).toUInt64 := by
  rw [OrdMap.find?_assign]
  constructor
  · intro mapped
    split at mapped
    · next same =>
      cases mapped
      exact ⟨hooks.length, i, (snoc_getElem? _ _ _ _).mpr (Or.inr ⟨rfl, rfl⟩), same.symm,
        by rw [grown.counter]⟩
    · obtain ⟨k, j, at_k, ptr, guid⟩ := (grown.hookPoints p g).mp mapped
      exact ⟨k, j, (snoc_getElem? _ _ _ _).mpr (Or.inl at_k), ptr, guid⟩
  · rintro ⟨k, j, at_k, rfl, rfl⟩
    rcases (snoc_getElem? hooks i j k).mp at_k with before | ⟨rfl, rfl⟩
    · rw [if_neg (grown.hooks_ne unmapped before)]
      exact (grown.hookPoints _ _).mpr ⟨k, j, before, rfl, rfl⟩
    · rw [if_pos rfl, grown.counter]

/-- The next GUID is that of the instruction, and no earlier one. -/
theorem Grown.hook_guids (grown : Grown start hooks tail st)
    (room : start.currentGuid.toNat + hooks.length < 2 ^ 32) (g : UInt64) (j : Instruction) :
    (st.guidHookPointMap.assign st.currentGuid.toUInt64 i).find? g = some j ↔
      ∃ k, (hooks ++ [i])[k]? = some j ∧ g = (start.guidAt k).toUInt64 := by
  rw [OrdMap.find?_assign]
  constructor
  · intro mapped
    split at mapped
    · next same =>
      cases mapped
      exact ⟨hooks.length, (snoc_getElem? _ _ _ _).mpr (Or.inr ⟨rfl, rfl⟩),
        by rw [same, grown.counter]⟩
    · obtain ⟨k, at_k, guid⟩ := (grown.guids g j).mp mapped
      exact ⟨k, (snoc_getElem? _ _ _ _).mpr (Or.inl at_k), guid⟩
  · rintro ⟨k, at_k, rfl⟩
    rcases (snoc_getElem? hooks i j k).mp at_k with before | ⟨rfl, rfl⟩
    · have less : k < hooks.length := (List.getElem?_eq_some_iff.mp before).1
      rw [if_neg ?_]
      · exact (grown.guids _ _).mpr ⟨k, before, rfl⟩
      · intro same
        rw [grown.counter] at same
        exact less.ne (guidAt_inj room (by omega) same)
    · rw [if_pos (by rw [grown.counter])]

/-- A call that hooks adds its instruction and the code behind it. -/
theorem Grown.hook (grown : Grown start hooks tail st) {addr : Value}
    (inside : i ∈ st.module.instructions) (unmapped : st.hookPointGuidMap.find? i.ptr = none)
    (found : hookAddress i = some addr)
    (room : start.currentGuid.toNat + hooks.length < 2 ^ 32) :
    Grown start (hooks ++ [i])
      (Function.update tail i.ptr (place st.module.fresh (st.hookCode i addr)))
      { st with
        module := insertBehind st.module i (st.hookCode i addr)
        hookPointGuidMap := st.hookPointGuidMap.assign i.ptr st.currentGuid.toUInt64
        guidHookPointMap := st.guidHookPointMap.assign st.currentGuid.toUInt64 i
        currentGuid := st.currentGuid + 1
        instrumentCnt := st.instrumentCnt + 1 } := by
  have old := grown.original_of_hookAddress inside found
  have unhooked := grown.unhooked unmapped
  refine
    { functions := grown.hook_functions old unmapped _, fresh := ?_, runtime := grown.runtime,
      callee := grown.callee, original := ?_, once := ?_, counter := ?_, inserted := ?_, bare := ?_,
      code := ?_, hookPoints := grown.hook_hookPoints unmapped, guids := grown.hook_guids room }
  · exact grown.fresh.trans (Nat.le_add_right _ _)
  · intro j member
    rcases List.mem_append.mp member with before | last
    · exact grown.original j before
    · rw [List.mem_singleton.mp last]
      exact old
  · rw [List.map_append, List.nodup_append]
    refine ⟨grown.once, List.nodup_singleton _, ?_⟩
    rintro p before q last rfl
    exact unhooked (List.mem_singleton.mp last ▸ before)
  · rw [List.length_append, grown.counter]
    apply UInt32.toNat_inj.mp
    simp only [guidAt, UInt32.toNat_add, UInt32.toNat_ofNat', List.length_singleton,
      UInt32.reduceToNat]
    omega
  · intro p j member
    rcases eq_or_ne p i.ptr with rfl | other
    · rw [Function.update_self] at member
      exact grown.fresh.trans (place_bounds j member).1
    · rw [Function.update_of_ne other] at member
      exact grown.inserted p j member
  · intro p absent
    rw [List.map_append, List.mem_append, not_or] at absent
    have other : p ≠ i.ptr := fun same => absent.2 (by simp [same])
    rw [Function.update_of_ne other]
    exact grown.bare p absent.1
  · intro k j at_k
    rcases (snoc_getElem? hooks i j k).mp at_k with before | ⟨rfl, rfl⟩
    · rw [Function.update_of_ne (grown.hooks_ne unmapped before)]
      exact grown.code k j before
    · obtain ⟨cast, hook, code⟩ := hookCode_placed st j addr
      rw [Function.update_self, ← grown.counter, ← grown.callee]
      exact ⟨addr, cast, hook, found, code⟩

end Hook

/-- The state after a run. -/
theorem Calls.grown {log : List (Instruction × Bool)} (unused : start.Unused)
    (run : Calls start log st)
    (room : start.currentGuid.toNat + (hooked log).length < 2 ^ 32) :
    ∃ tail, Grown start (hooked log) tail st := by
  induction run with
  | nil => exact ⟨_, grown_start unused⟩
  | @call log st i _ inside ih =>
    rw [hooked_snoc] at room ⊢
    have fewer : (hooked log).length ≤
        (if (st.instrumentInstr i).1 = true then hooked log ++ [i] else hooked log).length := by
      split <;> simp
    obtain ⟨tail, grown⟩ := ih (by omega)
    rcases instrumentInstr_cases grown.runtime (i := i) with ⟨same, -⟩ | ⟨addr, unmapped, found, new⟩
    · rw [same]
      exact ⟨tail, grown⟩
    · rw [new] at room ⊢
      simp only [if_true] at room ⊢
      rw [List.length_append, List.length_singleton] at room
      exact ⟨_, grown.hook inside unmapped found (by omega)⟩

end Growth

end PmemAddrInstrumenter

end Arthas.Instrument
