import Arthas.Instrument.AddrTrace

/-!
The offsets of a trace (`PmemAddrTrace::calculatePoolOffsets`): each item belongs to the
nearest pool before it, if its address is not below that of the pool.
-/

set_option autoImplicit false
set_option relaxedAutoImplicit false

namespace Arthas.Instrument

namespace PmemAddrTrace

/-- A pool or a mapped file. -/
def isPoolItem (item : PmemAddrTraceItem) : Bool := item.isPool || item.isMmap

/-- The nearest pool, of the items before an item. -/
def nearestPool (before : List PmemAddrTraceItem) : Option PmemAddrTraceItem :=
  (before.filter isPoolItem).getLast?

/-- The pool that an item belongs to. -/
def poolOf (before : List PmemAddrTraceItem) (t : PmemAddrTraceItem) : Option PmemAddrTraceItem :=
  if isPoolItem t then none else (nearestPool before).filter fun p => p.addr ≤ t.addr

/-- The items that belong to a pool, in trace order. -/
def attributed (items : List PmemAddrTraceItem) (p : PmemAddrTraceItem) : List Nat :=
  (items.zipIdx.filter fun t => poolOf (items.take t.2) t.1 = some p).map fun t => t.1.ptr

/-- An item with its offset in its pool, if it has one. -/
def placed (before : List PmemAddrTraceItem) (t : PmemAddrTraceItem) : PmemAddrTraceItem :=
  match poolOf before t with
  | some p => { t with poolOffset := t.addr - p.addr }
  | none => t

/-- The state of the loop after a part of the items. -/
structure Attributing (items before : List PmemAddrTraceItem) (s : OffsetState) : Prop where
  lastPool : s.lastPool = (nearestPool before).map fun _ => (before.filter isPoolItem).length - 1
  lastPoolAddr : ∀ p ∈ nearestPool before, s.lastPoolAddr = p.addr
  offsetObtained : s.offsetObtained = true ↔
    ∃ k t, before[k]? = some t ∧ (poolOf (before.take k) t).isSome
  pools : s.pools = (items.filter isPoolItem).map fun p => ⟨p.ptr, attributed before p⟩

section Prefix

variable (before : List PmemAddrTraceItem) (t : PmemAddrTraceItem)

theorem nearestPool_concat :
    nearestPool (before ++ [t]) = if isPoolItem t then some t else nearestPool before := by
  cases ht : isPoolItem t <;> simp [nearestPool, List.filter_append, ht]

theorem attributed_concat (p : PmemAddrTraceItem) :
    attributed (before ++ [t]) p =
      attributed before p ++ if poolOf before t = some p then [t.ptr] else [] := by
  have hbefore : before.zipIdx.filter (fun u => poolOf ((before ++ [t]).take u.2) u.1 = some p) =
      before.zipIdx.filter fun u => poolOf (before.take u.2) u.1 = some p := by
    apply List.filter_congr
    intro u hu
    have hlt : u.2 < before.length := by simpa using List.snd_lt_of_mem_zipIdx hu
    rw [List.take_append_of_le_length (Nat.le_of_lt hlt)]
  unfold attributed
  rw [List.zipIdx_append, List.filter_append, List.map_append, hbefore]
  congr 1
  by_cases hp : poolOf before t = some p <;> simp [hp]

theorem obtained_concat :
    (∃ k u, (before ++ [t])[k]? = some u ∧ (poolOf ((before ++ [t]).take k) u).isSome) ↔
      (∃ k u, before[k]? = some u ∧ (poolOf (before.take k) u).isSome) ∨
        (poolOf before t).isSome := by
  constructor
  · rintro ⟨k, u, hu, hsome⟩
    by_cases hk : k < before.length
    · rw [List.getElem?_append_left hk] at hu
      rw [List.take_append_of_le_length (Nat.le_of_lt hk)] at hsome
      exact Or.inl ⟨k, u, hu, hsome⟩
    · obtain ⟨hlt, -⟩ := List.getElem?_eq_some_iff.mp hu
      have hlast : k = before.length := by
        rw [List.length_append, List.length_singleton] at hlt
        omega
      subst hlast
      rw [List.getElem?_concat_length] at hu
      cases hu
      rw [List.take_left] at hsome
      exact Or.inr hsome
  · rintro (⟨k, u, hu, hsome⟩ | hsome)
    · obtain ⟨hlt, -⟩ := List.getElem?_eq_some_iff.mp hu
      refine ⟨k, u, ?_, ?_⟩
      · rw [List.getElem?_append_left hlt, hu]
      · rwa [List.take_append_of_le_length (Nat.le_of_lt hlt)]
    · refine ⟨before.length, t, List.getElem?_concat_length, ?_⟩
      rwa [List.take_left]

/-- An item has the offset of its address in its pool, or the one that it had. -/
theorem placed_poolOffset (hfresh : t.poolOffset = 0) :
    match poolOf before t with
    | some p => (placed before t).poolOffset + p.addr = t.addr
    | none => (placed before t).poolOffset = 0 := by
  cases hpool : poolOf before t with
  | some p =>
    rw [placed, hpool]
    exact UInt64.sub_add_cancel _ _
  | none =>
    rw [placed, hpool]
    exact hfresh

variable {before t} in
/-- Without a pool no item belongs to one. -/
theorem poolOf_of_no_pool (hnone : ∀ u ∈ before, isPoolItem u = false) :
    poolOf before t = none := by
  have hnear : nearestPool before = none := by
    rw [nearestPool, List.getLast?_eq_none_iff]
    apply List.filter_eq_nil_iff.mpr
    intro u hu
    simp [hnone u hu]
  rw [poolOf, hnear]
  split <;> rfl

variable {before t} in
/-- The pool that is current stays so after an item that is not a pool. -/
theorem Attributing.current {items : List PmemAddrTraceItem} {s : OffsetState}
    (h : Attributing items before s) (hitem : isPoolItem t = false) :
    s.lastPool = (nearestPool (before ++ [t])).map
        (fun _ => ((before ++ [t]).filter isPoolItem).length - 1) ∧
      ∀ p ∈ nearestPool (before ++ [t]), s.lastPoolAddr = p.addr := by
  have hnear : nearestPool (before ++ [t]) = nearestPool before := by
    rw [nearestPool_concat, if_neg (by simp [hitem])]
  have hpools : (before ++ [t]).filter isPoolItem = before.filter isPoolItem := by
    rw [List.filter_append, List.filter_cons_of_neg (by simp [hitem]), List.filter_nil,
      List.append_nil]
  rw [hnear, hpools]
  exact ⟨h.lastPool, h.lastPoolAddr⟩

end Prefix

section Step

variable {items before rest : List PmemAddrTraceItem} {t : PmemAddrTraceItem} {s : OffsetState}
  (hitems : items = before ++ t :: rest) (hnodup : (items.map PmemAddrTraceItem.ptr).Nodup)
  (h : Attributing items before s)

include hitems hnodup h

omit h in
/-- The current pool is where its number says, and nowhere else. -/
theorem pool_index {p q : PmemAddrTraceItem} (hp : nearestPool before = some p) {m : Nat}
    (hq : (items.filter isPoolItem)[m]? = some q) :
    (before.filter isPoolItem).length - 1 = m ↔ p = q := by
  have hlast : (items.filter isPoolItem)[(before.filter isPoolItem).length - 1]? = some p := by
    rw [nearestPool, List.getLast?_eq_getElem?] at hp
    obtain ⟨hlt, -⟩ := List.getElem?_eq_some_iff.mp hp
    rw [hitems, List.filter_append, List.getElem?_append_left hlt, hp]
  constructor
  · intro hm
    rw [hm, hq] at hlast
    exact (Option.some.inj hlast).symm
  · intro heq
    obtain ⟨hlt, -⟩ := List.getElem?_eq_some_iff.mp hlast
    exact (List.getElem?_inj hlt (hnodup.of_map.filter _)).mp (by rw [hlast, hq, heq])

omit h in
theorem ptr_ne_of_mem {q : PmemAddrTraceItem} (hq : q ∈ before) : q.ptr ≠ t.ptr := by
  rw [hitems, List.map_append, List.map_cons] at hnodup
  intro heq
  exact (List.nodup_append'.mp hnodup).2.2 (List.mem_map_of_mem hq) (heq ▸ List.mem_cons_self)

/-- A pool is found, and becomes the current one. -/
theorem offsetStep_pool (hpool : isPoolItem t = true) :
    ∃ s', offsetStep t s = some (t, s') ∧ Attributing items (before ++ [t]) s' := by
  have hor : t.isPool = true ∨ t.isMmap = true := by simpa [isPoolItem] using hpool
  have hnone : poolOf before t = none := if_pos hpool
  have hpools : items.filter isPoolItem =
      before.filter isPoolItem ++ t :: rest.filter isPoolItem := by
    rw [hitems, List.filter_append, List.filter_cons_of_pos hpool]
  have hfind : s.pools.findIdx? (fun pool => pool.poolAddr = t.ptr) =
      some (before.filter isPoolItem).length := by
    have hearlier : (before.filter isPoolItem).findIdx? (fun q => decide (q.ptr = t.ptr)) = none := by
      apply List.findIdx?_eq_none_iff.mpr
      intro q hq
      have hne := ptr_ne_of_mem hitems hnodup (List.mem_filter.mp hq).1
      simpa using hne
    rw [h.pools, List.findIdx?_map, hpools, List.findIdx?_append]
    change ((before.filter isPoolItem).findIdx? fun q => decide (q.ptr = t.ptr)).or _ = _
    rw [hearlier]
    simp [List.findIdx?_cons]
  refine ⟨_, by rw [offsetStep, if_pos hor, hfind], ?_⟩
  constructor
  · rw [nearestPool_concat, if_pos hpool, List.filter_append, List.filter_cons_of_pos hpool]
    simp
  · intro p hp
    rw [nearestPool_concat, if_pos hpool] at hp
    cases hp
    rfl
  · rw [obtained_concat, hnone]
    simpa using h.offsetObtained
  · simp only [attributed_concat, hnone]
    simpa using h.pools

omit hitems hnodup in
/-- An item before every pool, or below the current one, belongs to no pool. -/
theorem offsetStep_outside (hitem : isPoolItem t = false) (hnone : poolOf before t = none) :
    ∃ s', offsetStep t s = some (t, s') ∧ Attributing items (before ++ [t]) s' := by
  have hor : ¬ (t.isPool = true ∨ t.isMmap = true) := by simpa [isPoolItem] using hitem
  have hstep : offsetStep t s = some (t, s) := by
    rw [offsetStep, if_neg hor, h.lastPool]
    cases hnear : nearestPool before with
    | none => rfl
    | some p =>
      have hbelow : ¬ s.lastPoolAddr ≤ t.addr := by
        rw [h.lastPoolAddr p hnear]
        intro hle
        rw [poolOf, hitem, hnear] at hnone
        simp [Option.filter, hle] at hnone
      simp only [Option.map_some, if_neg hbelow]
  refine ⟨s, hstep, (h.current hitem).1, (h.current hitem).2, ?_, ?_⟩
  · rw [obtained_concat, hnone]
    simpa using h.offsetObtained
  · simp only [attributed_concat, hnone]
    simpa using h.pools

/-- An item at or above the current pool belongs to it. -/
theorem offsetStep_inside (hitem : isPoolItem t = false) {p : PmemAddrTraceItem}
    (hpool : poolOf before t = some p) :
    ∃ s', offsetStep t s = some ({ t with poolOffset := t.addr - p.addr }, s') ∧
      Attributing items (before ++ [t]) s' := by
  have hor : ¬ (t.isPool = true ∨ t.isMmap = true) := by simpa [isPoolItem] using hitem
  have hnear : nearestPool before = some p ∧ p.addr ≤ t.addr := by
    rw [poolOf, hitem] at hpool
    simpa [Option.filter_eq_some_iff] using hpool
  obtain ⟨hnearest, hle⟩ := hnear
  have haddr := h.lastPoolAddr p hnearest
  have hlast : s.lastPool = some ((before.filter isPoolItem).length - 1) := by
    rw [h.lastPool, hnearest]
    rfl
  have hstep : offsetStep t s = some ({ t with poolOffset := t.addr - p.addr },
      { s with
        pools := s.pools.modify ((before.filter isPoolItem).length - 1) fun pool =>
          { pool with addresses := pool.addresses ++ [t.ptr] }
        offsetObtained := true }) := by
    rw [offsetStep, if_neg hor]
    simp only [hlast, haddr, if_pos hle]
  refine ⟨_, hstep, (h.current hitem).1, (h.current hitem).2, ?_, ?_⟩
  · rw [obtained_concat, hpool]
    simp
  · simp only [attributed_concat, hpool, h.pools]
    apply List.ext_getElem?
    intro m
    rw [List.getElem?_modify, List.getElem?_map, List.getElem?_map]
    cases hq : (items.filter isPoolItem)[m]? with
    | none => rfl
    | some q =>
      have hsame := pool_index hitems hnodup hnearest hq
      by_cases hm : (before.filter isPoolItem).length - 1 = m
      · have hqp := hsame.mp hm
        simp [hm, hqp]
      · have hqp : p ≠ q := fun heq => hm (hsame.mpr heq)
        simp [hm, hqp]

/-- One turn of the loop. -/
theorem offsetStep_spec :
    ∃ s', offsetStep t s = some (placed before t, s') ∧ Attributing items (before ++ [t]) s' := by
  cases hpool : poolOf before t with
  | none =>
    rw [placed, hpool]
    cases hitem : isPoolItem t with
    | true => exact offsetStep_pool hitems hnodup h hitem
    | false => exact offsetStep_outside h hitem hpool
  | some p =>
    have hitem : isPoolItem t = false := by
      by_contra hne
      rw [poolOf, if_pos (by simpa using hne)] at hpool
      cases hpool
    rw [placed, hpool]
    exact offsetStep_inside hitems hnodup h hitem hpool

end Step

/-- The loop never fails to find a pool. -/
theorem offsetLoop_run {items before rest : List PmemAddrTraceItem} {s : OffsetState}
    (hitems : items = before ++ rest) (hnodup : (items.map PmemAddrTraceItem.ptr).Nodup)
    (h : Attributing items before s) :
    ∃ rest' s', offsetLoop rest s = (true, rest', s') ∧ Attributing items items s' ∧
      ∀ j, rest'[j]? = rest[j]?.map (placed (items.take (before.length + j))) := by
  induction rest generalizing before s with
  | nil =>
    rw [List.append_nil] at hitems
    exact ⟨[], s, rfl, hitems ▸ h, fun j => rfl⟩
  | cons t rest ih =>
    obtain ⟨s₁, hstep, h₁⟩ := offsetStep_spec hitems hnodup h
    have hitems₁ : items = (before ++ [t]) ++ rest := by rw [hitems, List.append_assoc]; rfl
    obtain ⟨rest', s', hloop, h', hrest⟩ := ih hitems₁ h₁
    refine ⟨placed before t :: rest', s', ?_, h', ?_⟩
    · rw [offsetLoop, hstep]
      simp only [hloop]
    · intro j
      cases j with
      | zero =>
        have htake : items.take (before.length + 0) = before := by
          rw [hitems, Nat.add_zero, List.take_left]
        rw [htake]
        rfl
      | succ j =>
        rw [List.getElem?_cons_succ, List.getElem?_cons_succ, hrest j, List.length_append,
          List.length_singleton, Nat.add_assoc, Nat.add_comm 1 j]

section Partition

variable (items : List PmemAddrTraceItem)

/-- Adding items keeps them in order, and makes an empty pool for each that is one. -/
theorem foldl_add (base : PmemAddrTrace) :
    (items.foldl add base).items = base.items ++ items ∧
      (items.foldl add base).poolAddrs =
        base.poolAddrs ++ (items.filter isPoolItem).map fun p => ⟨p.ptr, []⟩ := by
  induction items generalizing base with
  | nil => simp
  | cons t items ih =>
    obtain ⟨hitems, hpools⟩ := ih (base.add t)
    rw [List.foldl_cons, hitems, hpools]
    cases hpool : isPoolItem t with
    | true =>
      have hor : t.isPool = true ∨ t.isMmap = true := by simpa [isPoolItem] using hpool
      simp [add, hor, hpool]
    | false =>
      have hor : ¬ (t.isPool = true ∨ t.isMmap = true) := by simpa [isPoolItem] using hpool
      simp [add, hor, hpool]

variable {items} (hnodup : (items.map PmemAddrTraceItem.ptr).Nodup)

include hnodup

/-- An item is in the list of the pool that it belongs to, and in no other. -/
theorem mem_attributed {k : Nat} {t : PmemAddrTraceItem} (ht : items[k]? = some t)
    (p : PmemAddrTraceItem) :
    t.ptr ∈ attributed items p ↔ poolOf (items.take k) t = some p := by
  rw [attributed, List.mem_map]
  constructor
  · rintro ⟨⟨u, m⟩, hu, hptr⟩
    obtain ⟨hmem, hpool⟩ := List.mem_filter.mp hu
    have hget : items[m]? = some u := List.mk_mem_zipIdx_iff_getElem?.mp hmem
    have hsame : u = t := List.inj_on_of_nodup_map hnodup (List.mem_of_getElem? hget)
      (List.mem_of_getElem? ht) hptr
    obtain ⟨hlt, -⟩ := List.getElem?_eq_some_iff.mp hget
    have hindex : m = k := (List.getElem?_inj hlt hnodup.of_map).mp (by rw [hget, ht, hsame])
    subst hsame hindex
    simpa using hpool
  · intro hpool
    exact ⟨(t, k), List.mem_filter.mpr ⟨List.mk_mem_zipIdx_iff_getElem?.mpr ht, by simpa using hpool⟩,
      rfl⟩

/-- The items are divided among the pools: each belongs to the nearest pool before it that
is not above it, in trace order, with the offset of its address; the others are left alone. -/
theorem calculatePoolOffsets_partition (hfresh : ∀ t ∈ items, t.poolOffset = 0)
    (base : PmemAddrTrace) :
    let trace := items.foldl add base.clear
    let (obtained, result) := calculatePoolOffsets trace
    (offsetLoop trace.items ⟨none, 0, false, trace.poolAddrs⟩).1 = true ∧
      result.poolAddrs = (items.filter isPoolItem).map (fun p => ⟨p.ptr, attributed items p⟩) ∧
      (∀ k, result.items[k]? = items[k]?.map (placed (items.take k))) ∧
      (∀ k t, items[k]? = some t →
        (∀ p, t.ptr ∈ attributed items p ↔ poolOf (items.take k) t = some p) ∧
        match poolOf (items.take k) t with
        | some p => (placed (items.take k) t).poolOffset + p.addr = t.addr
        | none => (placed (items.take k) t).poolOffset = 0) ∧
      (obtained = true ↔ ∃ k t, items[k]? = some t ∧ (poolOf (items.take k) t).isSome) := by
  intro trace
  obtain ⟨htrace, hpools⟩ := foldl_add items base.clear
  rw [show base.clear.items = [] from rfl, List.nil_append] at htrace
  rw [show base.clear.poolAddrs = [] from rfl, List.nil_append] at hpools
  have hstart : Attributing items [] ⟨none, 0, false, trace.poolAddrs⟩ :=
    ⟨rfl, by simp [nearestPool], by simp, hpools⟩
  obtain ⟨rest, s, hloop, hdone, hrest⟩ := offsetLoop_run (List.nil_append items).symm hnodup hstart
  have hitems : ∀ k t, items[k]? = some t →
      (∀ p, t.ptr ∈ attributed items p ↔ poolOf (items.take k) t = some p) ∧
      match poolOf (items.take k) t with
      | some p => (placed (items.take k) t).poolOffset + p.addr = t.addr
      | none => (placed (items.take k) t).poolOffset = 0 := by
    intro k t ht
    exact ⟨mem_attributed hnodup ht,
      placed_poolOffset (items.take k) t (hfresh t (List.mem_of_getElem? ht))⟩
  have hfound : (offsetLoop trace.items ⟨none, 0, false, trace.poolAddrs⟩).1 = true := by
    rw [show trace.items = items from htrace, hloop]
  by_cases hempty : trace.poolAddrs = []
  · -- Without a pool nothing is looked at, and nothing would be found.
    have hnone : ∀ k t, poolOf (items.take k) t = none := by
      intro k t
      rw [hempty] at hpools
      have hfilter := List.filter_eq_nil_iff.mp (List.map_eq_nil_iff.mp hpools.symm)
      apply poolOf_of_no_pool
      intro u hu
      simpa using hfilter u (List.mem_of_mem_take hu)
    rw [calculatePoolOffsets, if_pos hempty]
    refine ⟨hfound, ?_, ?_, hitems, ?_⟩
    · rw [hempty] at hpools ⊢
      rw [List.map_eq_nil_iff.mp hpools.symm]
      rfl
    · intro k
      rw [show trace.items = items from htrace]
      cases items[k]? with
      | none => rfl
      | some t => simp [placed, hnone]
    · simp [hnone]
  · rw [calculatePoolOffsets, if_neg hempty, show trace.items = items from htrace, hloop]
    rw [show trace.items = items from htrace, hloop] at hfound
    refine ⟨hfound, hdone.pools, ?_, hitems, ?_⟩
    · intro k
      simpa using hrest k
    · rw [Bool.true_and]
      exact hdone.offsetObtained

end Partition

/-- A pool at 16 and a mapped file below it, each followed by an item. -/
def twoPools : List PmemAddrTraceItem :=
  [{ PmemAddrTraceItem.new 0 with addr := 16, isPool := true },
    { PmemAddrTraceItem.new 1 with addr := 24 },
    { PmemAddrTraceItem.new 2 with addr := 8, isMmap := true },
    { PmemAddrTraceItem.new 3 with addr := 16 }]

theorem calculatePoolOffsets_twoPools :
    let trace := twoPools.foldl add empty.clear
    let (obtained, result) := calculatePoolOffsets trace
    (offsetLoop trace.items ⟨none, 0, false, trace.poolAddrs⟩).1 = true ∧
      result.poolAddrs =
        (twoPools.filter isPoolItem).map (fun p => ⟨p.ptr, attributed twoPools p⟩) ∧
      (∀ k, result.items[k]? = twoPools[k]?.map (placed (twoPools.take k))) ∧
      (∀ k t, twoPools[k]? = some t →
        (∀ p, t.ptr ∈ attributed twoPools p ↔ poolOf (twoPools.take k) t = some p) ∧
        match poolOf (twoPools.take k) t with
        | some p => (placed (twoPools.take k) t).poolOffset + p.addr = t.addr
        | none => (placed (twoPools.take k) t).poolOffset = 0) ∧
      (obtained = true ↔ ∃ k t, twoPools[k]? = some t ∧ (poolOf (twoPools.take k) t).isSome) :=
  calculatePoolOffsets_partition (by decide) (by decide) empty

example : (calculatePoolOffsets (twoPools.foldl add empty)).2.poolAddrs = [⟨0, [1]⟩, ⟨2, [3]⟩] := by
  decide

end PmemAddrTrace

end Arthas.Instrument
