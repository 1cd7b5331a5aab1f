import Arthas.Lib.SetVector
import Arthas.Lib.EqualRange
import Mathlib

/-!
The maps of the reaching definitions analysis (`RDMap.h`, `BasicRDMap.cpp`). For each place
in memory that is written a map has the nodes that wrote it. An offset is a `uint64_t`
whose largest value means that it is not known.
-/

set_option autoImplicit false
set_option relaxedAutoImplicit false

namespace Arthas.Dg

open Lib

/-- `Offset::UNKNOWN`. -/
def unknownOffset : Nat := 2 ^ 64 - 1

/-- The sum of two `uint64_t`. -/
def sum64 (a b : Nat) : Nat := (a + b) % 2 ^ 64

inductive RDNodeType where
  | none
  | alloc
  | dynAlloc
  | store
  | load
  | phi
  | ret
  | call
  | callReturn
  | fork
  | join
  | noop
  deriving DecidableEq

/-- `GenericDefSite`: the bytes of the object from the offset on. The target may be null. -/
structure DefSite (ν : Type*) where
  target : Option ν
  offset : Nat
  len : Nat
  deriving DecidableEq

/-- What a map reads of the nodes that stand for objects; nodes lie at addresses of their
own. -/
structure Objects (ν : Type*) where
  unknownMemory : ν
  address : ν → Nat
  address_injective : Function.Injective address
  address_pos : ∀ n, 0 < address n
  nodeType : ν → RDNodeType
  size : ν → Nat

structure RDOptions where
  strongUpdateUnknown : Bool
  mergeUnknown : Bool
  maxSetSize : Nat

/-- The options that `DgSlicer::createDgOptions` leaves as they are. -/
def RDOptions.default : RDOptions := ⟨false, false, unknownOffset⟩

/-- The nodes of a site, or the one of unknown memory for too many. -/
structure RDNodesSet (ν : Type*) where
  nodes : List ν
  isUnknown : Bool

variable {ν : Type*}

def DefSite.address (O : Objects ν) (ds : DefSite ν) : Nat := ds.target.elim 0 O.address

namespace RDNodesSet

def empty : RDNodesSet ν := ⟨[], false⟩

def makeUnknown (O : Objects ν) : RDNodesSet ν := ⟨[O.unknownMemory], true⟩

variable [DecidableEq ν]

/-- The set with the node, and whether it changed. -/
def insert (O : Objects ν) (s : RDNodesSet ν) (n : ν) : RDNodesSet ν × Bool :=
  if s.isUnknown then (s, false)
  else if n = O.unknownMemory then (makeUnknown O, true)
  else ({ s with nodes := SetVector.insert s.nodes n }, decide (n ∉ s.nodes))

end RDNodesSet

section Intervals

/-- An end of an interval that is not known lies behind everything. -/
def intervalsDisjunctive (a aLen b bLen : Nat) : Bool :=
  if aLen = unknownOffset then
    if bLen = unknownOffset then false
    else if a ≤ b then false else decide (bLen ≤ a - b)
  else if bLen = unknownOffset then
    if a ≤ b then decide (aLen ≤ b - a) else false
  else if a ≤ b then decide (aLen ≤ b - a) else decide (bLen ≤ a - b)

def intervalsOverlap (a aLen b bLen : Nat) : Bool := !intervalsDisjunctive a aLen b bLen

/-- The interval has the byte. -/
def InInterval (a aLen i : Nat) : Prop := a ≤ i ∧ (aLen = unknownOffset ∨ i < a + aLen)

/-- Intervals that are not empty overlap if they have a byte in common. -/
theorem intervalsOverlap_iff {a aLen b bLen : Nat} (aSome : 0 < aLen) (bSome : 0 < bLen) :
    intervalsOverlap a aLen b bLen = true ↔ ∃ i, InInterval a aLen i ∧ InInterval b bLen i := by
  have farther : intervalsOverlap a aLen b bLen = true ↔
      InInterval a aLen (max a b) ∧ InInterval b bLen (max a b) := by
    unfold intervalsOverlap intervalsDisjunctive InInterval
    split_ifs <;> simp <;> omega
  rw [farther]
  refine ⟨fun common => ⟨max a b, common⟩, ?_⟩
  rintro ⟨i, inA, inB⟩
  unfold InInterval at *
  omega

end Intervals

/-- `BasicRDMap`: the sites in the order of their first insertion, each with its nodes. -/
structure RDMap (ν : Type*) where
  entries : List (DefSite ν × RDNodesSet ν)

namespace RDMap

def empty : RDMap ν := ⟨[]⟩

def keys (m : RDMap ν) : List (DefSite ν) := m.entries.map Prod.fst

variable [DecidableEq ν]

/-- `operator[]`, which inserts a site that is not there. -/
def touch (m : RDMap ν) (ds : DefSite ν) : RDMap ν :=
  if ds ∈ m.keys then m else ⟨m.entries ++ [(ds, .empty)]⟩

/-- The set of a site becomes another one. -/
def setAt (m : RDMap ν) (ds : DefSite ν) (f : RDNodesSet ν → RDNodesSet ν) : RDMap ν :=
  ⟨m.entries.map fun e => if e.1 = ds then (e.1, f e.2) else e⟩

def nodesAt (m : RDMap ν) (ds : DefSite ν) : RDNodesSet ν := (m.entries.lookup ds).getD .empty

/-- A node into the set of a site that is there, and whether the set changed. -/
def insertAt (O : Objects ν) (ds : DefSite ν) (s : RDMap ν × Bool) (n : ν) : RDMap ν × Bool :=
  let inserted := (s.1.nodesAt ds).insert O n
  (s.1.setAt ds fun _ => inserted.1, s.2 || inserted.2)

/-- `update`: the site is written by this node alone. -/
def update (m : RDMap ν) (O : Objects ν) (ds : DefSite ν) (n : ν) : RDMap ν :=
  (m.touch ds).setAt ds fun _ => (RDNodesSet.empty.insert O n).1

/-- `getObjectRange`: the sites of an object in the order of the keys. -/
def objectRange (m : RDMap ν) (target : Option ν) : List (DefSite ν × RDNodesSet ν) :=
  (m.entries.filter fun e => e.1.target = target).mergeSort fun e e' =>
    decide (e.1.offset < e'.1.offset ∨ e.1.offset = e'.1.offset ∧ e.1.len ≤ e'.1.len)

/-- `std::equal_range` with `comp_ds`. The sites stand in the order of their insertion. -/
def equalRange (O : Objects ν) (sites : List (DefSite ν)) (ds : DefSite ν) : List (DefSite ν) :=
  EqualRange.equalRange (fun ds2 => decide (ds2.address O < ds.address O))
    (fun ds2 => decide (ds.address O < ds2.address O)) sites

/-- The loop over the sites written to the same object: whether one of them overwrites the
site, and whether one with an unknown offset was met first. -/
def overwritten (ds : DefSite ν) : List (DefSite ν) → Bool × Bool
  | [] => (false, false)
  | ds2 :: rest =>
    if ds2.offset = unknownOffset then (false, true)
    else if ds2.offset ≤ ds.offset ∧ sum64 ds.offset ds.len ≤ sum64 ds2.offset ds2.len then
      (true, false)
    else overwritten ds rest

/-- Whether a site of the other map is left out, and whether it counts as one with an
unknown offset. -/
def strongUpdate (O : Objects ν) (options : RDOptions) (noUpdate : List (DefSite ν))
    (ds : DefSite ν) : Bool × Bool :=
  let isUnknown := decide (ds.offset = unknownOffset)
  match ds.target with
  | none => (true, isUnknown)
  | some t =>
    let range := equalRange O noUpdate ds
    if options.strongUpdateUnknown ∧ isUnknown ∧ 0 < O.size t then
      (range.any fun ds2 => ds2.offset = 0 ∧ O.size t ≤ ds2.len, isUnknown)
    else if O.nodeType t ≠ .dynAlloc then
      let found := overwritten ds range
      (found.1, isUnknown || found.2)
    else (false, isUnknown)

/-- The sites of an object become the one site with an unknown offset. -/
def mergeConcrete (O : Objects ν) (site : DefSite ν) (s : RDMap ν × Bool) : RDMap ν × Bool :=
  let others := (s.1.objectRange site.target).filter fun e => e.1 ≠ site
  let merged := others.foldl (fun s e => e.2.nodes.foldl (insertAt O site) s) s
  (⟨merged.1.entries.filter fun e => e.1.target ≠ site.target ∨ e.1 = site⟩, merged.2)

/-- A set with more nodes than the limit becomes unknown, unless its memory is. -/
def crop (O : Objects ν) (options : RDOptions) (target : Option ν) (set : RDNodesSet ν) :
    RDNodesSet ν :=
  if target ≠ some O.unknownMemory ∧ options.maxSetSize < set.nodes.length % 2 ^ 64 then
    .makeUnknown O
  else set

/-- The turn of `merge` for one site of the other map. -/
def mergeSite (O : Objects ν) (options : RDOptions) (noUpdate : List (DefSite ν))
    (s : RDMap ν × Bool) (e : DefSite ν × RDNodesSet ν) : RDMap ν × Bool :=
  let found := strongUpdate O options noUpdate e.1
  if found.1 then s
  else
    let unknown := options.mergeUnknown ∧ found.2
    let site := if unknown then ⟨e.1.target, unknownOffset, unknownOffset⟩ else e.1
    let s := (s.1.touch site, s.2)
    let s := if unknown then mergeConcrete O site s else s
    let s := e.2.nodes.foldl (insertAt O site) s
    (s.1.setAt site (crop O options e.1.target), s.2)

/-- `merge` of another map, and whether it brought anything new. -/
def merge (O : Objects ν) (options : RDOptions) (noUpdate : List (DefSite ν))
    (ours theirs : RDMap ν) : RDMap ν × Bool :=
  theirs.entries.foldl (mergeSite O options noUpdate) (ours, false)

/-- `get`: the nodes of the sites that meet these bytes of the object. -/
def get (m : RDMap ν) (ds : DefSite ν) (ret : List ν) : List ν :=
  (m.objectRange ds.target).foldl (fun ret e =>
    if ds.offset = unknownOffset ∨ e.1.offset = unknownOffset ∨
        intervalsOverlap e.1.offset e.1.len ds.offset ds.len then
      SetVector.insertAll ret e.2.nodes
    else ret) ret

section Lookup

variable {m : RDMap ν} {ds ds' : DefSite ν} {d n : ν} {O : Objects ν} {e : DefSite ν × RDNodesSet ν}

/-- The node is one of those that wrote the site. -/
def Holds (m : RDMap ν) (ds : DefSite ν) (d : ν) : Prop := d ∈ (m.nodesAt ds).nodes

theorem lookup_map_if {κ τ : Type*} [DecidableEq κ] (l : List (κ × τ)) (k k' : κ) (f : τ → τ) :
    (l.map fun e => if e.1 = k then (e.1, f e.2) else e).lookup k' =
      (l.lookup k').map fun v => if k' = k then f v else v := by
  induction l with
  | nil => rfl
  | cons e l ih =>
    obtain ⟨key, value⟩ := e
    have first : (if key = k then (key, f value) else (key, value)) =
        (key, if key = k then f value else value) := by
      split <;> rfl
    rw [List.map_cons, first]
    by_cases here : k' = key
    · subst here
      rw [List.lookup_cons_self, List.lookup_cons_self, Option.map_some]
    · have other : (k' == key) = false := beq_eq_false_iff_ne.mpr here
      rw [List.lookup_cons, List.lookup_cons, other]
      exact ih

theorem mem_keys_iff : ds ∈ m.keys ↔ ∃ s, m.entries.lookup ds = some s := by
  rw [← Option.isSome_iff_exists, List.lookup_isSome_iff, keys, List.mem_map]
  simp only [beq_iff_eq]
  constructor
  · rintro ⟨e, member, rfl⟩
    exact ⟨e, member, rfl⟩
  · rintro ⟨e, member, same⟩
    exact ⟨e, member, same.symm⟩

theorem keys_setAt (f : RDNodesSet ν → RDNodesSet ν) : (m.setAt ds f).keys = m.keys := by
  simp only [keys, setAt, List.map_map]
  apply List.map_congr_left
  intro e _
  rw [Function.comp_apply]
  split <;> rfl

theorem nodesAt_setAt_self (known : ds ∈ m.keys) (f : RDNodesSet ν → RDNodesSet ν) :
    (m.setAt ds f).nodesAt ds = f (m.nodesAt ds) := by
  obtain ⟨s, found⟩ := mem_keys_iff.mp known
  simp [nodesAt, setAt, lookup_map_if, found]

theorem nodesAt_setAt_of_ne (other : ds' ≠ ds) (f : RDNodesSet ν → RDNodesSet ν) :
    (m.setAt ds f).nodesAt ds' = m.nodesAt ds' := by
  simp [nodesAt, setAt, lookup_map_if, other]

theorem mem_keys_touch : ds' ∈ (m.touch ds).keys ↔ ds' ∈ m.keys ∨ ds' = ds := by
  rw [touch]
  split
  · next old => exact ⟨Or.inl, fun h => h.elim id fun same => same ▸ old⟩
  · simp [keys, eq_comm]

theorem nodesAt_touch : (m.touch ds).nodesAt ds' = m.nodesAt ds' := by
  rw [touch]
  split
  · rfl
  · next new =>
    have missing : m.entries.lookup ds = none := by
      by_contra there
      exact new (mem_keys_iff.mpr (Option.ne_none_iff_exists'.mp there))
    by_cases same : ds' = ds
    · subst same
      simp [nodesAt, List.lookup_append, missing]
    · have other : (ds' == ds) = false := beq_eq_false_iff_ne.mpr same
      simp [nodesAt, List.lookup_append, List.lookup_cons, other]

end Lookup

section Plain

variable {O : Objects ν} {m : RDMap ν} {ds ds' : DefSite ν} {d n : ν}

/-- A site stands once, and no set has become unknown. -/
structure Plain (O : Objects ν) (m : RDMap ν) : Prop where
  nodup : m.keys.Nodup
  known : ∀ ds, (m.nodesAt ds).isUnknown = false
  nodes : ∀ ds, O.unknownMemory ∉ (m.nodesAt ds).nodes

theorem plain_empty : Plain O RDMap.empty where
  nodup := List.nodup_nil
  known _ := rfl
  nodes _ := List.not_mem_nil

theorem Plain.touch (plain : Plain O m) (ds : DefSite ν) : Plain O (m.touch ds) where
  nodup := by
    rw [RDMap.touch]
    split
    · exact plain.nodup
    · next new =>
      rw [keys, List.map_append]
      exact List.nodup_append.mpr ⟨plain.nodup, List.nodup_singleton ds, by
        rintro a member b here rfl
        obtain rfl : a = ds := List.mem_singleton.mp here
        exact new member⟩
  known ds' := by
    rw [nodesAt_touch]
    exact plain.known ds'
  nodes ds' := by
    rw [nodesAt_touch]
    exact plain.nodes ds'

theorem Plain.setAt (plain : Plain O m) {f : RDNodesSet ν → RDNodesSet ν}
    (known : (f (m.nodesAt ds)).isUnknown = false)
    (nodes : O.unknownMemory ∉ (f (m.nodesAt ds)).nodes) : Plain O (m.setAt ds f) := by
  have at' : ∀ ds', (m.setAt ds f).nodesAt ds' = m.nodesAt ds' ∨
      (m.setAt ds f).nodesAt ds' = f (m.nodesAt ds) := by
    intro ds'
    by_cases same : ds' = ds
    · subst same
      by_cases there : ds' ∈ m.keys
      · exact Or.inr (nodesAt_setAt_self there f)
      · have missing : m.entries.lookup ds' = none := by
          by_contra found
          exact there (mem_keys_iff.mpr (Option.ne_none_iff_exists'.mp found))
        exact Or.inl (by simp [nodesAt, RDMap.setAt, lookup_map_if, missing])
    · exact Or.inl (nodesAt_setAt_of_ne same f)
  refine ⟨by rw [keys_setAt]; exact plain.nodup, fun ds' => ?_, fun ds' => ?_⟩
  · rcases at' ds' with same | same <;> rw [same]
    · exact plain.known ds'
    · exact known
  · rcases at' ds' with same | same <;> rw [same]
    · exact plain.nodes ds'
    · exact nodes

/-- In a plain map the entries are what a look-up finds. -/
theorem Plain.mem_entries (plain : Plain O m) {e : DefSite ν × RDNodesSet ν} :
    e ∈ m.entries ↔ e.1 ∈ m.keys ∧ m.nodesAt e.1 = e.2 := by
  obtain ⟨ds, s⟩ := e
  have unique : ∀ l : List (DefSite ν × RDNodesSet ν), (l.map Prod.fst).Nodup →
      ((ds, s) ∈ l ↔ l.lookup ds = some s) := by
    intro l nodup
    induction l with
    | nil => simp
    | cons e l ih =>
      obtain ⟨key, value⟩ := e
      obtain ⟨notLater, nodup⟩ := List.nodup_cons.mp nodup
      rw [List.lookup_cons, List.mem_cons]
      by_cases here : ds = key
      · subst here
        have notIn : (ds, s) ∉ l := fun later => notLater (List.mem_map.mpr ⟨_, later, rfl⟩)
        simp [notIn, eq_comm]
      · have other : (ds == key) = false := beq_eq_false_iff_ne.mpr here
        simp [other, here, ih nodup]
  rw [unique m.entries plain.nodup, mem_keys_iff]
  constructor
  · intro found
    exact ⟨⟨s, found⟩, by simp [nodesAt, found]⟩
  · rintro ⟨⟨s', found⟩, same⟩
    simpa [nodesAt, found] using same

end Plain

section Merging

variable {O : Objects ν} {noUpdate : List (DefSite ν)} {s s' s'' : RDMap ν × Bool}
  {facts facts' : Set (DefSite ν × ν)} {ds : DefSite ν} {n : ν}

/-- The map gained these facts, and the change was noted if one of them is new. -/
structure Gains (O : Objects ν) (facts : Set (DefSite ν × ν)) (s s' : RDMap ν × Bool) : Prop where
  plain : Plain O s'.1
  known : s.1.keys ⊆ s'.1.keys
  holds : ∀ ds d, s'.1.Holds ds d ↔ s.1.Holds ds d ∨ (ds, d) ∈ facts
  changed : s'.2 = true ↔ s.2 = true ∨ ∃ f ∈ facts, ¬ s.1.Holds f.1 f.2

theorem Gains.none (plain : Plain O s.1) : Gains O ∅ s s where
  plain := plain
  known := List.Subset.refl _
  holds _ _ := by simp
  changed := by simp

theorem Gains.trans (h : Gains O facts s s') (h' : Gains O facts' s' s'') :
    Gains O (facts ∪ facts') s s'' where
  plain := h'.plain
  known _ member := h'.known (h.known member)
  holds ds d := by rw [h'.holds, h.holds, Set.mem_union, or_assoc]
  changed := by
    rw [h'.changed, h.changed]
    constructor
    · rintro ((before | ⟨f, member, new⟩) | ⟨f, member, new⟩)
      · exact Or.inl before
      · exact Or.inr ⟨f, Or.inl member, new⟩
      · exact Or.inr ⟨f, Or.inr member, fun there => new ((h.holds f.1 f.2).mpr (Or.inl there))⟩
    · rintro (before | ⟨f, member | member, new⟩)
      · exact Or.inl (Or.inl before)
      · exact Or.inl (Or.inr ⟨f, member, new⟩)
      · by_cases first : f ∈ facts
        · exact Or.inl (Or.inr ⟨f, first, new⟩)
        · refine Or.inr ⟨f, member, fun there => ?_⟩
          exact ((h.holds f.1 f.2).mp there).elim new first

/-- The steps of a loop add up. -/
theorem Gains.foldl {ε : Type*} {step : RDMap ν × Bool → ε → RDMap ν × Bool} {l : List ε}
    {gained : ε → Set (DefSite ν × ν)} {P : RDMap ν → Prop}
    (kept : ∀ s s' : RDMap ν × Bool, s.1.keys ⊆ s'.1.keys → P s.1 → P s'.1)
    (steps : ∀ s, ∀ e ∈ l, Plain O s.1 → P s.1 → Gains O (gained e) s (step s e))
    (plain : Plain O s.1) (holds : P s.1) :
    Gains O (⋃ e ∈ l, gained e) s (l.foldl step s) := by
  induction l generalizing s with
  | nil =>
    rw [show (⋃ e ∈ ([] : List ε), gained e) = ∅ by simp]
    exact Gains.none plain
  | cons e l ih =>
    have first := steps s e List.mem_cons_self plain holds
    have rest := ih (fun s e member => steps s e (List.mem_cons_of_mem _ member)) first.plain
      (kept s _ first.known holds)
    rw [show (⋃ e' ∈ e :: l, gained e') = gained e ∪ ⋃ e' ∈ l, gained e' by
      ext
      simp]
    exact first.trans rest

theorem RDNodesSet.insert_known {set : RDNodesSet ν} (known : set.isUnknown = false)
    (defined : n ≠ O.unknownMemory) :
    set.insert O n =
      ({ set with nodes := SetVector.insert set.nodes n }, decide (n ∉ set.nodes)) := by
  simp [RDNodesSet.insert, known, defined]

theorem gains_insertAt (plain : Plain O s.1) (known : ds ∈ s.1.keys)
    (defined : n ≠ O.unknownMemory) : Gains O {(ds, n)} s (insertAt O ds s n) := by
  have inserted := RDNodesSet.insert_known (plain.known ds) defined
  rw [insertAt, inserted]
  refine ⟨?_, ?_, fun ds' d => ?_, ?_⟩
  · dsimp only
    apply plain.setAt
    · exact plain.known ds
    · intro member
      rcases SetVector.mem_insert.mp member with member | same
      · exact plain.nodes ds member
      · exact defined same.symm
  · rw [keys_setAt]
    exact List.Subset.refl _
  · rw [Holds, Holds]
    by_cases same : ds' = ds
    · subst same
      rw [nodesAt_setAt_self known, SetVector.mem_insert]
      simp
    · rw [nodesAt_setAt_of_ne same]
      simp [same]
  · simp [Holds]

theorem gains_touch (plain : Plain O s.1) : Gains O ∅ s (s.1.touch ds, s.2) where
  plain := plain.touch ds
  known _ member := mem_keys_touch.mpr (Or.inl member)
  holds ds' d := by
    rw [Holds, nodesAt_touch]
    simp [Holds]
  changed := by simp

theorem setAt_eq_self {m : RDMap ν} {f : RDNodesSet ν → RDNodesSet ν} (same : ∀ set, f set = set) :
    m.setAt ds f = m := by
  have entries : (m.entries.map fun e => if e.1 = ds then (e.1, f e.2) else e) = m.entries := by
    conv_rhs => rw [← List.map_id m.entries]
    apply List.map_congr_left
    rintro ⟨key, set⟩ _
    simp [same]
  rw [RDMap.setAt, entries]

theorem crop_default (target : Option ν) (set : RDNodesSet ν) :
    crop O .default target set = set := by
  have atMost : ¬ unknownOffset < set.nodes.length % 2 ^ 64 := by
    have := Nat.mod_lt set.nodes.length (show 0 < 2 ^ 64 by decide)
    rw [unknownOffset]
    omega
  rw [crop, if_neg]
  exact fun beyond => atMost beyond.2

/-- With the options as they are, a site of the other map that is not overwritten comes with
all its nodes. -/
theorem gains_mergeSite {e : DefSite ν × RDNodesSet ν} (plain : Plain O s.1)
    (defined : O.unknownMemory ∉ e.2.nodes) :
    Gains O {f | f.1 = e.1 ∧ f.2 ∈ e.2.nodes ∧ (strongUpdate O .default noUpdate e.1).1 = false} s
      (mergeSite O .default noUpdate s e) := by
  rw [mergeSite]
  cases skipped : (strongUpdate O .default noUpdate e.1).1 with
  | true =>
    have none : {f : DefSite ν × ν | f.1 = e.1 ∧ f.2 ∈ e.2.nodes ∧ true = false} = ∅ := by
      ext
      simp
    rw [none, if_pos rfl]
    exact Gains.none plain
  | false =>
    have kept : ¬ ((RDOptions.default.mergeUnknown = true) ∧
        (strongUpdate O .default noUpdate e.1).2 = true) := fun both =>
      Bool.false_ne_true both.1
    simp only [Bool.false_eq_true, if_false, if_neg kept]
    rw [setAt_eq_self (crop_default e.1.target)]
    have touched : Gains O ∅ s (s.1.touch e.1, s.2) := gains_touch plain
    have nodes : {f : DefSite ν × ν | f.1 = e.1 ∧ f.2 ∈ e.2.nodes ∧ True} =
        ∅ ∪ ⋃ d ∈ e.2.nodes, {(e.1, d)} := by
      ext ⟨ds', d⟩
      simp only [Set.mem_ofPred_eq, Set.empty_union, Set.mem_iUnion, Set.mem_singleton_iff,
        Prod.mk.injEq, exists_prop]
      constructor
      · rintro ⟨rfl, member, -⟩
        exact ⟨d, member, rfl, rfl⟩
      · rintro ⟨d', member, rfl, rfl⟩
        exact ⟨rfl, member, trivial⟩
    rw [nodes]
    refine touched.trans (Gains.foldl (P := fun m => e.1 ∈ m.keys)
      (fun _ _ more member => more member)
      (fun s d member plain known => gains_insertAt plain known fun same => defined (same ▸ member))
      touched.plain (mem_keys_touch.mpr (Or.inr rfl)))

/-- A site is left out: its target is null, or something overwrites it. -/
def Skips (O : Objects ν) (noUpdate : List (DefSite ν)) (ds : DefSite ν) : Prop :=
  (strongUpdate O .default noUpdate ds).1 = true

instance (O : Objects ν) (noUpdate : List (DefSite ν)) (ds : DefSite ν) :
    Decidable (Skips O noUpdate ds) := inferInstanceAs (Decidable (_ = true))

theorem Holds.mem_keys {m : RDMap ν} {d : ν} (holds : m.Holds ds d) : ds ∈ m.keys := by
  by_contra missing
  have none : m.entries.lookup ds = none := by
    by_contra there
    exact missing (mem_keys_iff.mpr (Option.ne_none_iff_exists'.mp there))
  rw [Holds, nodesAt, none] at holds
  exact List.not_mem_nil holds

/-- What `merge` brings: the facts of the other map, but for the sites left out. -/
theorem gains_merge {ours theirs : RDMap ν} (plain : Plain O ours) (other : Plain O theirs) :
    Gains O {f | theirs.Holds f.1 f.2 ∧ ¬ Skips O noUpdate f.1} (ours, false)
      (merge O .default noUpdate ours theirs) := by
  have facts : {f : DefSite ν × ν | theirs.Holds f.1 f.2 ∧ ¬ Skips O noUpdate f.1} =
      ⋃ e ∈ theirs.entries, {f | f.1 = e.1 ∧ f.2 ∈ e.2.nodes ∧
        (strongUpdate O .default noUpdate e.1).1 = false} := by
    ext ⟨ds, d⟩
    simp only [Set.mem_ofPred_eq, Set.mem_iUnion, exists_prop, Skips, Bool.not_eq_true]
    constructor
    · rintro ⟨holds, kept⟩
      exact ⟨(ds, theirs.nodesAt ds), other.mem_entries.mpr ⟨holds.mem_keys, rfl⟩, rfl, holds, kept⟩
    · rintro ⟨e, member, rfl, holds, kept⟩
      have same := (other.mem_entries.mp member).2
      exact ⟨by rw [Holds, same]; exact holds, kept⟩
  rw [facts]
  refine Gains.foldl (P := fun _ => True) (fun _ _ _ _ => trivial) (fun s e member plain _ => ?_)
    plain trivial
  refine gains_mergeSite plain fun unknown => ?_
  exact other.nodes e.1 ((other.mem_entries.mp member).2 ▸ unknown)

end Merging

section Querying

variable {O : Objects ν} {m : RDMap ν} {ds ds' : DefSite ν} {d n : ν}

theorem plain_update (plain : Plain O m) (defined : n ≠ O.unknownMemory) :
    Plain O (m.update O ds n) := by
  rw [update, RDNodesSet.insert_known rfl defined]
  apply (plain.touch ds).setAt
  · rfl
  · intro member
    exact defined ((SetVector.mem_insert.mp member).resolve_left List.not_mem_nil).symm

theorem holds_update (defined : n ≠ O.unknownMemory) :
    (m.update O ds n).Holds ds' d ↔ (if ds' = ds then d = n else m.Holds ds' d) := by
  rw [update, RDNodesSet.insert_known rfl defined, Holds]
  by_cases same : ds' = ds
  · subst same
    rw [nodesAt_setAt_self (mem_keys_touch.mpr (Or.inr rfl)), if_pos rfl, SetVector.mem_insert]
    simp [RDNodesSet.empty]
  · rw [nodesAt_setAt_of_ne same, nodesAt_touch, if_neg same, Holds]

/-- Two places in one object may be the same memory. -/
def Meets (ds ds' : DefSite ν) : Prop :=
  ds.target = ds'.target ∧ (ds.offset = unknownOffset ∨ ds'.offset = unknownOffset ∨
    intervalsOverlap ds'.offset ds'.len ds.offset ds.len = true)

theorem mem_objectRange {target : Option ν} {e : DefSite ν × RDNodesSet ν} :
    e ∈ m.objectRange target ↔ e ∈ m.entries ∧ e.1.target = target := by
  simp [objectRange]

theorem mem_foldl_insertAll {ε : Type*} {nodes : ε → List ν} {l : List ε} {ret : List ν} :
    d ∈ l.foldl (fun ret e => SetVector.insertAll ret (nodes e)) ret ↔
      d ∈ ret ∨ ∃ e ∈ l, d ∈ nodes e := by
  induction l generalizing ret with
  | nil => simp
  | cons e l ih =>
    rw [List.foldl_cons, ih, SetVector.mem_insertAll, or_assoc]
    simp

theorem mem_foldl_insertIf {ε : Type*} {p : ε → Prop} [DecidablePred p] {nodes : ε → List ν}
    {l : List ε} {ret : List ν} :
    d ∈ l.foldl (fun ret e => if p e then SetVector.insertAll ret (nodes e) else ret) ret ↔
      d ∈ ret ∨ ∃ e ∈ l, p e ∧ d ∈ nodes e := by
  have step : (fun (ret : List ν) e => if p e then SetVector.insertAll ret (nodes e) else ret) =
      fun ret e => SetVector.insertAll ret (if p e then nodes e else []) := by
    funext ret e
    split <;> rfl
  rw [step, mem_foldl_insertAll]
  simp

theorem Plain.exists_entry (plain : Plain O m) {p : DefSite ν → Prop} :
    (∃ e ∈ m.entries, p e.1 ∧ d ∈ e.2.nodes) ↔ ∃ ds, p ds ∧ m.Holds ds d := by
  constructor
  · rintro ⟨e, member, holds, wrote⟩
    refine ⟨e.1, holds, ?_⟩
    rw [Holds, (plain.mem_entries.mp member).2]
    exact wrote
  · rintro ⟨ds, holds, wrote⟩
    exact ⟨(ds, m.nodesAt ds), plain.mem_entries.mpr ⟨wrote.mem_keys, rfl⟩, holds, wrote⟩

/-- A query finds the nodes that wrote a place it meets. -/
theorem mem_get (plain : Plain O m) {ret : List ν} :
    d ∈ m.get ds ret ↔ d ∈ ret ∨ ∃ ds', Meets ds ds' ∧ m.Holds ds' d := by
  rw [get, mem_foldl_insertIf (p := fun e : DefSite ν × RDNodesSet ν =>
    ds.offset = unknownOffset ∨ e.1.offset = unknownOffset ∨
      intervalsOverlap e.1.offset e.1.len ds.offset ds.len = true), ← plain.exists_entry]
  refine or_congr_right (exists_congr fun e => ?_)
  rw [mem_objectRange, Meets]
  tauto

/-- All nodes of a map. -/
theorem mem_allNodes (plain : Plain O m) {ret : List ν} :
    d ∈ m.entries.foldl (fun ret e => SetVector.insertAll ret e.2.nodes) ret ↔
      d ∈ ret ∨ ∃ ds, m.Holds ds d := by
  have entry := plain.exists_entry (d := d) (p := fun _ => True)
  simp only [true_and] at entry
  rw [mem_foldl_insertAll, ← entry]

end Querying

end RDMap

end Arthas.Dg
