import Mathlib

/-!
A map ordered by its keys, as a list of entries with ascending keys. Two such maps with
the same lookups are the same list.
-/

set_option autoImplicit false
set_option relaxedAutoImplicit false

namespace Arthas.Lib

/-- 64-bit words in the order of the numbers they stand for. -/
instance uint64LinearOrder : LinearOrder UInt64 where
  le_refl _ := UInt64.le_refl _
  le_trans _ _ _ := UInt64.le_trans
  le_antisymm _ _ := UInt64.le_antisymm
  le_total := UInt64.le_total
  lt_iff_le_not_ge _ _ := by
    simp only [UInt64.lt_iff_toNat_lt, UInt64.le_iff_toNat_le]
    exact Nat.lt_iff_le_and_not_ge
  toDecidableLE := inferInstance

variable {κ β : Type*} [LinearOrder κ]

structure OrdMap (κ β : Type*) [LinearOrder κ] where
  entries : List (κ × β)
  ascending : entries.Pairwise fun a b => a.1 < b.1

namespace OrdMap

def empty : OrdMap κ β := ⟨[], List.Pairwise.nil⟩

def find? (m : OrdMap κ β) (k : κ) : Option β := (m.entries.find? fun e => e.1 = k).map Prod.snd

/-- The entries with `f` of the old value, if there is one, under the key. -/
def updateEntries (k : κ) (f : Option β → β) : List (κ × β) → List (κ × β)
  | [] => [(k, f none)]
  | e :: l =>
    if k < e.1 then (k, f none) :: e :: l
    else if e.1 < k then e :: updateEntries k f l
    else (e.1, f (some e.2)) :: l

theorem mem_updateEntries_key {k : κ} {f : Option β → β} {l : List (κ × β)} {e : κ × β}
    (member : e ∈ updateEntries k f l) : e.1 = k ∨ ∃ old ∈ l, old.1 = e.1 := by
  induction l with
  | nil =>
    rw [List.mem_singleton.mp member]
    exact Or.inl rfl
  | cons d l ih =>
    rw [updateEntries] at member
    split at member
    · rcases List.mem_cons.mp member with rfl | old
      · exact Or.inl rfl
      · exact Or.inr ⟨e, old, rfl⟩
    split at member
    · rcases List.mem_cons.mp member with rfl | below
      · exact Or.inr ⟨e, List.mem_cons_self, rfl⟩
      · rcases ih below with eq | ⟨old, inside, eq⟩
        · exact Or.inl eq
        · exact Or.inr ⟨old, List.mem_cons_of_mem _ inside, eq⟩
    · rcases List.mem_cons.mp member with rfl | old
      · exact Or.inr ⟨d, List.mem_cons_self, rfl⟩
      · exact Or.inr ⟨e, List.mem_cons_of_mem _ old, rfl⟩

theorem updateEntries_ascending {k : κ} {f : Option β → β} {l : List (κ × β)}
    (ascending : l.Pairwise fun a b => a.1 < b.1) :
    (updateEntries k f l).Pairwise fun a b => a.1 < b.1 := by
  induction l with
  | nil => exact List.pairwise_singleton _ _
  | cons d l ih =>
    obtain ⟨above, rest⟩ := List.pairwise_cons.mp ascending
    rw [updateEntries]
    split
    · next small =>
      refine List.pairwise_cons.mpr ⟨fun e member => ?_, ascending⟩
      rcases List.mem_cons.mp member with rfl | inside
      · exact small
      · exact small.trans (above e inside)
    split
    · next large =>
      refine List.pairwise_cons.mpr ⟨fun e member => ?_, ih rest⟩
      rcases mem_updateEntries_key member with eq | ⟨old, inside, eq⟩
      · exact eq ▸ large
      · exact eq ▸ above old inside
    · exact List.pairwise_cons.mpr ⟨above, rest⟩

def update (m : OrdMap κ β) (k : κ) (f : Option β → β) : OrdMap κ β :=
  ⟨updateEntries k f m.entries, updateEntries_ascending m.ascending⟩

/-- `map[k] = v`. -/
def assign (m : OrdMap κ β) (k : κ) (v : β) : OrdMap κ β := m.update k fun _ => v

/-- `map.emplace(k, v)`: a value that is there stays. -/
def emplace (m : OrdMap κ β) (k : κ) (v : β) : OrdMap κ β := m.update k fun old => old.getD v

@[simp] theorem find?_empty (k : κ) : (empty : OrdMap κ β).find? k = none := rfl

theorem mem_entries_iff {m : OrdMap κ β} {k : κ} {v : β} :
    (k, v) ∈ m.entries ↔ m.find? k = some v := by
  obtain ⟨l, ascending⟩ := m
  simp only [find?]
  induction l with
  | nil => simp
  | cons d l ih =>
    obtain ⟨above, rest⟩ := List.pairwise_cons.mp ascending
    by_cases here : d.1 = k
    · rw [List.find?_cons_of_pos (by simpa using here)]
      simp only [List.mem_cons, Option.map_some, Option.some.injEq]
      constructor
      · rintro (rfl | inside)
        · rfl
        · exact absurd (above _ inside) (by simp [here])
      · rintro rfl
        exact Or.inl (by rw [← here])
    · rw [List.find?_cons_of_neg (by simpa using here), ← ih rest]
      simp only [List.mem_cons, or_iff_right_iff_imp]
      rintro rfl
      exact absurd rfl here

theorem find?_update (m : OrdMap κ β) (k j : κ) (f : Option β → β) :
    (m.update k f).find? j = if j = k then some (f (m.find? k)) else m.find? j := by
  obtain ⟨l, ascending⟩ := m
  simp only [find?, update]
  induction l with
  | nil =>
    by_cases same : j = k
    · simp [updateEntries, same]
    · simp [updateEntries, same, Ne.symm same]
  | cons d l ih =>
    obtain ⟨above, rest⟩ := List.pairwise_cons.mp ascending
    have ih := ih rest
    rw [updateEntries]
    split
    · next small =>
      have absent : ((d :: l).find? fun e => decide (e.1 = k)) = none := by
        rw [List.find?_eq_none]
        intro e member
        rcases List.mem_cons.mp member with rfl | inside
        · simpa using small.ne'
        · simpa using (small.trans (above e inside)).ne'
      rw [absent, List.find?_cons]
      by_cases same : j = k
      · simp [same]
      · simp [same, Ne.symm same]
    split
    · next large =>
      by_cases here : d.1 = j
      · have other : j ≠ k := here ▸ large.ne
        simp [here, other]
      · rw [List.find?_cons_of_neg (by simpa using here), ih,
          List.find?_cons_of_neg (by simpa using large.ne),
          List.find?_cons_of_neg (by simpa using here)]
    · next notSmall notLarge =>
      have here : d.1 = k := le_antisymm (not_lt.mp notSmall) (not_lt.mp notLarge)
      by_cases same : j = k
      · simp [same, here]
      · have other : ¬ d.1 = j := fun eq => same (eq.symm.trans here)
        simp [same, other]

theorem find?_assign (m : OrdMap κ β) (k j : κ) (v : β) :
    (m.assign k v).find? j = if j = k then some v else m.find? j :=
  find?_update m k j _

theorem find?_emplace (m : OrdMap κ β) (k j : κ) (v : β) :
    (m.emplace k v).find? j = if j = k then some ((m.find? k).getD v) else m.find? j :=
  find?_update m k j _

/-- Entries with distinct keys in ascending order are found in one way only. -/
theorem ext_find {m n : OrdMap κ β} (same : ∀ k, m.find? k = n.find? k) : m = n := by
  have distinct : ∀ o : OrdMap κ β, o.entries.Nodup := fun o =>
    o.ascending.imp fun less eq => (eq ▸ less).false
  have perm : m.entries.Perm n.entries := by
    apply (List.perm_ext_iff_of_nodup (distinct m) (distinct n)).mpr
    intro e
    rw [mem_entries_iff, mem_entries_iff, same]
  have entries : m.entries = n.entries :=
    perm.eq_of_pairwise (fun a b _ _ less more => absurd less more.asymm) m.ascending n.ascending
  obtain ⟨l, _⟩ := m
  obtain ⟨l', _⟩ := n
  cases entries
  rfl

/-- The entries written again one by one, in any order. -/
theorem find?_foldl_emplace (l : List (κ × β)) (distinct : (l.map Prod.fst).Nodup)
    (m : OrdMap κ β) (k : κ) :
    (l.foldl (fun m e => m.emplace e.1 e.2) m).find? k =
      (m.find? k).or ((l.find? fun e => e.1 = k).map Prod.snd) := by
  induction l generalizing m with
  | nil => simp
  | cons e l ih =>
    obtain ⟨fresh, rest⟩ := List.nodup_cons.mp distinct
    rw [List.foldl_cons, ih rest, find?_emplace]
    by_cases here : k = e.1
    · have absent : (l.find? fun d => decide (d.1 = e.1)) = none := by
        rw [List.find?_eq_none]
        intro d inside
        have other : d.1 ≠ e.1 := fun eq => fresh (eq ▸ List.mem_map_of_mem inside)
        simpa using other
      subst here
      cases m.find? e.1 <;> simp
    · rw [if_neg here, List.find?_cons_of_neg (by simpa using Ne.symm here)]

theorem foldl_emplace_entries (m : OrdMap κ β) :
    m.entries.foldl (fun m e => m.emplace e.1 e.2) empty = m := by
  apply ext_find
  intro k
  have distinct : (m.entries.map Prod.fst).Nodup :=
    List.pairwise_map.mpr (m.ascending.imp fun less => less.ne)
  rw [find?_foldl_emplace _ distinct]
  rfl

/-- The entries with `f` of their values, written into an empty map. -/
theorem find?_foldl_emplace_map {γ : Type*} (m : OrdMap κ β) (f : κ → β → γ) (k : κ) :
    ((m.entries.map fun e => (e.1, f e.1 e.2)).foldl (fun m e => m.emplace e.1 e.2) empty).find? k =
      (m.find? k).map (f k) := by
  have distinct : ((m.entries.map fun e => (e.1, f e.1 e.2)).map Prod.fst).Nodup := by
    rw [List.map_map]
    exact List.pairwise_map.mpr (m.ascending.imp fun less => less.ne)
  rw [find?_foldl_emplace _ distinct, find?_empty, Option.none_or, List.find?_map, Option.map_map,
    find?, Option.map_map]
  apply Option.map_congr
  intro e found
  have key : e.1 = k := by simpa using List.find?_some found
  simp [key]

end OrdMap

end Arthas.Lib
