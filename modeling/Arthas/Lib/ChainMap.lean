import Mathlib.Data.Finmap
import Arthas.Lib.ChainTable

/-!
A table of chained buckets as the store of a finite map: what its operations do to the map,
and which keys a loop over the first buckets meets.
-/

set_option autoImplicit false
set_option relaxedAutoImplicit false

namespace Arthas.Lib.ChainTable

variable {ν κ β : Type*} [DecidableEq κ]

section Scan

variable {hash : κ → Int} {key : ν → κ} {t : Int → List ν}

/-- The cells of the first `n` buckets in the order of a loop over them. -/
def scan (t : Int → List ν) (n : Nat) : List ν := (List.range n).flatMap fun i : Nat => t i

omit [DecidableEq κ] in
theorem mem_scan {n : Nat} {c : ν} : c ∈ scan t n ↔ ∃ i < n, c ∈ t (i : Nat) := by
  simp [scan]

omit [DecidableEq κ] in
/-- In a well placed table the scanned cells have different keys. -/
theorem WellPlaced.nodup_scan (placed : WellPlaced hash key t) (n : Nat) :
    ((scan t n).map key).Nodup := by
  rw [scan, List.map_flatMap]
  refine List.nodup_flatMap.mpr ⟨fun i _ => placed.distinct i, ?_⟩
  refine List.nodup_range.imp fun different => ?_
  intro k here there
  obtain ⟨c, inI, rfl⟩ := List.mem_map.mp here
  obtain ⟨d, inJ, same⟩ := List.mem_map.mp there
  have first := placed.placed _ c inI
  have second := placed.placed _ d inJ
  rw [same, first] at second
  exact different (by exact_mod_cast second)

/-- The scanned cells are those that are found under their keys and hashed to one of the
first buckets. -/
theorem WellPlaced.mem_scan_iff (placed : WellPlaced hash key t) {n : Nat} {c : ν} :
    c ∈ scan t n ↔
      find hash key t (key c) = some c ∧ 0 ≤ hash (key c) ∧ hash (key c) < n := by
  rw [mem_scan]
  constructor
  · rintro ⟨i, below, inside⟩
    have bucket := placed.placed _ c inside
    have found := (placed.find_eq_some_iff (key c) c).mpr ⟨rfl, _, inside⟩
    exact ⟨found, by omega, by omega⟩
  · rintro ⟨found, low, high⟩
    have inside : c ∈ t (hash (key c)) := List.mem_of_find?_eq_some found
    refine ⟨(hash (key c)).toNat, by omega, ?_⟩
    rwa [Int.toNat_of_nonneg low]

end Scan

section Map

/-- The map with `g` applied to the value of `k`, if it has one. -/
def adjust (m : Finmap fun _ : κ => β) (k : κ) (g : β → β) : Finmap fun _ : κ => β :=
  (m.lookup k).elim m fun v => m.insert k (g v)

theorem lookup_adjust (m : Finmap fun _ : κ => β) (k k' : κ) (g : β → β) :
    (adjust m k g).lookup k' = if k' = k then (m.lookup k).map g else m.lookup k' := by
  unfold adjust
  cases held : m.lookup k with
  | none =>
    by_cases same : k' = k
    · subst same
      simpa using held
    · simp [same]
  | some v =>
    by_cases same : k' = k
    · subst same
      simp
    · simp [same, Finmap.lookup_insert_of_ne]

theorem mem_adjust {m : Finmap fun _ : κ => β} {k k' : κ} {g : β → β} :
    k' ∈ adjust m k g ↔ k' ∈ m := by
  rw [← Finmap.lookup_isSome, ← Finmap.lookup_isSome, lookup_adjust]
  split
  · next same =>
    rw [same, Option.isSome_map]
  · rfl

/-- The table stores the map: every cell is where it belongs, and under a key is found what
the map holds there. -/
structure Stores (hash : κ → Int) (key : ν → κ) (value : ν → β) (t : Int → List ν)
    (m : Finmap fun _ : κ => β) : Prop where
  placed : WellPlaced hash key t
  found : ∀ k, (find hash key t k).map value = m.lookup k

variable {hash : κ → Int} {key : ν → κ} {value : ν → β} {t : Int → List ν}
variable {m : Finmap fun _ : κ => β}

theorem stores_empty : Stores hash key value (fun _ => []) ∅ where
  placed := wellPlaced_empty hash key
  found _ := rfl

theorem Stores.upsert (stores : Stores hash key value t m) {f : ν → ν}
    (keeps : ∀ c, key (f c) = key c) {fresh : ν} {k : κ} (named : key fresh = k) {v : β}
    (replaces : ∀ c, value (f c) = v) (holds : value fresh = v) :
    Stores hash key value (upsert hash key t k f fresh) (m.insert k v) where
  placed := stores.placed.upsert keeps named
  found k' := by
    rw [find_upsert hash key keeps named]
    by_cases same : k' = k
    · subst same
      cases find hash key t k' <;> simp [replaces, holds]
    · simp [same, Finmap.lookup_insert_of_ne, stores.found]

theorem Stores.modify (stores : Stores hash key value t m) {f : ν → ν}
    (keeps : ∀ c, key (f c) = key c) {g : β → β} (changes : ∀ c, value (f c) = g (value c))
    (k : κ) : Stores hash key value (modify hash key t k f) (adjust m k g) where
  placed := stores.placed.of_map_key (map_key_modify keeps t k)
  found k' := by
    rw [find_modify hash key keeps, lookup_adjust, ← stores.found k, ← stores.found k']
    split
    · cases find hash key t k <;> simp [changes]
    · rfl

theorem Stores.isSome_find (stores : Stores hash key value t m) (k : κ) :
    (find hash key t k).isSome ↔ k ∈ m := by
  rw [← Finmap.lookup_isSome, ← stores.found k, Option.isSome_map]

/-- The keys hashed to one of the first `n` buckets whose value satisfies `p`. -/
def keysWhere (hash : κ → Int) (n : Nat) (p : κ → β → Prop) [DecidableRel p]
    (m : Finmap fun _ : κ => β) : Finset κ :=
  m.keys.filter fun k => (0 ≤ hash k ∧ hash k < n) ∧ ∃ v ∈ m.lookup k, p k v

variable {p : κ → β → Prop} [DecidableRel p] {n : Nat}

theorem mem_keysWhere {k : κ} :
    k ∈ keysWhere hash n p m ↔ (0 ≤ hash k ∧ hash k < n) ∧ ∃ v, m.lookup k = some v ∧ p k v := by
  rw [keysWhere, Finset.mem_filter]
  constructor
  · intro member
    exact member.2
  · intro held
    refine ⟨?_, held⟩
    obtain ⟨-, v, here, -⟩ := held
    exact Finmap.mem_keys.mpr (Finmap.mem_of_lookup_eq_some here)

/-- The keys of the scanned cells that pass a test are the keys of the map that do, each
once. -/
theorem Stores.keys_scan (stores : Stores hash key value t m) :
    (((scan t n).filter fun c => p (key c) (value c)).map key).Nodup ∧
      ∀ k, k ∈ ((scan t n).filter fun c => p (key c) (value c)).map key ↔
        k ∈ keysWhere hash n p m := by
  constructor
  · exact (stores.placed.nodup_scan n).sublist (List.filter_sublist.map key)
  · intro k
    rw [mem_keysWhere]
    constructor
    · intro member
      obtain ⟨c, scanned, rfl⟩ := List.mem_map.mp member
      obtain ⟨inside, test⟩ := List.mem_filter.mp scanned
      obtain ⟨found, reached⟩ := stores.placed.mem_scan_iff.mp inside
      refine ⟨reached, value c, ?_, by simpa using test⟩
      rw [← stores.found, found, Option.map_some]
    · rintro ⟨reached, v, held, test⟩
      rw [← stores.found] at held
      obtain ⟨c, found, rfl⟩ := Option.map_eq_some_iff.mp held
      have named : key c = k := by simpa using List.find?_some found
      subst named
      have inside := stores.placed.mem_scan_iff.mpr ⟨found, reached⟩
      exact List.mem_map_of_mem (List.mem_filter.mpr ⟨inside, by simpa using test⟩)

theorem Stores.length_scan (stores : Stores hash key value t m) :
    ((scan t n).filter fun c => p (key c) (value c)).length = (keysWhere hash n p m).card := by
  obtain ⟨nodup, same⟩ := stores.keys_scan (p := p) (n := n)
  have finset : (((scan t n).filter fun c => p (key c) (value c)).map key).toFinset =
      keysWhere hash n p m := by
    ext k
    rw [List.mem_toFinset, same]
  rw [← finset, List.toFinset_card_of_nodup nodup, List.length_map]

end Map

end Arthas.Lib.ChainTable
