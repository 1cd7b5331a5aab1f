import Mathlib.Data.List.Nodup
import Mathlib.Logic.Function.Basic

/-!
A table of chained buckets. A key is hashed to a bucket and looked for along its
chain; the first cell with the key counts. The lemmas describe the table through
`find` alone, and say when every cell is found again under its own key.
-/

set_option autoImplicit false
set_option relaxedAutoImplicit false

namespace Arthas.Lib.ChainTable

variable {ν κ : Type*} [DecidableEq κ]

/-- Change the first element that satisfies `p`. -/
def modifyFirst (p : ν → Bool) (f : ν → ν) : List ν → List ν
  | [] => []
  | n :: rest => if p n then f n :: rest else n :: modifyFirst p f rest

section Chain

variable (key : ν → κ)

def findKey (k : κ) (chain : List ν) : Option ν := chain.find? fun n => decide (key n = k)

theorem findKey_cons (k : κ) (n : ν) (rest : List ν) :
    findKey key k (n :: rest) = if key n = k then some n else findKey key k rest := by
  by_cases h : key n = k <;> simp [findKey, h]

theorem findKey_modifyFirst {f : ν → ν} (hf : ∀ n, key (f n) = key n) (k k' : κ)
    (chain : List ν) :
    findKey key k' (modifyFirst (fun n => decide (key n = k)) f chain) =
      if k' = k then (findKey key k chain).map f else findKey key k' chain := by
  induction chain with
  | nil => simp [modifyFirst, findKey]
  | cons n rest ih =>
    by_cases hn : key n = k
    · by_cases hk : k' = k
      · simp [modifyFirst, findKey_cons, hn, hf, hk]
      · simp [modifyFirst, findKey_cons, hn, hf, hk, Ne.symm hk]
    · by_cases hk : k' = k
      · subst hk
        simpa [modifyFirst, findKey_cons, hn] using ih
      · simp only [modifyFirst, hn, decide_false, Bool.false_eq_true, if_false, findKey_cons]
        rw [ih, if_neg hk, if_neg hk]

theorem findKey_map {f : ν → ν} (hf : ∀ n, key (f n) = key n) (k : κ) (chain : List ν) :
    findKey key k (chain.map f) = (findKey key k chain).map f := by
  induction chain with
  | nil => rfl
  | cons n rest ih =>
    rw [List.map_cons, findKey_cons, findKey_cons, ih, hf]
    split <;> rfl

omit [DecidableEq κ] in
theorem map_key_modifyFirst {f : ν → ν} (hf : ∀ n, key (f n) = key n) (p : ν → Bool)
    (chain : List ν) : (modifyFirst p f chain).map key = chain.map key := by
  induction chain with
  | nil => rfl
  | cons n rest ih =>
    by_cases hp : p n <;> simp [modifyFirst, hp, hf, ih]

theorem findKey_eq_none_iff (k : κ) (chain : List ν) :
    findKey key k chain = none ↔ k ∉ chain.map key := by
  simp [findKey, List.find?_eq_none]

theorem findKey_eq_some_iff {chain : List ν} (hd : (chain.map key).Nodup) (k : κ) (n : ν) :
    findKey key k chain = some n ↔ n ∈ chain ∧ key n = k := by
  constructor
  · intro h
    exact ⟨List.mem_of_find?_eq_some h, by simpa using List.find?_some h⟩
  · rintro ⟨hn, rfl⟩
    induction chain with
    | nil => simp at hn
    | cons c rest ih =>
      rw [List.map_cons, List.nodup_cons] at hd
      rcases List.mem_cons.mp hn with rfl | hn
      · simp [findKey_cons]
      · have hne : key c ≠ key n := fun he => hd.1 (he ▸ List.mem_map_of_mem hn)
        rw [findKey_cons, if_neg hne]
        exact ih hd.2 hn

end Chain

section Table

variable (hash : κ → Int) (key : ν → κ)

def find (t : Int → List ν) (k : κ) : Option ν := findKey key k (t (hash k))

/-- Change the first cell with key `k`, if there is one. -/
def modify (t : Int → List ν) (k : κ) (f : ν → ν) : Int → List ν :=
  Function.update t (hash k) (modifyFirst (fun n => decide (key n = k)) f (t (hash k)))

/-- Change the first cell with key `k`, or put `fresh` in front of its chain. -/
def upsert (t : Int → List ν) (k : κ) (f : ν → ν) (fresh : ν) : Int → List ν :=
  match find hash key t k with
  | some _ => modify hash key t k f
  | none => Function.update t (hash k) (fresh :: t (hash k))

/-- Every cell sits in the bucket of its key, and no key occurs twice. -/
structure WellPlaced (t : Int → List ν) : Prop where
  placed : ∀ i, ∀ n ∈ t i, hash (key n) = i
  distinct : ∀ i, ((t i).map key).Nodup

theorem find_update (t : Int → List ν) (k k' : κ) (chain : List ν) :
    find hash key (Function.update t (hash k) chain) k' =
      if hash k' = hash k then findKey key k' chain else find hash key t k' := by
  by_cases h : hash k' = hash k <;> simp [find, h]

theorem find_modify {f : ν → ν} (hf : ∀ n, key (f n) = key n) (t : Int → List ν) (k k' : κ) :
    find hash key (modify hash key t k f) k' =
      if k' = k then (find hash key t k).map f else find hash key t k' := by
  rw [modify, find_update, findKey_modifyFirst key hf]
  by_cases hk : k' = k
  · simp [hk, find]
  · by_cases hh : hash k' = hash k <;> simp [hk, hh, find]

theorem find_upsert {f : ν → ν} (hf : ∀ n, key (f n) = key n) {fresh : ν} {k : κ}
    (hfresh : key fresh = k) (t : Int → List ν) (k' : κ) :
    find hash key (upsert hash key t k f fresh) k' =
      if k' = k then some ((find hash key t k).elim fresh f) else find hash key t k' := by
  cases h : find hash key t k with
  | some n =>
    simp only [upsert, h, Option.elim_some]
    rw [find_modify hash key hf, h]
    rfl
  | none =>
    simp only [upsert, h, Option.elim_none]
    rw [find_update, findKey_cons, hfresh]
    by_cases hk : k' = k
    · simp [hk]
    · by_cases hh : hash k' = hash k <;> simp [hk, Ne.symm hk, hh, find]

theorem find_map {f : ν → ν} (hf : ∀ n, key (f n) = key n) (t : Int → List ν) (k : κ) :
    find hash key (fun i => (t i).map f) k = (find hash key t k).map f :=
  findKey_map key hf k (t (hash k))

omit [DecidableEq κ] in
theorem wellPlaced_empty : WellPlaced hash key (fun _ => ([] : List ν)) :=
  ⟨by simp, by simp⟩

variable {hash key}

omit [DecidableEq κ] in
theorem WellPlaced.of_map_key {t t' : Int → List ν} (h : WellPlaced hash key t)
    (hk : ∀ i, (t' i).map key = (t i).map key) : WellPlaced hash key t' := by
  constructor
  · intro i n hn
    have hm : key n ∈ (t i).map key := hk i ▸ List.mem_map_of_mem hn
    obtain ⟨n', hn', he⟩ := List.mem_map.mp hm
    rw [← he]
    exact h.placed i n' hn'
  · intro i
    rw [hk i]
    exact h.distinct i

theorem map_key_modify {f : ν → ν} (hf : ∀ n, key (f n) = key n) (t : Int → List ν) (k : κ)
    (i : Int) : (modify hash key t k f i).map key = (t i).map key := by
  by_cases hi : i = hash k
  · subst hi
    simp [modify, map_key_modifyFirst key hf]
  · simp [modify, hi]

theorem WellPlaced.upsert {t : Int → List ν} (h : WellPlaced hash key t) {f : ν → ν}
    (hf : ∀ n, key (f n) = key n) {fresh : ν} {k : κ} (hfresh : key fresh = k) :
    WellPlaced hash key (upsert hash key t k f fresh) := by
  cases hfind : find hash key t k with
  | some n =>
    simp only [ChainTable.upsert, hfind]
    exact h.of_map_key (map_key_modify hf t k)
  | none =>
    simp only [ChainTable.upsert, hfind]
    have hnot : k ∉ (t (hash k)).map key := (findKey_eq_none_iff key k _).mp hfind
    constructor
    · intro i n hn
      by_cases hi : i = hash k
      · subst hi
        rw [Function.update_self] at hn
        rcases List.mem_cons.mp hn with rfl | hn
        · rw [hfresh]
        · exact h.placed _ n hn
      · rw [Function.update_of_ne hi] at hn
        exact h.placed i n hn
    · intro i
      by_cases hi : i = hash k
      · subst hi
        rw [Function.update_self, List.map_cons, hfresh]
        exact List.nodup_cons.mpr ⟨hnot, h.distinct _⟩
      · rw [Function.update_of_ne hi]
        exact h.distinct i

/-- In a well placed table a cell is found under its key, wherever it sits. -/
theorem WellPlaced.find_eq_some_iff {t : Int → List ν} (h : WellPlaced hash key t) (k : κ)
    (n : ν) : find hash key t k = some n ↔ key n = k ∧ ∃ i, n ∈ t i := by
  rw [find, findKey_eq_some_iff key (h.distinct _)]
  constructor
  · rintro ⟨hn, hk⟩
    exact ⟨hk, _, hn⟩
  · rintro ⟨rfl, i, hn⟩
    refine ⟨?_, rfl⟩
    rw [h.placed i n hn]
    exact hn

/-- A well placed table is given by the keys along its chains and by what is found. -/
theorem WellPlaced.ext {t t' : Int → List ν} (h : WellPlaced hash key t)
    (hk : ∀ i, (t' i).map key = (t i).map key) (hf : ∀ k, find hash key t' k = find hash key t k) :
    t' = t := by
  have h' := h.of_map_key hk
  funext i
  apply List.ext_getElem?
  intro j
  have hkey : (t' i)[j]?.map key = (t i)[j]?.map key := by
    rw [← List.getElem?_map, hk i, List.getElem?_map]
  cases hn : (t i)[j]? with
  | none =>
    rw [hn] at hkey
    exact Option.map_eq_none_iff.mp hkey
  | some n =>
    rw [hn] at hkey
    obtain ⟨n', hn', heq⟩ := Option.map_eq_some_iff.mp hkey
    have hfind := (h.find_eq_some_iff (key n) n).mpr ⟨rfl, i, List.mem_of_getElem? hn⟩
    have hfind' := (h'.find_eq_some_iff (key n) n').mpr ⟨heq, i, List.mem_of_getElem? hn'⟩
    rw [hf, hfind] at hfind'
    rw [hn', ← Option.some.inj hfind']

end Table

end Arthas.Lib.ChainTable
