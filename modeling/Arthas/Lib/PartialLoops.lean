import Mathlib.Data.List.Basic

/-!
Loops whose steps may be undefined: what they fold in, what they make of each element, and
the search for the first element with a property that is not defined everywhere.
-/

set_option autoImplicit false
set_option relaxedAutoImplicit false

namespace Arthas.Lib

section Steps

variable {κ τ σ : Type*}

/-- A fold whose steps may be undefined only in what they fold in. -/
theorem foldlM_map (t : κ → Option τ) (f : σ → τ → σ) (ks : List κ) (s : σ) :
    ks.foldlM (fun s k => (t k).map (f s)) s = (ks.mapM t).map fun ts => ts.foldl f s := by
  induction ks generalizing s with
  | nil => rfl
  | cons k ks ih =>
    rw [List.foldlM_cons, List.mapM_cons]
    cases t k with
    | none => rfl
    | some x =>
      change ks.foldlM _ (f s x) = _
      rw [ih]
      cases ks.mapM t <;> rfl

theorem mapM_eq_none_iff {t : κ → Option τ} {ks : List κ} :
    ks.mapM t = none ↔ ∃ k ∈ ks, t k = none := by
  induction ks with
  | nil => simp
  | cons k ks ih =>
    rw [List.mapM_cons]
    cases found : t k with
    | none => simp [found]
    | some x => cases rest : ks.mapM t <;> simp_all

theorem mem_of_mapM_eq_some {t : κ → Option τ} {ks : List κ} {ts : List τ}
    (found : ks.mapM t = some ts) (x : τ) : x ∈ ts ↔ ∃ k ∈ ks, t k = some x := by
  induction ks generalizing ts with
  | nil => simp_all
  | cons k ks ih =>
    rw [List.mapM_cons] at found
    cases here : t k with
    | none => simp [here] at found
    | some y =>
      cases rest : ks.mapM t with
      | none => simp [here, rest] at found
      | some ys =>
        obtain rfl : y :: ys = ts := by simpa [here, rest] using found
        rw [List.mem_cons, ih rest, List.exists_mem_cons_iff, here, Option.some.injEq, eq_comm]

/-- What such a loop made of each element. -/
theorem getElem?_mapM {t : κ → Option τ} {ks : List κ} {ts : List τ} (found : ks.mapM t = some ts)
    (i : Nat) : ts[i]? = ks[i]?.bind t := by
  induction ks generalizing ts i with
  | nil =>
    obtain rfl : [] = ts := Option.some.inj found
    simp
  | cons k ks ih =>
    rw [List.mapM_cons] at found
    obtain ⟨x, first, rest⟩ := Option.bind_eq_some_iff.mp found
    obtain ⟨xs, later, last⟩ := Option.bind_eq_some_iff.mp rest
    obtain rfl := Option.some.inj last
    cases i with
    | zero => simp [first]
    | succ i => simpa using ih later i

theorem length_mapM {t : κ → Option τ} {ks : List κ} {ts : List τ} (found : ks.mapM t = some ts) :
    ts.length = ks.length := by
  induction ks generalizing ts with
  | nil =>
    obtain rfl : [] = ts := Option.some.inj found
    rfl
  | cons k ks ih =>
    rw [List.mapM_cons] at found
    obtain ⟨x, -, rest⟩ := Option.bind_eq_some_iff.mp found
    obtain ⟨xs, later, last⟩ := Option.bind_eq_some_iff.mp rest
    obtain rfl := Option.some.inj last
    rw [List.length_cons, List.length_cons, ih later]

theorem mapM_eq_map {t : κ → Option τ} {f : κ → τ} {ks : List κ}
    (each : ∀ k ∈ ks, t k = some (f k)) : ks.mapM t = some (ks.map f) := by
  induction ks with
  | nil => rfl
  | cons k ks ih =>
    rw [List.mapM_cons, each k List.mem_cons_self,
      ih fun k' member => each k' (List.mem_cons_of_mem k member)]
    rfl

end Steps

section Search

variable {α : Type*}

/-- The first element with the property, `some none` when there is none. -/
def partialFind (p : α → Option Bool) : List α → Option (Option α)
  | [] => some none
  | a :: l => (p a).bind fun hit => if hit then some (some a) else partialFind p l

variable {p : α → Option Bool} {l : List α}

theorem partialFind_cons_false {a : α} (miss : p a = some false) :
    partialFind p (a :: l) = partialFind p l := by
  simp [partialFind, miss]

theorem partialFind_cons_true {a : α} (hit : p a = some true) :
    partialFind p (a :: l) = some (some a) := by
  simp [partialFind, hit]

theorem partialFind_cons_none {a : α} (undefined : p a = none) : partialFind p (a :: l) = none := by
  simp [partialFind, undefined]

theorem partialFind_eq_none_found : partialFind p l = some none ↔ ∀ a ∈ l, p a = some false := by
  induction l with
  | nil => simp [partialFind]
  | cons a l ih =>
    cases here : p a with
    | none => simp [partialFind_cons_none here, here]
    | some hit =>
      cases hit with
      | true => simp [partialFind_cons_true here, here]
      | false => simp [partialFind_cons_false here, ih, here]

theorem partialFind_eq_found {a : α} : partialFind p l = some (some a) ↔
    ∃ before after, l = before ++ a :: after ∧ (∀ b ∈ before, p b = some false) ∧
      p a = some true := by
  constructor
  · intro found
    induction l with
    | nil => cases found
    | cons c l ih =>
      cases here : p c with
      | none =>
        rw [partialFind_cons_none here] at found
        cases found
      | some hit =>
        cases hit with
        | true =>
          rw [partialFind_cons_true here] at found
          obtain rfl : c = a := by simpa using found
          exact ⟨[], l, rfl, by simp, here⟩
        | false =>
          rw [partialFind_cons_false here] at found
          obtain ⟨before, after, rfl, missed, hit⟩ := ih found
          refine ⟨c :: before, after, rfl, fun b member => ?_, hit⟩
          rcases List.mem_cons.mp member with rfl | later
          · exact here
          · exact missed b later
  · rintro ⟨before, after, rfl, missed, hit⟩
    induction before with
    | nil => exact partialFind_cons_true hit
    | cons b before ih =>
      rw [List.cons_append, partialFind_cons_false (missed b List.mem_cons_self)]
      exact ih fun c later => missed c (List.mem_cons_of_mem b later)

/-- Where the property is defined everywhere, so is the search. -/
theorem partialFind_isSome (defined : ∀ a ∈ l, (p a).isSome) : (partialFind p l).isSome := by
  induction l with
  | nil => rfl
  | cons a l ih =>
    obtain ⟨hit, here⟩ := Option.isSome_iff_exists.mp (defined a List.mem_cons_self)
    cases hit with
    | true => rw [partialFind_cons_true here]; rfl
    | false =>
      rw [partialFind_cons_false here]
      exact ih fun b later => defined b (List.mem_cons_of_mem a later)

end Search

end Arthas.Lib
