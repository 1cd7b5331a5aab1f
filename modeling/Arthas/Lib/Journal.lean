import Mathlib.Data.Set.Basic
import Mathlib.Logic.Function.Basic

/-!
Overwriting an image step by step while saving part of what each step covers, and
going back through the saved parts in the opposite order.

A step writes `patch` and saves the places where `saved` holds. The two need not
agree: a place that is written without being saved is not restored by that step.
`unsaved` collects what reaches a place before any step saves it, and the round
trip leaves exactly the last of these behind.
-/

set_option autoImplicit false
set_option relaxedAutoImplicit false

namespace Arthas.Lib.Journal

variable {α β : Type*}

/-- One overwrite: the places it saves beforehand and the values it puts down. -/
structure Step (α β : Type*) where
  saved : α → Bool
  patch : α → Option β

/-- The step that saves nothing and writes nothing. -/
def Step.idle : Step α β := ⟨fun _ => false, fun _ => none⟩

def Step.apply (s : Step α β) (m : α → β) : α → β := fun a => (s.patch a).getD (m a)

/-- Put the saved places of `snapshot` back into `m`. -/
def Step.restore (s : Step α β) (snapshot m : α → β) : α → β :=
  fun a => if s.saved a then snapshot a else m a

def applyAll (steps : List (Step α β)) (m : α → β) : α → β :=
  steps.foldl (fun m s => s.apply m) m

/-- Apply the steps in order, then restore them in the opposite order. -/
def roundTrip : List (Step α β) → (α → β) → α → β
  | [], m => m
  | s :: rest, m => s.restore m (roundTrip rest (s.apply m))

/-- The values put down at `a` before the first step that saves `a`. -/
def unsaved (steps : List (Step α β)) (a : α) : List β :=
  (steps.takeWhile fun s => !s.saved a).filterMap (·.patch a)

@[simp] theorem Step.idle_apply (m : α → β) : (Step.idle : Step α β).apply m = m := rfl

@[simp] theorem Step.idle_restore (snapshot m : α → β) :
    (Step.idle : Step α β).restore snapshot m = m := rfl

@[simp] theorem applyAll_nil (m : α → β) : applyAll [] m = m := rfl

@[simp] theorem applyAll_cons (s : Step α β) (rest : List (Step α β)) (m : α → β) :
    applyAll (s :: rest) m = applyAll rest (s.apply m) := rfl

/-- The last value put down at a place is the one that stays there. -/
theorem applyAll_apply (steps : List (Step α β)) (m : α → β) (a : α) :
    applyAll steps m a = (steps.filterMap (·.patch a)).getLast?.getD (m a) := by
  induction steps generalizing m with
  | nil => rfl
  | cons s rest ih =>
    rw [applyAll_cons, ih]
    cases h : s.patch a with
    | none => simp [Step.apply, h]
    | some v => cases hl : (rest.filterMap (·.patch a)).getLast? <;>
        simp [Step.apply, h, hl, List.getLast?_cons]

theorem applyAll_of_untouched {steps : List (Step α β)} {a : α}
    (h : ∀ s ∈ steps, s.patch a = none) (m : α → β) : applyAll steps m a = m a := by
  have hnil : steps.filterMap (·.patch a) = [] := List.filterMap_eq_nil_iff.mpr h
  rw [applyAll_apply, hnil]
  rfl

/-- Steps taken for descending indices leave what the least index that writes puts down. -/
theorem applyAll_map_of_least {ι : Type*} [LinearOrder ι] {l : List ι}
    (hl : l.Pairwise (· ≥ ·)) (f : ι → Step α β) {a : α} {i : ι} {v : β} (hi : i ∈ l)
    (hv : (f i).patch a = some v) (hless : ∀ j ∈ l, j < i → (f j).patch a = none) (m : α → β) :
    applyAll (l.map f) m a = v := by
  induction l generalizing m with
  | nil => simp at hi
  | cons k rest ih =>
    rw [List.pairwise_cons] at hl
    rw [List.map_cons, applyAll_cons]
    by_cases hrest : i ∈ rest
    · exact ih hl.2 hrest (fun j hj => hless j (List.mem_cons_of_mem _ hj)) _
    · have hk : i = k := (List.mem_cons.mp hi).resolve_right hrest
      have hquiet : ∀ s ∈ rest.map f, s.patch a = none := by
        intro s hs
        obtain ⟨j, hj, rfl⟩ := List.mem_map.mp hs
        have hle : j ≤ i := hk ▸ hl.1 j hj
        have hne : j ≠ i := fun he => hrest (he ▸ hj)
        exact hless j (List.mem_cons_of_mem _ hj) (lt_of_le_of_ne hle hne)
      rw [applyAll_of_untouched hquiet, ← hk]
      simp [Step.apply, hv]

/-- What the round trip leaves at a place is the last value that reached it unsaved. -/
theorem roundTrip_apply (steps : List (Step α β)) (m : α → β) (a : α) :
    roundTrip steps m a = (unsaved steps a).getLast?.getD (m a) := by
  induction steps generalizing m with
  | nil => rfl
  | cons s rest ih =>
    simp only [roundTrip, Step.restore, ih]
    by_cases hs : s.saved a
    · simp [unsaved, hs]
    · have hu : unsaved (s :: rest) a = (s.patch a).toList ++ unsaved rest a := by
        cases h : s.patch a <;> simp [unsaved, hs, h]
      rw [hu]
      cases h : s.patch a with
      | none => simp [hs, Step.apply, h]
      | some v => cases hl : (unsaved rest a).getLast? <;>
          simp [hs, Step.apply, h, hl, List.getLast?_cons]

/-- The round trip is the identity exactly when each unsaved arrival already was there. -/
theorem roundTrip_eq_self_iff (steps : List (Step α β)) (m : α → β) :
    roundTrip steps m = m ↔ ∀ a, ∀ v ∈ (unsaved steps a).getLast?, v = m a := by
  rw [funext_iff]
  apply forall_congr'
  intro a
  rw [roundTrip_apply]
  cases h : (unsaved steps a).getLast? <;> simp

/-- A step is covered when it saves every place it writes. -/
def Step.Covered (s : Step α β) : Prop := ∀ a, (s.patch a).isSome → s.saved a

theorem Step.Covered.restore_apply {s : Step α β} (h : s.Covered) (m : α → β) :
    s.restore m (s.apply m) = m := by
  funext a
  by_cases hs : s.saved a
  · simp [Step.restore, hs]
  · have hn : s.patch a = none := by
      by_contra hne
      exact hs (h a (Option.isSome_iff_ne_none.mpr hne))
    simp [Step.restore, hs, Step.apply, hn]

theorem roundTrip_of_covered {steps : List (Step α β)} (h : ∀ s ∈ steps, s.Covered)
    (m : α → β) : roundTrip steps m = m := by
  induction steps generalizing m with
  | nil => rfl
  | cons s rest ih =>
    have hs : s.Covered := h s List.mem_cons_self
    have hrest := ih (fun t ht => h t (List.mem_cons_of_mem _ ht)) (s.apply m)
    simp only [roundTrip, hrest]
    exact hs.restore_apply m

end Arthas.Lib.Journal
