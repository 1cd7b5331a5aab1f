import Mathlib

/-!
A search for a small block of a list that passes a test, by halving. The upper half
is tested; where it passes the search goes on inside it, where it fails inside the
lower half, which is taken untested unless it is the last block. The number of
halvings is bounded in advance, and the answers are indexed by the number of tests.
-/

set_option autoImplicit false
set_option relaxedAutoImplicit false

namespace Arthas.Lib.HalvingSearch

variable {α : Type*}

def lower (l : List α) : List α := l.take ((l.length + 1) / 2)

/-- The rest after the lower half; a single element is in both halves. -/
def upper (l : List α) : List α := if l.length = 1 then l else l.drop ((l.length + 1) / 2)

/-- The blocks that were tested and given up, and the block that was tested last. -/
structure Outcome (α : Type*) where
  tried : List (List α)
  last : List α
  success : Bool
  deriving DecidableEq

def Outcome.giveUp (block : List α) (o : Outcome α) : Outcome α :=
  { o with tried := block :: o.tried }

/-- The blocks tested, in order. -/
def Outcome.tested (o : Outcome α) : List (List α) := o.tried ++ [o.last]

/-- Search `l` with `budget` further halvings, the next answer being number `i`. -/
def search (answer : Nat → Bool) : Nat → Nat → List α → Outcome α
  | 0, i, l =>
    if answer i then ⟨[], upper l, true⟩ else ⟨[upper l], lower l, answer (i + 1)⟩
  | budget + 1, i, l =>
    if answer i then
      if (upper l).length = 1 then ⟨[], upper l, true⟩
      else (search answer budget (i + 1) (upper l)).giveUp (upper l)
    else if (lower l).length = 1 then ⟨[upper l], lower l, answer (i + 1)⟩
    else (search answer budget (i + 1) (lower l)).giveUp (upper l)

@[simp] theorem length_lower (l : List α) : (lower l).length = (l.length + 1) / 2 := by
  rw [lower, List.length_take]
  omega

theorem length_upper_le (l : List α) : (upper l).length ≤ (l.length + 1) / 2 := by
  unfold upper
  split
  · omega
  · rw [List.length_drop]
    omega

theorem lower_sublist (l : List α) : (lower l).Sublist l := List.take_sublist _ _

theorem upper_sublist (l : List α) : (upper l).Sublist l := by
  unfold upper
  split
  · exact List.Sublist.refl l
  · exact List.drop_sublist _ _

theorem lower_ne_nil {l : List α} (h : l ≠ []) : lower l ≠ [] := by
  have hpos : 0 < l.length := List.length_pos_iff.mpr h
  rw [← List.length_pos_iff, length_lower]
  omega

theorem upper_ne_nil {l : List α} (h : l ≠ []) : upper l ≠ [] := by
  have hpos : 0 < l.length := List.length_pos_iff.mpr h
  rw [← List.length_pos_iff, upper]
  split
  · exact hpos
  · rw [List.length_drop]
    omega

/-- The two halves make up the block. -/
theorem mem_halves {l : List α} {x : α} (h : x ∈ l) : x ∈ upper l ∨ x ∈ lower l := by
  unfold upper lower
  split
  · exact Or.inl h
  · rw [← List.take_append_drop ((l.length + 1) / 2) l, List.mem_append] at h
    exact h.symm

/-- What passes from a block to its halves holds of every block tested. -/
theorem forall_tested {Q : List α → Prop} (hup : ∀ m, Q m → Q (upper m))
    (hlow : ∀ m, Q m → Q (lower m)) (answer : Nat → Bool) (budget i : Nat) {l : List α}
    (hl : Q l) : ∀ block ∈ (search answer budget i l).tested, Q block := by
  have hstop : ∀ (m : List α) (ok : Bool), Q m →
      ∀ block ∈ (Outcome.mk [upper m] (lower m) ok).tested, Q block := by
    intro m ok hm block hblock
    rcases List.mem_pair.mp hblock with rfl | rfl
    · exact hup m hm
    · exact hlow m hm
  have hhit : ∀ m : List α, Q m → ∀ block ∈ (Outcome.mk [] (upper m) true).tested, Q block := by
    intro m hm block hblock
    exact List.mem_singleton.mp hblock ▸ hup m hm
  have hgo : ∀ (m : List α) (o : Outcome α), Q m → (∀ block ∈ o.tested, Q block) →
      ∀ block ∈ (o.giveUp (upper m)).tested, Q block := by
    intro m o hm ho block hblock
    rcases List.mem_cons.mp hblock with rfl | hblock
    · exact hup m hm
    · exact ho block hblock
  fun_induction search answer budget i l with
  | case1 i l hans => exact hhit l hl
  | case2 i l hans => exact hstop l _ hl
  | case3 budget i l hans hone => exact hhit l hl
  | case4 budget i l hans hone ih => exact hgo l _ hl (ih (hup l hl))
  | case5 budget i l hans hone => exact hstop l _ hl
  | case6 budget i l hans hone ih => exact hgo l _ hl (ih (hlow l hl))

theorem tested_sublist (answer : Nat → Bool) (budget i : Nat) (l : List α) :
    ∀ block ∈ (search answer budget i l).tested, block.Sublist l :=
  forall_tested (fun m h => (upper_sublist m).trans h) (fun m h => (lower_sublist m).trans h)
    answer budget i (List.Sublist.refl l)

theorem tested_ne_nil (answer : Nat → Bool) (budget i : Nat) {l : List α} (hl : l ≠ []) :
    ∀ block ∈ (search answer budget i l).tested, block ≠ [] :=
  forall_tested (Q := fun m => m ≠ []) (fun _ h => upper_ne_nil h) (fun _ h => lower_ne_nil h)
    answer budget i hl

theorem length_tried_le (answer : Nat → Bool) (budget i : Nat) (l : List α) :
    (search answer budget i l).tried.length ≤ budget + 1 := by
  fun_induction search answer budget i l <;> simp_all [Outcome.giveUp]

/-- The verdict is the answer to the last test. -/
theorem success_eq (answer : Nat → Bool) (budget i : Nat) (l : List α) :
    (search answer budget i l).success =
      answer (i + (search answer budget i l).tried.length) := by
  fun_induction search answer budget i l with
  | case1 i l hans => exact hans.symm
  | case2 i l hans => rfl
  | case3 budget i l hans hone => exact hans.symm
  | case4 budget i l hans hone ih =>
    rw [Outcome.giveUp, List.length_cons, ih]
    congr 1
    ring
  | case5 budget i l hans hone => rfl
  | case6 budget i l hans hone ih =>
    rw [Outcome.giveUp, List.length_cons, ih]
    congr 1
    ring

/-- Halving once more divides the bound on the size, rounded up, by two. -/
theorem ceil_half (n k : Nat) : ((n + 1) / 2 + 2 ^ k - 1) / 2 ^ k =
    (n + 2 ^ (k + 1) - 1) / 2 ^ (k + 1) := by
  have hpos : 0 < 2 ^ k := Nat.two_pow_pos k
  have hsplit : (n + 1) / 2 + 2 ^ k - 1 = (n + 2 ^ (k + 1) - 1) / 2 := by
    rw [pow_succ]
    omega
  rw [hsplit, Nat.div_div_eq_div_mul, pow_succ, Nat.mul_comm]

theorem length_le_of_half {m n k : Nat} (hm : m ≤ (n + 1) / 2) :
    (m + 2 ^ k - 1) / 2 ^ k ≤ (n + 2 ^ (k + 1) - 1) / 2 ^ (k + 1) := by
  rw [← ceil_half]
  exact Nat.div_le_div_right (by omega)

theorem one_le_ceil {n : Nat} (hn : 0 < n) (k : Nat) : 1 ≤ (n + 2 ^ k - 1) / 2 ^ k :=
  Nat.div_pos (by omega) (Nat.two_pow_pos k)

/-- The last block is at most the list's share after all the halvings, rounded up. -/
theorem length_last_le (answer : Nat → Bool) (budget i : Nat) {l : List α} (hl : l ≠ []) :
    (search answer budget i l).last.length ≤
      (l.length + 2 ^ (budget + 1) - 1) / 2 ^ (budget + 1) := by
  fun_induction search answer budget i l with
  | case1 i l hans =>
    have := length_upper_le l
    dsimp only
    omega
  | case2 i l hans =>
    have := length_lower l
    dsimp only
    omega
  | case3 budget i l hans hone =>
    rw [hone]
    exact one_le_ceil (List.length_pos_iff.mpr hl) _
  | case4 budget i l hans hone ih =>
    exact (ih (upper_ne_nil hl)).trans (length_le_of_half (length_upper_le l))
  | case5 budget i l hans hone =>
    rw [hone]
    exact one_le_ceil (List.length_pos_iff.mpr hl) _
  | case6 budget i l hans hone ih =>
    exact (ih (lower_ne_nil hl)).trans (length_le_of_half (length_lower l).le)

/-- The number of tests of a search in a list of `n` elements when all of them fail. -/
def trials : Nat → Nat → Nat
  | 0, _ => 2
  | budget + 1, n => if (n + 1) / 2 = 1 then 2 else trials budget ((n + 1) / 2) + 1

/-- A search with another number of tests has a test that passes, among those it makes
and among those of the failing search. -/
theorem length_tested (answer : Nat → Bool) (budget i : Nat) (l : List α) :
    (search answer budget i l).tested.length = trials budget l.length ∨
      ∃ k < (search answer budget i l).tested.length, k < trials budget l.length ∧
        answer (i + k) = true := by
  have hpos : ∀ budget n, 0 < trials budget n := by
    intro budget n
    cases budget with
    | zero => exact Nat.two_pos
    | succ budget =>
      unfold trials
      split <;> omega
  have htested : ∀ o : Outcome α, 0 < o.tested.length := by
    intro o
    simp [Outcome.tested]
  fun_induction search answer budget i l with
  | case1 i l hans => exact Or.inr ⟨0, htested _, hpos _ _, hans⟩
  | case2 i l hans => exact Or.inl rfl
  | case3 budget i l hans hone => exact Or.inr ⟨0, htested _, hpos _ _, hans⟩
  | case4 budget i l hans hone ih => exact Or.inr ⟨0, htested _, hpos _ _, hans⟩
  | case5 budget i l hans hone =>
    left
    rw [length_lower] at hone
    rw [trials, if_pos hone]
    rfl
  | case6 budget i l hans hone ih =>
    rw [length_lower] at hone ih
    have hsucc : ((search answer budget (i + 1) (lower l)).giveUp (upper l)).tested.length =
        (search answer budget (i + 1) (lower l)).tested.length + 1 := rfl
    rw [hsucc, trials, if_neg hone]
    rcases ih with heq | ⟨k, hk, hk', hpass⟩
    · exact Or.inl (by rw [heq])
    · refine Or.inr ⟨k + 1, by omega, by omega, ?_⟩
      rwa [show i + (k + 1) = i + 1 + k by omega]

/-- The blocks that halving a list can produce. -/
inductive Block (l : List α) : List α → Prop
  | whole : Block l l
  | upper {m : List α} : Block l m → Block l (upper m)
  | lower {m : List α} : Block l m → Block l (lower m)

/-- The answers are truthful: the answer to each test says whether the block passes. -/
def Truthful (answer : Nat → Bool) (P : List α → Prop) : Nat → List (List α) → Prop
  | _, [] => True
  | i, block :: rest => (answer i = true ↔ P block) ∧ Truthful answer P (i + 1) rest

/-- A fault that shows in one half of every block it shows in is found. -/
theorem success_of_local {P : List α → Prop} {answer : Nat → Bool} (budget i : Nat) {l : List α}
    (hl : P l) (hlocal : ∀ m, Block l m → 2 ≤ m.length → P m → P (upper m) ∨ P (lower m))
    (htrue : Truthful answer P i (search answer budget i l).tested) :
    (search answer budget i l).success = true := by
  have hlow : ∀ m : List α, P m → ¬ P (upper m) →
      (2 ≤ m.length → P m → P (upper m) ∨ P (lower m)) → P (lower m) := by
    intro m hm hnot hsplit
    by_cases htwo : 2 ≤ m.length
    · exact (hsplit htwo hm).resolve_left hnot
    · have hup : upper m = m := by
        unfold upper
        split
        · rfl
        · have hnil : m = [] := List.length_eq_zero_iff.mp (by omega)
          simp [hnil]
      rw [hup] at hnot
      exact absurd hm hnot
  fun_induction search answer budget i l with
  | case1 i l hans => rfl
  | case2 i l hans =>
    have hnot : ¬ P (upper l) := fun h => hans (htrue.1.mpr h)
    exact htrue.2.1.mpr (hlow l hl hnot (hlocal l .whole))
  | case3 budget i l hans hone => rfl
  | case4 budget i l hans hone ih =>
    refine ih (htrue.1.mp hans) (fun m hm => hlocal m ?_) htrue.2
    clear ih htrue hlow
    induction hm with
    | whole => exact .upper .whole
    | upper _ ih => exact .upper ih
    | lower _ ih => exact .lower ih
  | case5 budget i l hans hone =>
    have hnot : ¬ P (upper l) := fun h => hans (htrue.1.mpr h)
    exact htrue.2.1.mpr (hlow l hl hnot (hlocal l .whole))
  | case6 budget i l hans hone ih =>
    have hnot : ¬ P (upper l) := fun h => hans (htrue.1.mpr h)
    refine ih (hlow l hl hnot (hlocal l .whole)) (fun m hm => hlocal m ?_) htrue.2
    clear ih htrue hlow
    induction hm with
    | whole => exact .lower .whole
    | upper _ ih => exact .upper ih
    | lower _ ih => exact .lower ih

end Arthas.Lib.HalvingSearch
