import Mathlib.Data.Nat.Digits.Defs

/-!
Positional numerals in a base up to sixteen, read with either case of the letters, and
the numerals `Nat.toDigits` writes.
-/

set_option autoImplicit false
set_option relaxedAutoImplicit false

namespace Arthas.Lib

def digitValue (c : Char) : Option Nat :=
  if '0' ≤ c ∧ c ≤ '9' then some (c.toNat - '0'.toNat)
  else if 'a' ≤ c ∧ c ≤ 'f' then some (c.toNat - 'a'.toNat + 10)
  else if 'A' ≤ c ∧ c ≤ 'F' then some (c.toNat - 'A'.toNat + 10)
  else none

def isDigitIn (base : Nat) (c : Char) : Bool :=
  match digitValue c with
  | some d => d < base
  | none => false

/-- The number a row of digits stands for. -/
def numeralValue (base : Nat) (ds : List Char) : Nat :=
  ds.foldl (fun v c => v * base + (digitValue c).getD 0) 0

theorem numeralValue_snoc (base : Nat) (ds : List Char) (c : Char) :
    numeralValue base (ds ++ [c]) = numeralValue base ds * base + (digitValue c).getD 0 := by
  simp only [numeralValue, List.foldl_append, List.foldl_cons, List.foldl_nil]

theorem digitValue_digitChar {d : Nat} (small : d < 16) : digitValue d.digitChar = some d := by
  have all : ∀ d : Fin 16, digitValue d.val.digitChar = some d.val := by decide
  exact all ⟨d, small⟩

section Written

variable {base : Nat} (two : 1 < base) (sixteen : base ≤ 16)
include two sixteen

theorem isDigitIn_digitChar {d : Nat} (small : d < base) : isDigitIn base d.digitChar := by
  simp [isDigitIn, digitValue_digitChar (show d < 16 by omega), small]

theorem isDigitIn_of_mem_toDigits (n : Nat) : ∀ c ∈ Nat.toDigits base n, isDigitIn base c := by
  induction n using Nat.strong_induction_on with
  | _ n ih =>
    rw [Nat.toDigits_eq_if two]
    split
    · next small => simpa using isDigitIn_digitChar two sixteen small
    · next large =>
      intro c member
      have fewer : n / base < n := Nat.div_lt_self (by omega) two
      rcases List.mem_append.mp member with front | last
      · exact ih _ fewer c front
      · rw [List.mem_singleton.mp last]
        exact isDigitIn_digitChar two sixteen (Nat.mod_lt _ (by omega))

theorem not_mem_toDigits {c : Char} (other : isDigitIn base c = false) (n : Nat) :
    c ∉ Nat.toDigits base n := by
  intro member
  have digit := isDigitIn_of_mem_toDigits two sixteen n c member
  rw [other] at digit
  cases digit

/-- A written number is read back. -/
theorem numeralValue_toDigits (n : Nat) : numeralValue base (Nat.toDigits base n) = n := by
  induction n using Nat.strong_induction_on with
  | _ n ih =>
    rw [Nat.toDigits_eq_if two]
    split
    · next small => simp [numeralValue, digitValue_digitChar (show n < 16 by omega)]
    · next large =>
      have fewer : n / base < n := Nat.div_lt_self (by omega) two
      have last : n % base < 16 := (Nat.mod_lt n (by omega)).trans_le sixteen
      rw [numeralValue_snoc, ih _ fewer, digitValue_digitChar last, Option.getD_some]
      exact Nat.div_add_mod' n base

end Written

end Arthas.Lib
