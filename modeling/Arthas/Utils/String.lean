import Mathlib
import Arthas.Lib.Separated
import Arthas.Lib.Numeral

/-!
The string functions of `Utils/String.h` and `Utils/String.cpp`, and the extraction of
unsigned numbers from a stream that `str2fmt` relies on. A text is the list of its bytes.
-/

set_option autoImplicit false
set_option relaxedAutoImplicit false

namespace Arthas.Utils

open Arthas.Lib

abbrev Text := List Char

/-- The bytes of a C string: what stands before the first NUL. -/
def cstr (s : Text) : Text := s.takeWhile (· ≠ '\x00')

def isspace (c : Char) : Bool := c = ' ' || (9 ≤ c.toNat && c.toNat ≤ 13)

def ltrim (s : Text) : Text := s.dropWhile isspace

def rtrim (s : Text) : Text := s.rdropWhile isspace

def trim (s : Text) : Text := ltrim (rtrim s)

/-- `splitList`, by a separator of several characters. -/
def splitList (s sep : Text) : List Text := if s = [] then [] else split sep s

/-- The lines that successive calls of `getline` read: a last line that no newline ends is
read if it is not empty. -/
def getlines (s : Text) : List Text :=
  let pieces := split ['\n'] s
  if pieces.getLast? = some [] then pieces.dropLast else pieces

inductive Exception where
  | invalidArgument (what : Text)
  deriving DecidableEq

/-- What comes after an operation runs only if that raised no exception. -/
theorem Exception.bind_eq_ok {α β : Type} {x : Except Exception α} {f : α → Except Exception β}
    {b : β} (returned : x >>= f = .ok b) : ∃ a, x = .ok a ∧ f a = .ok b := by
  cases x with
  | error e => cases returned
  | ok a => exact ⟨a, rfl, returned⟩

/-- Extraction of an unsigned integer with largest value `top` from a stream: blanks are
skipped, a sign and in hexadecimal a prefix are accepted, and the longest row of digits
is read. `none` sets the fail bit. -/
def extractUnsigned (top : Nat) (hex : Bool) (s : Text) : Option Nat :=
  let s := s.dropWhile isspace
  let negative := s.head? = some '-'
  let s := if s.head? = some '-' ∨ s.head? = some '+' then s.tail else s
  let s := if hex ∧ (['0', 'x'].isPrefixOf s ∨ ['0', 'X'].isPrefixOf s) then s.drop 2 else s
  let base := if hex then 16 else 10
  let digits := s.takeWhile (isDigitIn base)
  let value := numeralValue base digits
  if digits = [] ∨ top < value then none
  else some (if negative then (top + 1 - value) % (top + 1) else value)

/-- `str2fmt<T>`, for an unsigned type with largest value `top`. -/
def str2fmt (top : Nat) (s : Text) (hex : Bool) : Except Exception Nat :=
  match extractUnsigned top hex s with
  | none => .error (.invalidArgument "invalid format".toList)
  | some value => .ok value

def uint32Max : Nat := 2 ^ 32 - 1

def uint64Max : Nat := 2 ^ 64 - 1

section Trim

theorem trim_eq_self_iff {s : Text} : trim s = s ↔ ltrim s = s ∧ rtrim s = s := by
  constructor
  · intro eq
    have shorter : (ltrim (rtrim s)).length ≤ (rtrim s).length := (List.dropWhile_suffix _).length_le
    have whole : rtrim s = s := by
      apply (List.rdropWhile_prefix isspace s).eq_of_length_le
      rw [trim] at eq
      rw [eq] at shorter
      exact shorter
    refine ⟨?_, whole⟩
    rwa [trim, whole] at eq
  · rintro ⟨left, right⟩
    rw [trim, right, left]

theorem ltrim_idem (s : Text) : ltrim (ltrim s) = ltrim s := List.dropWhile_idempotent _ _

theorem rtrim_eq_self_iff {s : Text} :
    rtrim s = s ↔ ∀ nonempty : s ≠ [], ¬ isspace (s.getLast nonempty) = true :=
  List.rdropWhile_eq_self_iff

theorem rtrim_ltrim_rtrim (s : Text) : rtrim (ltrim (rtrim s)) = ltrim (rtrim s) := by
  have right : rtrim (rtrim s) = rtrim s := List.rdropWhile_idempotent _ _
  rw [rtrim_eq_self_iff] at right ⊢
  intro nonempty
  have suffix : ltrim (rtrim s) <:+ rtrim s := List.dropWhile_suffix _
  have whole : rtrim s ≠ [] := fun empty => nonempty (by rw [empty]; rfl)
  rw [suffix.getLast nonempty]
  exact right whole

theorem trim_idem (s : Text) : trim (trim s) = trim s :=
  trim_eq_self_iff.mpr ⟨ltrim_idem _, rtrim_ltrim_rtrim s⟩

/-- Blanks in front of a trimmed text are all that `trim` removes. -/
theorem trim_append_of_blank {blanks s : Text} (blank : ∀ c ∈ blanks, isspace c = true)
    (nonempty : s ≠ []) (trimmed : trim s = s) : trim (blanks ++ s) = s := by
  obtain ⟨left, right⟩ := trim_eq_self_iff.mp trimmed
  have kept : rtrim (blanks ++ s) = blanks ++ s := by
    rw [rtrim_eq_self_iff] at right ⊢
    intro _
    rw [List.getLast_append_of_ne_nil _ nonempty]
    exact right nonempty
  rw [trim, kept, ltrim, List.dropWhile_append_of_pos blank]
  exact left

end Trim

section Split

theorem splitList_intercalate_iff {sep : Text} (nonempty : sep ≠ []) {fields : List Text}
    (written : sep.intercalate fields ≠ []) :
    splitList (sep.intercalate fields) sep = fields ↔ Separable sep fields := by
  rw [splitList, if_neg written]
  exact split_intercalate_iff nonempty

end Split

section Lines

theorem flatMap_newline (lines : List Text) (last : Text) :
    ['\n'].intercalate (lines ++ [last]) = lines.flatMap (· ++ ['\n']) ++ last := by
  induction lines with
  | nil => simp
  | cons line lines ih =>
    have front : ['\n'].intercalate (line :: (lines ++ [last])) =
        line ++ ['\n'] ++ ['\n'].intercalate (lines ++ [last]) := by
      cases lines with
      | nil => simp
      | cons next lines => exact List.intercalate_cons_cons
    rw [List.cons_append, front, ih, List.flatMap_cons, List.append_assoc, List.append_assoc,
      List.append_assoc]

/-- Lines written one after the other are read back, with what stands after the last
newline. -/
theorem split_lines {lines : List Text} {last : Text} (whole : ∀ line ∈ lines, '\n' ∉ line)
    (open_ : '\n' ∉ last) :
    split ['\n'] (lines.flatMap (· ++ ['\n']) ++ last) = lines ++ [last] := by
  have free : ∀ field ∈ lines ++ [last], '\n' ∉ field := by
    intro field member
    rcases List.mem_append.mp member with inside | end_
    · exact whole field inside
    · rw [List.mem_singleton.mp end_]
      exact open_
  rw [← flatMap_newline]
  exact (split_intercalate_iff (by simp)).mpr (separable_single free)

theorem getlines_lines {lines : List Text} (whole : ∀ line ∈ lines, '\n' ∉ line) :
    getlines (lines.flatMap (· ++ ['\n'])) = lines := by
  have pieces := split_lines whole (List.not_mem_nil : '\n' ∉ ([] : Text))
  rw [List.append_nil] at pieces
  simp [getlines, pieces]

end Lines

section Extract

theorem digit_not_space {base : Nat} {c : Char} (digit : isDigitIn base c = true) :
    isspace c = false ∧ c ≠ '-' ∧ c ≠ '+' := by
  by_contra excluded
  have value : ∃ d, digitValue c = some d := by
    unfold isDigitIn at digit
    split at digit
    · next d eq => exact ⟨d, eq⟩
    · simp at digit
  obtain ⟨d, eq⟩ := value
  have above : '0'.toNat ≤ c.toNat := by
    unfold digitValue at eq
    split at eq
    · next range => exact range.1
    split at eq
    · next range => exact (show '0'.toNat ≤ 'a'.toNat by decide).trans range.1
    split at eq
    · next range => exact (show '0'.toNat ≤ 'A'.toNat by decide).trans range.1
    · cases eq
  have floor : '0'.toNat = 48 := rfl
  refine excluded ⟨?_, ?_, ?_⟩
  · simp only [isspace, Bool.or_eq_false_iff, decide_eq_false_iff_not, Bool.and_eq_false_iff]
    refine ⟨?_, Or.inr ?_⟩
    · rintro rfl
      exact absurd above (by decide)
    · omega
  · rintro rfl
    exact absurd above (by decide)
  · rintro rfl
    exact absurd above (by decide)

/-- A row of digits is read as the number it stands for, up to the first other
character. -/
theorem extractUnsigned_digits {top : Nat} {hex : Bool} {digits rest : Text}
    (nonempty : digits ≠ [])
    (digit : ∀ c ∈ digits, isDigitIn (if hex then 16 else 10) c = true)
    (ends : ∀ c ∈ rest.head?, isDigitIn (if hex then 16 else 10) c = false)
    (unprefixed : hex = true → ∀ c ∈ (digits ++ rest)[1]?, c ≠ 'x' ∧ c ≠ 'X')
    (fits : numeralValue (if hex then 16 else 10) digits ≤ top) :
    extractUnsigned top hex (digits ++ rest) =
      some (numeralValue (if hex then 16 else 10) digits) := by
  obtain ⟨c, tail, rfl⟩ := List.exists_cons_of_ne_nil nonempty
  obtain ⟨notSpace, notMinus, notPlus⟩ := digit_not_space (digit c List.mem_cons_self)
  have skipped : (c :: tail ++ rest).dropWhile isspace = c :: tail ++ rest := by
    simp [notSpace]
  have noPrefix : ¬ (hex = true ∧ (['0', 'x'].isPrefixOf (c :: tail ++ rest) = true ∨
      ['0', 'X'].isPrefixOf (c :: tail ++ rest) = true)) := by
    rintro ⟨isHex, front⟩
    have second := unprefixed isHex
    rcases front with front | front
    all_goals
      obtain ⟨more, eq⟩ := List.isPrefixOf_iff_prefix.mp front
      rw [← eq] at second
      simp at second
  have row : (c :: tail ++ rest).takeWhile (isDigitIn (if hex then 16 else 10)) = c :: tail := by
    rw [List.takeWhile_append_of_pos digit]
    cases rest with
    | nil => simp
    | cons d rest => simp [ends d (by simp)]
  have unsigned : ¬ ((c :: tail ++ rest).head? = some '-' ∨ (c :: tail ++ rest).head? = some '+') := by
    simp [notMinus, notPlus]
  unfold extractUnsigned
  simp only [skipped, unsigned, if_false, noPrefix, row]
  have negative : ¬ (c :: tail ++ rest).head? = some '-' := fun h => unsigned (Or.inl h)
  simp only [negative, if_false]
  rw [if_neg]
  simp only [reduceCtorEq, false_or, not_lt]
  exact fits

/-- A decimal number that fits is read back from its numeral. -/
theorem str2fmt_toDigits {top n : Nat} (fits : n ≤ top) :
    str2fmt top (Nat.toDigits 10 n) false = .ok n := by
  have read := @extractUnsigned_digits top false (Nat.toDigits 10 n) [] Nat.toDigits_ne_nil
    (isDigitIn_of_mem_toDigits (by decide) (by decide) n)
    (by simp) (by simp) (by simpa [numeralValue_toDigits] using fits)
  rw [List.append_nil] at read
  rw [str2fmt, read]
  simp [numeralValue_toDigits]

end Extract

end Arthas.Utils
