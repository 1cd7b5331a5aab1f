import Mathlib.Data.List.Basic

/-!
An ordered multimap, seen through the range of one key: the values inserted under that
key, in the order of their insertion.
-/

set_option autoImplicit false
set_option relaxedAutoImplicit false

namespace Arthas.Lib

variable {κ ν : Type*} [DecidableEq κ]

/-- The pairs in the order of their insertion. -/
abbrev Multimap (κ ν : Type*) := List (κ × ν)

def Multimap.equalRange (m : Multimap κ ν) (k : κ) : List ν := (m.filter fun p => p.1 = k).map Prod.snd

theorem Multimap.mem_equalRange {m : Multimap κ ν} {k : κ} {v : ν} :
    v ∈ equalRange m k ↔ (k, v) ∈ m := by
  simp [equalRange]

/-- The last value under a key after one more insertion. -/
theorem Multimap.getLast?_equalRange_concat (m : Multimap κ ν) (p : κ × ν) (k : κ) :
    (equalRange (m ++ [p]) k).getLast? = if p.1 = k then some p.2 else (equalRange m k).getLast? := by
  by_cases hk : p.1 = k <;> simp [equalRange, List.filter_append, hk]

end Arthas.Lib
