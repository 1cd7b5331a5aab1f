import Mathlib.Data.List.Basic
import Mathlib.Data.List.Nodup

/-!
A vector in which an element stands once: a new one goes to the end, an old one stays
where it is.
-/

set_option autoImplicit false
set_option relaxedAutoImplicit false

namespace Arthas.Lib.SetVector

variable {α : Type*} [DecidableEq α]

def insert (l : List α) (a : α) : List α := if a ∈ l then l else l ++ [a]

def insertAll (l as : List α) : List α := as.foldl insert l

variable {l as : List α} {a b : α}

theorem insert_of_mem (h : a ∈ l) : insert l a = l := if_pos h

theorem insert_of_notMem (h : a ∉ l) : insert l a = l ++ [a] := if_neg h

theorem mem_insert : b ∈ insert l a ↔ b ∈ l ∨ b = a := by
  by_cases old : a ∈ l
  · rw [insert_of_mem old]
    exact ⟨Or.inl, fun h => h.elim id fun same => same ▸ old⟩
  · rw [insert_of_notMem old, List.mem_append, List.mem_singleton]

theorem mem_insertAll : b ∈ insertAll l as ↔ b ∈ l ∨ b ∈ as := by
  induction as generalizing l with
  | nil => simp [insertAll]
  | cons a as ih =>
    change b ∈ insertAll (insert l a) as ↔ _
    rw [ih, mem_insert, List.mem_cons, or_assoc]

end Arthas.Lib.SetVector
