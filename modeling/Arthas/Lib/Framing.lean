import Mathlib.Data.List.Basic
import Arthas.Lib.Separated

/-!
A stream that is read piece by piece: the lines that are complete so far and the beginning
of the next one.
-/

set_option autoImplicit false
set_option relaxedAutoImplicit false

namespace Arthas.Lib

variable {α : Type*}

/-- The stream is the lines of `done`, each with its terminator `c`, and then `rest`. -/
structure Framed (c : α) (stream : List α) (done : List (List α)) (rest : List α) : Prop where
  whole : ∀ line ∈ done, c ∉ line
  unfinished : c ∉ rest
  written : stream = done.flatMap (· ++ [c]) ++ rest

namespace Framed

variable {c : α} {stream piece rest : List α} {done : List (List α)}

theorem nil (c : α) : Framed c [] [] [] :=
  ⟨by simp, by simp, rfl⟩

/-- A piece without a terminator makes the last line longer. -/
theorem append (framed : Framed c stream done rest) (free : c ∉ piece) :
    Framed c (stream ++ piece) done (rest ++ piece) where
  whole := framed.whole
  unfinished := by
    rw [List.mem_append, not_or]
    exact ⟨framed.unfinished, free⟩
  written := by rw [framed.written, List.append_assoc]

/-- A terminator ends the last line. -/
theorem terminate (framed : Framed c stream done rest) :
    Framed c (stream ++ [c]) (done ++ [rest]) [] where
  whole line member := by
    rcases List.mem_append.mp member with old | new
    · exact framed.whole line old
    · rw [List.mem_singleton.mp new]
      exact framed.unfinished
  unfinished := by simp
  written := by
    rw [framed.written, List.flatMap_append, List.flatMap_singleton, List.append_nil,
      List.append_assoc]

theorem line (framed : Framed c stream done rest) (free : c ∉ piece) :
    Framed c (stream ++ piece ++ [c]) (done ++ [rest ++ piece]) [] :=
  (framed.append free).terminate

/-- Every stream is framed. -/
theorem exists_framed [DecidableEq α] (c : α) (stream : List α) :
    ∃ done rest, Framed c stream done rest := by
  induction stream using List.reverseRecOn with
  | nil => exact ⟨[], [], Framed.nil c⟩
  | append_singleton stream d ih =>
    obtain ⟨done, rest, framed⟩ := ih
    by_cases ends : d = c
    · exact ⟨done ++ [rest], [], ends ▸ framed.terminate⟩
    · exact ⟨done, rest ++ [d], framed.append (by simpa using Ne.symm ends)⟩

/-- If the stream is empty or ends with a terminator, no line is unfinished. -/
theorem rest_eq_nil (framed : Framed c stream done rest) (ended : ∀ d ∈ stream.getLast?, d = c) :
    rest = [] := by
  by_contra unfinished
  have last := ended (rest.getLast unfinished) (by
    rw [framed.written, List.getLast?_append_of_ne_nil _ unfinished,
      List.getLast?_eq_getLast_of_ne_nil unfinished]
    exact rfl)
  exact framed.unfinished (last ▸ List.getLast_mem unfinished)

end Framed

end Arthas.Lib
