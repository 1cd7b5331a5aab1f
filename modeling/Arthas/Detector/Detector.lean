import Mathlib
import Arthas.Utils.String

/-!
The detector: the candidate location in one stack trace of gdb, and the comparison of two
stack traces line by line.
-/

set_option autoImplicit false
set_option relaxedAutoImplicit false

namespace Arthas.Detector

open Arthas.Utils

/-- `line[0] == '#'`. -/
def isFrame (line : Text) : Bool := line.head? = some '#'

/-- `line.substr(line.find_last_of(' ') + 1)`. -/
def lastWord (line : Text) : Text := line.rtakeWhile (· ≠ ' ')

/-- `combined.find(':') != npos`. -/
def hasLocation (combined : Text) : Bool := ':' ∈ combined

/-- `combined.substr(0, combined.find(":"))`. -/
def fileOf (combined : Text) : Text := combined.takeWhile (· ≠ ':')

/-- `combined.substr(combined.find(":") + 1)`. -/
def lineNoOf (combined : Text) : Text := (combined.dropWhile (· ≠ ':')).tail

section Analyze

/-- The loop of the mode `analyze`; the location it stops at, if any. -/
def analyzeLoop : Bool → List Text → Option Text
  | _, [] => none
  | nextLine, line :: rest =>
    if isFrame line || nextLine then
      if hasLocation (lastWord line) then some (lastWord line) else analyzeLoop true rest
    else analyzeLoop nextLine rest

/-- What the mode `analyze` prints for the content of `gdb.txt`, `none` when it cannot be
opened. -/
def analyze (gdb : Option Text) : List Text :=
  match gdb.bind fun trace => analyzeLoop false (getlines trace) with
  | none => []
  | some combined =>
    ["file: ".toList ++ fileOf combined, "line no: ".toList ++ lineNoOf combined,
      "Run extractor with these inputs".toList]

theorem analyzeLoop_waiting (lines : List Text) :
    analyzeLoop true lines = (lines.map lastWord).find? hasLocation := by
  induction lines with
  | nil => rfl
  | cons line rest ih =>
    rw [analyzeLoop, Bool.or_true, if_pos rfl, List.map_cons, List.find?_cons, ih]
    split <;> simp_all

/-- From the first frame on, the loop takes the first line that ends in a location. -/
theorem analyzeLoop_eq (lines : List Text) :
    analyzeLoop false lines =
      ((lines.dropWhile fun line => !isFrame line).map lastWord).find? hasLocation := by
  induction lines with
  | nil => rfl
  | cons line rest ih =>
    rw [List.dropWhile_cons]
    by_cases frame : isFrame line = true
    · rw [if_neg (by simp [frame]), ← analyzeLoop_waiting]
      simp [analyzeLoop, frame]
    · rw [if_pos (by simpa using frame), ← ih]
      simp [analyzeLoop, frame]

end Analyze

section Fault

/-- The variables of the loop that compares two traces, and what it has printed. -/
structure Comparison where
  nextLine : Bool
  hardFault : Bool
  printed : List Text

def Comparison.start : Comparison := ⟨false, true, []⟩

/-- The body of the loop. Both locations are taken from the second line. -/
def compareLines (st : Comparison) (lines : Text × Text) : Comparison :=
  if (isFrame lines.1 && isFrame lines.2) || st.nextLine then
    let combined := lastWord lines.2
    let combined2 := lastWord lines.2
    if hasLocation combined && hasLocation combined2 then
      if combined ≠ combined2 then
        { nextLine := false
          hardFault := false
          printed := st.printed ++
            ["not persistent ".toList, combined ++ " and ".toList ++ combined2] }
      else { st with nextLine := false }
    else { st with nextLine := true }
  else st

def likelyHard : Text := "Result: likely a hard fault".toList

def likelyNotHard : Text := "Result: likely not a hard fault".toList

/-- What the mode `fault` prints for the contents of `gdb.txt` and `gdb2.txt`. The two maps
that it fills before the comparison are never read. -/
def fault : Option Text → Option Text → List Text
  | some trace, some trace2 =>
    let st := ((getlines trace).zip (getlines trace2)).foldl compareLines Comparison.start
    st.printed ++ [if st.hardFault then likelyHard else likelyNotHard]
  | _, _ => []

/-- The pairs that the loop considers: frames, and what follows a considered pair whose
second line ends in no location. -/
def considered : Bool → List (Text × Text) → List (Text × Text)
  | _, [] => []
  | nextLine, lines :: rest =>
    if (isFrame lines.1 && isFrame lines.2) || nextLine then
      lines :: considered (!hasLocation (lastWord lines.2)) rest
    else considered nextLine rest

/-- Wherever both lines of a considered pair end in a location, it is the same one. -/
def SameLocations (trace trace2 : Text) : Prop :=
  ∀ lines ∈ considered false ((getlines trace).zip (getlines trace2)),
    hasLocation (lastWord lines.1) → hasLocation (lastWord lines.2) →
      lastWord lines.1 = lastWord lines.2

instance (trace trace2 : Text) : Decidable (SameLocations trace trace2) :=
  inferInstanceAs (Decidable (∀ lines ∈ _, _))

/-- No pair of lines changes the verdict or prints anything. -/
theorem compareLines_kept (st : Comparison) (lines : Text × Text) :
    (compareLines st lines).hardFault = st.hardFault ∧
      (compareLines st lines).printed = st.printed := by
  unfold compareLines
  simp only [ne_eq, not_true_eq_false, if_false]
  split_ifs <;> exact ⟨rfl, rfl⟩

theorem foldl_compareLines_kept (pairs : List (Text × Text)) (st : Comparison) :
    (pairs.foldl compareLines st).hardFault = st.hardFault ∧
      (pairs.foldl compareLines st).printed = st.printed := by
  induction pairs generalizing st with
  | nil => exact ⟨rfl, rfl⟩
  | cons lines pairs ih =>
    obtain ⟨hard, printed⟩ := compareLines_kept st lines
    obtain ⟨hard', printed'⟩ := ih (compareLines st lines)
    exact ⟨hard'.trans hard, printed'.trans printed⟩

/-- The verdict is the same for all traces. -/
theorem fault_eq (trace trace2 : Text) : fault (some trace) (some trace2) = [likelyHard] := by
  obtain ⟨hard, printed⟩ :=
    foldl_compareLines_kept ((getlines trace).zip (getlines trace2)) Comparison.start
  rw [fault, hard, printed]
  rfl

/-- The verdict follows from the two traces exactly where these agree. -/
theorem fault_verdict_iff (trace trace2 : Text) :
    ((likelyHard ∈ fault (some trace) (some trace2) ↔ SameLocations trace trace2) ∧
        (¬ SameLocations trace trace2 → likelyNotHard ∈ fault (some trace) (some trace2))) ↔
      SameLocations trace trace2 := by
  rw [fault_eq, List.mem_singleton, List.mem_singleton]
  constructor
  · intro verdict
    exact verdict.1.mp rfl
  · intro same
    exact ⟨iff_of_true rfl same, fun different => absurd same different⟩

/-- Two runs that fault at different places are taken for the same fault. -/
theorem fault_ignores_first : ¬ ∀ trace trace2 : Text,
    (likelyHard ∈ fault (some trace) (some trace2) ↔ SameLocations trace trace2) ∧
      (¬ SameLocations trace trace2 → likelyNotHard ∈ fault (some trace) (some trace2)) := by
  intro claim
  have same := (claim "#0  main () at a.c:1\n".toList "#0  main () at b.c:2\n".toList).1
  rw [fault_eq] at same
  have differ : ¬ SameLocations "#0  main () at a.c:1\n".toList "#0  main () at b.c:2\n".toList := by
    decide
  exact differ (same.mp (List.mem_singleton_self _))

end Fault

end Arthas.Detector
