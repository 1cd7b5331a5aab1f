import Mathlib
import Arthas.Lib.Framing
import Arthas.Reactor.Monitor

/-!
Tailing the address trace file. The monitor remembers the size it probed but reads on to
the end of the file as it is then, so what is appended between the probe and the end of the
reading is read again by the next poll; if nothing is, every line is read once.
-/

set_option autoImplicit false
set_option relaxedAutoImplicit false

namespace Arthas.Reactor

open Arthas.Lib Arthas.Utils Arthas.Matcher Arthas.Instrument

/-- The trace file with its monitor. -/
structure Tail where
  file : Text
  monitor : Monitor
  st : TraceState

def Tail.start (varMap : PmemVarGuidMap) (file : Text) : Tail := ⟨file, .new, .new varMap⟩

/-- The writer appends to the file, or the monitor takes a step; an exception ends it. -/
inductive TailStep : Tail → Tail → Prop
  | append (s : Tail) (chunk : Text) : TailStep s { s with file := s.file ++ chunk }
  | monitor {s : Tail} {m : Monitor} {st : TraceState} :
      s.monitor.step s.file s.st = .ok (m, st) → TailStep s { s with monitor := m, st := st }

/-- Between the probe of a size that has grown and the end of the reading. -/
def Monitor.Reading (m : Monitor) : Prop :=
  m.pc = .compare ∧ m.startPos < m.endPos ∨ m.pc = .read ∧ m.eof = false

/-- A step that does not append to the file while it is read. -/
def Undisturbed (s s' : Tail) : Prop := s.monitor.Reading → s'.file = s.file

section Invariant

variable {varMap : PmemVarGuidMap} {s : Tail}

/-- Up to where the lines have been taken in. -/
def Monitor.position (m : Monitor) : Nat := if m.pc = .read then m.pos else m.startPos

/-- What the monitor has taken in is a beginning of the file, line by line, and an
unfinished line. -/
structure Tailed (varMap : PmemVarGuidMap) (s : Tail) : Prop where
  sameMap : s.st.varMap = varMap
  kept : s.monitor.pc ≠ .clear
  known : s.monitor.startPos ≤ s.file.length
  probed : s.monitor.pc = .compare →
    s.monitor.startPos ≤ s.monitor.endPos ∧ s.monitor.endPos ≤ s.file.length
  whole : s.monitor.Reading → s.monitor.endPos = s.file.length
  reading : s.monitor.pc = .read → s.monitor.pos ≤ s.monitor.endPos ∧
    s.monitor.endPos ≤ s.file.length ∧ (s.monitor.eof = true → s.monitor.pos = s.monitor.endPos)
  flagged : s.monitor.isPartial = true ∨ s.monitor.partialLine = []
  taken : ∃ lines, Framed '\n' (s.file.take s.monitor.position) lines s.monitor.partialLine ∧
    lines.foldlM (PmemAddrTrace.readLine (some varMap)) .empty = .ok s.st.addrTrace

theorem tailed_start (varMap : PmemVarGuidMap) (file : Text) : Tailed varMap (.start varMap file) where
  sameMap := rfl
  kept := by simp [Tail.start, Monitor.new]
  known := Nat.zero_le _
  probed := by simp [Tail.start, Monitor.new]
  whole := by simp [Tail.start, Monitor.new, Monitor.Reading]
  reading := by simp [Tail.start, Monitor.new]
  flagged := Or.inr rfl
  taken := ⟨[], Framed.nil '\n', rfl⟩

theorem Tailed.position_le (tailed : Tailed varMap s) : s.monitor.position ≤ s.file.length := by
  unfold Monitor.position
  split
  · next reads =>
    obtain ⟨below, inside, -⟩ := tailed.reading reads
    exact below.trans inside
  · exact tailed.known

theorem Tailed.append (tailed : Tailed varMap s) {chunk : Text}
    (apart : s.monitor.Reading → s.file ++ chunk = s.file) :
    Tailed varMap { s with file := s.file ++ chunk } where
  sameMap := tailed.sameMap
  kept := tailed.kept
  known := tailed.known.trans (by simp)
  probed compares := by
    obtain ⟨grown, inside⟩ := tailed.probed compares
    exact ⟨grown, inside.trans (by simp)⟩
  whole reads := by
    rw [apart reads]
    exact tailed.whole reads
  reading reads := by
    obtain ⟨below, inside, ended⟩ := tailed.reading reads
    exact ⟨below, inside.trans (by simp), ended⟩
  flagged := tailed.flagged
  taken := by
    rw [List.take_append_of_le_length tailed.position_le]
    exact tailed.taken

/-- After a complete line its item is added. -/
theorem Tailed.readLine (tailed : Tailed varMap s) (reads : s.monitor.pc = .read)
    (more : s.monitor.eof = false) {line rest : Text}
    (next : s.file.drop s.monitor.pos = line ++ ['\n'] ++ rest) (free : '\n' ∉ line)
    {addrTrace : PmemAddrTrace}
    (parsed : s.st.addrTrace.readLine (some varMap) (s.monitor.partialLine ++ line) =
      .ok addrTrace) :
    Tailed varMap { s with
      monitor := { s.monitor with
        pos := s.monitor.pos + line.length + 1, partialLine := [], isPartial := false }
      st := { s.st with addrTrace := addrTrace } } := by
  have whole := tailed.whole (Or.inr ⟨reads, more⟩)
  have fits : s.monitor.pos + line.length + 1 ≤ s.file.length := by
    have lengths := congrArg List.length next
    rw [List.length_drop, List.length_append, List.length_append, List.length_singleton] at lengths
    omega
  have front : s.file.take (s.monitor.pos + line.length + 1) =
      s.file.take s.monitor.pos ++ line ++ ['\n'] := by
    have length : (line ++ ['\n']).length = line.length + 1 := by simp
    rw [Nat.add_assoc, List.take_add, next, List.take_left' length, List.append_assoc]
  obtain ⟨lines, framed, items⟩ := tailed.taken
  simp only [Monitor.position, reads, if_true] at framed
  exact {
    sameMap := tailed.sameMap
    kept := tailed.kept
    known := tailed.known
    probed := fun compares => by simp [reads] at compares
    whole := fun _ => whole
    reading := fun _ => ⟨whole ▸ fits, whole.le, fun eof => by simp [more] at eof⟩
    flagged := Or.inr rfl
    taken := by
      refine ⟨lines ++ [s.monitor.partialLine ++ line], ?_, ?_⟩
      · simp only [Monitor.position, reads, if_true, front]
        exact framed.line free
      · rw [List.foldlM_append, items]
        exact (bind_pure _).trans parsed }

/-- After the beginning of a line it is kept for the next poll. -/
theorem Tailed.readPartial (tailed : Tailed varMap s) (reads : s.monitor.pc = .read)
    (more : s.monitor.eof = false) (free : '\n' ∉ s.file.drop s.monitor.pos) :
    Tailed varMap { s with monitor := { s.monitor with
      pos := s.monitor.pos + (s.file.drop s.monitor.pos).length, eof := true
      partialLine := s.monitor.partialLine ++ s.file.drop s.monitor.pos, isPartial := true } } := by
  have whole := tailed.whole (Or.inr ⟨reads, more⟩)
  obtain ⟨below, -, -⟩ := tailed.reading reads
  have ended : s.monitor.pos + (s.file.drop s.monitor.pos).length = s.monitor.endPos := by
    rw [List.length_drop]
    omega
  obtain ⟨lines, framed, items⟩ := tailed.taken
  simp only [Monitor.position, reads, if_true] at framed
  exact {
    sameMap := tailed.sameMap
    kept := tailed.kept
    known := tailed.known
    probed := fun compares => by simp [reads] at compares
    whole := fun _ => whole
    reading := fun _ => ⟨ended.le, whole.le, fun _ => ended⟩
    flagged := Or.inl rfl
    taken := by
      refine ⟨lines, ?_, items⟩
      simp only [Monitor.position, reads, if_true]
      rw [List.take_add, List.take_length]
      exact framed.append free }

/-- At the end of the file the position is the size that was probed. -/
theorem Tailed.readEnd (tailed : Tailed varMap s) (reads : s.monitor.pc = .read)
    (ended : s.monitor.eof = true ∨ s.file.drop s.monitor.pos = []) :
    Tailed varMap { s with
      monitor := { s.monitor with pc := .reopen, startPos := s.monitor.endPos } } := by
  obtain ⟨below, inside, atEof⟩ := tailed.reading reads
  have position : s.monitor.pos = s.monitor.endPos := by
    cases eof : s.monitor.eof with
    | true => exact atEof eof
    | false =>
      have whole := tailed.whole (Or.inr ⟨reads, eof⟩)
      rcases ended with set | none
      · rw [eof] at set
        cases set
      · have past := List.drop_eq_nil_iff.mp none
        omega
  obtain ⟨lines, framed, items⟩ := tailed.taken
  simp only [Monitor.position, reads, if_true, position] at framed
  exact {
    sameMap := tailed.sameMap
    kept := by simp
    known := inside
    probed := by simp
    whole := by simp [Monitor.Reading]
    reading := by simp
    flagged := tailed.flagged
    taken := ⟨lines, by simpa [Monitor.position] using framed, items⟩ }

/-- A step to a place where nothing is compared or read. -/
theorem Tailed.moved (tailed : Tailed varMap s) (idle : s.monitor.pc ≠ .read) {pc : MonitorPc}
    (rests : pc ≠ .clear ∧ pc ≠ .compare ∧ pc ≠ .read) {st : TraceState}
    (same : st.varMap = s.st.varMap ∧ st.addrTrace = s.st.addrTrace) :
    Tailed varMap { s with monitor := { s.monitor with pc := pc }, st := st } where
  sameMap := same.1.trans tailed.sameMap
  kept := rests.1
  known := tailed.known
  probed here := absurd here rests.2.1
  whole reads := by simp [Monitor.Reading, rests] at reads
  reading reads := absurd reads rests.2.2
  flagged := tailed.flagged
  taken := by
    obtain ⟨lines, framed, items⟩ := tailed.taken
    refine ⟨lines, ?_, same.2 ▸ items⟩
    simpa [Monitor.position, idle, rests.2.2] using framed

/-- The size is probed; the file has not shrunk. -/
theorem Tailed.probe (tailed : Tailed varMap s) (probes : s.monitor.pc = .probe) :
    Tailed varMap { s with
      monitor := { s.monitor with pc := .compare, endPos := s.file.length } } where
  sameMap := tailed.sameMap
  kept := by simp
  known := tailed.known
  probed _ := ⟨tailed.known, le_rfl⟩
  whole _ := rfl
  reading := by simp
  flagged := tailed.flagged
  taken := by simpa [Monitor.position, probes] using tailed.taken

/-- The file has grown, and is read from where the last reading ended. -/
theorem Tailed.openRead (tailed : Tailed varMap s) (compares : s.monitor.pc = .compare)
    (larger : s.monitor.startPos < s.monitor.endPos) :
    Tailed varMap { s with
      monitor := { s.monitor with pc := .read, pos := s.monitor.startPos, eof := false } } where
  sameMap := tailed.sameMap
  kept := by simp
  known := tailed.known
  probed := by simp
  whole _ := tailed.whole (Or.inl ⟨compares, larger⟩)
  reading _ := by
    obtain ⟨grown, inside⟩ := tailed.probed compares
    exact ⟨grown, inside, by simp⟩
  flagged := tailed.flagged
  taken := by simpa [Monitor.position, compares] using tailed.taken

/-- The flag tells whether there is an unfinished line, so it need not be looked at. -/
theorem Tailed.unfinished (tailed : Tailed varMap s) (line : Text) :
    (if s.monitor.isPartial = true then s.monitor.partialLine ++ line else line) =
        s.monitor.partialLine ++ line ∧
      (if s.monitor.isPartial = true then [] else s.monitor.partialLine) = [] := by
  rcases tailed.flagged with flag | none
  · rw [if_pos flag, if_pos flag]
    exact ⟨rfl, rfl⟩
  · simp [none]

/-- Every step of the monitor. -/
theorem Tailed.monitor (tailed : Tailed varMap s) {m : Monitor} {st : TraceState}
    (step : s.monitor.step s.file s.st = .ok (m, st)) :
    Tailed varMap { s with monitor := m, st := st } := by
  unfold Monitor.step at step
  split at step
  case h_1 probes =>
    rw [if_neg (not_lt.mpr tailed.known)] at step
    cases step
    exact tailed.probe probes
  case h_2 clears => exact absurd clears tailed.kept
  case h_3 compares =>
    have grown := (tailed.probed compares).1
    split at step
    · cases step
      refine tailed.moved (by simp [compares]) ?_ ⟨rfl, rfl⟩
      split <;> simp
    split at step
    · next unequal larger =>
      cases step
      exact tailed.openRead compares larger
    · next unequal notLarger => exact absurd (lt_of_le_of_ne grown (Ne.symm unequal)) notLarger
  case h_4 signals =>
    cases step
    exact tailed.moved (by simp [signals]) (by simp) ⟨rfl, rfl⟩
  case h_5 reads =>
    rcases Monitor.getline_cases s.file s.monitor with
      ⟨read, ended⟩ | ⟨line, rest, more, next, free, read⟩ | ⟨more, rest, free, read⟩
    · rw [read] at step
      cases step
      exact tailed.readEnd reads ended
    · simp only [read, more, Bool.false_eq_true, false_and, if_false] at step
      obtain ⟨text, cleared⟩ := tailed.unfinished line
      rw [text, cleared, tailed.sameMap] at step
      cases parsed : s.st.addrTrace.readLine (some varMap) (s.monitor.partialLine ++ line) with
      | error e =>
        rw [parsed] at step
        cases step
      | ok addrTrace =>
        rw [parsed] at step
        cases step
        simpa only [more, tailed.sameMap] using tailed.readLine reads more next free parsed
    · simp only [read, rest, ne_eq, not_false_eq_true, and_self, if_true] at step
      cases step
      exact tailed.readPartial reads more free
  case h_6 reopens =>
    cases step
    exact tailed.moved (by simp [reopens]) (by simp) ⟨rfl, rfl⟩

theorem tailed_run {file : Text}
    (run : Relation.ReflTransGen (fun s s' => TailStep s s' ∧ Undisturbed s s')
      (.start varMap file) s) : Tailed varMap s := by
  induction run with
  | refl => exact tailed_start varMap file
  | tail _ next ih =>
    obtain ⟨step, undisturbed⟩ := next
    cases step with
    | append chunk => exact ih.append undisturbed
    | monitor step => exact ih.monitor step

end Invariant

/-- The monitor sees an unchanged size, and it is the size of the whole file. -/
def Tail.SeesUnchanged (s : Tail) : Prop :=
  s.monitor.pc = .compare ∧ s.monitor.endPos = s.monitor.startPos ∧
    s.monitor.endPos = s.file.length

/-- If nothing is appended between the probe of a size that has grown and the end of the
reading, the monitor that sees an unchanged size has added the items that `deserialize`
makes of the file. -/
theorem monitor_tails {varMap : PmemVarGuidMap} {file : Text} {s : Tail}
    (run : Relation.ReflTransGen (fun s s' => TailStep s s' ∧ Undisturbed s s')
      (.start varMap file) s) (sees : s.SeesUnchanged) (ended : ∀ c ∈ s.file.getLast?, c = '\n') :
    PmemAddrTrace.deserialize (some s.file) (some varMap) .empty = .ok (true, s.st.addrTrace) := by
  obtain ⟨compares, unchanged, stopped⟩ := sees
  obtain ⟨lines, framed, items⟩ := (tailed_run run).taken
  have position : s.monitor.position = s.file.length := by
    rw [Monitor.position, if_neg (by simp [compares]), ← unchanged, stopped]
  rw [position, List.take_length] at framed
  have read : getlines s.file = lines := by
    rw [framed.written, framed.rest_eq_nil ended, List.append_nil]
    exact getlines_lines framed.whole
  rw [PmemAddrTrace.deserialize, read, items]
  rfl

section Examples

/-- The next state if only the monitor takes a step. -/
def Tail.monitored (s : Tail) : Tail :=
  match s.monitor.step s.file s.st with
  | .ok (m, st) => { s with monitor := m, st := st }
  | .error _ => s

theorem monitored_run (s : Tail) (n : Nat) :
    Relation.ReflTransGen (fun s s' => TailStep s s' ∧ Undisturbed s s') s
      (Tail.monitored^[n] s) := by
  induction n with
  | zero => exact .refl
  | succ n ih =>
    rw [Function.iterate_succ_apply']
    cases step : (Tail.monitored^[n] s).monitor.step (Tail.monitored^[n] s).file
        (Tail.monitored^[n] s).st with
    | error e =>
      have stays : (Tail.monitored^[n] s).monitored = Tail.monitored^[n] s := by
        rw [Tail.monitored, step]
      rwa [stays]
    | ok next =>
      have moves : (Tail.monitored^[n] s).monitored =
          { Tail.monitored^[n] s with monitor := next.1, st := next.2 } := by
        rw [Tail.monitored, step]
      rw [moves]
      exact ih.tail ⟨.monitor step, fun _ => rfl⟩

/-- A file that ends in the middle of a line, read once. -/
def unfinishedLine : Tail := Tail.monitored^[6] (.start .empty "0x1,5\n0x2".toList)

/-- The line was completed, and read by the next poll. -/
def completedLine : Tail :=
  Tail.monitored^[6] { unfinishedLine with file := unfinishedLine.file ++ ",6\n".toList }

theorem monitor_tails_completed :
    PmemAddrTrace.deserialize (some completedLine.file) (some .empty) .empty =
      .ok (true, completedLine.st.addrTrace) := by
  have first : Relation.ReflTransGen (fun s s' => TailStep s s' ∧ Undisturbed s s')
      (.start .empty "0x1,5\n0x2".toList) unfinishedLine := monitored_run _ 6
  have idle : ¬ unfinishedLine.monitor.Reading := by
    rintro (⟨pc, -⟩ | ⟨pc, -⟩) <;> exact absurd pc (by decide)
  have appended := first.tail ⟨.append unfinishedLine ",6\n".toList, fun reads => (idle reads).elim⟩
  have last : completedLine.file.getLast? = some '\n' := by decide
  exact monitor_tails (appended.trans (monitored_run _ 6)) ⟨by decide, by decide, by decide⟩
    (by simp [last])

/-- A file that has just been probed, with a line that is appended then. -/
def grownFile : Tail :=
  { Tail.monitored^[2] (.start .empty "0x1,5\n".toList) with file := "0x1,5\n0x2,6\n".toList }

/-- The line is read by this poll and by the next one. -/
theorem monitor_tails_twice :
    ¬ ∀ (varMap : PmemVarGuidMap) (file : Text) (s : Tail),
      Relation.ReflTransGen TailStep (.start varMap file) s → s.SeesUnchanged →
      s.file.getLast? = some '\n' →
      (∀ line ∈ getlines s.file, ∃ item,
        Instrument.PmemAddrTraceItem.parse line (.new 0) (some varMap) = .ok (true, item)) →
      PmemAddrTrace.deserialize (some s.file) (some varMap) .empty =
        .ok (true, s.st.addrTrace) := by
  intro claim
  have steps : ∀ (s : Tail) (n : Nat), Relation.ReflTransGen TailStep s (Tail.monitored^[n] s) :=
    fun s n => Relation.ReflTransGen.mono (fun _ _ => And.left) _ _ (monitored_run s n)
  have probed : Relation.ReflTransGen TailStep (.start .empty "0x1,5\n".toList) grownFile :=
    (steps _ 2).tail (.append _ "0x2,6\n".toList)
  have read := claim .empty _ _ (probed.trans (steps _ 10)) ⟨by decide, by decide, by decide⟩
    (by decide) (by
      intro line member
      have lines : getlines (Tail.monitored^[10] grownFile).file =
          ["0x1,5".toList, "0x2,6".toList] := by decide
      rw [lines] at member
      fin_cases member
      · exact ⟨_, rfl⟩
      · exact ⟨_, rfl⟩)
  have counted := congrArg (fun r : Except Exception (Bool × PmemAddrTrace) =>
    r.toOption.map fun p => p.2.items.length) read
  revert counted
  decide

end Examples

end Arthas.Reactor
