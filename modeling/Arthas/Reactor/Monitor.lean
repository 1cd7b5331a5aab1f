import Mathlib
import Arthas.Lib.Multimap
import Arthas.Instrument.AddrTrace

/-!
Reading the address trace file while it grows (`monitor_address_trace`). One step of the
monitor is one operation on the file or one section under the mutex; the file is there from
the start and is never removed.
-/

set_option autoImplicit false
set_option relaxedAutoImplicit false

namespace Arthas.Reactor

open Arthas.Lib Arthas.Utils Arthas.Matcher Arthas.Instrument

/-- The part of `ReactorState` about the address trace, with the multimap `trace_instrs`;
an item in it is given by its address. -/
structure TraceState where
  varMap : PmemVarGuidMap
  addrTrace : PmemAddrTrace
  traceReady : Bool
  traceProcessed : Bool
  processingTrace : Bool
  traceInstrs : Multimap (Option Instruction) Nat

def TraceState.new (varMap : PmemVarGuidMap) : TraceState :=
  ⟨varMap, .empty, false, false, false, []⟩

/-- Where the monitor stands in its loop: `clear` and `signal` are the sections under the
mutex. -/
inductive MonitorPc where
  | probe
  | clear
  | compare
  | signal
  | read
  | reopen
  deriving DecidableEq

/-- The variables of the monitor, and the position and the `eofbit` of its stream. -/
structure Monitor where
  pc : MonitorPc
  startPos : Nat
  endPos : Nat
  partialLine : Text
  isPartial : Bool
  pos : Nat
  eof : Bool

namespace Monitor

def new : Monitor := ⟨.probe, 0, 0, [], false, 0, false⟩

/-- `getline(addrfile, line)`, of the file as it is now; a line that no newline ends sets
`eofbit`, and then no line is read any more. -/
def getline (file : Text) (m : Monitor) : Option (Text × Monitor) :=
  if m.eof then none
  else
    match firstAt ['\n'] (file.drop m.pos) with
    | some (line, _) => some (line, { m with pos := m.pos + line.length + 1 })
    | none =>
      let line := file.drop m.pos
      if line = [] then none
      else some (line, { m with pos := m.pos + line.length, eof := true })

/-- One step of `monitor_address_trace`. -/
def step (file : Text) (m : Monitor) (st : TraceState) : Except Exception (Monitor × TraceState) :=
  match m.pc with
  | .probe =>
    let endPos := file.length
    if endPos < m.startPos then
      .ok ({ m with pc := .clear, startPos := 0, endPos := endPos }, st)
    else .ok ({ m with pc := .compare, endPos := endPos }, st)
  | .clear =>
    .ok ({ m with pc := .compare },
      { st with addrTrace := st.addrTrace.clear, traceReady := false })
  | .compare =>
    if m.endPos = m.startPos then
      .ok ({ m with pc := if 0 < m.startPos then .signal else .reopen }, st)
    else if m.startPos < m.endPos then
      .ok ({ m with pc := .read, pos := m.startPos, eof := false }, st)
    else .ok ({ m with pc := .reopen }, st)
  | .signal => .ok ({ m with pc := .reopen }, { st with traceReady := true })
  | .read =>
    match m.getline file with
    | none => .ok ({ m with pc := .reopen, startPos := m.endPos }, st)
    | some (line, m) =>
      if m.eof ∧ line ≠ [] then
        .ok ({ m with partialLine := m.partialLine ++ line, isPartial := true }, st)
      else do
        let text := if m.isPartial then m.partialLine ++ line else line
        let addrTrace ← st.addrTrace.readLine (some st.varMap) text
        return ({ m with
            partialLine := if m.isPartial then [] else m.partialLine
            isPartial := false },
          { st with addrTrace := addrTrace })
  | .reopen => .ok ({ m with pc := .probe }, st)

section Reads

variable {file : Text} {m : Monitor}

/-- What a read of a line can find: nothing any more, a line with its newline, or the
beginning of a line. -/
theorem getline_cases (file : Text) (m : Monitor) :
    (m.getline file = none ∧ (m.eof = true ∨ file.drop m.pos = [])) ∨
    (∃ line rest, m.eof = false ∧ file.drop m.pos = line ++ ['\n'] ++ rest ∧ '\n' ∉ line ∧
      m.getline file = some (line, { m with pos := m.pos + line.length + 1 })) ∨
    (m.eof = false ∧ file.drop m.pos ≠ [] ∧ '\n' ∉ file.drop m.pos ∧
      m.getline file = some (file.drop m.pos,
        { m with pos := m.pos + (file.drop m.pos).length, eof := true })) := by
  cases eof : m.eof with
  | true => exact Or.inl ⟨by simp [getline, eof], Or.inl rfl⟩
  | false =>
    cases found : firstAt ['\n'] (file.drop m.pos) with
    | some split =>
      obtain ⟨line, rest⟩ := split
      obtain ⟨eq, unbroken⟩ := (firstAt_eq_some_iff (by simp)).mp found
      exact Or.inr (Or.inl ⟨line, rest, rfl, eq, unbroken_single.mp unbroken,
        by simp [getline, eof, found]⟩)
    | none =>
      have free : '\n' ∉ file.drop m.pos := by
        simpa [List.singleton_infix_iff] using (firstAt_eq_none_iff (by simp)).mp found
      have read : m.getline file = if file.drop m.pos = [] then none else
          some (file.drop m.pos,
            { m with pos := m.pos + (file.drop m.pos).length, eof := true }) := by
        rw [getline, if_neg (by simp [eof]), found]
      by_cases rest : file.drop m.pos = []
      · exact Or.inl ⟨read.trans (if_pos rest), Or.inr rest⟩
      · exact Or.inr (Or.inr ⟨rfl, rest, free, read.trans (if_neg rest)⟩)

theorem getline_line {line rest : Text} (more : m.eof = false)
    (next : file.drop m.pos = line ++ ['\n'] ++ rest) (free : '\n' ∉ line) :
    m.getline file = some (line, { m with pos := m.pos + line.length + 1 }) := by
  have found : firstAt ['\n'] (file.drop m.pos) = some (line, rest) :=
    (firstAt_eq_some_iff (by simp)).mpr ⟨next, unbroken_single.mpr free⟩
  rw [getline, if_neg (by simp [more]), found]

end Reads

end Monitor

end Arthas.Reactor
