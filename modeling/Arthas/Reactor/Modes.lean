import Mathlib
import Arthas.Lib.Framing
import Arthas.Reactor.TraceReady

/-!
The two modes of the reactor (`Reactor::prepare`). In server mode the multimap is filled
when a request has processed the trace; in standalone mode `prepare` processes the trace
itself, and the multimap stays empty.
-/

set_option autoImplicit false
set_option relaxedAutoImplicit false

namespace Arthas.Reactor

open Arthas.Lib Arthas.Utils Arthas.Matcher Arthas.Instrument

/-- `Reactor::prepare` from the GUID map on, with what it returns; `none` where resolving an
item is undefined. -/
def prepare (asm : AsmWriter) (M : Module) (hookGuidFile addressFile : Option Text)
    (server : Bool) : Except Exception (Option (Bool × TraceState)) := do
  let (parsed, varMap) ← PmemVarGuidMap.deserialize hookGuidFile .empty false
  let st := TraceState.new varMap
  if parsed = false then return some (false, st)
  if server then return some (true, st)
  let (read, addrTrace) ← PmemAddrTrace.deserialize addressFile (some varMap) st.addrTrace
  if read = false then return some (false, { st with addrTrace := addrTrace })
  if addrTrace.poolEmpty then return some (false, { st with addrTrace := addrTrace })
  let (ok, addrTrace) := addrTrace.calculatePoolOffsets
  if ok = false then return some (false, { st with addrTrace := addrTrace })
  return (addrTrace.addressesToInstructions asm M varMap).map fun (varMap, addrTrace) =>
    (true, { st with varMap := varMap, addrTrace := addrTrace })

section Standalone

variable {asm : AsmWriter} {M : Module} {hookGuidFile addressFile : Option Text} {st : TraceState}

/-- What preparing in standalone mode has done when it returns true. -/
theorem prepare_standalone
    (prepared : prepare asm M hookGuidFile addressFile false = .ok (some (true, st))) :
    ∃ varMap addrTrace,
      PmemVarGuidMap.deserialize hookGuidFile .empty false = .ok (true, varMap) ∧
      PmemAddrTrace.deserialize addressFile (some varMap) .empty = .ok (true, addrTrace) ∧
      addrTrace.poolEmpty = false ∧ addrTrace.calculatePoolOffsets.1 = true ∧
      addrTrace.calculatePoolOffsets.2.addressesToInstructions asm M varMap =
        some (st.varMap, st.addrTrace) ∧
      st.traceInstrs = [] := by
  obtain ⟨⟨parsed, varMap⟩, guids, prepared⟩ := Exception.bind_eq_ok prepared
  cases parsed with
  | false => cases prepared
  | true =>
    obtain ⟨⟨read, addrTrace⟩, trace, prepared⟩ := Exception.bind_eq_ok prepared
    cases read with
    | false => cases prepared
    | true =>
      dsimp only at prepared
      cases pool : addrTrace.poolEmpty with
      | true =>
        rw [pool] at prepared
        cases prepared
      | false =>
        cases ok : addrTrace.calculatePoolOffsets.1 with
        | false =>
          simp only [pool, ok, Bool.true_eq_false, Bool.false_eq_true, if_false, if_true] at prepared
          cases prepared
        | true =>
          simp only [pool, ok, Bool.true_eq_false, Bool.false_eq_true, if_false] at prepared
          obtain ⟨⟨varMap', addrTrace'⟩, resolved, eq⟩ :=
            Option.map_eq_some_iff.mp (Except.ok.inj prepared)
          obtain ⟨-, rfl⟩ := Prod.mk.inj eq
          exact ⟨varMap, addrTrace, guids, trace, pool, ok, resolved, rfl⟩

theorem prepare_server {varMap : PmemVarGuidMap}
    (guids : PmemVarGuidMap.deserialize hookGuidFile .empty false = .ok (true, varMap)) :
    prepare asm M hookGuidFile addressFile true = .ok (some (true, .new varMap)) := by
  rw [prepare, guids]
  rfl

end Standalone

section Bare

variable {varMap : Option PmemVarGuidMap} {trace trace' : PmemAddrTrace}

/-- A line without an item adds no pool. -/
theorem readLine_bare {line : Text} (read : PmemAddrTrace.readLine varMap trace line = .ok trace')
    (bare : trace.items = [] → trace.poolAddrs = []) : trace'.items = [] → trace'.poolAddrs = [] := by
  obtain ⟨⟨ok, item⟩, -, read⟩ := Exception.bind_eq_ok read
  cases ok with
  | false =>
    cases read
    exact bare
  | true =>
    cases read
    intro none
    exact absurd (show trace.items ++ [item] = [] from none) (by simp)

theorem deserialize_bare {file : Text}
    (read : PmemAddrTrace.deserialize (some file) varMap trace = .ok (true, trace'))
    (bare : trace.items = [] → trace.poolAddrs = []) : trace'.items = [] → trace'.poolAddrs = [] := by
  obtain ⟨result, loop, eq⟩ := Exception.bind_eq_ok read
  cases eq
  clear read
  generalize getlines file = lines at loop
  induction lines generalizing trace with
  | nil =>
    cases loop
    exact bare
  | cons line lines ih =>
    obtain ⟨next, first, rest⟩ := Exception.bind_eq_ok loop
    exact ih (readLine_bare first bare) rest

end Bare

section Polls

variable {file : Text} {st : TraceState}

/-- Steps of the monitor on a file that does not change. -/
def MonitorRun (file : Text) : Monitor × TraceState → Monitor × TraceState → Prop :=
  Relation.ReflTransGen fun p q => p.1.step file p.2 = .ok q

/-- Complete lines are read one after the other, up to the end of the file. -/
theorem reads_lines {lines : List Text} (whole : ∀ line ∈ lines, '\n' ∉ line)
    {m : Monitor} (reads : m.pc = .read) (more : m.eof = false) (nothing : m.isPartial = false)
    (next : file.drop m.pos = lines.flatMap (· ++ ['\n'])) {addrTrace : PmemAddrTrace}
    (items : lines.foldlM (PmemAddrTrace.readLine (some st.varMap)) st.addrTrace = .ok addrTrace) :
    ∃ pos, MonitorRun file (m, st) ({ m with pc := .reopen, pos := pos, startPos := m.endPos },
      { st with addrTrace := addrTrace }) := by
  induction lines generalizing m st with
  | nil =>
    cases items
    have ended : m.getline file = none := by
      rcases m.getline_cases file with ⟨read, -⟩ | ⟨line, rest, -, left, -, -⟩ | ⟨-, left, -, -⟩
      · exact read
      · simp [next] at left
      · exact absurd next left
    refine ⟨m.pos, .single ?_⟩
    simp only [Monitor.step, reads, ended]
  | cons line lines ih =>
    obtain ⟨trace, first, rest⟩ := Exception.bind_eq_ok items
    have split : file.drop m.pos = line ++ ['\n'] ++ lines.flatMap (· ++ ['\n']) := by
      rw [next, List.flatMap_cons]
    have read := Monitor.getline_line more split (whole line List.mem_cons_self)
    have behind : file.drop (m.pos + line.length + 1) = lines.flatMap (· ++ ['\n']) := by
      have length : (line ++ ['\n']).length = line.length + 1 := by simp
      rw [Nat.add_assoc, ← List.drop_drop, split, List.drop_left' length]
    obtain ⟨pos, run⟩ := @ih { st with addrTrace := trace }
      (fun l member => whole l (List.mem_cons_of_mem _ member))
      { m with pos := m.pos + line.length + 1 } reads more nothing behind rest
    refine ⟨pos, .head ?_ run⟩
    simp only [Monitor.step, reads, read, more, Bool.false_eq_true, false_and, if_false, nothing,
      first]
    rfl

/-- A file of complete lines is read by the first poll, and the second one finds its size
unchanged. -/
theorem polls_file {varMap : PmemVarGuidMap} {addrTrace : PmemAddrTrace} (nonempty : file ≠ [])
    (finished : ∀ c ∈ file.getLast?, c = '\n')
    (items : PmemAddrTrace.deserialize (some file) (some varMap) .empty = .ok (true, addrTrace)) :
    ∃ m, MonitorRun file (.new, .new varMap)
      (m, { TraceState.new varMap with addrTrace := addrTrace, traceReady := true }) := by
  obtain ⟨lines, rest, framed⟩ := Framed.exists_framed '\n' file
  have written : file = lines.flatMap (· ++ ['\n']) := by
    have eq := framed.written
    rwa [framed.rest_eq_nil finished, List.append_nil] at eq
  have read : getlines file = lines := by
    rw [written]
    exact getlines_lines framed.whole
  have added : lines.foldlM (PmemAddrTrace.readLine (some varMap)) .empty = .ok addrTrace := by
    rw [PmemAddrTrace.deserialize, read] at items
    obtain ⟨trace, added, eq⟩ := Exception.bind_eq_ok items
    cases eq
    exact added
  have size : 0 < file.length := List.length_pos_iff.mpr nonempty
  let probed : Monitor := { Monitor.new with pc := .compare, endPos := file.length }
  let reading : Monitor := { probed with pc := .read }
  obtain ⟨pos, run⟩ := @reads_lines file (.new varMap) lines framed.whole reading rfl rfl rfl
    written addrTrace added
  let closed : Monitor := { reading with pc := .reopen, pos := pos, startPos := file.length }
  let st : TraceState := { TraceState.new varMap with addrTrace := addrTrace }
  have first : MonitorRun file (.new, .new varMap) (reading, .new varMap) := by
    refine .head (b := (probed, .new varMap)) rfl (.single ?_)
    simp [Monitor.step, probed, reading, Monitor.new, size, size.ne']
  have second : MonitorRun file (closed, st) ({ closed with pc := .reopen },
      { st with traceReady := true }) := by
    refine .head (b := ({ closed with pc := .probe }, st)) rfl
      (.head (b := ({ closed with pc := .compare }, st)) ?_
        (.head (b := ({ closed with pc := .signal }, st)) ?_ (.single rfl)))
    · simp [Monitor.step, closed, reading, probed]
    · simp [Monitor.step, closed, reading, probed, size]
  exact ⟨_, (first.trans run).trans second⟩

end Polls

namespace TraceServer

variable {ι : Type*} [DecidableEq ι] {asm : AsmWriter} {M : Module} {s : TraceServer ι} {i : ι}

/-- A step that leaves the trace file as it is. -/
def FixedStep (asm : AsmWriter) (M : Module) (s s' : TraceServer ι) : Prop :=
  Step asm M s s' ∧ s'.file = s.file

section Request

theorem waitStep_called (here : (s.requests i).pc = .called) (free : s.mutex = none)
    (unprocessed : s.st.traceProcessed = false) (unclaimed : s.st.processingTrace = false)
    (ready : s.st.traceReady = true) :
    waitStep asm M i s = some ({ s with
      st := { s.st with processingTrace := true }, mutex := some i }.goto i .checkPool) := by
  simp [waitStep, here, free, unprocessed, unclaimed, ready]

theorem waitStep_checkPool (here : (s.requests i).pc = .checkPool)
    (pool : s.st.addrTrace.poolEmpty = false) :
    waitStep asm M i s = some (s.goto i .offsets) := by
  simp [waitStep, here, pool]

theorem waitStep_offsets (here : (s.requests i).pc = .offsets)
    (ok : s.st.addrTrace.calculatePoolOffsets.1 = true) :
    waitStep asm M i s = some ({ s with
      st := { s.st with addrTrace := s.st.addrTrace.calculatePoolOffsets.2 }
      offsetsDone := s.st.addrTrace.calculatePoolOffsets.2.items.map
        Instrument.PmemAddrTraceItem.ptr }.goto i
        .resolve) := by
  simp [waitStep, here, ok, TraceState.itemPtrs]

theorem waitStep_resolve (here : (s.requests i).pc = .resolve) {varMap : PmemVarGuidMap}
    {addrTrace : PmemAddrTrace}
    (resolved : s.st.addrTrace.addressesToInstructions asm M s.st.varMap = some (varMap, addrTrace)) :
    waitStep asm M i s = some ({ s with
      st := { s.st with varMap := varMap, addrTrace := addrTrace }
      instrsDone := addrTrace.items.map Instrument.PmemAddrTraceItem.ptr }.goto i .index) := by
  simp [waitStep, here, resolved, TraceState.itemPtrs]

theorem waitStep_index (here : (s.requests i).pc = .index) :
    waitStep asm M i s = some ({ s with
      st := { s.st with
        traceInstrs := s.st.traceInstrs ++ indexItems s.st.addrTrace.items
        traceProcessed := true
        processingTrace := false }
      mutex := none }.goto i (.returned true)) := by
  simp [waitStep, here]

/-- A request that finds the trace ready processes it and returns true. -/
theorem request_run (idle : (s.requests i).pc = .idle) (free : s.mutex = none)
    (unprocessed : s.st.traceProcessed = false) (unclaimed : s.st.processingTrace = false)
    (ready : s.st.traceReady = true) (pool : s.st.addrTrace.poolEmpty = false)
    (ok : s.st.addrTrace.calculatePoolOffsets.1 = true) {varMap : PmemVarGuidMap}
    {addrTrace : PmemAddrTrace}
    (resolved : s.st.addrTrace.calculatePoolOffsets.2.addressesToInstructions asm M s.st.varMap =
      some (varMap, addrTrace)) :
    ∃ s', Relation.ReflTransGen (FixedStep asm M) s s' ∧ (s'.requests i).pc = .returned true ∧
      s'.st.traceInstrs = s.st.traceInstrs ++ indexItems addrTrace.items := by
  have waits : ∀ {t t' : TraceServer ι}, waitStep asm M i t = some t' → t'.file = t.file →
      FixedStep asm M t t' := fun step file => ⟨⟨.wait i, step⟩, file⟩
  let called : TraceServer ι :=
    { s with requests := Function.update s.requests i ⟨.called, s.st.itemPtrs⟩ }
  have call : FixedStep asm M s called := ⟨⟨.call i, by simp only [next, idle]; rfl⟩, rfl⟩
  let claimed : TraceServer ι :=
    { called with st := { s.st with processingTrace := true }, mutex := some i }.goto i .checkPool
  have claim : waitStep asm M i called = some claimed :=
    waitStep_called (by simp [called]) free unprocessed unclaimed ready
  have check : waitStep asm M i claimed = some (claimed.goto i .offsets) :=
    waitStep_checkPool (goto_self _ _ _) pool
  let placed : TraceServer ι :=
    { claimed.goto i .offsets with
      st := { claimed.st with addrTrace := claimed.st.addrTrace.calculatePoolOffsets.2 }
      offsetsDone := claimed.st.addrTrace.calculatePoolOffsets.2.items.map
        Instrument.PmemAddrTraceItem.ptr }.goto i .resolve
  have place : waitStep asm M i (claimed.goto i .offsets) = some placed :=
    waitStep_offsets (goto_self _ _ _) ok
  have resolve := waitStep_resolve (s := placed) (goto_self _ _ _) resolved
  exact ⟨_, .head call (.head (waits claim rfl) (.head (waits check rfl) (.head (waits place rfl)
    (.head (waits resolve rfl) (.single (waits (waitStep_index (goto_self _ _ _)) rfl)))))),
    goto_self _ _ _, rfl⟩

end Request

/-- The monitor at work on a file that does not change, while no request has the mutex. -/
theorem monitor_run (free : s.mutex = none) {m : Monitor} {st : TraceState}
    (run : MonitorRun s.file (s.monitor, s.st) (m, st)) :
    Relation.ReflTransGen (FixedStep asm M) s { s with monitor := m, st := st } := by
  generalize final : (m, st) = q at run
  induction run generalizing m st with
  | refl =>
    cases final
    exact .refl
  | @tail p q _ step ih =>
    subst final
    refine (@ih p.1 p.2 rfl).tail ⟨⟨.monitor, ?_⟩, rfl⟩
    simp only [next, free, Option.isSome_none, Bool.false_eq_true, and_false, if_false, step]

end TraceServer

section Modes

variable {asm : AsmWriter} {M : Module} {hookGuidFile : Option Text} {file : Text}
  {st : TraceState}

/-- Where standalone mode prepares the trace, a request in server mode returns true with a
pair for every item of the same trace. -/
theorem server_run (finished : ∀ c ∈ file.getLast?, c = '\n')
    (standalone : prepare asm M hookGuidFile (some file) false = .ok (some (true, st)))
    {ι : Type*} [DecidableEq ι] (i : ι) :
    ∃ varMap, prepare asm M hookGuidFile (some file) true = .ok (some (true, .new varMap)) ∧
      ∃ s : TraceServer ι,
        Relation.ReflTransGen (TraceServer.FixedStep asm M) (.start varMap file) s ∧
        (s.requests i).pc = .returned true ∧
        s.st.traceInstrs = indexItems st.addrTrace.items := by
  obtain ⟨varMap, addrTrace, guids, trace, pool, ok, resolved, -⟩ := prepare_standalone standalone
  have nonempty : file ≠ [] := by
    rintro rfl
    cases trace
    simp [PmemAddrTrace.poolEmpty, PmemAddrTrace.empty] at pool
  obtain ⟨m, polls⟩ := polls_file nonempty finished trace
  let ready : TraceServer ι := { TraceServer.start varMap file with
    monitor := m
    st := { TraceState.new varMap with addrTrace := addrTrace, traceReady := true } }
  have monitored : Relation.ReflTransGen (TraceServer.FixedStep asm M) (.start varMap file) ready :=
    TraceServer.monitor_run rfl polls
  obtain ⟨s, run, returned, indexed⟩ :=
    TraceServer.request_run (s := ready) (i := i) rfl rfl rfl rfl rfl pool ok resolved
  exact ⟨varMap, prepare_server guids, s, monitored.trans run, returned, indexed⟩

/-- There is an item, for there is a pool; but no pair. -/
theorem standalone_not_indexed
    (standalone : prepare asm M hookGuidFile (some file) false = .ok (some (true, st))) :
    ¬ (indexItems st.addrTrace.items).Perm st.traceInstrs := by
  obtain ⟨varMap, addrTrace, -, trace, pool, -, resolved, instrs⟩ := prepare_standalone standalone
  intro same
  rw [instrs] at same
  have none : st.addrTrace.items = [] := List.map_eq_nil_iff.mp same.eq_nil
  have ptrs : addrTrace.items.map Instrument.PmemAddrTraceItem.ptr = [] := by
    rw [← (calculatePoolOffsets_ptrs addrTrace).1, ← (addressesToInstructions_ptrs resolved).1, none]
    rfl
  have bare := deserialize_bare trace (fun _ => rfl) (List.map_eq_nil_iff.mp ptrs)
  rw [PmemAddrTrace.poolEmpty, bare] at pool
  cases pool

/-- Wherever standalone mode prepares the trace, its multimap is not the one that server
mode comes to hold for the same files. -/
theorem modes_differ (finished : ∀ c ∈ file.getLast?, c = '\n')
    (standalone : prepare asm M hookGuidFile (some file) false = .ok (some (true, st)))
    {ι : Type*} [DecidableEq ι] (i : ι) :
    ∃ varMap, prepare asm M hookGuidFile (some file) true = .ok (some (true, .new varMap)) ∧
      ∃ s : TraceServer ι,
        Relation.ReflTransGen (TraceServer.FixedStep asm M) (.start varMap file) s ∧
        (s.requests i).pc = .returned true ∧ ¬ s.st.traceInstrs.Perm st.traceInstrs := by
  obtain ⟨varMap, server, s, run, returned, indexed⟩ := server_run finished standalone i
  refine ⟨varMap, server, s, run, returned, ?_⟩
  rw [indexed]
  exact standalone_not_indexed standalone

open TraceServer in
theorem twoLines_prepared : ∃ st, prepare .unary noFunctions (some poolGuids.serialize)
    (some twoLines.file) false = .ok (some (true, st)) :=
  ⟨_, rfl⟩

open TraceServer in
theorem modes_differ_twoLines :
    ∃ (st : TraceState) (varMap : PmemVarGuidMap) (s : TraceServer Unit),
      Relation.ReflTransGen (FixedStep .unary noFunctions) (.start varMap twoLines.file) s ∧
        ¬ s.st.traceInstrs.Perm st.traceInstrs := by
  obtain ⟨st, standalone⟩ := twoLines_prepared
  have last : twoLines.file.getLast? = some '\n' := by decide
  obtain ⟨varMap, -, s, run, -, differ⟩ := modes_differ (by simp [last]) standalone ()
  exact ⟨st, varMap, s, run, differ⟩

open TraceServer in
/-- A pool and one item in it, prepared in both modes. -/
theorem modes_agree_fails :
    ¬ ∀ (asm : AsmWriter) (M : Module) (hookGuidFile : Option Text) (file : Text) (st : TraceState),
      (∀ c ∈ file.getLast?, c = '\n') →
      prepare asm M hookGuidFile (some file) false = .ok (some (true, st)) →
      ∀ varMap, prepare asm M hookGuidFile (some file) true = .ok (some (true, .new varMap)) →
      ∀ s : TraceServer Unit, Relation.ReflTransGen (FixedStep asm M) (.start varMap file) s →
        (s.requests ()).pc = .returned true → s.st.traceInstrs.Perm st.traceInstrs := by
  intro claim
  obtain ⟨st, standalone⟩ := twoLines_prepared
  have last : twoLines.file.getLast? = some '\n' := by decide
  have finished : ∀ c ∈ twoLines.file.getLast?, c = '\n' := by simp [last]
  obtain ⟨varMap, server, s, run, returned, indexed⟩ := server_run finished standalone ()
  have same := claim _ _ _ _ st finished standalone varMap server s run returned
  rw [indexed] at same
  exact standalone_not_indexed standalone same

end Modes

end Arthas.Reactor
