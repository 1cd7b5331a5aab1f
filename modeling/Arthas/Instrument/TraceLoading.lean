import Arthas.Instrument.AddrTrace

/-!
Loading a trace with what it reports of its lines (`PmemAddrTrace::deserialize`). A line
with another number of fields than two is reported and skipped; a line with two fields is
never reported, so malformed fields end the loading or are taken for what they begin with.
-/

set_option autoImplicit false
set_option relaxedAutoImplicit false

namespace Arthas.Instrument

open Arthas.Lib Arthas.Utils

/-- The variables of `deserialize`, and the lines it has reported as unrecognized. -/
structure TraceLoading where
  trace : PmemAddrTrace
  lineno : UInt32
  reported : List (UInt32 × Text)

namespace TraceLoading

/-- One line of the file. -/
def readLine (varMap : Option PmemVarGuidMap) (s : TraceLoading) (line : Text) :
    Except Exception TraceLoading := do
  let lineno := s.lineno + 1
  let (ok, item) ← PmemAddrTraceItem.parse line (.new s.trace.allocated) varMap
  let trace := { s.trace with allocated := s.trace.allocated + 1 }
  return if ok then { s with trace := trace.add item, lineno := lineno }
    else { s with trace := trace, lineno := lineno, reported := s.reported ++ [(lineno, line)] }

/-- `PmemAddrTrace::deserialize` with what it reports, of a file that can be opened. -/
def deserialize (content : Text) (varMap : Option PmemVarGuidMap) (result : PmemAddrTrace) :
    Except Exception (Bool × TraceLoading) := do
  let s ← (getlines content).foldlM (readLine varMap) ⟨result, 0, []⟩
  return (true, s)

/-- The trace that is loaded does not depend on the reports. -/
theorem readLine_trace (varMap : Option PmemVarGuidMap) (s : TraceLoading) (line : Text) :
    (readLine varMap s line).map TraceLoading.trace =
      PmemAddrTrace.readLine varMap s.trace line := by
  unfold readLine PmemAddrTrace.readLine
  cases PmemAddrTraceItem.parse line (.new s.trace.allocated) varMap with
  | error e => rfl
  | ok read =>
    obtain ⟨ok, item⟩ := read
    cases ok <;> rfl

theorem foldlM_readLine_trace (varMap : Option PmemVarGuidMap) (lines : List Text)
    (s : TraceLoading) :
    (lines.foldlM (readLine varMap) s).map TraceLoading.trace =
      lines.foldlM (PmemAddrTrace.readLine varMap) s.trace := by
  induction lines generalizing s with
  | nil => rfl
  | cons line lines ih =>
    rw [List.foldlM_cons, List.foldlM_cons, ← readLine_trace]
    cases readLine varMap s line with
    | error e => rfl
    | ok next => exact ih next

theorem deserialize_trace (content : Text) (varMap : Option PmemVarGuidMap)
    (result : PmemAddrTrace) :
    (deserialize content varMap result).map (fun r => (r.1, r.2.trace)) =
      PmemAddrTrace.deserialize (some content) varMap result := by
  have loop := foldlM_readLine_trace varMap (getlines content) ⟨result, 0, []⟩
  unfold deserialize PmemAddrTrace.deserialize
  simp only
  rw [← loop]
  cases (getlines content).foldlM (readLine varMap) ⟨result, 0, []⟩ <;> rfl

end TraceLoading

/-- What a well-formed line of a trace holds. -/
structure TraceRecord where
  addrStr : Text
  addr : UInt64
  guid : UInt64
  deriving DecidableEq

/-- The number of 64 bits that a text of digits only stands for. -/
def numeral64 (base : Nat) (digits : Text) : Option UInt64 :=
  if digits.isEmpty = false ∧ digits.all (isDigitIn base) = true ∧
    numeralValue base digits ≤ uint64Max
  then some (UInt64.ofNat (numeralValue base digits)) else none

namespace TraceRecord

/-- A well-formed line: a hexadecimal address, with or without a prefix, one comma and a
decimal GUID. -/
def ofLine (line : Text) : Option TraceRecord :=
  match splitList line PmemAddrTraceItem.itemSeparator with
  | [addrStr, guidStr] => do
    let addr ← numeral64 16 (PmemAddrTraceItem.stripHexPrefix addrStr)
    let guid ← numeral64 10 guidStr
    return ⟨addrStr, addr, guid⟩
  | _ => none

/-- The item of a record, created at an address. -/
def item (varMap : Option PmemVarGuidMap) (r : TraceRecord) (p : Nat) : PmemAddrTraceItem :=
  let item := { PmemAddrTraceItem.new p with
    addrStr := r.addrStr, addr := r.addr, guid := r.guid }
  varMap.elim item item.attach

/-- The items of the well-formed lines, in order; an item is created for every line. -/
def items (varMap : Option PmemVarGuidMap) (allocated : Nat) (lines : List Text) :
    List PmemAddrTraceItem :=
  (lines.zipIdx allocated).filterMap fun l => (ofLine l.1).map fun r => r.item varMap l.2

/-- The other lines with their numbers. -/
def malformed (lineno : Nat) (lines : List Text) : List (UInt32 × Text) :=
  ((lines.zipIdx (lineno + 1)).filter fun l => (ofLine l.1).isNone).map fun l =>
    (UInt32.ofNat l.2, l.1)

end TraceRecord

section Fields

variable {line : Text}

/-- The line splits into two fields at its only comma. -/
theorem splitList_pair_iff {a g : Text} :
    splitList line PmemAddrTraceItem.itemSeparator = [a, g] ↔
      line = a ++ ',' :: g ∧ ',' ∉ a ∧ ',' ∉ g := by
  have separator : PmemAddrTraceItem.itemSeparator = [','] := rfl
  have joined : [','].intercalate [a, g] = a ++ ',' :: g := by
    rw [List.intercalate_cons_cons, List.intercalate_singleton, List.append_assoc]
    rfl
  rw [separator]
  constructor
  · intro fields
    have nonempty : line ≠ [] := by
      intro empty
      rw [empty, splitList, if_pos rfl] at fields
      cases fields
    rw [splitList, if_neg nonempty] at fields
    have whole := intercalate_split (by simp : [','] ≠ []) line
    obtain ⟨apart, last⟩ : Separable [','] [a, g] := by
      rw [← fields]
      exact (cuts_separable (by simp) le_rfl).1
    rw [fields, joined] at whole
    exact ⟨whole.symm, unbroken_single.mp apart, fun member =>
      last ((List.singleton_infix_iff _ _).mpr member)⟩
  · intro parts
    obtain ⟨eq, first, second⟩ := parts
    have comma : ∀ field ∈ [a] ++ [g], ',' ∉ field := by
      intro field member
      rcases List.mem_append.mp member with here | here
      · rw [List.mem_singleton.mp here]
        exact first
      · rw [List.mem_singleton.mp here]
        exact second
    have written : [','].intercalate [a, g] ≠ [] := by simp [joined]
    rw [eq, ← joined]
    exact (splitList_intercalate_iff (by simp) written).mpr (separable_single comma)

theorem count_comma_iff :
    line.count ',' = 1 ↔ ∃ a g, line = a ++ ',' :: g ∧ ',' ∉ a ∧ ',' ∉ g := by
  constructor
  · intro once
    have member : ',' ∈ line := List.count_pos_iff.mp (by omega)
    obtain ⟨a, g, rfl, first⟩ := List.eq_append_cons_of_mem member
    refine ⟨a, g, rfl, first, ?_⟩
    rw [List.count_append, List.count_cons_self, List.count_eq_zero.mpr first] at once
    exact List.count_eq_zero.mp (by omega)
  · intro parts
    obtain ⟨a, g, rfl, first, second⟩ := parts
    rw [List.count_append, List.count_cons_self, List.count_eq_zero.mpr first,
      List.count_eq_zero.mpr second]

theorem numeral64_eq_some_iff {base : Nat} {digits : Text} {value : UInt64} :
    numeral64 base digits = some value ↔
      digits ≠ [] ∧ (∀ c ∈ digits, isDigitIn base c = true) ∧
        numeralValue base digits = value.toNat := by
  have small := value.toNat_lt
  have top : uint64Max = 2 ^ 64 - 1 := rfl
  rw [numeral64, Option.ite_none_right_eq_some, Option.some.injEq, List.isEmpty_eq_false_iff,
    List.all_eq_true]
  constructor
  · intro read
    obtain ⟨⟨nonempty, digit, fits⟩, rfl⟩ := read
    refine ⟨nonempty, digit, ?_⟩
    exact (UInt64.toNat_ofNat_of_lt' (by simp only [UInt64.size]; omega)).symm
  · intro read
    obtain ⟨nonempty, digit, eq⟩ := read
    refine ⟨⟨nonempty, digit, by omega⟩, ?_⟩
    rw [eq, UInt64.ofNat_toNat]

/-- Digits that follow no prefix are all read. -/
theorem str2fmt_numeral64 {hex : Bool} {digits : Text} {value : UInt64}
    (read : numeral64 (if hex then 16 else 10) digits = some value) :
    str2fmt uint64Max digits hex = .ok value.toNat := by
  obtain ⟨nonempty, digit, eq⟩ := numeral64_eq_some_iff.mp read
  have small := value.toNat_lt
  have top : uint64Max = 2 ^ 64 - 1 := rfl
  have extracted := @extractUnsigned_digits uint64Max hex digits [] nonempty digit (by simp)
    (fun isHex c second => by
      rw [List.append_nil] at second
      have isDigit := digit c (List.mem_of_getElem? second)
      rw [if_pos isHex] at isDigit
      constructor
      · rintro rfl
        exact absurd isDigit (by decide)
      · rintro rfl
        exact absurd isDigit (by decide))
    (by omega)
  rw [List.append_nil, eq] at extracted
  rw [str2fmt, extracted]

/-- What is left of an address without its prefix. -/
theorem stripHexPrefix_eq_iff {addrStr digits : Text}
    (digit : ∀ c ∈ digits, isDigitIn 16 c = true) :
    PmemAddrTraceItem.stripHexPrefix addrStr = digits ↔
      addrStr = digits ∨ addrStr = '0' :: 'x' :: digits ∨ addrStr = '0' :: 'X' :: digits := by
  have notPrefix : ¬ (digits[0]? = some '0' ∧ (digits[1]? = some 'x' ∨ digits[1]? = some 'X')) := by
    intro front
    rcases front.2 with second | second
    · exact absurd (digit _ (List.mem_of_getElem? second)) (by decide)
    · exact absurd (digit _ (List.mem_of_getElem? second)) (by decide)
  rw [PmemAddrTraceItem.stripHexPrefix]
  constructor
  · intro stripped
    split at stripped
    · next front =>
      obtain ⟨first, second⟩ := front
      obtain ⟨c, tail, rfl⟩ : ∃ c tail, addrStr = c :: tail :=
        List.exists_cons_of_ne_nil (by rintro rfl; cases first)
      obtain ⟨d, rest, rfl⟩ : ∃ d rest, tail = d :: rest :=
        List.exists_cons_of_ne_nil (by rintro rfl; simp at second)
      simp only [List.getElem?_cons_zero, Option.some.injEq] at first
      simp only [List.getElem?_cons_succ, List.getElem?_cons_zero, Option.some.injEq] at second
      simp only [List.drop_succ_cons, List.drop_zero] at stripped
      rw [first, stripped]
      right
      rcases second with rfl | rfl
      · exact Or.inl rfl
      · exact Or.inr rfl
    · exact Or.inl stripped
  · intro written
    rcases written with rfl | rfl | rfl
    · rw [if_neg notPrefix]
    · rfl
    · rfl

/-- A line is well formed exactly if it is a hexadecimal number of 64 bits, with or without
the prefix `0x` or `0X`, one comma and a decimal number of 64 bits. -/
theorem TraceRecord.ofLine_eq_some_iff {r : TraceRecord} :
    TraceRecord.ofLine line = some r ↔
      ∃ addrDigits guidDigits, line = r.addrStr ++ ',' :: guidDigits ∧
        (r.addrStr = addrDigits ∨ r.addrStr = '0' :: 'x' :: addrDigits ∨
          r.addrStr = '0' :: 'X' :: addrDigits) ∧
        numeral64 16 addrDigits = some r.addr ∧ numeral64 10 guidDigits = some r.guid := by
  rw [TraceRecord.ofLine]
  constructor
  · intro read
    split at read
    · next addrStr guidStr fields =>
      obtain ⟨addr, addrRead, read⟩ := Option.bind_eq_some_iff.mp read
      obtain ⟨guid, guidRead, read⟩ := Option.bind_eq_some_iff.mp read
      cases read
      have digit := (numeral64_eq_some_iff.mp addrRead).2.1
      exact ⟨_, guidStr, (splitList_pair_iff.mp fields).1, (stripHexPrefix_eq_iff digit).mp rfl,
        addrRead, guidRead⟩
    · cases read
  · intro written
    obtain ⟨addrDigits, guidDigits, eq, address, addrRead, guidRead⟩ := written
    have addrDigit := (numeral64_eq_some_iff.mp addrRead).2.1
    have guidDigit := (numeral64_eq_some_iff.mp guidRead).2.1
    have noComma : ∀ {base : Nat} {digits : Text}, isDigitIn base ',' = false →
        (∀ c ∈ digits, isDigitIn base c = true) → ',' ∉ digits := by
      intro base digits other digit member
      rw [digit ',' member] at other
      cases other
    have first : ',' ∉ r.addrStr := by
      have free := noComma (by decide) addrDigit
      rcases address with same | same | same
      · rw [same]
        exact free
      · rw [same]
        simpa using free
      · rw [same]
        simpa using free
    have fields := splitList_pair_iff.mpr ⟨eq, first, noComma (by decide) guidDigit⟩
    rw [fields]
    simp only [(stripHexPrefix_eq_iff addrDigit).mpr address, addrRead, guidRead,
      Option.bind_eq_bind, Option.bind_some, Option.pure_def]

/-- A well-formed line gives the item of its record. -/
theorem parse_record {varMap : Option PmemVarGuidMap} {p : Nat} {r : TraceRecord}
    (record : TraceRecord.ofLine line = some r) :
    PmemAddrTraceItem.parse line (.new p) varMap = .ok (true, r.item varMap p) := by
  unfold TraceRecord.ofLine at record
  split at record
  · next addrStr guidStr fields =>
    obtain ⟨addr, addrRead, record⟩ := Option.bind_eq_some_iff.mp record
    obtain ⟨guid, guidRead, record⟩ := Option.bind_eq_some_iff.mp record
    cases record
    unfold PmemAddrTraceItem.parse
    rw [fields]
    simp only [@str2fmt_numeral64 true _ _ addrRead, @str2fmt_numeral64 false _ _ guidRead]
    simp [bind, Except.bind, pure, Except.pure, TraceRecord.item]
  · cases record

/-- A line with another number of fields than two is left out. -/
theorem parse_of_count_ne {varMap : Option PmemVarGuidMap} {item : PmemAddrTraceItem}
    (other : line.count ',' ≠ 1) :
    PmemAddrTraceItem.parse line item varMap = .ok (false, item) ∧
      TraceRecord.ofLine line = none := by
  have fields : ∀ a g, splitList line PmemAddrTraceItem.itemSeparator ≠ [a, g] := by
    intro a g eq
    exact other (count_comma_iff.mpr ⟨a, g, splitList_pair_iff.mp eq⟩)
  constructor
  · unfold PmemAddrTraceItem.parse
    split
    · next eq => exact absurd eq (fields _ _)
    · rfl
  · unfold TraceRecord.ofLine
    split
    · next eq => exact absurd eq (fields _ _)
    · rfl

/-- A line with two fields is not left out, whatever they hold. -/
theorem parse_of_count {varMap : Option PmemVarGuidMap} {item item' : PmemAddrTraceItem}
    {ok : Bool} (once : line.count ',' = 1)
    (parsed : PmemAddrTraceItem.parse line item varMap = .ok (ok, item')) : ok = true := by
  obtain ⟨a, g, parts⟩ := count_comma_iff.mp once
  unfold PmemAddrTraceItem.parse at parsed
  rw [splitList_pair_iff.mpr parts] at parsed
  simp only at parsed
  obtain ⟨addr, -, parsed⟩ := Exception.bind_eq_ok parsed
  obtain ⟨guid, -, parsed⟩ := Exception.bind_eq_ok parsed
  cases parsed
  rfl

example : (PmemAddrTraceItem.parse "0x10,12abc".toList (.new 0) none).map (fun r => r.2.guid) =
    .ok 12 := by
  rfl

end Fields

namespace TraceLoading

variable {varMap : Option PmemVarGuidMap} {lines : List Text} {s s' : TraceLoading}

/-- The file is loaded to its end; the well-formed lines give the items, in order, and all
others are reported and change nothing else. -/
def LoadsRecords (content : Text) (varMap : Option PmemVarGuidMap) (result : PmemAddrTrace) :
    Prop :=
  let lines := getlines content
  deserialize content varMap result = .ok (true,
    { trace := (TraceRecord.items varMap result.allocated lines).foldl PmemAddrTrace.add
        { result with allocated := result.allocated + lines.length }
      lineno := UInt32.ofNat lines.length
      reported := TraceRecord.malformed 0 lines })

theorem items_cons_some {line : Text} {r : TraceRecord} (record : TraceRecord.ofLine line = some r)
    (allocated : Nat) (lines : List Text) :
    TraceRecord.items varMap allocated (line :: lines) =
      r.item varMap allocated :: TraceRecord.items varMap (allocated + 1) lines := by
  simp [TraceRecord.items, List.zipIdx_cons, record]

theorem items_cons_none {line : Text} (record : TraceRecord.ofLine line = none)
    (allocated : Nat) (lines : List Text) :
    TraceRecord.items varMap allocated (line :: lines) =
      TraceRecord.items varMap (allocated + 1) lines := by
  simp [TraceRecord.items, List.zipIdx_cons, record]

theorem malformed_cons (line : Text) (n : Nat) (lines : List Text) :
    TraceRecord.malformed n (line :: lines) =
      (if (TraceRecord.ofLine line).isNone then [(UInt32.ofNat (n + 1), line)] else []) ++
        TraceRecord.malformed (n + 1) lines := by
  rw [TraceRecord.malformed, List.zipIdx_cons, List.filter_cons]
  split
  · rfl
  · rfl

/-- A well-formed line gives its item. -/
theorem readLine_record {line : Text} {r : TraceRecord} (record : TraceRecord.ofLine line = some r) :
    readLine varMap s line = .ok { s with
      trace := { s.trace with allocated := s.trace.allocated + 1 }.add
        (r.item varMap s.trace.allocated)
      lineno := s.lineno + 1 } := by
  rw [readLine, parse_record record]
  rfl

/-- A line with another number of fields than two is reported. -/
theorem readLine_other {line : Text} (other : line.count ',' ≠ 1) :
    readLine varMap s line = .ok { s with
      trace := { s.trace with allocated := s.trace.allocated + 1 }
      lineno := s.lineno + 1
      reported := s.reported ++ [(s.lineno + 1, line)] } := by
  rw [readLine, (parse_of_count_ne other).1]
  rfl

/-- Without a malformed line of two fields, the well-formed lines are loaded and the others
are reported. -/
theorem readLines_records {n : Nat} (number : s.lineno = UInt32.ofNat n)
    (sound : ∀ line ∈ lines, line.count ',' = 1 → (TraceRecord.ofLine line).isSome) :
    lines.foldlM (readLine varMap) s = .ok
      { trace := (TraceRecord.items varMap s.trace.allocated lines).foldl PmemAddrTrace.add
          { s.trace with allocated := s.trace.allocated + lines.length }
        lineno := UInt32.ofNat (n + lines.length)
        reported := s.reported ++ TraceRecord.malformed n lines } := by
  induction lines generalizing s n with
  | nil =>
    simp only [TraceRecord.items, TraceRecord.malformed, List.zipIdx_nil, List.filterMap_nil,
      List.foldl_nil, List.filter_nil, List.map_nil, List.append_nil, List.length_nil,
      Nat.add_zero, ← number]
    rfl
  | cons line lines ih =>
    have later : ∀ line ∈ lines, line.count ',' = 1 → (TraceRecord.ofLine line).isSome :=
      fun other member => sound other (List.mem_cons_of_mem _ member)
    have next : s.lineno + 1 = UInt32.ofNat (n + 1) := by rw [number, UInt32.ofNat_add]; rfl
    rw [List.foldlM_cons]
    cases record : TraceRecord.ofLine line with
    | some r =>
      have reports : TraceRecord.malformed n (line :: lines) =
          TraceRecord.malformed (n + 1) lines := by
        rw [malformed_cons, record]
        rfl
      rw [readLine_record record, reports, items_cons_some record, List.foldl_cons, List.length_cons,
        show n + (lines.length + 1) = n + 1 + lines.length by omega,
        show s.trace.allocated + (lines.length + 1) = s.trace.allocated + 1 + lines.length by omega]
      exact ih next later
    | none =>
      have other : line.count ',' ≠ 1 := by
        intro once
        have present := sound line List.mem_cons_self once
        rw [record] at present
        cases present
      have reports : TraceRecord.malformed n (line :: lines) =
          [(s.lineno + 1, line)] ++ TraceRecord.malformed (n + 1) lines := by
        rw [malformed_cons, record, next]
        rfl
      rw [readLine_other other, reports, items_cons_none record, List.length_cons,
        show n + (lines.length + 1) = n + 1 + lines.length by omega,
        show s.trace.allocated + (lines.length + 1) = s.trace.allocated + 1 + lines.length by omega,
        ← List.append_assoc]
      exact ih next later

/-- The lines that are reported are those without two fields. -/
theorem readLines_reported (run : lines.foldlM (readLine varMap) s = .ok s') :
    s'.reported.length =
      s.reported.length + lines.countP fun line => line.count ',' ≠ 1 := by
  induction lines generalizing s with
  | nil =>
    cases run
    rfl
  | cons line lines ih =>
    rw [List.foldlM_cons] at run
    obtain ⟨next, first, rest⟩ := Exception.bind_eq_ok run
    rw [ih rest, List.countP_cons]
    obtain ⟨⟨ok, item⟩, parsed, first⟩ := Exception.bind_eq_ok first
    by_cases once : line.count ',' = 1
    · rw [parse_of_count once parsed] at first
      cases first
      simp [once]
    · rw [(parse_of_count_ne once).1] at parsed
      cases parsed
      cases first
      simp [once]
      omega

theorem length_malformed (n : Nat) (lines : List Text) :
    (TraceRecord.malformed n lines).length =
      lines.countP fun line => (TraceRecord.ofLine line).isNone := by
  rw [TraceRecord.malformed, List.length_map, ← List.countP_eq_length_filter]
  have lines_eq := List.zipIdx_map_fst (n + 1) lines
  conv_rhs => rw [← lines_eq, List.countP_map]
  rfl

/-- A file is loaded in spite of its malformed lines exactly if none of them has exactly
one comma: an exception ends the loading at such a line, or the line gives an item. -/
theorem deserialize_loadsRecords_iff (content : Text) (varMap : Option PmemVarGuidMap)
    (result : PmemAddrTrace) :
    LoadsRecords content varMap result ↔
      ∀ line ∈ getlines content, line.count ',' = 1 → (TraceRecord.ofLine line).isSome := by
  constructor
  · intro loads line member once
    obtain ⟨s, run, eq⟩ := Exception.bind_eq_ok loads
    cases eq
    have counted := readLines_reported run
    rw [length_malformed, List.length_nil, Nat.zero_add] at counted
    -- As many lines are malformed as have another number of fields, so all of them have.
    have all : (getlines content |>.filter fun line => (TraceRecord.ofLine line).isNone).countP
        (fun line => line.count ',' ≠ 1) =
          (getlines content |>.filter fun line => (TraceRecord.ofLine line).isNone).length := by
      rw [List.countP_filter, ← List.countP_eq_length_filter, counted]
      apply List.countP_congr
      intro line _
      simp only [ne_eq, decide_not, Bool.and_eq_true, Bool.not_eq_true', decide_eq_false_iff_not,
        and_iff_left_iff_imp]
      intro other
      rw [(@parse_of_count_ne line none (.new 0) other).2]
      rfl
    by_contra malformed
    have none : (TraceRecord.ofLine line).isNone = true := by simpa using malformed
    have other := List.countP_eq_length.mp all line (List.mem_filter.mpr ⟨member, none⟩)
    simp [once] at other
  · intro sound
    rw [LoadsRecords, deserialize, readLines_records (n := 0) rfl sound]
    simp [bind, Except.bind, pure, Except.pure]

/-- The line that is printed for a null pointer. -/
theorem deserialize_not_loadsRecords :
    ¬ ∀ (content : Text) (varMap : Option PmemVarGuidMap) (result : PmemAddrTrace),
      LoadsRecords content varMap result := by
  intro claim
  have raised : deserialize (trackAddr 0 200) none .empty =
      .error (.invalidArgument "invalid format".toList) := by
    rfl
  have loads := claim (trackAddr 0 200) none .empty
  rw [LoadsRecords, raised] at loads
  cases loads

end TraceLoading

end Arthas.Instrument
