import Mathlib
import Arthas.Lib.OrdMap
import Arthas.Utils.String

/-!
The GUID map and its file (`PmemVarGuidMap.h`, `PmemVarGuidMap.cpp`). Writing and reading
the file gives the same map back exactly if no path, file or function name ends with the
letter of the separator.
-/

set_option autoImplicit false
set_option relaxedAutoImplicit false

namespace Arthas.Instrument

open Arthas.Lib Arthas.Utils

structure PmemVarGuidMapEntry where
  guid : UInt64
  sourcePath : Text
  sourceFile : Text
  function : Text
  line : UInt32
  instruction : Text
  deriving DecidableEq

/-- Every entry is kept under its own GUID. -/
structure PmemVarGuidMap where
  guidMap : OrdMap UInt64 PmemVarGuidMapEntry
  keyed : ∀ guid entry, guidMap.find? guid = some entry → entry.guid = guid

def fieldSeparator : Text := "##".toList

def entryFields : Nat := 6

namespace PmemVarGuidMap

def empty : PmemVarGuidMap := ⟨OrdMap.empty, by simp⟩

def find (m : PmemVarGuidMap) (guid : UInt64) : Option PmemVarGuidMapEntry :=
  m.guidMap.find? guid

def add (m : PmemVarGuidMap) (entry : PmemVarGuidMapEntry) : PmemVarGuidMap where
  guidMap := m.guidMap.emplace entry.guid entry
  keyed guid found eq := by
    rw [OrdMap.find?_emplace] at eq
    split at eq
    · next same =>
      cases old : m.guidMap.find? entry.guid with
      | none => simp_all
      | some before =>
        have kept : before = found := by simpa [old] using eq
        exact kept ▸ same ▸ m.keyed _ _ old
    · exact m.keyed guid found eq

/-- The instruction text under a GUID changed in place. -/
def setInstruction (m : PmemVarGuidMap) (guid : UInt64) (text : Text) : PmemVarGuidMap :=
  match old : m.guidMap.find? guid with
  | none => m
  | some entry =>
    { guidMap := m.guidMap.assign guid { entry with instruction := text }
      keyed := fun other found eq => by
        rw [OrdMap.find?_assign] at eq
        split at eq
        · next same =>
          cases eq
          exact (m.keyed guid entry old).trans same.symm
        · exact m.keyed other found eq }

end PmemVarGuidMap

/-- One line of the file, without its newline. -/
def PmemVarGuidMapEntry.write (entry : PmemVarGuidMapEntry) : Text :=
  Nat.toDigits 10 entry.guid.toNat ++ fieldSeparator ++ entry.sourcePath ++ fieldSeparator ++
    entry.sourceFile ++ fieldSeparator ++ entry.function ++ fieldSeparator ++
    Nat.toDigits 10 entry.line.toNat ++ fieldSeparator ++ entry.instruction

/-- `PmemVarGuidMap::serialize`: what it writes to the file. -/
def PmemVarGuidMap.serialize (m : PmemVarGuidMap) : Text :=
  m.guidMap.entries.flatMap fun e => e.2.write ++ ['\n']

/-- The entry on one line; `none` when the number of fields is wrong. -/
def PmemVarGuidMapEntry.read (line : Text) : Except Exception (Option PmemVarGuidMapEntry) :=
  match splitList line fieldSeparator with
  | [guid, path, file, function, lineNo, instruction] => do
    let guid ← str2fmt uint64Max guid false
    let lineNo ← str2fmt uint32Max lineNo false
    return some ⟨UInt64.ofNat guid, path, file, function, UInt32.ofNat lineNo, instruction⟩
  | _ => return none

/-- The loop of `deserialize`; the result tells whether it succeeded. -/
def PmemVarGuidMap.deserializeLines (ignoreBadLine : Bool) :
    List Text → PmemVarGuidMap → Except Exception (Bool × PmemVarGuidMap)
  | [], result => .ok (true, result)
  | line :: lines, result =>
    match PmemVarGuidMapEntry.read line with
    | .error e => .error e
    | .ok none =>
      if ignoreBadLine then deserializeLines ignoreBadLine lines result else .ok (false, result)
    | .ok (some entry) => deserializeLines ignoreBadLine lines (result.add entry)

/-- `PmemVarGuidMap::deserialize`, of a file that may be missing. -/
def PmemVarGuidMap.deserialize (file : Option Text) (result : PmemVarGuidMap)
    (ignoreBadLine : Bool) : Except Exception (Bool × PmemVarGuidMap) :=
  match file with
  | none => .ok (false, result)
  | some content => deserializeLines ignoreBadLine (getlines content) result

section Line

/-- The text fields hold neither a newline nor the separator. -/
structure PmemVarGuidMapEntry.Plain (entry : PmemVarGuidMapEntry) : Prop where
  newline : ∀ field ∈ [entry.sourcePath, entry.sourceFile, entry.function, entry.instruction],
    '\n' ∉ field
  separator : ∀ field ∈ [entry.sourcePath, entry.sourceFile, entry.function, entry.instruction],
    ¬ fieldSeparator <:+: field

/-- No field that a separator follows ends with `#`. -/
def PmemVarGuidMapEntry.EndsClear (entry : PmemVarGuidMapEntry) : Prop :=
  ∀ field ∈ [entry.sourcePath, entry.sourceFile, entry.function], field.getLast? ≠ some '#'

instance (entry : PmemVarGuidMapEntry) : Decidable entry.EndsClear :=
  inferInstanceAs (Decidable (∀ field ∈ _, _))

variable {entry : PmemVarGuidMapEntry}

/-- The fields of a line in the order of the file. -/
def PmemVarGuidMapEntry.fields (entry : PmemVarGuidMapEntry) : List Text :=
  [Nat.toDigits 10 entry.guid.toNat, entry.sourcePath, entry.sourceFile, entry.function,
    Nat.toDigits 10 entry.line.toNat, entry.instruction]

theorem write_eq_intercalate : entry.write = fieldSeparator.intercalate entry.fields := by
  simp only [PmemVarGuidMapEntry.write, PmemVarGuidMapEntry.fields, List.intercalate_cons_cons,
    List.intercalate_singleton, List.append_assoc]

theorem write_ne_nil : entry.write ≠ [] := by
  rw [write_eq_intercalate]
  simp [PmemVarGuidMapEntry.fields, fieldSeparator, List.intercalate_cons_cons]

theorem newline_not_mem_write (plain : entry.Plain) : '\n' ∉ entry.write := by
  have free := plain.newline
  have digits : ∀ n, '\n' ∉ Nat.toDigits 10 n := not_mem_toDigits (by decide) (by decide) (by decide)
  have separator : '\n' ∉ fieldSeparator := by decide
  simp only [PmemVarGuidMapEntry.write, List.mem_append, not_or]
  simp only [List.forall_mem_cons] at free
  simp [digits, separator, free]

theorem separator_eq : fieldSeparator = ['#', '#'] := rfl

theorem digits_unbroken (n : Nat) : Unbroken fieldSeparator (Nat.toDigits 10 n) := by
  have free : '#' ∉ Nat.toDigits 10 n := not_mem_toDigits (by decide) (by decide) (by decide) n
  rw [separator_eq, unbroken_pair]
  constructor
  · intro inside
    exact free (inside.subset (by simp))
  · intro last
    exact free (List.mem_of_getLast? last)

/-- The fields can be told apart exactly if those before a separator end clear. -/
theorem separable_fields_iff (plain : entry.Plain) :
    Separable fieldSeparator entry.fields ↔ entry.EndsClear := by
  have free := plain.separator
  simp only [List.forall_mem_cons] at free
  obtain ⟨path, file, function, instruction, -⟩ := free
  have unbroken : ∀ {field : Text}, ¬ fieldSeparator <:+: field →
      (Unbroken fieldSeparator field ↔ field.getLast? ≠ some '#') := by
    intro field apart
    rw [separator_eq] at apart ⊢
    rw [unbroken_pair]
    exact and_iff_right apart
  simp only [PmemVarGuidMapEntry.fields, Separable, digits_unbroken, unbroken path, unbroken file,
    unbroken function, instruction, not_false_eq_true, true_and, and_true,
    PmemVarGuidMapEntry.EndsClear, List.forall_mem_cons]
  simp

theorem read_of_fields (read : splitList entry.write fieldSeparator = entry.fields) :
    PmemVarGuidMapEntry.read entry.write = .ok (some entry) := by
  have guid : str2fmt uint64Max (Nat.toDigits 10 entry.guid.toNat) false = .ok entry.guid.toNat :=
    str2fmt_toDigits (by have := entry.guid.toNat_lt; simp only [uint64Max]; omega)
  have line : str2fmt uint32Max (Nat.toDigits 10 entry.line.toNat) false = .ok entry.line.toNat :=
    str2fmt_toDigits (by have := entry.line.toNat_lt; simp only [uint32Max]; omega)
  rw [PmemVarGuidMapEntry.read, read]
  simp only [PmemVarGuidMapEntry.fields, guid, line]
  simp [bind, Except.bind, pure, Except.pure]

/-- What a line is read as, it holds as its fields. -/
theorem fields_of_read {line : Text}
    (read : PmemVarGuidMapEntry.read line = .ok (some entry)) :
    ∃ guid lineNo, splitList line fieldSeparator =
        [guid, entry.sourcePath, entry.sourceFile, entry.function, lineNo, entry.instruction] ∧
      ∃ n, str2fmt uint64Max guid false = .ok n ∧ UInt64.ofNat n = entry.guid := by
  unfold PmemVarGuidMapEntry.read at read
  split at read
  · next guid path file function lineNo instruction split =>
    cases guidRead : str2fmt uint64Max guid false with
    | error e => simp [guidRead, bind, Except.bind] at read
    | ok n =>
      cases lineRead : str2fmt uint32Max lineNo false with
      | error e => simp [guidRead, lineRead, bind, Except.bind] at read
      | ok k =>
        simp only [guidRead, lineRead, bind, Except.bind, pure, Except.pure, Except.ok.injEq,
          Option.some.injEq] at read
        subst read
        exact ⟨guid, lineNo, split, n, guidRead, rfl⟩
  · cases read

/-- The first field of a written line is the GUID, whatever the others hold. -/
theorem splitList_write_head :
    (splitList entry.write fieldSeparator).head? = some (Nat.toDigits 10 entry.guid.toNat) := by
  obtain ⟨rest, eq⟩ : ∃ rest, entry.write =
      Nat.toDigits 10 entry.guid.toNat ++ fieldSeparator ++ rest := by
    refine ⟨fieldSeparator.intercalate entry.fields.tail, ?_⟩
    rw [write_eq_intercalate]
    exact List.intercalate_cons_cons
  have found := (firstAt_eq_some_iff (by decide)).mpr ⟨eq, digits_unbroken _⟩
  obtain ⟨n, length⟩ := Nat.exists_eq_succ_of_ne_zero
    (List.length_pos_iff.mpr (write_ne_nil : entry.write ≠ [])).ne'
  rw [splitList, if_neg write_ne_nil, split, length, cuts, found]
  rfl

theorem read_write_guid {other : PmemVarGuidMapEntry}
    (read : PmemVarGuidMapEntry.read entry.write = .ok (some other)) : other.guid = entry.guid := by
  obtain ⟨guid, lineNo, split, n, guidRead, eq⟩ := fields_of_read read
  have head : (splitList entry.write fieldSeparator).head? =
      some (Nat.toDigits 10 entry.guid.toNat) := splitList_write_head
  rw [split, List.head?_cons, Option.some.injEq] at head
  have whole : str2fmt uint64Max guid false = .ok entry.guid.toNat := by
    rw [head]
    exact str2fmt_toDigits (by have := entry.guid.toNat_lt; simp only [uint64Max]; omega)
  rw [guidRead] at whole
  cases whole
  rw [← eq, UInt64.ofNat_toNat]

/-- A written line is read back exactly if its fields end clear. -/
theorem read_write_iff (plain : entry.Plain) :
    PmemVarGuidMapEntry.read entry.write = .ok (some entry) ↔ entry.EndsClear := by
  have written : fieldSeparator.intercalate entry.fields ≠ [] :=
    (write_eq_intercalate : entry.write = _) ▸ write_ne_nil
  have fields := splitList_intercalate_iff (by decide : fieldSeparator ≠ []) written
  rw [← write_eq_intercalate] at fields
  rw [← separable_fields_iff plain, ← fields]
  constructor
  · intro read
    obtain ⟨guid, lineNo, split, -⟩ := fields_of_read read
    have joined : fieldSeparator.intercalate (splitList entry.write fieldSeparator) =
        fieldSeparator.intercalate entry.fields := by
      rw [← write_eq_intercalate, splitList, if_neg write_ne_nil]
      exact intercalate_split (by decide) _
    have head : (splitList entry.write fieldSeparator).head? =
        some (Nat.toDigits 10 entry.guid.toNat) := splitList_write_head
    rw [split, List.head?_cons, Option.some.injEq] at head
    rw [split] at joined ⊢
    subst head
    simp only [PmemVarGuidMapEntry.fields, List.intercalate_cons_cons, List.intercalate_singleton,
      List.append_assoc, List.append_cancel_left_eq, List.append_cancel_right_eq] at joined
    rw [joined]
    rfl
  · exact read_of_fields

end Line

section File

/-- What one line contributes to the map. -/
theorem deserializeLines_cons {ignoreBadLine : Bool} {line : Text} {lines : List Text}
    {result final : PmemVarGuidMap}
    (done : PmemVarGuidMap.deserializeLines ignoreBadLine (line :: lines) result =
      .ok (true, final)) :
    ∃ read, PmemVarGuidMapEntry.read line = .ok read ∧
      PmemVarGuidMap.deserializeLines ignoreBadLine lines
        (read.elim result result.add) = .ok (true, final) := by
  unfold PmemVarGuidMap.deserializeLines at done
  split at done
  · cases done
  · next read =>
    split at done
    · exact ⟨none, read, done⟩
    · cases done
  · next entry read => exact ⟨some entry, read, done⟩

theorem find_add (m : PmemVarGuidMap) (entry : PmemVarGuidMapEntry) (guid : UInt64) :
    (m.add entry).find guid =
      if guid = entry.guid then some ((m.find guid).getD entry) else m.find guid := by
  simp only [PmemVarGuidMap.find, PmemVarGuidMap.add, OrdMap.find?_emplace]
  split
  · next same => rw [same]
  · rfl

/-- A GUID that no line of the rest is written for keeps its entry. -/
theorem deserializeLines_other {ignoreBadLine : Bool} {guid : UInt64}
    {entries : List PmemVarGuidMapEntry} {result final : PmemVarGuidMap}
    (apart : ∀ entry ∈ entries, entry.guid ≠ guid)
    (done : PmemVarGuidMap.deserializeLines ignoreBadLine
      (entries.map PmemVarGuidMapEntry.write) result = .ok (true, final)) :
    final.find guid = result.find guid := by
  induction entries generalizing result with
  | nil =>
    cases done
    rfl
  | cons entry entries ih =>
    obtain ⟨read, here, rest⟩ := deserializeLines_cons done
    rw [ih (fun e member => apart e (List.mem_cons_of_mem _ member)) rest]
    cases read with
    | none => rfl
    | some other =>
      have other_guid := read_write_guid here
      have different : guid ≠ other.guid := by
        rw [other_guid]
        exact (apart entry List.mem_cons_self).symm
      rw [Option.elim_some, find_add, if_neg different]

/-- The map read from lines with different GUIDs has what each line is read as. -/
theorem deserializeLines_find {ignoreBadLine : Bool} {entries : List PmemVarGuidMapEntry}
    {result final : PmemVarGuidMap} (distinct : (entries.map PmemVarGuidMapEntry.guid).Nodup)
    (absent : ∀ entry ∈ entries, result.find entry.guid = none)
    (done : PmemVarGuidMap.deserializeLines ignoreBadLine
      (entries.map PmemVarGuidMapEntry.write) result = .ok (true, final)) :
    ∀ entry ∈ entries, PmemVarGuidMapEntry.read entry.write = .ok (final.find entry.guid) := by
  induction entries generalizing result with
  | nil => simp
  | cons entry entries ih =>
    obtain ⟨fresh, distinct⟩ := List.nodup_cons.mp distinct
    obtain ⟨read, here, rest⟩ := deserializeLines_cons done
    have apart : ∀ e ∈ entries, e.guid ≠ entry.guid := fun e member same =>
      fresh (same ▸ List.mem_map_of_mem member)
    have still : ∀ e ∈ entries, (read.elim result result.add).find e.guid = none := by
      intro e member
      cases read with
      | none => exact absent e (List.mem_cons_of_mem _ member)
      | some other =>
        have different : e.guid ≠ other.guid := by
          rw [read_write_guid here]
          exact apart e member
        rw [Option.elim_some, find_add, if_neg different]
        exact absent e (List.mem_cons_of_mem _ member)
    intro e member
    rcases List.mem_cons.mp member with rfl | inside
    · rw [here, deserializeLines_other apart rest]
      cases read with
      | none => rw [Option.elim_none, absent e List.mem_cons_self]
      | some other =>
        rw [Option.elim_some, find_add, if_pos (read_write_guid here).symm,
          absent e List.mem_cons_self]
        rfl
    · exact ih distinct still rest e inside

theorem deserializeLines_read {ignoreBadLine : Bool} {entries : List PmemVarGuidMapEntry}
    {result : PmemVarGuidMap}
    (read : ∀ entry ∈ entries, PmemVarGuidMapEntry.read entry.write = .ok (some entry)) :
    PmemVarGuidMap.deserializeLines ignoreBadLine (entries.map PmemVarGuidMapEntry.write) result =
      .ok (true, entries.foldl PmemVarGuidMap.add result) := by
  induction entries generalizing result with
  | nil => rfl
  | cons entry entries ih =>
    rw [List.map_cons, PmemVarGuidMap.deserializeLines, read entry List.mem_cons_self]
    exact ih fun e member => read e (List.mem_cons_of_mem _ member)

variable (m : PmemVarGuidMap)

/-- The entries of the map in the order of the file. -/
def PmemVarGuidMap.values : List PmemVarGuidMapEntry := m.guidMap.entries.map Prod.snd

theorem PmemVarGuidMap.mem_values {entry : PmemVarGuidMapEntry} :
    entry ∈ m.values ↔ m.find entry.guid = some entry := by
  simp only [PmemVarGuidMap.values, List.mem_map, Prod.exists, exists_eq_right,
    OrdMap.mem_entries_iff]
  constructor
  · rintro ⟨guid, found⟩
    rw [m.keyed guid entry found]
    exact found
  · exact fun found => ⟨entry.guid, found⟩

theorem PmemVarGuidMap.entries_eq :
    m.guidMap.entries = m.values.map fun entry => (entry.guid, entry) := by
  rw [PmemVarGuidMap.values, List.map_map]
  refine (List.map_id _).symm.trans (List.map_congr_left ?_)
  rintro ⟨guid, entry⟩ member
  have same := m.keyed guid entry (OrdMap.mem_entries_iff.mp member)
  simp [same]

theorem PmemVarGuidMap.values_distinct : (m.values.map PmemVarGuidMapEntry.guid).Nodup := by
  have keys : (m.guidMap.entries.map Prod.fst).Nodup :=
    List.pairwise_map.mpr (m.guidMap.ascending.imp fun less => less.ne)
  rw [m.entries_eq, List.map_map] at keys
  exact keys

theorem PmemVarGuidMap.ext_find {m n : PmemVarGuidMap} (same : ∀ guid, m.find guid = n.find guid) :
    m = n := by
  obtain ⟨map, _⟩ := m
  obtain ⟨map', _⟩ := n
  cases OrdMap.ext_find same
  rfl

theorem foldl_add_guidMap (entries : List PmemVarGuidMapEntry) (n : PmemVarGuidMap) :
    (entries.foldl PmemVarGuidMap.add n).guidMap =
      (entries.map fun entry => (entry.guid, entry)).foldl (fun o e => o.emplace e.1 e.2)
        n.guidMap := by
  induction entries generalizing n with
  | nil => rfl
  | cons entry entries ih => exact ih (n.add entry)

theorem PmemVarGuidMap.foldl_add_values : m.values.foldl PmemVarGuidMap.add .empty = m := by
  apply PmemVarGuidMap.ext_find
  intro guid
  rw [PmemVarGuidMap.find, foldl_add_guidMap, ← m.entries_eq]
  exact congrArg (fun o => o.find? guid) m.guidMap.foldl_emplace_entries

theorem PmemVarGuidMap.getlines_serialize (plain : ∀ entry ∈ m.values, entry.Plain) :
    getlines m.serialize = m.values.map PmemVarGuidMapEntry.write := by
  have written : m.serialize =
      (m.values.map PmemVarGuidMapEntry.write).flatMap (· ++ ['\n']) := by
    simp only [PmemVarGuidMap.serialize, PmemVarGuidMap.values, List.flatMap_map]
  rw [written]
  apply getlines_lines
  intro line member
  obtain ⟨entry, inside, rfl⟩ := List.mem_map.mp member
  exact newline_not_mem_write (plain entry inside)

/-- The file of a map is read back as the same map exactly if no source path, source file
or function in it ends with `#`. -/
theorem PmemVarGuidMap.deserialize_serialize_iff (ignoreBadLine : Bool)
    (plain : ∀ entry ∈ m.values, entry.Plain) :
    PmemVarGuidMap.deserialize (some m.serialize) .empty ignoreBadLine = .ok (true, m) ↔
      ∀ entry ∈ m.values, entry.EndsClear := by
  rw [PmemVarGuidMap.deserialize, m.getlines_serialize plain]
  constructor
  · intro done entry member
    have read := deserializeLines_find m.values_distinct (by simp [PmemVarGuidMap.empty,
      PmemVarGuidMap.find]) done entry member
    rw [(m.mem_values).mp member] at read
    exact (read_write_iff (plain entry member)).mp read
  · intro clear
    have read : ∀ entry ∈ m.values, PmemVarGuidMapEntry.read entry.write = .ok (some entry) :=
      fun entry member => (read_write_iff (plain entry member)).mpr (clear entry member)
    rw [deserializeLines_read read, m.foldl_add_values]

/-- A map of one entry whose source path ends with `#`. -/
def hashPathMap : PmemVarGuidMap :=
  PmemVarGuidMap.empty.add
    ⟨200, "/tmp/c#".toList, "main.c".toList, "main".toList, 5, "  %1 = load".toList⟩

/-- An entry without the `#`. -/
def plainPathMap : PmemVarGuidMap :=
  PmemVarGuidMap.empty.add
    ⟨200, "/tmp/c".toList, "#main.c".toList, "main".toList, 5, "  %1 = load".toList⟩

theorem deserialize_serialize_iff_plain :
    PmemVarGuidMap.deserialize (some plainPathMap.serialize) .empty false =
      .ok (true, plainPathMap) :=
  (plainPathMap.deserialize_serialize_iff false
    (fun entry member => by
      rw [List.mem_singleton.mp member]
      exact ⟨by decide, by decide⟩)).mpr (by decide)

/-- The `#` moves to the next field. -/
theorem deserialize_moves_hash :
    ¬ ∀ m : PmemVarGuidMap, (∀ entry ∈ m.values, entry.Plain) →
      PmemVarGuidMap.deserialize (some m.serialize) .empty false = .ok (true, m) := by
  intro claim
  have plain : ∀ entry ∈ hashPathMap.values, entry.Plain := fun entry member => by
    rw [List.mem_singleton.mp member]
    exact ⟨by decide, by decide⟩
  have paths := congrArg (fun r : Except Exception (Bool × PmemVarGuidMap) =>
    r.toOption.map fun p => p.2.values.map PmemVarGuidMapEntry.sourceFile)
    (claim hashPathMap plain)
  revert paths
  decide

end File

end Arthas.Instrument
