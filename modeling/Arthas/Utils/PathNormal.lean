import Arthas.Utils.Path

/-!
`canonpath` against lexical normalisation with a stack of components. The buffer holds the
stack, sometimes with a slash behind it. A relative name whose `..` finds no component makes
the code read before the buffer, unless the name begins with `..`; and every relative name
that begins with `..` is refused.
-/

set_option autoImplicit false
set_option relaxedAutoImplicit false

namespace Arthas.Utils

open Arthas.Lib

def dot : Text := ['.']

def dotdot : Text := ['.', '.']

/-- One component, with the components kept so far, the last one first: `.` is dropped, and
`..` removes the last one. It is ignored at the root; `none` if it would climb above the
start of a relative path. -/
def keepPart (absolute : Bool) (kept : List Text) (part : Text) : Option (List Text) :=
  if part = dot then some kept
  else if part = dotdot then
    match kept with
    | [] => if absolute then some [] else none
    | _ :: kept => some kept
  else some (part :: kept)

/-- The components joined with single slashes, with a leading one for absolute paths. -/
def joinPath (absolute : Bool) (parts : List Text) : Text :=
  (if absolute then ['/'] else []) ++ ['/'].intercalate parts

def isAbsolute (name : Text) : Bool := name.head? = some '/'

/-- The lexical normal form of a path. -/
def normalForm (name : Text) : Option Text :=
  ((components name).foldlM (keepPart (isAbsolute name)) []).map fun kept =>
    joinPath (isAbsolute name) kept.reverse

/-- A component of a normal form. -/
structure Plain (part : Text) : Prop where
  nonempty : part ≠ []
  notDot : part ≠ dot
  notDotdot : part ≠ dotdot
  whole : '/' ∉ part

/-- A path of components between single slashes, none of them empty, `.` or `..`; the root
alone ends with a slash. -/
def Normal (path : Text) : Prop :=
  ∃ absolute parts, (∀ part ∈ parts, Plain part) ∧ path = joinPath absolute parts

/-- The bytes that `append` writes, with the size of the buffer then: the slash, the
component and the NUL behind it. -/
def PathBuffer.appendWrites (b next : PathBuffer) (part : Text) : List (Nat × Nat) :=
  (if b.dest ≠ [] ∧ b.dest.head? ≠ some '/' then [(b.dest.length, b.limit)] else []) ++
    (List.range' (next.dest.length - part.length) (part.length + 1)).map fun k => (k, next.limit)

/-- A turn of the loop, with the bytes written so far. -/
def canonpathWriting (r : PathBuffer × List (Nat × Nat)) (part : Text) :
    Except PathStop (PathBuffer × List (Nat × Nat)) := do
  let next ← canonpathStep false r.1 part
  return (next, if part = dot ∨ part = dotdot then r.2 else r.2 ++ r.1.appendWrites next part)

/-- `canonpath` without a buffer from the caller, with the bytes that it writes. -/
def canonpathWrites (name : Text) : Except PathStop (Text × List (Nat × Nat)) :=
  if name = [] then .error .null
  else if name.head? ≠ some '/' ∧ ['.', '.'].isPrefixOf name then .error .null
  else do
    let start := if name.head? = some '/' then ['/'] else []
    let first := if name.head? = some '/' then [(0, maxPath)] else []
    let (b, writes) ← (components name).foldlM canonpathWriting (⟨start, maxPath⟩, first)
    return ((dropSlash b.dest).reverse, writes ++ [((dropSlash b.dest).length, b.limit)])

theorem foldlM_canonpathWriting (parts : List Text) (r : PathBuffer × List (Nat × Nat)) :
    (parts.foldlM canonpathWriting r).map Prod.fst = parts.foldlM (canonpathStep false) r.1 := by
  induction parts generalizing r with
  | nil => rfl
  | cons part parts ih =>
    rw [List.foldlM_cons, List.foldlM_cons, canonpathWriting]
    cases canonpathStep false r.1 part with
    | error e => rfl
    | ok next => exact ih (next, _)

/-- The path that is returned does not depend on what is recorded of the writes. -/
theorem canonpathWrites_fst (name : Text) :
    (canonpathWrites name).map Prod.fst = canonpath false name := by
  unfold canonpathWrites canonpath
  split
  · rfl
  split
  · rfl
  simp only
  rw [← foldlM_canonpathWriting (components name) (⟨_, maxPath⟩,
    if name.head? = some '/' then [(0, maxPath)] else [])]
  cases (components name).foldlM canonpathWriting (⟨_, maxPath⟩, _) <;> rfl

section Stack

/-- A slash at the end, unless nothing or a slash is there. -/
def openSlash (dest : Text) : Text :=
  if dest ≠ [] ∧ dest.head? ≠ some '/' then '/' :: dest else dest

/-- What the buffer holds for a stack of components. -/
def stackText (absolute : Bool) : List Text → Text
  | [] => if absolute then ['/'] else []
  | part :: kept => part.reverse ++ openSlash (stackText absolute kept)

/-- The buffer holds the stack, maybe with a slash that a removed component left. -/
structure HoldsStack (absolute : Bool) (kept : List Text) (b : PathBuffer) : Prop where
  plain : ∀ part ∈ kept, Plain part
  dest : b.dest = stackText absolute kept ∨ kept ≠ [] ∧ b.dest = '/' :: stackText absolute kept

variable {absolute : Bool} {kept : List Text} {b : PathBuffer} {part : Text}

theorem stackText_cons_head (absolute : Bool) (plain : Plain part) (kept : List Text) :
    ∃ c rest, stackText absolute (part :: kept) = c :: rest ∧ c ≠ '/' := by
  obtain ⟨front, c, rfl⟩ := (List.eq_nil_or_concat' part).resolve_left plain.nonempty
  refine ⟨c, front.reverse ++ openSlash (stackText absolute kept), by simp [stackText], ?_⟩
  rintro rfl
  exact plain.whole (by simp)

theorem openSlash_stackText (plain : ∀ part ∈ kept, Plain part) (present : kept ≠ []) :
    openSlash (stackText absolute kept) = '/' :: stackText absolute kept := by
  obtain ⟨part, rest, rfl⟩ := List.exists_cons_of_ne_nil present
  obtain ⟨c, text, eq, other⟩ :=
    stackText_cons_head absolute (plain part List.mem_cons_self) rest
  rw [openSlash, if_pos]
  rw [eq]
  simpa using other

theorem stackText_eq (plain : ∀ part ∈ kept, Plain part) :
    (stackText absolute kept).reverse = joinPath absolute kept.reverse := by
  induction kept with
  | nil => cases absolute <;> rfl
  | cons part kept ih =>
    have rest := ih fun p member => plain p (List.mem_cons_of_mem _ member)
    rw [stackText, List.reverse_append, List.reverse_reverse, List.reverse_cons]
    by_cases present : kept = []
    · subst present
      cases absolute <;> simp [stackText, openSlash, joinPath]
    · rw [openSlash_stackText (fun p member => plain p (List.mem_cons_of_mem _ member)) present,
        List.reverse_cons, rest, joinPath, joinPath,
        intercalate_concat (by simpa using present), List.append_assoc, List.append_assoc,
        List.append_assoc]

/-- In either form the buffer is continued behind the same slash. -/
theorem HoldsStack.openSlash_dest (holds : HoldsStack absolute kept b) :
    openSlash b.dest = openSlash (stackText absolute kept) := by
  rcases holds.dest with eq | ⟨present, eq⟩
  · rw [eq]
  · rw [eq, openSlash_stackText holds.plain present]
    simp [openSlash]

theorem HoldsStack.dropSlash_dest (holds : HoldsStack absolute kept b) :
    dropSlash b.dest = stackText absolute kept := by
  rcases holds.dest with eq | ⟨present, eq⟩
  · rw [eq]
    cases kept with
    | nil => cases absolute <;> rfl
    | cons part kept =>
      obtain ⟨c, text, eq, other⟩ :=
        stackText_cons_head absolute (holds.plain part List.mem_cons_self) kept
      rw [eq]
      cases text with
      | nil => rfl
      | cons d text => simp [dropSlash, other]
  · obtain ⟨part, rest, rfl⟩ := List.exists_cons_of_ne_nil present
    obtain ⟨c, text, head, -⟩ :=
      stackText_cons_head absolute (holds.plain part List.mem_cons_self) rest
    rw [eq, head]
    rfl

theorem openSlash_cases (dest : Text) : openSlash dest = [] ∨ ∃ x, openSlash dest = '/' :: x := by
  rw [openSlash]
  split
  · exact Or.inr ⟨dest, rfl⟩
  · next other =>
    cases dest with
    | nil => exact Or.inl rfl
    | cons c x =>
      have slash : c = '/' := by simpa using other
      exact Or.inr ⟨x, by rw [slash]⟩

theorem backToSlash_slash {w : Text} (free : '/' ∉ w) (a : Char) (x : Text) :
    backToSlash (a :: (w ++ '/' :: x)) = '/' :: x := by
  induction w generalizing a with
  | nil => rw [List.nil_append, backToSlash, if_pos rfl]
  | cons d w ih =>
    rw [List.mem_cons, not_or] at free
    rw [List.cons_append, backToSlash, if_neg (Ne.symm free.1)]
    exact ih free.2 d

/-- Without a slash to find, the search ends at the first letter. -/
theorem backToSlash_start {w : Text} (free : '/' ∉ w) {a : Char} (other : w = [] → a ≠ '/') :
    ∃ c, backToSlash (a :: w) = [c] ∧ c ≠ '/' := by
  induction w generalizing a with
  | nil => exact ⟨a, rfl, other rfl⟩
  | cons d w ih =>
    rw [List.mem_cons, not_or] at free
    rw [backToSlash, if_neg (Ne.symm free.1)]
    exact ih free.2 fun _ => Ne.symm free.1

/-- What is backed up over: the last component, and a slash behind it if there is one. -/
theorem back_of_append {w text : Text} {a : Char} (free : '/' ∉ w) (other : w = [] → a ≠ '/')
    (dest : b.dest = a :: (w ++ openSlash text)) :
    b.back = .ok { b with dest := openSlash text } := by
  rw [PathBuffer.back, dest]
  rcases openSlash_cases text with nothing | ⟨x, slash⟩
  · obtain ⟨c, eq, letter⟩ := backToSlash_start free other
    rw [nothing, List.append_nil, eq]
    simp [letter]
  · rw [slash, backToSlash_slash free]
    simp

/-- Backing up removes the last component of the stack. -/
theorem HoldsStack.back (holds : HoldsStack absolute (part :: kept) b) :
    b.back = .ok { b with dest := openSlash (stackText absolute kept) } ∧
      HoldsStack absolute kept { b with dest := openSlash (stackText absolute kept) } := by
  have plain := holds.plain part List.mem_cons_self
  have others : ∀ p ∈ kept, Plain p := fun p member =>
    holds.plain p (List.mem_cons_of_mem _ member)
  have free : '/' ∉ part.reverse := fun member => plain.whole (List.mem_reverse.mp member)
  have nonempty : part.reverse ≠ [] := by simpa using plain.nonempty
  constructor
  · rcases holds.dest with eq | ⟨-, eq⟩
    · obtain ⟨a, w, letters⟩ := List.exists_cons_of_ne_nil nonempty
      rw [letters, List.mem_cons, not_or] at free
      rw [stackText, letters, List.cons_append] at eq
      exact back_of_append free.2 (fun _ => Ne.symm free.1) eq
    · rw [stackText] at eq
      exact back_of_append free (fun empty => absurd empty nonempty) eq
  · refine ⟨others, ?_⟩
    by_cases present : kept = []
    · left
      subst present
      cases absolute <;> rfl
    · right
      exact ⟨present, openSlash_stackText others present⟩

/-- With nothing kept, `..` stays at the root or reads before the buffer. -/
theorem HoldsStack.back_nil (holds : HoldsStack absolute [] b) :
    b.back = if absolute then .ok b else .error .readBeforeBuffer := by
  obtain ⟨dest, limit⟩ := b
  rcases holds.dest with eq | ⟨present, -⟩
  · simp only at eq
    subst eq
    cases absolute <;> rfl
  · exact absurd rfl present

/-- A component is put behind the stack if the buffer is or can be made long enough. -/
theorem HoldsStack.append (holds : HoldsStack absolute kept b) (resolved : Bool) (part : Text) :
    b.append resolved part =
      if b.limit ≤ (stackText absolute (part :: kept)).length then
        if resolved then .error .null
        else .ok ⟨stackText absolute (part :: kept),
          b.limit + if maxPath < part.length + 1 then part.length + 1 else maxPath⟩
      else .ok ⟨stackText absolute (part :: kept), b.limit⟩ := by
  have length : (openSlash b.dest).length + part.length =
      (stackText absolute (part :: kept)).length := by
    rw [holds.openSlash_dest, stackText, List.length_append, List.length_reverse, Nat.add_comm]
  have text : part.reverse ++ openSlash b.dest = stackText absolute (part :: kept) := by
    rw [holds.openSlash_dest, stackText]
  rw [← length, ← text]
  rfl

theorem HoldsStack.push (holds : HoldsStack absolute kept b) (plain : Plain part) (limit : Nat) :
    HoldsStack absolute (part :: kept) ⟨stackText absolute (part :: kept), limit⟩ := by
  constructor
  · intro p member
    rcases List.mem_cons.mp member with rfl | inside
    · exact plain
    · exact holds.plain p inside
  · exact Or.inl rfl

theorem canonpathStep_eq (resolved : Bool) (b : PathBuffer) (part : Text) :
    canonpathStep resolved b part =
      if part = dot then .ok b else if part = dotdot then b.back else b.append resolved part :=
  rfl

/-- Only a `..` with nothing kept has no meaning, and there the code leaves the buffer. -/
theorem HoldsStack.climb (holds : HoldsStack absolute kept b)
    (climbs : keepPart absolute kept part = none) (resolved : Bool) :
    canonpathStep resolved b part = .error .readBeforeBuffer := by
  unfold keepPart at climbs
  split at climbs
  · cases climbs
  · next other =>
    split at climbs
    · next up =>
      cases kept with
      | cons p kept => cases climbs
      | nil =>
        cases absolute with
        | true => cases climbs
        | false =>
          rw [canonpathStep_eq, if_neg other, if_pos up, holds.back_nil]
          rfl
    · cases climbs

end Stack

section Runs

variable {absolute : Bool} {kept kept' : List Text} {b : PathBuffer} {part : Text}

/-- The bytes written are in the buffer. -/
def Inside (writes : List (Nat × Nat)) : Prop := ∀ w ∈ writes, w.1 < w.2

/-- The buffer holds the stack and has room for a NUL, and no write left it. -/
structure Within (absolute : Bool) (kept : List Text) (r : PathBuffer × List (Nat × Nat)) :
    Prop where
  holds : HoldsStack absolute kept r.1
  room : r.1.dest.length < r.1.limit
  inside : Inside r.2

theorem length_openSlash_le (dest : Text) : (openSlash dest).length ≤ dest.length + 1 := by
  rw [openSlash]
  split
  · rfl
  · exact Nat.le_succ _

/-- What is left after backing up fits where the component was. -/
theorem HoldsStack.length_back (holds : HoldsStack absolute (part :: kept) b) :
    (openSlash (stackText absolute kept)).length ≤ b.dest.length := by
  have shorter : (openSlash (stackText absolute kept)).length ≤
      (stackText absolute (part :: kept)).length := by
    rw [stackText, List.length_append]
    omega
  rcases holds.dest with eq | ⟨-, eq⟩
  · rw [eq]
    exact shorter
  · rw [eq, List.length_cons]
    omega

theorem length_stackText_le (part : Text) (kept : List Text) :
    (stackText absolute kept).length ≤ (stackText absolute (part :: kept)).length := by
  have slash : (stackText absolute kept).length ≤ (openSlash (stackText absolute kept)).length := by
    rw [openSlash]
    split
    · exact Nat.le_succ _
    · rfl
  rw [stackText, List.length_append]
  omega

/-- What a component does: `.` and `..` keep or shorten what the buffer holds, and any other
is appended. -/
theorem HoldsStack.step_cases (holds : HoldsStack absolute kept b)
    (next : keepPart absolute kept part = some kept') :
    ((part = dot ∨ part = dotdot) ∧
        ∃ b', (∀ resolved, canonpathStep resolved b part = .ok b') ∧ HoldsStack absolute kept' b' ∧
          b'.limit = b.limit ∧ b'.dest.length ≤ b.dest.length ∧
          (stackText absolute kept').length ≤ (stackText absolute kept).length) ∨
      ((part ≠ dot ∧ part ≠ dotdot) ∧ kept' = part :: kept ∧
        ∀ resolved, canonpathStep resolved b part = b.append resolved part) := by
  unfold keepPart at next
  by_cases single : part = dot
  · left
    rw [if_pos single, Option.some.injEq] at next
    subst next
    refine ⟨Or.inl single, b, ?_, holds, rfl, le_rfl, le_rfl⟩
    intro resolved
    rw [canonpathStep_eq, if_pos single]
  rw [if_neg single] at next
  by_cases up : part = dotdot
  · left
    rw [if_pos up] at next
    have back : ∀ resolved, canonpathStep resolved b part = b.back := by
      intro resolved
      rw [canonpathStep_eq, if_neg single, if_pos up]
    refine ⟨Or.inr up, ?_⟩
    cases kept with
    | nil =>
      cases absolute with
      | false => cases next
      | true =>
        cases next
        exact ⟨b, fun resolved => (back resolved).trans holds.back_nil, holds, rfl, le_rfl, le_rfl⟩
    | cons p kept =>
      cases next
      obtain ⟨eq, holds'⟩ := holds.back
      exact ⟨_, fun resolved => (back resolved).trans eq, holds', rfl, holds.length_back,
        length_stackText_le p _⟩
  · right
    rw [if_neg up, Option.some.injEq] at next
    refine ⟨⟨single, up⟩, next.symm, ?_⟩
    intro resolved
    rw [canonpathStep_eq, if_neg single, if_neg up]

/-- What `append` writes begins in the old buffer and ends in the new one. -/
theorem inside_appendWrites {next : PathBuffer} (room : b.dest.length < b.limit)
    (room' : next.dest.length < next.limit) (long : part.length ≤ next.dest.length) :
    Inside (b.appendWrites next part) := by
  intro w member
  rcases List.mem_append.mp member with slash | text
  · split at slash
    · rw [List.mem_singleton.mp slash]
      exact room
    · cases slash
  · obtain ⟨k, inRange, rfl⟩ := List.mem_map.mp text
    have bounds := List.mem_range'_1.mp inRange
    simp only
    omega

theorem canonpathWriting_eq {r : PathBuffer × List (Nat × Nat)} {next : PathBuffer}
    (step : canonpathStep false r.1 part = .ok next) :
    canonpathWriting r part = .ok (next,
      if part = dot ∨ part = dotdot then r.2 else r.2 ++ r.1.appendWrites next part) := by
  rw [canonpathWriting, step]
  rfl

/-- A plain component is put behind the stack, in a longer buffer if that is needed. -/
theorem HoldsStack.append_room (holds : HoldsStack absolute kept b)
    (room : b.dest.length < b.limit) (part : Text) :
    ∃ limit, b.append false part = .ok ⟨stackText absolute (part :: kept), limit⟩ ∧
      (stackText absolute (part :: kept)).length < limit := by
  have grown : (stackText absolute (part :: kept)).length ≤ part.length + b.dest.length + 1 := by
    rw [stackText, List.length_append, List.length_reverse, ← holds.openSlash_dest]
    have slash := length_openSlash_le b.dest
    omega
  rw [holds.append]
  split
  · refine ⟨_, rfl, ?_⟩
    split <;> omega
  · next short => exact ⟨b.limit, rfl, not_le.mp short⟩

/-- One component: the buffer follows the stack and no write leaves it. -/
theorem Within.step {r : PathBuffer × List (Nat × Nat)} (within : Within absolute kept r)
    (nonempty : part ≠ []) (whole : '/' ∉ part) (next : keepPart absolute kept part = some kept') :
    ∃ r', canonpathWriting r part = .ok r' ∧ Within absolute kept' r' := by
  obtain ⟨holds, room, inside⟩ := within
  rcases holds.step_cases next with ⟨special, b', step, holds', limit, fewer, -⟩ | ⟨plain, rfl, step⟩
  · refine ⟨_, canonpathWriting_eq (step false), holds', ?_, ?_⟩
    · rw [limit]
      exact fewer.trans_lt room
    · rw [if_pos special]
      exact inside
  · obtain ⟨limit, eq, enough⟩ := holds.append_room room part
    have longer : part.length ≤ (stackText absolute (part :: kept)).length := by
      rw [stackText, List.length_append, List.length_reverse]
      omega
    refine ⟨_, canonpathWriting_eq ((step false).trans eq),
      holds.push ⟨nonempty, plain.1, plain.2, whole⟩ limit, enough, ?_⟩
    rw [if_neg (not_or.mpr plain)]
    intro w member
    rcases List.mem_append.mp member with before | new
    · exact inside w before
    · exact inside_appendWrites room enough longer w new

/-- All components of a path that does not climb. -/
theorem Within.run {parts : List Text} {r : PathBuffer × List (Nat × Nat)}
    (within : Within absolute kept r) (sound : ∀ part ∈ parts, part ≠ [] ∧ '/' ∉ part)
    (run : parts.foldlM (keepPart absolute) kept = some kept') :
    ∃ r', parts.foldlM canonpathWriting r = .ok r' ∧ Within absolute kept' r' := by
  induction parts generalizing kept r with
  | nil =>
    cases run
    exact ⟨r, rfl, within⟩
  | cons part parts ih =>
    rw [List.foldlM_cons] at run
    obtain ⟨mid, next, rest⟩ := Option.bind_eq_some_iff.mp run
    obtain ⟨nonempty, whole⟩ := sound part List.mem_cons_self
    obtain ⟨r₁, first, within₁⟩ := within.step nonempty whole next
    obtain ⟨r', last, within'⟩ := ih within₁
      (fun p member => sound p (List.mem_cons_of_mem _ member)) rest
    refine ⟨r', ?_, within'⟩
    rw [List.foldlM_cons, first]
    exact last

/-- A path that climbs makes the code read before the buffer. -/
theorem Within.run_climb {parts : List Text} {r : PathBuffer × List (Nat × Nat)}
    (within : Within absolute kept r) (sound : ∀ part ∈ parts, part ≠ [] ∧ '/' ∉ part)
    (run : parts.foldlM (keepPart absolute) kept = none) :
    parts.foldlM canonpathWriting r = .error .readBeforeBuffer := by
  induction parts generalizing kept r with
  | nil => cases run
  | cons part parts ih =>
    rw [List.foldlM_cons] at run ⊢
    cases next : keepPart absolute kept part with
    | none =>
      rw [canonpathWriting, within.holds.climb next]
      rfl
    | some mid =>
      rw [next] at run
      obtain ⟨nonempty, whole⟩ := sound part List.mem_cons_self
      obtain ⟨r₁, first, within₁⟩ := within.step nonempty whole next
      rw [first]
      exact ih within₁ (fun p member => sound p (List.mem_cons_of_mem _ member)) run

end Runs

section Components

variable {absolute : Bool} {parts : List Text} {name : Text}

theorem components_sound (name : Text) : ∀ part ∈ components name, part ≠ [] ∧ '/' ∉ part := by
  intro part member
  obtain ⟨field, nonempty⟩ := List.mem_filter.mp member
  have separable : Separable ['/'] (split ['/'] name) := (cuts_separable (by simp) le_rfl).1
  exact ⟨by simpa using nonempty, separable.free part field⟩

/-- Behind a component that is not empty less is left. -/
theorem length_afterPart_lt {start name : Text} (shorter : start.length ≤ name.length)
    (present : start.takeWhile (· ≠ '/') ≠ []) :
    (start.dropWhile (· ≠ '/')).length < name.length := by
  have whole := congrArg List.length (List.takeWhile_append_dropWhile (p := (· ≠ '/')) (l := start))
  have positive := List.length_pos_iff.mpr present
  rw [List.length_append] at whole
  omega

/-- The components as the loop finds them with `start` and `end`. -/
def scanComponents (name : Text) : List Text :=
  let start := name.dropWhile (· = '/')
  let part := start.takeWhile (· ≠ '/')
  if part = [] then [] else part :: scanComponents (start.dropWhile (· ≠ '/'))
termination_by name.length
decreasing_by exact length_afterPart_lt (List.dropWhile_suffix _).length_le ‹_›

theorem components_slash (name : Text) : components ('/' :: name) = components name := by
  have fields : split ['/'] ('/' :: name) = [] :: split ['/'] name :=
    split_append (by simp) (unbroken_nil (by simp)) name
  rw [components, fields, List.filter_cons_of_neg (by simp), components]

theorem components_part {part : Text} (nonempty : part ≠ []) (whole : '/' ∉ part) (rest : Text) :
    components (part ++ '/' :: rest) = part :: components rest := by
  have fields := split_append (by simp : ['/'] ≠ []) (unbroken_single.mpr whole) rest
  rw [List.append_assoc, List.singleton_append] at fields
  rw [components, fields, List.filter_cons_of_pos (by simpa using nonempty), components]

theorem components_last {part : Text} (nonempty : part ≠ []) (whole : '/' ∉ part) :
    components part = [part] := by
  have apart : ¬ ['/'] <:+: part := fun inside =>
    whole ((List.singleton_infix_iff _ _).mp inside)
  rw [components, split_of_not_infix (by simp) apart, List.filter_cons_of_pos (by simpa using nonempty)]
  rfl

theorem components_dropWhile (name : Text) :
    components (name.dropWhile (· = '/')) = components name := by
  induction name with
  | nil => rfl
  | cons c name ih =>
    by_cases slash : c = '/'
    · rw [List.dropWhile_cons_of_pos (by simpa using slash), ih, slash, components_slash]
    · rw [List.dropWhile_cons_of_neg (by simpa using slash)]

theorem dropWhile_part_cases (start : Text) :
    start.dropWhile (· ≠ '/') = [] ∨ ∃ rest, start.dropWhile (· ≠ '/') = '/' :: rest := by
  have ends := List.head?_dropWhile_not (fun c : Char => decide (c ≠ '/')) start
  cases rest : start.dropWhile (· ≠ '/') with
  | nil => exact Or.inl rfl
  | cons c rest' =>
    rw [rest, List.head?_cons] at ends
    have slash : c = '/' := by simpa using ends
    exact Or.inr ⟨rest', by rw [slash]⟩

/-- What the loop finds are the stretches between slashes. -/
theorem scanComponents_eq (name : Text) : scanComponents name = components name := by
  fun_induction scanComponents name with
  | case1 name start part empty =>
    have begins : ∀ c, start.head? = some c → c ≠ '/' := by
      intro c head
      have letter := List.head?_dropWhile_not (fun c : Char => decide (c = '/')) name
      rw [show (name.dropWhile fun c => decide (c = '/')).head? = some c from head] at letter
      simpa using letter
    have whole : part ++ start.dropWhile (· ≠ '/') = start := List.takeWhile_append_dropWhile
    rw [empty, List.nil_append] at whole
    have split : components start = components name := components_dropWhile name
    rw [← split]
    rcases dropWhile_part_cases start with nothing | ⟨rest, slash⟩
    · rw [← whole, nothing]
      rfl
    · have head : start = '/' :: rest := whole.symm.trans slash
      exact absurd rfl (begins '/' (by rw [head]; rfl))
  | case2 name start part present ih =>
    have whole : part ++ start.dropWhile (· ≠ '/') = start := List.takeWhile_append_dropWhile
    have free : '/' ∉ part := by
      intro member
      have letter := List.mem_takeWhile_imp member
      simp at letter
    have split : components start = components name := components_dropWhile name
    rw [ih, ← split]
    rcases dropWhile_part_cases start with nothing | ⟨rest, slash⟩
    · rw [nothing, List.append_nil] at whole
      rw [nothing, ← whole, components_last present free]
      rfl
    · rw [slash] at whole
      rw [slash, components_slash, ← whole, components_part present free]

/-- A path of plain components is taken apart into them. -/
theorem components_joinPath (plain : ∀ part ∈ parts, Plain part) :
    components (joinPath absolute parts) = parts := by
  have kept : parts.filter (· ≠ []) = parts := by
    apply List.filter_eq_self.mpr
    intro part member
    simpa using (plain part member).nonempty
  rcases List.eq_nil_or_concat' parts with rfl | ⟨front, last, rfl⟩
  · cases absolute <;> rfl
  · have free : ∀ field ∈ front ++ [last], '/' ∉ field := fun field member =>
      (plain field member).whole
    cases absolute with
    | false =>
      have fields : split ['/'] (['/'].intercalate (front ++ [last])) = front ++ [last] :=
        (split_intercalate_iff (by simp)).mpr (separable_single free)
      rw [components, joinPath, if_neg (by simp), List.nil_append, fields]
      exact kept
    | true =>
      have slash : joinPath true (front ++ [last]) = ['/'].intercalate (([] :: front) ++ [last]) := by
        obtain ⟨p, rest, eq⟩ : ∃ p rest, front ++ [last] = p :: rest :=
          List.exists_cons_of_ne_nil (by simp)
        rw [List.cons_append, eq, List.intercalate_cons_cons]
        rfl
      have fields : split ['/'] (['/'].intercalate (([] :: front) ++ [last])) =
          ([] :: front) ++ [last] := by
        apply (split_intercalate_iff (by simp)).mpr
        apply separable_single
        intro field member
        rcases List.mem_cons.mp member with rfl | inside
        · exact List.not_mem_nil
        · exact free field inside
      rw [components, slash, fields, List.cons_append, List.filter_cons_of_neg (by simp)]
      exact kept

theorem isAbsolute_joinPath (plain : ∀ part ∈ parts, Plain part) :
    isAbsolute (joinPath absolute parts) = absolute := by
  cases absolute with
  | true => rfl
  | false =>
    cases parts with
    | nil => rfl
    | cons part parts =>
      obtain ⟨c, text, eq⟩ := List.exists_cons_of_ne_nil (plain part List.mem_cons_self).nonempty
      have other : c ≠ '/' := by
        rintro rfl
        exact (plain part List.mem_cons_self).whole (by rw [eq]; exact List.mem_cons_self)
      have head : (joinPath false (part :: parts)).head? = some c := by
        cases parts with
        | nil => simp [joinPath, eq]
        | cons q parts => simp [joinPath, List.intercalate_cons_cons, eq]
      rw [isAbsolute, head]
      simpa using other

/-- Plain components are all kept. -/
theorem foldlM_keepPart_plain (plain : ∀ part ∈ parts, Plain part) (kept : List Text) :
    parts.foldlM (keepPart absolute) kept = some (parts.reverse ++ kept) := by
  induction parts generalizing kept with
  | nil => rfl
  | cons part parts ih =>
    have here := plain part List.mem_cons_self
    have step : keepPart absolute kept part = some (part :: kept) := by
      simp only [keepPart, here.notDot, here.notDotdot, if_false]
    rw [List.foldlM_cons, step, List.reverse_cons, List.append_assoc]
    exact ih (fun p member => plain p (List.mem_cons_of_mem _ member)) (part :: kept)

/-- A normal form is its own normal form. -/
theorem normalForm_joinPath (plain : ∀ part ∈ parts, Plain part) :
    normalForm (joinPath absolute parts) = some (joinPath absolute parts) := by
  rw [normalForm, components_joinPath plain, isAbsolute_joinPath plain,
    foldlM_keepPart_plain plain, List.append_nil, Option.map_some, List.reverse_reverse]

end Components

section Canonical

variable {name normal : Text}

/-- The buffer before the first component. -/
theorem within_start (name : Text) :
    Within (isAbsolute name) [] (⟨if name.head? = some '/' then ['/'] else [], maxPath⟩,
      if name.head? = some '/' then [(0, maxPath)] else []) := by
  by_cases slash : name.head? = some '/'
  · have absolute : isAbsolute name = true := decide_eq_true slash
    rw [if_pos slash, if_pos slash, absolute]
    refine ⟨⟨List.forall_mem_nil _, Or.inl rfl⟩, by decide, ?_⟩
    intro w member
    rw [List.mem_singleton.mp member]
    decide
  · have relative : isAbsolute name = false := decide_eq_false slash
    rw [if_neg slash, if_neg slash, relative]
    exact ⟨⟨List.forall_mem_nil _, Or.inl rfl⟩, by decide, List.forall_mem_nil _⟩

/-- Names that are not refused are normalised inside the buffer, unless they climb. -/
theorem canonpathWrites_run (nonempty : name ≠ [])
    (accepted : ¬ (name.head? ≠ some '/' ∧ ['.', '.'].isPrefixOf name)) :
    match normalForm name with
    | none => canonpathWrites name = .error .readBeforeBuffer
    | some normal => ∃ writes, canonpathWrites name = .ok (normal, writes) ∧ Inside writes ∧
        ∃ parts, (∀ part ∈ parts, Plain part) ∧ normal = joinPath (isAbsolute name) parts := by
  have start := within_start name
  have sound := components_sound name
  rw [canonpathWrites, if_neg nonempty, if_neg accepted]
  simp only
  cases run : (components name).foldlM (keepPart (isAbsolute name)) [] with
  | none =>
    rw [normalForm, run, start.run_climb sound run]
    rfl
  | some kept =>
    obtain ⟨⟨b, writes⟩, loop, holds, room, inside⟩ := start.run sound run
    have short : (stackText (isAbsolute name) kept).length < b.limit := by
      rcases holds.dest with eq | ⟨-, eq⟩
      · rw [← eq]
        exact room
      · have length := congrArg List.length eq
        simp only [List.length_cons] at length room
        omega
    rw [normalForm, run, loop]
    simp only [Option.map_some, bind, Except.bind, pure, Except.pure]
    rw [holds.dropSlash_dest, stackText_eq holds.plain]
    refine ⟨_, rfl, ?_, kept.reverse, ?_, rfl⟩
    · intro w member
      rcases List.mem_append.mp member with before | last
      · exact inside w before
      · rw [List.mem_singleton.mp last]
        exact short
    · intro part member
      exact holds.plain part (List.mem_reverse.mp member)

theorem relative_of_dotdot (front : dotdot <+: name) :
    name.head? ≠ some '/' ∧ ['.', '.'].isPrefixOf name := by
  obtain ⟨rest, rfl⟩ := front
  simp [dotdot]

theorem canonpathWrites_refused (nonempty : name ≠ []) (front : dotdot <+: name) :
    canonpathWrites name = .error .null := by
  rw [canonpathWrites, if_neg nonempty, if_pos (relative_of_dotdot front)]

theorem accepted_iff :
    ¬ (name.head? ≠ some '/' ∧ ['.', '.'].isPrefixOf name) ↔
      isAbsolute name = true ∨ ¬ dotdot <+: name := by
  rw [not_and_or, not_ne_iff, isAbsolute, decide_eq_true_eq, List.isPrefixOf_iff_prefix]
  rfl

/-- A normal form is returned as it is, unless it begins with `..`. -/
theorem canonpath_normal (normal : Normal name) (nonempty : name ≠ [])
    (accepted : isAbsolute name = true ∨ ¬ dotdot <+: name) : canonpath false name = .ok name := by
  obtain ⟨absolute, parts, plain, rfl⟩ := normal
  have run := canonpathWrites_run nonempty (accepted_iff.mpr accepted)
  rw [normalForm_joinPath plain] at run
  obtain ⟨writes, eq, -⟩ := run
  rw [← canonpathWrites_fst, eq]
  rfl

/-- What is returned is the normal form of a name that is not refused. -/
theorem canonpath_eq_ok (canonical : canonpath false name = .ok normal) :
    name ≠ [] ∧ ¬ (name.head? ≠ some '/' ∧ ['.', '.'].isPrefixOf name) ∧
      normalForm name = some normal := by
  have nonempty : name ≠ [] := by
    rintro rfl
    cases canonical
  have accepted : ¬ (name.head? ≠ some '/' ∧ ['.', '.'].isPrefixOf name) := by
    intro refused
    rw [canonpath, if_neg nonempty, if_pos refused] at canonical
    cases canonical
  refine ⟨nonempty, accepted, ?_⟩
  have run := canonpathWrites_run nonempty accepted
  rw [← canonpathWrites_fst] at canonical
  cases form : normalForm name with
  | none =>
    rw [form] at run
    rw [run] at canonical
    cases canonical
  | some other =>
    rw [form] at run
    obtain ⟨writes, eq, -⟩ := run
    rw [eq] at canonical
    cases canonical
    rfl

theorem normal_of_canonpath (canonical : canonpath false name = .ok normal) : Normal normal := by
  obtain ⟨nonempty, accepted, form⟩ := canonpath_eq_ok canonical
  have run := canonpathWrites_run nonempty accepted
  rw [form] at run
  obtain ⟨-, -, -, parts, plain, eq⟩ := run
  exact ⟨_, parts, plain, eq⟩

/-- What is expected of `canonpath`: it returns the normal form, writing inside its buffer
only, and the normal form again for that; it refuses the names that climb. -/
def Canonicalises (name : Text) : Prop :=
  match normalForm name with
  | none => canonpathWrites name = .error .null
  | some normal => ∃ writes, canonpathWrites name = .ok (normal, writes) ∧ Inside writes ∧
      Normal normal ∧ (normal ≠ [] → canonpath false normal = .ok normal)

/-- Absolute names are normalised. A relative name is treated as expected exactly if it
climbs and begins with `..`, or neither climbs nor begins with `..` nor has a normal form
that does. -/
theorem canonicalises_iff (nonempty : name ≠ []) :
    Canonicalises name ↔
      match normalForm name with
      | none => dotdot <+: name
      | some normal => isAbsolute name = true ∨ ¬ dotdot <+: name ∧ ¬ dotdot <+: normal := by
  rw [Canonicalises]
  cases form : normalForm name with
  | none =>
    constructor
    · intro refused
      by_contra later
      have run := canonpathWrites_run nonempty (accepted_iff.mpr (Or.inr later))
      rw [form, refused] at run
      cases run
    · exact canonpathWrites_refused nonempty
  | some normal =>
    simp only
    constructor
    · intro expected
      obtain ⟨writes, eq, -, -, again⟩ := expected
      by_cases absolute : isAbsolute name = true
      · exact Or.inl absolute
      right
      constructor
      · intro front
        rw [canonpathWrites_refused nonempty front] at eq
        cases eq
      · intro front
        have present : normal ≠ [] := by
          rintro rfl
          exact absurd (List.prefix_nil.mp front) (by decide)
        have path := again present
        rw [← canonpathWrites_fst, canonpathWrites_refused present front] at path
        cases path
    · intro condition
      have accepted : isAbsolute name = true ∨ ¬ dotdot <+: name := condition.imp_right And.left
      have run := canonpathWrites_run nonempty (accepted_iff.mpr accepted)
      rw [form] at run
      obtain ⟨writes, eq, inside, parts, plain, rfl⟩ := run
      have normal : Normal (joinPath (isAbsolute name) parts) := ⟨_, parts, plain, rfl⟩
      refine ⟨writes, eq, inside, normal, ?_⟩
      intro present
      apply canonpath_normal normal present
      rw [isAbsolute_joinPath plain]
      exact condition.imp_right And.right

theorem canonicalises_iff_absolute :
    Canonicalises "/a/./b//../c/".toList ↔
      match normalForm "/a/./b//../c/".toList with
      | none => dotdot <+: "/a/./b//../c/".toList
      | some normal => isAbsolute "/a/./b//../c/".toList = true ∨
          ¬ dotdot <+: "/a/./b//../c/".toList ∧ ¬ dotdot <+: normal :=
  canonicalises_iff (by decide)

/-- A relative name that climbs behind its first component. -/
theorem canonpath_climbs : ¬ ∀ name : Text, name ≠ [] → Canonicalises name := by
  intro claim
  have climbs : normalForm "a/../..".toList = none := by decide
  have expected := claim "a/../..".toList (by decide)
  rw [Canonicalises, climbs] at expected
  have before : canonpathWrites "a/../..".toList = .error .readBeforeBuffer := by rfl
  rw [before] at expected
  cases expected

end Canonical

end Arthas.Utils
