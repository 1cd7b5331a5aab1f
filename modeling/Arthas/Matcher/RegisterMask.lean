import Arthas.Matcher.Matcher

/-!
Fuzzy matching (`Matcher::fuzzilyMatch`) against equality of the texts with every register
masked. The enumeration of the stretches leaves out a last empty one, so a register at the
end of one text alone is not seen; and a text that begins with `!dbg` is not cut.
-/

set_option autoImplicit false
set_option relaxedAutoImplicit false

namespace Arthas.Matcher

open Arthas.Lib Arthas.Utils

/-- The text with `none` in place of every percent sign and the digits behind it;
`inRegister` while digits are skipped. -/
def mask (inRegister : Bool) : Text → List (Option Char)
  | [] => []
  | [c] => if inRegister ∧ c.isDigit then [] else [some c]
  | c :: d :: s =>
    if inRegister ∧ c.isDigit then mask true (d :: s)
    else if c = '%' ∧ d.isDigit then none :: mask true (d :: s)
    else some c :: mask false (d :: s)

/-- The text before the first `!dbg`, if that is to be ignored. -/
def cutDbg (ignoreDbg : Bool) (s : Text) : Text :=
  if ignoreDbg then
    match firstAt "!dbg".toList s with
    | none => s
    | some (before, _) => before
  else s

/-- One text has a register at its end that the other, which ends otherwise, lacks. -/
def LastRegister (m m' : List (Option Char)) : Prop :=
  m = m' ++ [none] ∧ m'.getLast? ≠ some none

/-- Whether the text begins with what is to be ignored. -/
def cutAtStart (ignoreDbg : Bool) (s : Text) : Bool := ignoreDbg && "!dbg".toList.isPrefixOf s

section Mask

/-- The letters outside registers are kept. -/
theorem mask_cons {c : Char} (s : Text) (free : c ≠ '%') :
    mask false (c :: s) = some c :: mask false s := by
  cases s with
  | nil => rfl
  | cons d s =>
    rw [mask, if_neg (by simp), if_neg]
    intro register
    exact free register.1

theorem mask_append {p : Text} (s : Text) (free : '%' ∉ p) :
    mask false (p ++ s) = p.map some ++ mask false s := by
  induction p with
  | nil => rfl
  | cons c p ih =>
    rw [List.mem_cons, not_or] at free
    rw [List.cons_append, mask_cons _ (Ne.symm free.1), ih free.2]
    rfl

theorem mask_cons_cases (c : Char) (s : Text) :
    (∃ m, mask false (c :: s) = none :: m) ∨ mask false (c :: s) = some c :: mask false s := by
  cases s with
  | nil => exact Or.inr rfl
  | cons d s =>
    rw [mask, if_neg (by simp)]
    split
    · exact Or.inl ⟨_, rfl⟩
    · exact Or.inr rfl

theorem mask_eq_nil_iff {s : Text} : mask false s = [] ↔ s = [] := by
  cases s with
  | nil => exact iff_of_true rfl rfl
  | cons c s =>
    rcases mask_cons_cases c s with ⟨m, eq⟩ | eq
    · simp [eq]
    · simp [eq]

/-- Letters at the front of the mask are letters at the front of the text. -/
theorem prefix_of_mask {p s : Text} (front : p.map some <+: mask false s) : p <+: s := by
  induction p generalizing s with
  | nil => exact List.nil_prefix
  | cons c p ih =>
    cases s with
    | nil => exact absurd (List.prefix_nil.mp front) (by simp)
    | cons d s =>
      rcases mask_cons_cases d s with ⟨m, eq⟩ | eq
      · rw [eq, List.map_cons, List.cons_prefix_cons] at front
        cases front.1
      · rw [eq, List.map_cons, List.cons_prefix_cons] at front
        rw [Option.some.inj front.1]
        exact List.cons_prefix_cons.mpr ⟨rfl, ih front.2⟩

theorem mask_digits {digits s : Text} (digit : ∀ c ∈ digits, c.isDigit = true)
    (ends : ∀ c ∈ s.head?, c.isDigit = false) : mask true (digits ++ s) = mask false s := by
  induction digits with
  | nil =>
    cases s with
    | nil => rfl
    | cons c s =>
      have other := ends c (by simp)
      cases s with
      | nil => simp [mask, other]
      | cons d s => simp [mask, other]
  | cons c digits ih =>
    have here := digit c List.mem_cons_self
    have rest := ih fun d member => digit d (List.mem_cons_of_mem _ member)
    rw [List.cons_append]
    cases whole : digits ++ s with
    | nil =>
      obtain ⟨rfl, rfl⟩ := List.append_eq_nil_iff.mp whole
      simp [mask, here]
    | cons d more =>
      rw [mask, if_pos ⟨rfl, here⟩, ← whole]
      exact rest

/-- A percent sign and the digits behind it are masked together. -/
theorem mask_register {digits s : Text} (nonempty : digits ≠ [])
    (digit : ∀ c ∈ digits, c.isDigit = true) (ends : ∀ c ∈ s.head?, c.isDigit = false) :
    mask false ('%' :: digits ++ s) = none :: mask false s := by
  obtain ⟨c, tail, rfl⟩ := List.exists_cons_of_ne_nil nonempty
  rw [← mask_digits digit ends, List.cons_append, List.cons_append, mask, if_neg (by simp),
    if_pos ⟨rfl, digit c List.mem_cons_self⟩]

end Mask

section Stretches

/-- The stretches with a mark for the register between each two. -/
def joinStretches (stretches : List Text) : List (Option Char) :=
  [none].intercalate (stretches.map (List.map some))

theorem betweenRegisters_ne_nil (inRegister : Bool) (stretch s : Text) :
    betweenRegisters inRegister stretch s ≠ [] := by
  fun_induction betweenRegisters inRegister stretch s <;> simp_all

theorem joinStretches_cons (x : Text) {xs : List Text} (nonempty : xs ≠ []) :
    joinStretches (x :: xs) = x.map some ++ none :: joinStretches xs := by
  obtain ⟨y, ys, rfl⟩ := List.exists_cons_of_ne_nil nonempty
  rw [joinStretches, List.map_cons, List.map_cons, List.intercalate_cons_cons, joinStretches,
    List.map_cons, List.append_assoc]
  rfl

/-- The masked text is its stretches, joined. -/
theorem joinStretches_betweenRegisters (inRegister : Bool) (stretch s : Text) :
    joinStretches (betweenRegisters inRegister stretch s) =
      stretch.reverse.map some ++ mask inRegister s := by
  fun_induction betweenRegisters inRegister stretch s with
  | case1 inRegister stretch => simp [joinStretches, mask]
  | case2 inRegister stretch c digit => simp [joinStretches, mask, digit]
  | case3 inRegister stretch c other => simp [joinStretches, mask, other]
  | case4 inRegister stretch c d s digit ih => rw [ih, mask, if_pos digit]
  | case5 inRegister stretch c d s other register ih =>
    rw [joinStretches_cons _ (betweenRegisters_ne_nil _ _ _), ih, mask, if_neg other,
      if_pos register]
    rfl
  | case6 inRegister stretch c d s other free ih =>
    rw [ih, mask, if_neg other, if_neg free, List.reverse_cons, List.map_append,
      List.append_assoc]
    rfl

/-- Texts with the same stretches have the same mask, and the other way round. -/
theorem joinStretches_inj {xs ys : List Text} (nonempty : xs ≠ []) (nonempty' : ys ≠ [])
    (same : joinStretches xs = joinStretches ys) : xs = ys := by
  have read : ∀ zs : List Text, zs ≠ [] →
      split [none] (joinStretches zs) = zs.map (List.map some) := by
    intro zs present
    obtain ⟨front, last, rfl⟩ := (List.eq_nil_or_concat' zs).resolve_left present
    rw [joinStretches, split_intercalate_iff (by simp), List.map_append, List.map_singleton]
    apply separable_single
    intro field member marked
    rw [← List.map_singleton, ← List.map_append] at member
    obtain ⟨text, -, rfl⟩ := List.mem_map.mp member
    simp at marked
  have fields := read xs nonempty
  rw [same, read ys nonempty'] at fields
  exact (List.map_injective_iff.mpr (List.map_injective_iff.mpr (Option.some_injective _)) fields).symm

theorem joinStretches_concat {xs : List Text} (nonempty : xs ≠ []) (x : Text) :
    joinStretches (xs ++ [x]) = joinStretches xs ++ none :: x.map some := by
  have marked : xs.map (List.map some) ≠ [] := by simpa using nonempty
  rw [joinStretches, List.map_append, List.map_singleton, intercalate_concat marked,
    List.append_assoc]
  rfl

/-- The last stretch is left out exactly if a register is the end of the text. -/
theorem joinStretches_getLast? {xs : List Text} (nonempty : xs ≠ []) :
    (joinStretches xs).getLast? = some none ↔ 1 < xs.length ∧ xs.getLast? = some [] := by
  obtain ⟨front, last, rfl⟩ := (List.eq_nil_or_concat' xs).resolve_left nonempty
  by_cases single : front = []
  · subst single
    simp [joinStretches]
  · have longer : 1 < (front ++ [last]).length := by
      have positive := List.length_pos_iff.mpr single
      rw [List.length_append, List.length_singleton]
      omega
    rw [joinStretches_concat single, List.getLast?_concat, and_iff_right longer]
    rcases List.eq_nil_or_concat' last with rfl | ⟨text, c, rfl⟩
    · simp
    · have split : joinStretches front ++ none :: (text ++ [c]).map some =
          (joinStretches front ++ none :: text.map some) ++ [some c] := by simp
      rw [split, List.getLast?_concat]
      simp

/-- The stretches end with an empty one behind a register. -/
def EndsEmpty (xs : List Text) : Prop := 1 < xs.length ∧ xs.getLast? = some []

instance (xs : List Text) : Decidable (EndsEmpty xs) := inferInstanceAs (Decidable (_ ∧ _))

theorem EndsEmpty.eq {xs : List Text} (ends : EndsEmpty xs) : xs = xs.dropLast ++ [[]] := by
  obtain ⟨front, eq⟩ := List.getLast?_eq_some_iff.mp ends.2
  rw [eq, List.dropLast_concat]

theorem endsEmpty_concat {xs : List Text} (nonempty : xs ≠ []) : EndsEmpty (xs ++ [[]]) := by
  have positive := List.length_pos_iff.mpr nonempty
  constructor
  · rw [List.length_append, List.length_singleton]
    omega
  · exact List.getLast?_concat

/-- Leaving out a last empty stretch makes lists equal that differ in it only. -/
theorem dropEmpty_eq_iff {xs ys : List Text} (nonempty : xs ≠ []) (nonempty' : ys ≠ []) :
    (if EndsEmpty xs then xs.dropLast else xs) = (if EndsEmpty ys then ys.dropLast else ys) ↔
      xs = ys ∨ (xs = ys ++ [[]] ∧ ¬ EndsEmpty ys) ∨ (ys = xs ++ [[]] ∧ ¬ EndsEmpty xs) := by
  by_cases ends : EndsEmpty xs
  · by_cases ends' : EndsEmpty ys
    · rw [if_pos ends, if_pos ends']
      constructor
      · intro same
        left
        rw [ends.eq, ends'.eq, same]
      · intro cases
        rcases cases with same | ⟨-, other⟩ | ⟨-, other⟩
        · rw [same]
        · exact absurd ends' other
        · exact absurd ends other
    · rw [if_pos ends, if_neg ends']
      constructor
      · intro same
        right; left
        exact ⟨same ▸ ends.eq, ends'⟩
      · intro cases
        rcases cases with same | ⟨eq, -⟩ | ⟨-, other⟩
        · exact absurd (same ▸ ends) ends'
        · rw [eq, List.dropLast_concat]
        · exact absurd ends other
  · by_cases ends' : EndsEmpty ys
    · rw [if_neg ends, if_pos ends']
      constructor
      · intro same
        right; right
        exact ⟨same ▸ ends'.eq, ends⟩
      · intro cases
        rcases cases with same | ⟨-, other⟩ | ⟨eq, -⟩
        · exact absurd (same ▸ ends') ends
        · exact absurd ends' other
        · rw [eq, List.dropLast_concat]
    · rw [if_neg ends, if_neg ends']
      constructor
      · exact Or.inl
      · intro cases
        rcases cases with same | ⟨eq, -⟩ | ⟨eq, -⟩
        · exact same
        · exact absurd (eq ▸ endsEmpty_concat nonempty') ends
        · exact absurd (eq ▸ endsEmpty_concat nonempty) ends'

/-- The tokens agree exactly if the masks do, up to a register at the end of one text. -/
theorem registerTokens_eq_iff (s t : Text) :
    registerTokens s = registerTokens t ↔
      mask false s = mask false t ∨ LastRegister (mask false s) (mask false t) ∨
        LastRegister (mask false t) (mask false s) := by
  have masked : ∀ u, mask false u = joinStretches (betweenRegisters false [] u) := by
    intro u
    rw [joinStretches_betweenRegisters]
    rfl
  have last : ∀ xs ys : List Text, xs ≠ [] → ys ≠ [] →
      (LastRegister (joinStretches xs) (joinStretches ys) ↔ xs = ys ++ [[]] ∧ ¬ EndsEmpty ys) := by
    intro xs ys nonempty nonempty'
    have concat : joinStretches ys ++ [none] = joinStretches (ys ++ [[]]) :=
      (joinStretches_concat nonempty' []).symm
    rw [LastRegister, ne_eq, joinStretches_getLast? nonempty', concat]
    apply and_congr_left'
    constructor
    · exact joinStretches_inj nonempty (by simp)
    · exact congrArg joinStretches
  have present := betweenRegisters_ne_nil false [] s
  have present' := betweenRegisters_ne_nil false [] t
  rw [masked, masked, last _ _ present present', last _ _ present' present]
  refine (dropEmpty_eq_iff present present').trans (or_congr_left ?_)
  constructor
  · exact congrArg joinStretches
  · exact joinStretches_inj present present'

end Stretches

section Fuzzy

variable {s t : Text}

theorem withoutDbg_eq (s : Text) :
    withoutDbg s = if cutDbg true s = [] then s else cutDbg true s := by
  rw [withoutDbg, cutDbg, if_pos rfl]
  cases firstAt "!dbg".toList s with
  | none => simp
  | some cut =>
    obtain ⟨before, rest⟩ := cut
    rfl

/-- Nothing is left of a text that begins with `!dbg`, and of no other. -/
theorem cutDbg_eq_nil_iff (s : Text) :
    cutDbg true s = [] ↔ s = [] ∨ cutAtStart true s = true := by
  rw [cutDbg, if_pos rfl, cutAtStart, Bool.true_and, List.isPrefixOf_iff_prefix]
  cases found : firstAt "!dbg".toList s with
  | none =>
    have apart := (firstAt_eq_none_iff (by decide)).mp found
    constructor
    · exact Or.inl
    · intro either
      rcases either with empty | front
      · exact empty
      · exact absurd front.isInfix apart
  | some cut =>
    obtain ⟨before, rest⟩ := cut
    obtain ⟨eq, unbroken⟩ := (firstAt_eq_some_iff (by decide)).mp found
    constructor
    · intro empty
      right
      simp only at empty
      rw [eq, empty, List.nil_append]
      exact List.prefix_append _ _
    · intro either
      rcases either with empty | front
      · rw [empty] at eq
        simp at eq
      · cases s with
        | nil => exact absurd (List.prefix_nil.mp front) (by decide)
        | cons c s =>
          rw [firstAt, if_pos (List.isPrefixOf_iff_prefix.mpr front)] at found
          cases found
          rfl

/-- What is left of a text that does not begin with `!dbg` does not either. -/
theorem cutAtStart_cutDbg (later : cutAtStart true s = false) :
    ¬ "!dbg".toList <+: cutDbg true s := by
  intro front
  rw [cutDbg, if_pos rfl] at front
  cases found : firstAt "!dbg".toList s with
  | none =>
    rw [found] at front
    exact (firstAt_eq_none_iff (by decide)).mp found front.isInfix
  | some cut =>
    obtain ⟨before, rest⟩ := cut
    rw [found] at front
    obtain ⟨eq, -⟩ := (firstAt_eq_some_iff (by decide)).mp found
    have start : "!dbg".toList <+: s := by
      rw [eq, List.append_assoc]
      exact front.trans (List.prefix_append _ _)
    rw [cutAtStart, Bool.true_and, List.isPrefixOf_iff_prefix.mpr start] at later
    cases later

/-- Texts with the same tokens both begin with `!dbg` if one does. -/
theorem prefix_of_registerTokens_eq (same : registerTokens s = registerTokens t)
    (front : "!dbg".toList <+: s) : "!dbg".toList <+: t := by
  apply prefix_of_mask
  have marks : "!dbg".toList.map some <+: mask false s := by
    obtain ⟨rest, rfl⟩ := front
    rw [mask_append _ (by decide)]
    exact List.prefix_append _ _
  rcases (registerTokens_eq_iff s t).mp same with eq | ⟨eq, -⟩ | ⟨eq, -⟩
  · rw [← eq]
    exact marks
  · rw [eq, List.prefix_concat_iff] at marks
    rcases marks with whole | inside
    · -- The mark of a register is none of the letters.
      have last : none ∈ "!dbg".toList.map some := by
        rw [whole]
        simp
      simp at last
    · exact inside
  · rw [eq]
    exact marks.trans (List.prefix_append _ _)

theorem withoutDbg_of_later (later : cutAtStart true s = false) :
    withoutDbg s = cutDbg true s := by
  rw [withoutDbg_eq]
  split
  · next empty =>
    rcases (cutDbg_eq_nil_iff s).mp empty with nothing | start
    · rw [empty, nothing]
    · rw [start] at later
      cases later
  · rfl

theorem withoutDbg_of_start (start : cutAtStart true s = true) :
    withoutDbg s = s ∧ cutDbg true s = [] ∧ "!dbg".toList <+: s := by
  have empty := (cutDbg_eq_nil_iff s).mpr (Or.inr start)
  rw [withoutDbg_eq, if_pos empty]
  exact ⟨rfl, empty, List.isPrefixOf_iff_prefix.mp start⟩

/-- Equal tokens mean equal masks exactly if no text has one more register at its end. -/
theorem registerTokens_sound_iff (s t : Text) :
    (registerTokens s = registerTokens t ↔ mask false s = mask false t) ↔
      ¬ LastRegister (mask false s) (mask false t) ∧
        ¬ LastRegister (mask false t) (mask false s) := by
  have differ : ∀ m m' : List (Option Char), LastRegister m m' → m ≠ m' := by
    intro m m' last same
    have length := congrArg List.length last.1
    rw [same, List.length_append, List.length_singleton] at length
    omega
  rw [registerTokens_eq_iff]
  constructor
  · intro sound
    constructor
    · intro last
      exact differ _ _ last (sound.mp (Or.inr (Or.inl last)))
    · intro last
      exact differ _ _ last (sound.mp (Or.inr (Or.inr last))).symm
  · intro apart
    constructor
    · intro same
      rcases same with eq | last | last
      · exact eq
      · exact absurd last apart.1
      · exact absurd last apart.2
    · exact Or.inl

/-- Whether fuzzy matching sees what it should: after the cut, no text has a register at
its end that the other lacks; of texts that begin with `!dbg`, which are not cut, both agree
up to registers, or the other is not empty. -/
def FuzzySound (ignoreDbg : Bool) (s t : Text) : Prop :=
  match cutAtStart ignoreDbg s, cutAtStart ignoreDbg t with
  | false, false =>
    ¬ LastRegister (mask false (cutDbg ignoreDbg s)) (mask false (cutDbg ignoreDbg t)) ∧
      ¬ LastRegister (mask false (cutDbg ignoreDbg t)) (mask false (cutDbg ignoreDbg s))
  | true, false => t ≠ []
  | false, true => s ≠ []
  | true, true =>
    mask false s = mask false t ∨ LastRegister (mask false s) (mask false t) ∨
      LastRegister (mask false t) (mask false s)

/-- Fuzzy matching agrees with equality of the masks of the cut texts exactly for sound
texts. -/
theorem fuzzilyMatch_iff_mask (s t : Text) (ignoreDbg : Bool) :
    (fuzzilyMatch s t ignoreDbg = true ↔
        mask false (cutDbg ignoreDbg s) = mask false (cutDbg ignoreDbg t)) ↔
      FuzzySound ignoreDbg s t := by
  cases ignoreDbg with
  | false =>
    have uncut : ∀ u, cutDbg false u = u := fun _ => rfl
    simp only [fuzzilyMatch, FuzzySound, cutAtStart, uncut, Bool.false_and, Bool.false_eq_true,
      if_false, decide_eq_true_eq]
    exact registerTokens_sound_iff s t
  | true =>
    rw [fuzzilyMatch, if_pos rfl, decide_eq_true_eq, FuzzySound]
    cases start : cutAtStart true s with
    | false =>
      rw [withoutDbg_of_later start]
      cases start' : cutAtStart true t with
      | false =>
        rw [withoutDbg_of_later start']
        exact registerTokens_sound_iff _ _
      | true =>
        obtain ⟨uncut, empty, front⟩ := withoutDbg_of_start start'
        have apart : registerTokens (cutDbg true s) ≠ registerTokens t := fun same =>
          cutAtStart_cutDbg start (prefix_of_registerTokens_eq same.symm front)
        rw [uncut, empty, iff_false_left apart]
        apply not_congr
        rw [show mask false [] = [] from rfl, mask_eq_nil_iff, cutDbg_eq_nil_iff, start]
        simp
    | true =>
      obtain ⟨uncut, empty, front⟩ := withoutDbg_of_start start
      rw [uncut, empty]
      cases start' : cutAtStart true t with
      | false =>
        have apart : registerTokens s ≠ registerTokens (cutDbg true t) := fun same =>
          cutAtStart_cutDbg start' (prefix_of_registerTokens_eq same front)
        rw [withoutDbg_of_later start', iff_false_left apart]
        apply not_congr
        rw [show mask false [] = [] from rfl, eq_comm, mask_eq_nil_iff, cutDbg_eq_nil_iff, start']
        simp
      | true =>
        obtain ⟨uncut', empty', -⟩ := withoutDbg_of_start start'
        rw [uncut', empty', iff_true_right rfl]
        exact registerTokens_eq_iff s t

/-- A register at the end of one text only. -/
theorem fuzzilyMatch_lastRegister :
    ¬ ∀ (s t : Text) (ignoreDbg : Bool), fuzzilyMatch s t ignoreDbg = true ↔
      mask false (cutDbg ignoreDbg s) = mask false (cutDbg ignoreDbg t) := by
  intro claim
  exact absurd ((claim "br label %1".toList "br label ".toList true).mp (by decide)) (by decide)

end Fuzzy

end Arthas.Matcher
