import Arthas.Lib.StackWalk

/-!
Splitting the order of a depth-first walk into paths that are kept in a queue. The
paths start at the root, repeat nothing and cover the walk. They follow the edges of
the graph exactly when nothing is pending where the walk branches.
-/

set_option autoImplicit false
set_option relaxedAutoImplicit false

namespace Arthas.Lib.StackWalk

open Batching

variable {ν : Type*} [DecidableEq ν]

/-- A queue of growing paths: those that are complete, the one that grows, and those to be
taken up later. -/
structure Paths (ν : Type*) where
  done : List (List ν)
  current : List ν
  waiting : List (List ν)

namespace Paths

/-- All paths, in the order in which they came up. -/
def all (ps : Paths ν) : List (List ν) := ps.done ++ ps.current :: ps.waiting

/-- The path that grows takes the expanded element. Where the element found more than one
other, as many copies as needed are queued; where it found none, the path is complete and
the first of the queue goes on. -/
def place (ps : Paths ν) (e : Expansion ν) : Paths ν :=
  if e.found = [] then
    match ps.waiting with
    | [] => ⟨ps.done, ps.current ++ [e.node], []⟩
    | p :: waiting => ⟨ps.done ++ [ps.current ++ [e.node]], p, waiting⟩
  else
    ⟨ps.done, ps.current ++ [e.node],
      ps.waiting ++ List.replicate (e.found.length - 1) (ps.current ++ [e.node])⟩

def start (ν : Type*) : Paths ν := ⟨[], [], []⟩

omit [DecidableEq ν] in
theorem place_leaf_last {ps : Paths ν} {e : Expansion ν} (he : e.found = [])
    (hps : ps.waiting = []) : ps.place e = ⟨ps.done, ps.current ++ [e.node], []⟩ := by
  rw [place, if_pos he, hps]

omit [DecidableEq ν] in
theorem place_leaf {ps : Paths ν} {e : Expansion ν} {p : List ν} {waiting : List (List ν)}
    (he : e.found = []) (hps : ps.waiting = p :: waiting) :
    ps.place e = ⟨ps.done ++ [ps.current ++ [e.node]], p, waiting⟩ := by
  rw [place, if_pos he, hps]

omit [DecidableEq ν] in
theorem place_inner (ps : Paths ν) {e : Expansion ν} (he : e.found ≠ []) :
    ps.place e = ⟨ps.done, ps.current ++ [e.node],
      ps.waiting ++ List.replicate (e.found.length - 1) (ps.current ++ [e.node])⟩ := by
  rw [place, if_neg he]

omit [DecidableEq ν] in
theorem length_all_place (ps : Paths ν) (e : Expansion ν) :
    (ps.place e).all.length = ps.all.length + (e.found.length - 1) := by
  by_cases he : e.found = []
  · cases hps : ps.waiting with
    | nil => simp [place_leaf_last he hps, all, hps, he]
    | cons p waiting => simp [place_leaf he hps, all, hps, he]
  · simp [place_inner ps he, all, Nat.add_assoc]
    omega

omit [DecidableEq ν] in
/-- The number of paths: one more for every element found beside the first. -/
theorem length_all_foldl (es : List (Expansion ν)) (ps : Paths ν) :
    (es.foldl place ps).all.length =
      ps.all.length + (es.map fun e => e.found.length - 1).sum := by
  induction es generalizing ps with
  | nil => rfl
  | cons e es ih =>
    rw [List.foldl_cons, ih, length_all_place, List.map_cons, List.sum_cons, Nat.add_assoc]

omit [DecidableEq ν] in
/-- What a placement leaves: each path is an old one, or the current one with the element
after it. -/
theorem mem_all_place {ps : Paths ν} {e : Expansion ν} {p : List ν} :
    p ∈ (ps.place e).all ↔ p ∈ ps.done ∨ p ∈ ps.waiting ∨ p = ps.current ++ [e.node] := by
  by_cases he : e.found = []
  · cases hps : ps.waiting with
    | nil => simp [place_leaf_last he hps, all]
    | cons q waiting =>
      rw [place_leaf he hps]
      simp only [all, List.mem_append, List.mem_cons, List.not_mem_nil, or_false]
      tauto
  · rw [place_inner ps he]
    simp only [all, List.mem_append, List.mem_cons, List.mem_replicate]
    tauto

end Paths

/-- The paths that a walk splits into. -/
def paths (succ : ν → List ν) (fuel : Nat) (root : ν) : List (List ν) :=
  ((walk succ fuel root).foldl Paths.place (Paths.start ν)).all

/-- A path from `root` that meets only expanded elements, and none twice. -/
structure Thread (root : ν) (es : List (Expansion ν)) (p : List ν) : Prop where
  head : p.head? = some root
  nodup : p.Nodup
  expanded : ∀ v ∈ p, v ∈ es.map Expansion.node

/-- The paths of a walk so far: they are threads, they cover what was expanded, and as many
are to be taken up as elements are pending. -/
structure Threaded (root : ν) (es : List (Expansion ν)) (stack : List ν) (ps : Paths ν) :
    Prop where
  balanced : stack ≠ [] → stack.length = ps.waiting.length + 1
  done : ∀ p ∈ ps.done, Thread root es p
  waiting : ∀ p ∈ ps.waiting, Thread root es p
  current : Thread root es ps.current ∨ ps.current = [] ∧ stack = [root]
  covered : ∀ v ∈ es.map Expansion.node, ∃ p ∈ ps.all, v ∈ p

omit [DecidableEq ν] in
theorem Thread.mono {root : ν} {es : List (Expansion ν)} {p : List ν} (h : Thread root es p)
    (e : Expansion ν) : Thread root (es ++ [e]) p where
  head := h.head
  nodup := h.nodup
  expanded v hv := by
    rw [List.map_append]
    exact List.mem_append_left _ (h.expanded v hv)

section Split

variable {succ : ν → List ν} {root : ν} {nodes : List ν}

omit [DecidableEq ν] in
theorem Threaded.start : Threaded root [] [root] (Paths.start ν) where
  balanced _ := rfl
  done := by simp [Paths.start]
  waiting := by simp [Paths.start]
  current := Or.inr ⟨rfl, rfl⟩
  covered := by simp

omit [DecidableEq ν] in
/-- The path that grows stays a thread. -/
theorem Threaded.grown {es : List (Expansion ν)} {marked pending : List ν} {ps : Paths ν}
    {e : Expansion ν} (hw : Walked succ root nodes es marked (e.node :: pending))
    (h : Threaded root es (e.node :: pending) ps) :
    Thread root (es ++ [e]) (ps.current ++ [e.node]) := by
  have hmap : (es ++ [e]).map Expansion.node = es.map Expansion.node ++ [e.node] := by
    rw [List.map_append]
    rfl
  have hnew : e.node ∉ es.map Expansion.node := fun hmem =>
    (List.nodup_append'.mp hw.nodup).2.2 hmem List.mem_cons_self
  rcases h.current with hcur | ⟨hnil, hroot⟩
  · refine ⟨?_, ?_, fun v hv => ?_⟩
    · rw [List.head?_append, hcur.head]
      rfl
    · refine List.nodup_append'.mpr ⟨hcur.nodup, List.nodup_singleton _, fun v hv hv' => ?_⟩
      rw [List.mem_singleton.mp hv'] at hv
      exact hnew (hcur.expanded _ hv)
    · rw [hmap]
      rcases List.mem_append.mp hv with hv | hv
      · exact List.mem_append_left _ (hcur.expanded v hv)
      · exact List.mem_append_right _ hv
  · have hnode : e.node = root := (List.cons.inj hroot).1
    rw [hnil, List.nil_append]
    refine ⟨by rw [hnode]; rfl, List.nodup_singleton _, fun v hv => ?_⟩
    rw [hmap]
    exact List.mem_append_right _ hv

theorem Threaded.step {es : List (Expansion ν)} {marked pending : List ν} {node : ν}
    {ps : Paths ν} (hw : Walked succ root nodes es marked (node :: pending))
    (h : Threaded root es (node :: pending) ps) :
    let found := fresh marked (succ node)
    Threaded root (es ++ [⟨node, pending, found⟩]) (found.reverse ++ pending)
      (ps.place ⟨node, pending, found⟩) := by
  intro found
  let e : Expansion ν := ⟨node, pending, found⟩
  have hgrown : Thread root (es ++ [e]) (ps.current ++ [node]) := h.grown hw
  have hbalanced : pending.length = ps.waiting.length :=
    Nat.succ.inj (h.balanced (List.cons_ne_nil _ _))
  have hcovered : ∀ v ∈ (es ++ [e]).map Expansion.node, ∃ p ∈ (ps.place e).all, v ∈ p := by
    intro v hv
    rw [List.map_append, List.mem_append] at hv
    rcases hv with hv | hv
    · obtain ⟨p, hp, hvp⟩ := h.covered v hv
      simp only [Paths.all, List.mem_append, List.mem_cons] at hp
      rcases hp with hp | rfl | hp
      · exact ⟨p, Paths.mem_all_place.mpr (Or.inl hp), hvp⟩
      · exact ⟨_, Paths.mem_all_place.mpr (Or.inr (Or.inr rfl)), List.mem_append_left _ hvp⟩
      · exact ⟨p, Paths.mem_all_place.mpr (Or.inr (Or.inl hp)), hvp⟩
    · exact ⟨_, Paths.mem_all_place.mpr (Or.inr (Or.inr rfl)), List.mem_append_right _ hv⟩
  by_cases hfound : found = []
  · cases hps : ps.waiting with
    | nil =>
      have hpending : pending = [] := List.length_eq_zero_iff.mp (by rw [hbalanced, hps]; rfl)
      rw [Paths.place_leaf_last hfound hps] at hcovered ⊢
      refine ⟨fun hne => absurd ?_ hne, fun p hp => (h.done p hp).mono e, by simp, Or.inl hgrown,
        hcovered⟩
      rw [hfound, hpending]
      rfl
    | cons q waiting =>
      rw [Paths.place_leaf hfound hps] at hcovered ⊢
      have hq : Thread root es q := h.waiting q (hps ▸ List.mem_cons_self)
      refine ⟨fun _ => ?_, fun p hp => ?_, fun p hp => ?_, Or.inl (hq.mono e), hcovered⟩
      · rw [hfound, List.reverse_nil, List.nil_append, hbalanced, hps]
        rfl
      · rcases List.mem_append.mp hp with hp | hp
        · exact (h.done p hp).mono e
        · exact List.mem_singleton.mp hp ▸ hgrown
      · exact (h.waiting p (hps ▸ List.mem_cons_of_mem _ hp)).mono e
  · rw [Paths.place_inner ps hfound] at hcovered ⊢
    have hpos : 0 < found.length := List.length_pos_iff.mpr hfound
    refine ⟨fun _ => ?_, fun p hp => (h.done p hp).mono e, fun p hp => ?_, Or.inl hgrown, hcovered⟩
    · simp only [List.length_append, List.length_reverse, List.length_replicate, hbalanced]
      omega
    · rcases List.mem_append.mp hp with hp | hp
      · exact (h.waiting p hp).mono e
      · exact (List.mem_replicate.mp hp).2 ▸ hgrown

/-- The paths of a whole walk. -/
theorem threaded_walk (hnodes : ∀ v ∈ nodes, ∀ u ∈ succ v, u ∈ nodes) (hroot : root ∈ nodes)
    {fuel : Nat} (hfuel : nodes.length ≤ fuel) : Threaded root (walk succ fuel root) []
      ((walk succ fuel root).foldl Paths.place (Paths.start ν)) := by
  obtain ⟨-, -, hthreaded⟩ := Walked.run hnodes Paths.place (I := fun es _ stack ps =>
    Threaded root es stack ps) (fun _ _ _ _ _ hw h => h.step hw) fuel (Paths.start ν)
    (by simpa using hfuel) (Walked.start hroot) Threaded.start
  exact hthreaded

/-- Every path of a whole walk starts at the root, repeats nothing, and the paths cover
exactly what was expanded. -/
theorem paths_spec (hnodes : ∀ v ∈ nodes, ∀ u ∈ succ v, u ∈ nodes) (hroot : root ∈ nodes)
    {fuel : Nat} (hfuel : nodes.length ≤ fuel) :
    (∀ p ∈ paths succ fuel root, Thread root (walk succ fuel root) p) ∧
      ∀ v ∈ (walk succ fuel root).map Expansion.node, ∃ p ∈ paths succ fuel root, v ∈ p := by
  have h := threaded_walk hnodes hroot hfuel
  refine ⟨fun p hp => ?_, h.covered⟩
  simp only [paths, Paths.all, List.mem_append, List.mem_cons] at hp
  rcases hp with hp | rfl | hp
  · exact h.done p hp
  · exact h.current.resolve_right fun hnone => absurd hnone.2 (by simp)
  · exact h.waiting p hp

/-! When the paths follow the edges. -/

/-- Nothing is pending where the walk branches. -/
def Alone (e : Expansion ν) : Prop := 2 ≤ e.found.length → e.pending = []

/-- The path leads from each of its elements to the next. -/
def Follows (succ : ν → List ν) (p : List ν) : Prop := p.IsChain (Leads succ)

/-- Each element of the stack goes on the path that was queued for it. -/
structure Aligned (succ : ν → List ν) (stack : List ν) (ps : Paths ν) : Prop where
  done : ∀ p ∈ ps.done, Follows succ p
  ahead : stack ≠ [] → List.Forall₂ (fun p v => Follows succ (p ++ [v])) (ps.current :: ps.waiting) stack
  ended : stack = [] → Follows succ ps.current ∧ ps.waiting = []

/-- Some path has left the edges. -/
def Strayed (succ : ν → List ν) (ps : Paths ν) : Prop := ∃ p ∈ ps.all, ¬ Follows succ p

/-- Some path is about to leave the edges: the elements that come up before it is taken up
are none that its last element leads to, or it is about to take such an element. -/
def Straying (succ : ν → List ν) (es : List (Expansion ν)) (stack : List ν) (ps : Paths ν) : Prop :=
  (∃ p v waiting top rest, ps.waiting = (p ++ [v]) :: waiting ∧ v ∈ es.map Expansion.node ∧
    stack = top ++ rest ∧ 2 ≤ top.length ∧ ∀ t ∈ top, ¬ Leads succ v t) ∨
  ∃ p v t rest, ps.current = p ++ [v] ∧ stack = t :: rest ∧ ¬ Leads succ v t

omit [DecidableEq ν] in
theorem follows_concat {p : List ν} {u v : ν} (h : Follows succ (p ++ [u])) (hlead : Leads succ u v) :
    Follows succ (p ++ [u] ++ [v]) := by
  refine List.isChain_append.mpr ⟨h, List.isChain_singleton v, ?_⟩
  intro x hx y hy
  simp at hx hy
  rw [← hx, ← hy]
  exact hlead

omit [DecidableEq ν] in
theorem forall₂_replicate {R : List ν → ν → Prop} {p : List ν} {l : List ν} (h : ∀ v ∈ l, R p v) :
    List.Forall₂ R (List.replicate l.length p) l := by
  induction l with
  | nil => exact List.Forall₂.nil
  | cons v l ih =>
    exact List.Forall₂.cons (h v List.mem_cons_self) (ih fun u hu => h u (List.mem_cons_of_mem _ hu))

theorem Aligned.step {node : ν} {marked pending : List ν} {ps : Paths ν}
    (h : Aligned succ (node :: pending) ps) :
    let found := fresh marked (succ node)
    Alone ⟨node, pending, found⟩ →
      Aligned succ (found.reverse ++ pending) (ps.place ⟨node, pending, found⟩) := by
  intro found halone
  obtain ⟨hcur, hwaiting⟩ := List.forall₂_cons.mp (h.ahead (List.cons_ne_nil _ _))
  by_cases hfound : found = []
  · rw [hfound, List.reverse_nil, List.nil_append]
    cases hps : ps.waiting with
    | nil =>
      rw [Paths.place_leaf_last rfl hps]
      rw [hps] at hwaiting
      exact ⟨h.done, fun hne => absurd (List.forall₂_nil_left_iff.mp hwaiting) hne,
        fun _ => ⟨hcur, rfl⟩⟩
    | cons p waiting =>
      rw [Paths.place_leaf rfl hps]
      rw [hps] at hwaiting
      refine ⟨fun q hq => ?_, fun _ => hwaiting, fun hnil => ?_⟩
      · rcases List.mem_append.mp hq with hq | hq
        · exact h.done q hq
        · exact List.mem_singleton.mp hq ▸ hcur
      · rw [hnil] at hwaiting
        cases hwaiting
  · have hgoes : ∀ v ∈ found, Follows succ (ps.current ++ [node] ++ [v]) := fun v hv =>
      follows_concat hcur (mem_fresh.mp hv).1
    rw [Paths.place_inner ps hfound]
    refine ⟨h.done, fun _ => ?_, fun hnil => ?_⟩
    · by_cases htwo : 2 ≤ found.length
      · have hpending : pending = [] := halone htwo
        rw [hpending] at hwaiting ⊢
        rw [List.forall₂_nil_right_iff.mp hwaiting, List.nil_append, List.append_nil,
          ← List.replicate_succ, show found.length - 1 + 1 = found.reverse.length by
            rw [List.length_reverse]; omega]
        exact forall₂_replicate fun v hv => hgoes v (List.mem_reverse.mp hv)
      · have hpos : 0 < found.length := List.length_pos_iff.mpr hfound
        obtain ⟨x, hx⟩ := List.length_eq_one_iff.mp (show found.length = 1 by omega)
        have hgoesx := hgoes x (hx ▸ List.mem_singleton_self x)
        simp only [hx, List.length_singleton, Nat.sub_self, List.replicate_zero, List.append_nil]
        exact List.Forall₂.cons hgoesx hwaiting
    · rw [List.append_eq_nil_iff, List.reverse_eq_nil_iff] at hnil
      exact absurd hnil.1 hfound

omit [DecidableEq ν] in
theorem Strayed.step {ps : Paths ν} (h : Strayed succ ps) (e : Expansion ν) :
    Strayed succ (ps.place e) := by
  obtain ⟨p, hp, hnot⟩ := h
  simp only [Paths.all, List.mem_append, List.mem_cons] at hp
  rcases hp with hp | rfl | hp
  · exact ⟨p, Paths.mem_all_place.mpr (Or.inl hp), hnot⟩
  · refine ⟨_, Paths.mem_all_place.mpr (Or.inr (Or.inr rfl)), fun hchain => hnot ?_⟩
    exact hchain.left_of_append
  · exact ⟨p, Paths.mem_all_place.mpr (Or.inr (Or.inl hp)), hnot⟩

/-- A path about to leave the edges has left them, or is still about to. -/
theorem Straying.step {es : List (Expansion ν)} {marked pending : List ν} {node : ν}
    {ps : Paths ν} (hw : Walked succ root nodes es marked (node :: pending))
    (h : Straying succ es (node :: pending) ps) :
    let found := fresh marked (succ node)
    Strayed succ (ps.place ⟨node, pending, found⟩) ∨
      Straying succ (es ++ [⟨node, pending, found⟩]) (found.reverse ++ pending)
        (ps.place ⟨node, pending, found⟩) := by
  intro found
  rcases h with ⟨p, v, waiting, top, rest, hps, hv, hstack, htop, hfar⟩ | ⟨p, v, t, rest, hcur,
    hstack, hfar⟩
  · right
    cases top with
    | nil => simp at htop
    | cons t top =>
      obtain ⟨rfl, rfl⟩ := List.cons.inj hstack
      have htop' : 1 ≤ top.length := by simpa using htop
      by_cases hfound : found = []
      · right
        cases top with
        | nil => simp at htop'
        | cons t' top =>
          rw [Paths.place_leaf hfound hps, hfound]
          exact ⟨p, v, t', top ++ rest, rfl, rfl, hfar t' (by simp)⟩
      · left
        have hpos : 0 < found.length := List.length_pos_iff.mpr hfound
        rw [Paths.place_inner ps hfound, hps]
        refine ⟨p, v, _, found.reverse ++ top, rest, rfl, ?_, by simp, ?_, fun u hu => ?_⟩
        · rw [List.map_append]
          exact List.mem_append_left _ hv
        · rw [List.length_append, List.length_reverse]
          omega
        · rcases List.mem_append.mp hu with hu | hu
          · -- What is found now was not marked when `v` was expanded.
            exact fun hlead => (mem_fresh.mp (List.mem_reverse.mp hu)).2 (hw.closed v hv u hlead)
          · exact hfar u (List.mem_cons_of_mem _ hu)
  · left
    obtain ⟨rfl, rfl⟩ := List.cons.inj hstack
    refine ⟨ps.current ++ [node], Paths.mem_all_place.mpr (Or.inr (Or.inr rfl)), ?_⟩
    rw [hcur]
    intro hchain
    have hlast := (List.isChain_append.mp hchain).2.2
    exact hfar (hlast v (by simp) node (by simp))

/-- Where the walk branches with something pending, a path is about to leave the edges. -/
theorem Straying.start {es : List (Expansion ν)} {marked pending : List ν} {node : ν}
    {ps : Paths ν} (hw : Walked succ root nodes es marked (node :: pending))
    (ht : Threaded root es (node :: pending) ps) :
    let found := fresh marked (succ node)
    ¬ Alone ⟨node, pending, found⟩ →
      Straying succ (es ++ [⟨node, pending, found⟩]) (found.reverse ++ pending)
        (ps.place ⟨node, pending, found⟩) := by
  intro found hnot
  obtain ⟨htwo, hpending⟩ := Classical.not_imp.mp hnot
  have hfound : found ≠ [] := fun hnil => by
    rw [show (⟨node, pending, found⟩ : Expansion ν).found = [] from hnil] at htwo
    simp at htwo
  have hlen : pending.length = ps.waiting.length :=
    Nat.succ.inj (ht.balanced (List.cons_ne_nil _ _))
  cases hps : ps.waiting with
  | nil => exact absurd (List.length_eq_zero_iff.mp (by rw [hlen, hps]; rfl)) hpending
  | cons q waiting =>
    have hq : Thread root es q := ht.waiting q (hps ▸ List.mem_cons_self)
    have hne : q ≠ [] := fun hnil => by
      have hhead := hq.head
      rw [hnil] at hhead
      cases hhead
    obtain ⟨p, v, rfl⟩ : ∃ p v, q = p ++ [v] := ⟨q.dropLast, q.getLast hne,
      (List.dropLast_append_getLast hne).symm⟩
    have hv : v ∈ es.map Expansion.node := hq.expanded v (by simp)
    rw [Paths.place_inner ps hfound, hps]
    refine Or.inl ⟨p, v, _, found.reverse, pending, rfl, ?_, rfl, ?_, fun u hu hlead => ?_⟩
    · rw [List.map_append]
      exact List.mem_append_left _ hv
    · rw [List.length_reverse]
      exact htwo
    · exact (mem_fresh.mp (List.mem_reverse.mp hu)).2 (hw.closed v hv u hlead)

/-- What is known of a walk with respect to its branchings. -/
structure Judged (succ : ν → List ν) (root : ν) (es : List (Expansion ν)) (stack : List ν)
    (ps : Paths ν) : Prop where
  threaded : Threaded root es stack ps
  aligned : (∀ e ∈ es, Alone e) → Aligned succ stack ps
  strayed : (∃ e ∈ es, ¬ Alone e) → Strayed succ ps ∨ Straying succ es stack ps

theorem Judged.step {es : List (Expansion ν)} {marked pending : List ν} {node : ν}
    {ps : Paths ν} (hw : Walked succ root nodes es marked (node :: pending))
    (h : Judged succ root es (node :: pending) ps) :
    let found := fresh marked (succ node)
    Judged succ root (es ++ [⟨node, pending, found⟩]) (found.reverse ++ pending)
      (ps.place ⟨node, pending, found⟩) := by
  intro found
  let e : Expansion ν := ⟨node, pending, found⟩
  refine ⟨h.threaded.step hw, fun hall => ?_, fun hsome => ?_⟩
  · exact (h.aligned fun e' he' => hall e' (List.mem_append_left _ he')).step
      (hall e (List.mem_append_right _ (List.mem_singleton_self e)))
  · by_cases hold : ∃ e' ∈ es, ¬ Alone e'
    · rcases h.strayed hold with hstray | hstray
      · exact Or.inl (hstray.step e)
      · exact hstray.step hw
    · obtain ⟨e', he', hnot⟩ := hsome
      rcases List.mem_append.mp he' with he' | he'
      · exact absurd ⟨e', he', hnot⟩ hold
      · rw [List.mem_singleton.mp he'] at hnot
        exact Or.inr (Straying.start hw h.threaded hnot)

/-- The paths of a whole walk follow the edges exactly when nothing was pending wherever
it branched. -/
theorem paths_follow_iff (hnodes : ∀ v ∈ nodes, ∀ u ∈ succ v, u ∈ nodes) (hroot : root ∈ nodes)
    {fuel : Nat} (hfuel : nodes.length ≤ fuel) :
    (∀ p ∈ paths succ fuel root, Follows succ p) ↔ ∀ e ∈ walk succ fuel root, Alone e := by
  have hstart : Judged succ root [] [root] (Paths.start ν) := by
    refine ⟨Threaded.start, fun _ => ⟨by simp [Paths.start], fun _ => ?_, fun h => nomatch h⟩,
      fun hsome => by simp at hsome⟩
    exact List.Forall₂.cons (List.isChain_singleton root) List.Forall₂.nil
  obtain ⟨-, -, hjudged⟩ := Walked.run hnodes Paths.place (I := fun es _ stack ps =>
    Judged succ root es stack ps) (fun _ _ _ _ _ hw h => h.step hw) fuel (Paths.start ν)
    (by simpa using hfuel) (Walked.start hroot) hstart
  constructor
  · intro hfollow
    by_contra hnot
    have hsome : ∃ e ∈ walk succ fuel root, ¬ Alone e := by simpa using hnot
    rcases hjudged.strayed hsome with ⟨p, hp, hstray⟩ | hstray
    · exact hstray (hfollow p hp)
    · rcases hstray with ⟨p, v, waiting, top, rest, -, -, hstack, htop, -⟩ | ⟨p, v, t, rest, -,
        hstack, -⟩
      · obtain ⟨rfl, -⟩ := List.append_eq_nil_iff.mp hstack.symm
        simp at htop
      · cases hstack
  · intro halone p hp
    obtain ⟨hcur, hwaiting⟩ := (hjudged.aligned halone).ended rfl
    simp only [paths, Paths.all, List.mem_append, List.mem_cons] at hp
    rcases hp with hp | rfl | hp
    · exact (hjudged.aligned halone).done p hp
    · exact hcur
    · rw [show ((walk succ fuel root).foldl Paths.place (Paths.start ν)).waiting = [] from
        hwaiting] at hp
      exact absurd hp List.not_mem_nil

end Split

end Arthas.Lib.StackWalk
