import Mathlib
import Arthas.Lib.LevelSearch
import Arthas.Lib.PartialLoops
import Arthas.Slicing.EdgeLine

/-!
Sorting the edges of a slice graph by distance (`computeDistances`, `sort`). The distance of
an edge is the place of its target on the line of the node, so the edges come out in the
documented order exactly when the targets are separated there.
-/

set_option autoImplicit false
set_option relaxedAutoImplicit false

namespace Arthas.Slicing

open Arthas.Lib

/-- A slice graph with the instructions of each function, in the order of `inst_begin`. -/
structure PlacedGraph (ν ι φ : Type) extends SliceGraph ν ι φ where
  insts : φ → List ι
  mem_insts : ∀ f i, i ∈ insts f ↔ getFunction i = f
  nodup_insts : ∀ f, (insts f).Nodup

namespace PlacedGraph

variable {ν ι φ : Type} [DecidableEq ν] [DecidableEq ι] [DecidableEq φ]

section Distances

/-- The insertion of an instruction into the set of its function. -/
def insertInst (f : φ) (inst : ι) : List (φ × Finset ι) → List (φ × Finset ι)
  | [] => [(f, {inst})]
  | (f', insts) :: rest =>
    if f' = f then (f', insert inst insts) :: rest else (f', insts) :: insertInst f inst rest

variable (g : PlacedGraph ν ι φ)

/-- The function of the instruction of a node. -/
def func (n : ν) : φ := g.getFunction (g.value n)

/-- The instructions whose positions are needed, by function. The order of the functions does
not matter for the positions. -/
def funcInsts : List (φ × Finset ι) :=
  g.nodes.foldl (fun m n =>
    (g.edges n).foldl (fun m edge => insertInst (g.func edge.targetNode) (g.value edge.targetNode) m)
      (insertInst (g.func n) (g.value n) m)) []

/-- The loop over the instructions of a function, from a position on. -/
def positionLoop (instSet : Finset ι) : List ι → UInt64 → (ι → Option UInt64) → ι → Option UInt64
  | [], _, instPosMap => instPosMap
  | inst :: rest, position, instPosMap =>
    let position := position + 1
    positionLoop instSet rest position
      (if inst ∈ instSet ∧ instPosMap inst = none then
        Function.update instPosMap inst (some position)
      else instPosMap)

def instPosMap : ι → Option UInt64 :=
  g.funcInsts.foldl (fun m (f, instSet) => positionLoop instSet (g.insts f) 0 m) fun _ => none

/-- The loop over the edges of a node; `none` when a position is not found. -/
def edgeDistances (instPosMap : ι → Option UInt64) :
    List (SliceEdge ν) → (φ → Option UInt64) → UInt64 → Option (List (DistancedEdge ν))
  | [], _, _ => some []
  | edge :: rest, refPosMap, externalFuncs => do
    let position ← instPosMap (g.value edge.targetNode)
    let targetFunc := g.func edge.targetNode
    match refPosMap targetFunc with
    | some refPosition =>
      let rest ← edgeDistances instPosMap rest refPosMap externalFuncs
      return ⟨edge, (position - refPosition).toInt64⟩ :: rest
    | none =>
      let (refPosition, externalFuncs) :=
        if g.direction = .backward then (100000 * externalFuncs, externalFuncs + 1)
        else (0, externalFuncs)
      let refPosMap := Function.update refPosMap targetFunc (some refPosition)
      let rest ← edgeDistances instPosMap rest refPosMap externalFuncs
      return ⟨edge, (position - refPosition).toInt64⟩ :: rest

/-- The nodes with their edges and distances. -/
def computeDistances : Option (List (ν × List (DistancedEdge ν))) :=
  let instPosMap := g.instPosMap
  g.nodes.mapM fun n => do
    let position ← instPosMap (g.value n)
    let edges ← g.edgeDistances instPosMap (g.edges n)
      (Function.update (fun _ => none) (g.func n) (some position)) 1
    return (n, edges)

/-- The edges that the nodes may have after `sort`. -/
def SortOutcome (sorted : ν → List (DistancedEdge ν)) : Prop :=
  ∃ distanced, g.computeDistances = some distanced ∧
    ∀ p ∈ distanced, sliceEdgeComparator.Sorts p.2 (sorted p.1)

end Distances

section Spots

variable (g : PlacedGraph ν ι φ)

/-- The position of an instruction in its function, counted from 1. -/
def position (n : ν) : Nat := (g.insts (g.func n)).idxOf (g.value n) + 1

/-- The functions of the targets other than that of the node, as they come up. -/
def otherFunctions (n : ν) : List φ :=
  LevelSearch.discover {g.func n} ((g.edges n).map fun edge => g.func edge.targetNode)

/-- A target, seen from a node, where the other functions come up in an order. -/
def spotAmong (others : List φ) (n target : ν) : Spot :=
  if g.func target = g.func n then .own (g.position target - g.position n)
  else .foreign (others.idxOf (g.func target) + 1) (g.position target)

def spot (n target : ν) : Spot := g.spotAmong (g.otherFunctions n) n target

def spots (n : ν) : Set Spot := {s | ∃ edge ∈ g.edges n, g.spot n edge.targetNode = s}

/-- The edges of a node stand in the documented order. -/
structure InOrder (n : ν) (sorted : List (DistancedEdge ν)) : Prop where
  perm : (sorted.map DistancedEdge.toSliceEdge).Perm (g.edges n)
  order : sorted.Pairwise fun e e' => ¬ (g.spot n e'.targetNode).Before (g.spot n e.targetNode)

end Spots

section Positions

theorem positionLoop_eq (instSet : Finset ι) {insts : List ι} (nodup : insts.Nodup) (start : Nat)
    (m : ι → Option UInt64) (i : ι) :
    positionLoop instSet insts (UInt64.ofNat start) m i =
      if i ∈ insts ∧ i ∈ instSet ∧ m i = none then
        some (UInt64.ofNat (start + (insts.idxOf i + 1)))
      else m i := by
  induction insts generalizing start m with
  | nil => simp [positionLoop]
  | cons inst rest ih =>
    obtain ⟨notMem, nodup⟩ := List.nodup_cons.mp nodup
    have next : UInt64.ofNat start + 1 = UInt64.ofNat (start + 1) := (UInt64.ofNat_add start 1).symm
    rw [positionLoop, next, ih nodup]
    by_cases same : i = inst
    · subst same
      simp only [notMem, false_and, if_false, List.mem_cons_self, true_and, List.idxOf_cons_self]
      split <;> simp
    · have other : inst ≠ i := fun equal => same equal.symm
      have kept : (if inst ∈ instSet ∧ m inst = none then
          Function.update m inst (some (UInt64.ofNat (start + 1))) else m) i = m i := by
        split
        · exact Function.update_of_ne same _ _
        · rfl
      have index : start + 1 + (rest.idxOf i + 1) = start + ((inst :: rest).idxOf i + 1) := by
        rw [List.idxOf_cons_ne _ other]
        omega
      rw [kept, index]
      simp only [List.mem_cons, same, false_or]

/-- An instruction is in the set of a function. -/
def Collected (m : List (φ × Finset ι)) (f : φ) (inst : ι) : Prop :=
  ∃ insts, (f, insts) ∈ m ∧ inst ∈ insts

theorem collected_insertInst {m : List (φ × Finset ι)} {f f' : φ} {inst inst' : ι} :
    Collected (insertInst f inst m) f' inst' ↔
      Collected m f' inst' ∨ f' = f ∧ inst' = inst := by
  induction m with
  | nil =>
    simp only [Collected, insertInst, List.mem_singleton, Prod.mk.injEq, List.not_mem_nil,
      false_and, exists_false, false_or]
    constructor
    · rintro ⟨_, ⟨rfl, rfl⟩, member⟩
      exact ⟨rfl, Finset.mem_singleton.mp member⟩
    · rintro ⟨rfl, rfl⟩
      exact ⟨_, ⟨rfl, rfl⟩, Finset.mem_singleton_self _⟩
  | cons entry rest ih =>
    obtain ⟨f₀, insts⟩ := entry
    have head : ∀ {insts : Finset ι} {rest : List (φ × Finset ι)},
        Collected ((f₀, insts) :: rest) f' inst' ↔
          f' = f₀ ∧ inst' ∈ insts ∨ Collected rest f' inst' := by
      intro insts rest
      simp [Collected, or_and_right, exists_or]
    rw [insertInst]
    split
    · next same =>
      subst same
      rw [head, head, Finset.mem_insert]
      tauto
    · rw [head, head, ih, or_assoc]

variable {g : PlacedGraph ν ι φ}

/-- The nodes with the targets of their edges. -/
def related (g : PlacedGraph ν ι φ) : List ν :=
  g.nodes.flatMap fun n => n :: (g.edges n).map SliceEdge.targetNode

omit [DecidableEq ν] in
theorem collected_funcInsts {f : φ} {inst : ι} :
    Collected g.funcInsts f inst ↔ ∃ n ∈ g.related, f = g.func n ∧ inst = g.value n := by
  have folded : g.funcInsts =
      g.related.foldl (fun m n => insertInst (g.func n) (g.value n) m) [] := by
    rw [related, List.foldl_flatMap]
    simp only [List.foldl_cons, List.foldl_map]
    rfl
  have run : ∀ (ns : List ν) (m : List (φ × Finset ι)),
      Collected (ns.foldl (fun m n => insertInst (g.func n) (g.value n) m) m) f inst ↔
        Collected m f inst ∨ ∃ n ∈ ns, f = g.func n ∧ inst = g.value n := by
    intro ns
    induction ns with
    | nil => simp
    | cons n ns ih =>
      intro m
      rw [List.foldl_cons, ih, collected_insertInst, or_assoc]
      simp
  rw [folded, run]
  simp [Collected]

/-- The loop over the functions, of which each sets the positions that are not set. -/
def positionLoops (g : PlacedGraph ν ι φ) (entries : List (φ × Finset ι))
    (m : ι → Option UInt64) : ι → Option UInt64 :=
  entries.foldl (fun m (f, instSet) => positionLoop instSet (g.insts f) 0 m) m

omit [DecidableEq ν] [DecidableEq φ] in
theorem positionLoops_set (entries : List (φ × Finset ι)) {m : ι → Option UInt64} {i : ι}
    {p : UInt64} (set : m i = some p) : g.positionLoops entries m i = some p := by
  induction entries generalizing m with
  | nil => exact set
  | cons entry entries ih =>
    obtain ⟨f, insts⟩ := entry
    apply ih
    show positionLoop insts (g.insts f) (UInt64.ofNat 0) m i = some p
    rw [positionLoop_eq insts (g.nodup_insts f), if_neg (fun unset => by simp [set] at unset)]
    exact set

omit [DecidableEq ν] [DecidableEq φ] in
theorem positionLoops_unset {entries : List (φ × Finset ι)} {m : ι → Option UInt64} {i : ι}
    (own : ∀ f, Collected entries f i → g.getFunction i = f) (unset : m i = none)
    (collected : ∃ f, Collected entries f i) :
    g.positionLoops entries m i =
      some (UInt64.ofNat ((g.insts (g.getFunction i)).idxOf i + 1)) := by
  induction entries generalizing m with
  | nil => simp [Collected] at collected
  | cons entry entries ih =>
    obtain ⟨f, insts⟩ := entry
    have loop := positionLoop_eq insts (g.nodup_insts f) 0 m i
    by_cases here : i ∈ insts
    · have function : g.getFunction i = f := own f ⟨insts, List.mem_cons_self, here⟩
      refine positionLoops_set entries (loop.trans ?_)
      rw [if_pos ⟨(g.mem_insts f i).mpr function, here, unset⟩, function, Nat.zero_add]
    · refine ih (fun f' ⟨insts', inside, member⟩ => own f' ⟨insts', ?_, member⟩) ?_ ?_
      · exact List.mem_cons_of_mem _ inside
      · apply loop.trans
        rw [if_neg (fun inside => here inside.2.1)]
        exact unset
      · obtain ⟨f', insts', inside, member⟩ := collected
        rcases List.mem_cons.mp inside with same | inside
        · cases same
          exact (here member).elim
        · exact ⟨f', insts', inside, member⟩

omit [DecidableEq ν] in
/-- The map holds the position of every node and of every target. -/
theorem instPosMap_eq {n : ν} (member : n ∈ g.related) :
    g.instPosMap (g.value n) = some (UInt64.ofNat (g.position n)) := by
  refine positionLoops_unset (fun f inside => ?_) rfl ⟨g.func n, ?_⟩
  · obtain ⟨m, -, rfl, same⟩ := collected_funcInsts.mp inside
    rw [same]
    rfl
  · exact collected_funcInsts.mpr ⟨n, member, rfl, rfl⟩

end Positions

section Line

variable {g : PlacedGraph ν ι φ}

theorem toInt64_sub (a b : Nat) :
    (UInt64.ofNat a - UInt64.ofNat b).toInt64 = Int64.ofInt ((a : Int) - b) := by
  apply Int64.toBitVec_inj.mp
  show BitVec.ofNat 64 a - BitVec.ofNat 64 b = BitVec.ofInt 64 ((a : Int) - b)
  rw [sub_eq_add_neg, sub_eq_add_neg, BitVec.ofInt_add, BitVec.ofInt_neg, BitVec.ofInt_natCast,
    BitVec.ofInt_natCast]

/-- The reference positions when some other functions have come up. -/
def refPositions (own : φ) (position : Nat) (others : List φ) (f : φ) : Option UInt64 :=
  if f = own then some (UInt64.ofNat position)
  else if f ∈ others then some (UInt64.ofNat (100000 * (others.idxOf f + 1)))
  else none

theorem refPositions_snoc {own f : φ} (position : Nat) {others : List φ} (different : f ≠ own)
    (new : f ∉ others) :
    refPositions own position (others ++ [f]) =
      Function.update (refPositions own position others) f
        (some (UInt64.ofNat (100000 * (others.length + 1)))) := by
  funext f'
  by_cases same : f' = f
  · subst same
    rw [Function.update_self, refPositions, if_neg different, if_pos (by simp),
      List.idxOf_append_of_notMem new, List.idxOf_cons_self, Nat.add_zero]
  · rw [Function.update_of_ne same]
    unfold refPositions
    split
    · rfl
    by_cases old : f' ∈ others
    · rw [if_pos (List.mem_append_left _ old), if_pos old, List.idxOf_append_of_mem old]
    · rw [if_neg (by simp [old, same]), if_neg old]

section Turn

variable {instPosMap : ι → Option UInt64} {refPosMap : φ → Option UInt64}
  {externalFuncs position : UInt64} {edge : SliceEdge ν} {edges : List (SliceEdge ν)}

omit [DecidableEq ν] [DecidableEq ι] in
/-- A turn of the loop for a function that has come up. -/
theorem edgeDistances_known {refPosition : UInt64}
    (found : instPosMap (g.value edge.targetNode) = some position)
    (known : refPosMap (g.func edge.targetNode) = some refPosition) :
    g.edgeDistances instPosMap (edge :: edges) refPosMap externalFuncs =
      (g.edgeDistances instPosMap edges refPosMap externalFuncs).map
        (⟨edge, (position - refPosition).toInt64⟩ :: ·) := by
  rw [edgeDistances, found]
  simp only [Option.bind_eq_bind, Option.bind_some, known]
  cases g.edgeDistances instPosMap edges refPosMap externalFuncs <;> rfl

omit [DecidableEq ν] [DecidableEq ι] in
/-- A turn of the loop for a function that comes up. -/
theorem edgeDistances_new (backward : g.direction = .backward)
    (found : instPosMap (g.value edge.targetNode) = some position)
    (new : refPosMap (g.func edge.targetNode) = none) :
    g.edgeDistances instPosMap (edge :: edges) refPosMap externalFuncs =
      (g.edgeDistances instPosMap edges
          (Function.update refPosMap (g.func edge.targetNode) (some (100000 * externalFuncs)))
          (externalFuncs + 1)).map
        (⟨edge, (position - 100000 * externalFuncs).toInt64⟩ :: ·) := by
  rw [edgeDistances, found]
  simp only [Option.bind_eq_bind, Option.bind_some, new, backward, if_true]
  cases g.edgeDistances instPosMap edges _ (externalFuncs + 1) <;> rfl

end Turn

omit [DecidableEq ν] in
/-- The loop over the edges of a node gives the distances of the spots. -/
theorem edgeDistances_eq (backward : g.direction = .backward) {n : ν}
    {instPosMap : ι → Option UInt64} {edges : List (SliceEdge ν)}
    (found : ∀ edge ∈ edges, instPosMap (g.value edge.targetNode) =
      some (UInt64.ofNat (g.position edge.targetNode))) (others : List φ) :
    let all := others ++ LevelSearch.discover (insert (g.func n) others.toFinset)
      (edges.map fun edge => g.func edge.targetNode)
    g.edgeDistances instPosMap edges (refPositions (g.func n) (g.position n) others)
        (UInt64.ofNat (others.length + 1)) =
      some (edges.map fun edge => ⟨edge, (g.spotAmong all n edge.targetNode).distance⟩) := by
  induction edges generalizing others with
  | nil => rfl
  | cons edge edges ih =>
    have here := found edge List.mem_cons_self
    have rest := ih fun e member => found e (List.mem_cons_of_mem edge member)
    have foreign : ∀ k : Nat, (UInt64.ofNat (g.position edge.targetNode) -
        UInt64.ofNat (100000 * k)).toInt64 =
        (Spot.foreign k (g.position edge.targetNode)).distance := by
      intro k
      rw [toInt64_sub, Nat.cast_mul]
      rfl
    have seen : g.func edge.targetNode = g.func n ∨ g.func edge.targetNode ∈ others →
        LevelSearch.discover (insert (g.func n) others.toFinset)
          (g.func edge.targetNode :: edges.map fun edge => g.func edge.targetNode) =
        LevelSearch.discover (insert (g.func n) others.toFinset)
          (edges.map fun edge => g.func edge.targetNode) := by
      intro inside
      rw [LevelSearch.discover, if_pos (by simpa using inside)]
    simp only [List.map_cons]
    by_cases own : g.func edge.targetNode = g.func n
    · rw [edgeDistances_known here (if_pos own), seen (Or.inl own), rest others, Option.map_some,
        toInt64_sub, spotAmong, if_pos own]
      rfl
    by_cases old : g.func edge.targetNode ∈ others
    · have ref : refPositions (g.func n) (g.position n) others (g.func edge.targetNode) =
          some (UInt64.ofNat (100000 * (others.idxOf (g.func edge.targetNode) + 1))) := by
        rw [refPositions, if_neg own, if_pos old]
      rw [edgeDistances_known here ref, seen (Or.inr old), rest others, Option.map_some, foreign,
        spotAmong, if_neg own, List.idxOf_append_of_mem old]
    · have ref : refPositions (g.func n) (g.position n) others (g.func edge.targetNode) = none := by
        rw [refPositions, if_neg own, if_neg old]
      have next : (100000 : UInt64) * UInt64.ofNat (others.length + 1) =
          UInt64.ofNat (100000 * (others.length + 1)) := (UInt64.ofNat_mul 100000 _).symm
      have counted : UInt64.ofNat (others.length + 1) + 1 =
          UInt64.ofNat ((others ++ [g.func edge.targetNode]).length + 1) := by
        rw [List.length_append, List.length_singleton]
        exact (UInt64.ofNat_add _ 1).symm
      have same : others ++ LevelSearch.discover (insert (g.func n) others.toFinset)
          (g.func edge.targetNode :: edges.map fun edge => g.func edge.targetNode) =
          others ++ [g.func edge.targetNode] ++ LevelSearch.discover
            (insert (g.func n) (others ++ [g.func edge.targetNode]).toFinset)
            (edges.map fun edge => g.func edge.targetNode) := by
        simp [LevelSearch.discover, own, old, Finset.insert_comm]
      have tail := rest (others ++ [g.func edge.targetNode])
      dsimp only at tail
      rw [refPositions_snoc _ own old] at tail
      rw [edgeDistances_new backward here ref, next, counted, same, tail, Option.map_some, foreign,
        spotAmong, if_neg own, List.idxOf_append_of_mem (by simp),
        List.idxOf_append_of_notMem old, List.idxOf_cons_self, Nat.add_zero]

/-- What `computeDistances` gives every edge of a node. -/
def distanced (g : PlacedGraph ν ι φ) (n : ν) : List (DistancedEdge ν) :=
  (g.edges n).map fun edge => ⟨edge, (g.spot n edge.targetNode).distance⟩

omit [DecidableEq ν] in
theorem computeDistances_eq (backward : g.direction = .backward) :
    g.computeDistances = some (g.nodes.map fun n => (n, g.distanced n)) := by
  have each : ∀ n ∈ g.nodes, (do
      let position ← g.instPosMap (g.value n)
      let edges ← g.edgeDistances g.instPosMap (g.edges n)
        (Function.update (fun _ => none) (g.func n) (some position)) 1
      return (n, edges)) = some (n, g.distanced n) := by
    intro n member
    have related : ∀ m, m = n ∨ (∃ edge ∈ g.edges n, edge.targetNode = m) → m ∈ g.related := by
      intro m here
      refine List.mem_flatMap.mpr ⟨n, member, ?_⟩
      rcases here with rfl | ⟨edge, inside, rfl⟩
      · exact List.mem_cons_self
      · exact List.mem_cons_of_mem _ (List.mem_map_of_mem inside)
    have start : Function.update (fun _ => none) (g.func n)
        (some (UInt64.ofNat (g.position n))) = refPositions (g.func n) (g.position n) [] := by
      funext f
      by_cases own : f = g.func n
      · rw [own, Function.update_self, refPositions, if_pos rfl]
      · rw [Function.update_of_ne own, refPositions, if_neg own]
        rfl
    have found : ∀ edge ∈ g.edges n, g.instPosMap (g.value edge.targetNode) =
        some (UInt64.ofNat (g.position edge.targetNode)) := fun edge inside =>
      instPosMap_eq (related _ (Or.inr ⟨edge, inside, rfl⟩))
    have loop := edgeDistances_eq backward (n := n) found []
    rw [instPosMap_eq (related n (Or.inl rfl))]
    simp only [Option.bind_eq_bind, Option.bind_some, start]
    rw [show (1 : UInt64) = UInt64.ofNat (([] : List φ).length + 1) from rfl, loop]
    rfl
  exact mapM_eq_map each

end Line

section Sorting

variable {g : PlacedGraph ν ι φ}

omit [DecidableEq ν] [DecidableEq φ] in
theorem position_bounds (bounded : ∀ f, (g.insts f).length ≤ 100000) (n : ν) :
    0 < g.position n ∧ g.position n ≤ 100000 := by
  have inside := List.idxOf_lt_length_of_mem ((g.mem_insts (g.func n) (g.value n)).mpr rfl)
  have bound := bounded (g.func n)
  unfold position
  omega

omit [DecidableEq ν] [DecidableEq φ] in
theorem position_eq {n : ν} {k : Nat} (bound : k < (g.insts (g.func n)).length)
    (here : (g.insts (g.func n))[k] = g.value n) : g.position n = k + 1 := by
  rw [position, ← here, (g.nodup_insts _).idxOf_getElem k bound]

omit [DecidableEq ν] in
theorem valid_spots (bounded : ∀ f, (g.insts f).length ≤ 100000) (n : ν) :
    ∀ s ∈ g.spots n, s.Valid := by
  rintro s ⟨edge, -, rfl⟩
  have here := position_bounds bounded n
  have there := position_bounds bounded edge.targetNode
  unfold spot spotAmong
  split
  · show -100000 < (g.position edge.targetNode : Int) - g.position n ∧ _ < (100000 : Int)
    omega
  · exact ⟨Nat.succ_pos _, there⟩

omit [DecidableEq ν] [DecidableEq ι] in
theorem mem_otherFunctions {n : ν} {f : φ} : f ∈ g.otherFunctions n ↔
    (∃ edge ∈ g.edges n, g.func edge.targetNode = f) ∧ f ≠ g.func n := by
  rw [otherFunctions, LevelSearch.mem_discover, List.mem_map, Finset.mem_singleton]

omit [DecidableEq ν] in
theorem counted_spots (n : ν) : Spot.Counted (g.spots n) := by
  rintro k p ⟨edge, member, seen⟩ j positive below
  have index : k = (g.otherFunctions n).idxOf (g.func edge.targetNode) + 1 ∧
      g.func edge.targetNode ∈ g.otherFunctions n := by
    unfold spot spotAmong at seen
    split at seen
    · cases seen
    · next other =>
      cases seen
      exact ⟨rfl, mem_otherFunctions.mpr ⟨⟨edge, member, rfl⟩, other⟩⟩
  obtain ⟨rfl, inside⟩ := index
  have bound := List.idxOf_lt_length_of_mem inside
  have earlier : j - 1 < (g.otherFunctions n).length := by omega
  obtain ⟨⟨edge', member', same⟩, other⟩ := mem_otherFunctions.mp (List.getElem_mem earlier)
  have at_j : (g.otherFunctions n).idxOf (g.otherFunctions n)[j - 1] = j - 1 :=
    (LevelSearch.nodup_discover _ _).idxOf_getElem (j - 1) earlier
  refine ⟨g.position edge'.targetNode, edge', member', ?_⟩
  rw [spot, spotAmong, same, if_neg other, at_j, Nat.sub_add_cancel positive]

omit [DecidableEq ν] in
/-- The comparator sorts the edges of a node as documented exactly when their distances keep the
order of the spots. -/
theorem node_inOrder_iff (n : ν) :
    (∀ r, sliceEdgeComparator.Sorts (g.distanced n) r → g.InOrder n r) ↔
      Spot.KeepsOrder (g.spots n) := by
  have bare : (g.distanced n).map DistancedEdge.toSliceEdge = g.edges n := by
    rw [distanced, List.map_map]
    exact List.map_id _
  let before : DistancedEdge ν → DistancedEdge ν → Prop := fun e e' =>
    (g.spot n e.targetNode).Before (g.spot n e'.targetNode)
  have irrefl : ∀ e, ¬ before e e := by
    intro e
    show ¬ (g.spot n e.targetNode).Before (g.spot n e.targetNode)
    cases g.spot n e.targetNode <;> simp only [Spot.Before] <;> omega
  have listed : ∀ {P : DistancedEdge ν → Prop}, (∀ e ∈ g.distanced n, P e) ↔
      ∀ edge ∈ g.edges n, P ⟨edge, (g.spot n edge.targetNode).distance⟩ := by
    intro P
    rw [distanced, List.forall_mem_map]
  have outcomes : (∀ r, sliceEdgeComparator.Sorts (g.distanced n) r →
      (r.map DistancedEdge.toSliceEdge).Perm ((g.distanced n).map DistancedEdge.toSliceEdge) ∧
        r.Pairwise fun e e' => ¬ before e' e) ↔ _ := Comparator.sorts_iff _ irrefl
  rw [bare] at outcomes
  constructor
  · intro all
    obtain ⟨valid, decides⟩ := outcomes.mp fun r sorts => ⟨(all r sorts).perm, (all r sorts).order⟩
    obtain ⟨defined, zero⟩ := byDistance_strictWeak_iff.mp valid
    have defined := listed.mp defined
    refine ⟨?_, ?_, ?_⟩
    · rintro s ⟨edge, member, rfl⟩
      exact defined edge member
    · rintro z ⟨edge, member, rfl⟩ here s ⟨edge₁, member₁, rfl⟩ t ⟨edge₂, member₂, rfl⟩
      exact listed.mp (listed.mp (listed.mp zero edge member here) edge₁ member₁) edge₂ member₂
    · rintro s ⟨edge, member, rfl⟩ t ⟨edge', member', rfl⟩ before
      have less := listed.mp (listed.mp decides edge member) edge' member' before
      exact (byDistance_less (defined edge member) (defined edge' member')).mp less
  · intro keeps r sorts
    have spotted : ∀ edge ∈ g.edges n, g.spot n edge.targetNode ∈ g.spots n := fun edge member =>
      ⟨edge, member, rfl⟩
    have valid : sliceEdgeComparator.StrictWeak {e | e ∈ g.distanced n} := by
      refine byDistance_strictWeak_iff.mpr ⟨?_, ?_⟩
      · exact listed.mpr fun edge member => keeps.defined _ (spotted edge member)
      · refine listed.mpr fun edge member here => listed.mpr fun edge₁ member₁ =>
          listed.mpr fun edge₂ member₂ => ?_
        exact keeps.zero _ (spotted edge member) here _ (spotted edge₁ member₁) _
          (spotted edge₂ member₂)
    have decides : ∀ e ∈ g.distanced n, ∀ e' ∈ g.distanced n,
        (g.spot n e.targetNode).Before (g.spot n e'.targetNode) →
          sliceEdgeComparator.Less e e' := by
      refine listed.mpr fun edge member => listed.mpr fun edge' member' before => ?_
      refine (byDistance_less (keeps.defined _ (spotted edge member))
        (keeps.defined _ (spotted edge' member'))).mpr ?_
      exact keeps.order _ (spotted edge member) _ (spotted edge' member') before
    obtain ⟨perm, order⟩ := outcomes.mpr ⟨valid, decides⟩ r sorts
    exact ⟨perm, order⟩

omit [DecidableEq ν] in
theorem sortOutcome_iff (backward : g.direction = .backward) {sorted : ν → List (DistancedEdge ν)} :
    g.SortOutcome sorted ↔
      ∀ n ∈ g.nodes, sliceEdgeComparator.Sorts (g.distanced n) (sorted n) := by
  rw [SortOutcome, computeDistances_eq backward]
  simp only [Option.some.injEq, exists_eq_left', List.forall_mem_map]

omit [DecidableEq ν] in
theorem exists_sortOutcome (backward : g.direction = .backward) :
    ∃ sorted, g.SortOutcome sorted := by
  choose sorted result using fun n => Comparator.exists_sorts sliceEdgeComparator (g.distanced n)
  exact ⟨sorted, (sortOutcome_iff backward).mpr fun n _ => result n⟩

theorem all_inOrder_iff (backward : g.direction = .backward)
    (bounded : ∀ f, (g.insts f).length ≤ 100000) :
    (∀ sorted, g.SortOutcome sorted → ∀ n ∈ g.nodes, g.InOrder n (sorted n)) ↔
      ∀ n ∈ g.nodes, Spot.Separated (g.spots n) := by
  simp only [← Spot.keepsOrder_iff (valid_spots bounded _) (counted_spots _), ← node_inOrder_iff]
  constructor
  · intro all n member r sorts
    obtain ⟨sorted, outcome⟩ := exists_sortOutcome backward
    have changed : g.SortOutcome (Function.update sorted n r) := by
      rw [sortOutcome_iff backward] at outcome ⊢
      intro m inside
      by_cases same : m = n
      · rw [same, Function.update_self]
        exact sorts
      · rw [Function.update_of_ne same]
        exact outcome m inside
    have order := all _ changed n member
    rwa [Function.update_self] at order
  · intro all sorted outcome n member
    exact all n member _ ((sortOutcome_iff backward).mp outcome n member)

/-- For a backward slice of functions with at most 100000 instructions, `sort` succeeds, and
the edges of every node come out in the documented order exactly when the targets of every
node are separated. -/
theorem sort_ordered_iff (g : PlacedGraph ν ι φ) (backward : g.direction = .backward)
    (bounded : ∀ f, (g.insts f).length ≤ 100000) :
    (∃ sorted, g.SortOutcome sorted) ∧
      ((∀ sorted, g.SortOutcome sorted → ∀ n ∈ g.nodes, g.InOrder n (sorted n)) ↔
        ∀ n ∈ g.nodes, Spot.Separated (g.spots n)) :=
  ⟨exists_sortOutcome backward, all_inOrder_iff backward bounded⟩

end Sorting

section Examples

/-- Two functions with `m + 2` instructions; the last instruction of one of them depends on its
first one and on the last one of the other. -/
def reachBack (m : Nat) : PlacedGraph (Option Bool) (Bool × Fin (m + 2)) Bool where
  nodes := [none, some true, some false]
  value
    | none => (true, Fin.last (m + 1))
    | some true => (true, 0)
    | some false => (false, Fin.last (m + 1))
  edges
    | none => [⟨some true, .memoryDependence⟩, ⟨some false, .memoryDependence⟩]
    | some _ => []
  root := none
  direction := .backward
  getFunction := Prod.fst
  root_mem := by simp
  target_mem := by decide
  value_inj n _ n' _ same := by
    rcases n with _ | _ | _ <;> rcases n' with _ | _ | _ <;> simp_all [Fin.ext_iff]
  insts f := (List.finRange (m + 2)).map (Prod.mk f)
  mem_insts f i := by
    obtain ⟨f', k⟩ := i
    simp [eq_comm]
  nodup_insts f := (List.nodup_finRange _).map (Prod.mk_right_injective f)

theorem position_reachBack (m : Nat) (n : Option Bool) :
    (reachBack m).position n = ((reachBack m).value n).2 + 1 := by
  refine position_eq ?_ ?_
  · simp only [reachBack, List.length_map, List.length_finRange]
    exact Fin.isLt _
  · simp only [reachBack, List.getElem_map, List.getElem_finRange]
    rfl

theorem spots_reachBack (m : Nat) :
    (reachBack m).spots none = {.own (-(m + 1)), .foreign 1 (m + 2)} := by
  have own : (reachBack m).spot none (some true) = .own (-(m + 1)) := by
    have same : (reachBack m).func (some true) = (reachBack m).func none := rfl
    rw [spot, spotAmong, if_pos same, position_reachBack, position_reachBack]
    simp [reachBack]
  have foreign : (reachBack m).spot none (some false) = .foreign 1 (m + 2) := by
    have other : (reachBack m).func (some false) ≠ (reachBack m).func none := Bool.false_ne_true
    rw [spot, spotAmong, if_neg other, position_reachBack]
    rfl
  ext s
  simp only [spots, Set.mem_ofPred_eq, Set.mem_insert_iff, Set.mem_singleton_iff]
  rw [← own, ← foreign]
  simp [reachBack, eq_comm]

theorem bounded_reachBack {m : Nat} (bound : m + 2 ≤ 100000) (f : Bool) :
    ((reachBack m).insts f).length ≤ 100000 := by
  simpa [reachBack] using bound

theorem separated_reachBack_iff (m : Nat) (bound : m + 2 ≤ 100000) :
    (∀ n ∈ (reachBack m).nodes, Spot.Separated ((reachBack m).spots n)) ↔ 2 * m + 3 < 100000 := by
  constructor
  · intro separated
    have near := (separated none (List.mem_cons_self)).near
    rw [spots_reachBack] at near
    have below := near _ 1 (m + 2) (Set.mem_insert _ _) (by omega)
      (Set.mem_insert_of_mem _ (Set.mem_singleton _))
    simp only [Spot.line] at below
    omega
  · intro near n member
    have spots : (reachBack m).spots n ⊆ {.own (-(m + 1)), .foreign 1 (m + 2)} := by
      cases n with
      | none => exact (spots_reachBack m).subset
      | some _ =>
        rintro s ⟨edge, inside, -⟩
        cases inside
    have cases : ∀ s ∈ (reachBack m).spots n, s = .own (-(m + 1)) ∨ s = .foreign 1 (m + 2) :=
      fun s inside => spots inside
    refine ⟨fun o k p own negative foreign => ?_, fun k p foreign zero => ?_, fun own => ?_,
      fun k p foreign below => ?_⟩
    · obtain ⟨rfl⟩ : o = -(m + 1) := by simpa using cases _ own
      obtain ⟨rfl, rfl⟩ : k = 1 ∧ p = m + 2 := by simpa using cases _ foreign
      simp only [Spot.line]
      omega
    · obtain ⟨rfl, rfl⟩ : k = 1 ∧ p = m + 2 := by simpa using cases _ foreign
      simp only [Spot.line] at zero
      omega
    · have zero : (0 : Int) = -(m + 1) := by simpa using cases _ own
      omega
    · obtain ⟨rfl, rfl⟩ : k = 1 ∧ p = m + 2 := by simpa using cases _ foreign
      simp only [Spot.line] at below
      omega

theorem sort_ordered_near :
    (∃ sorted, (reachBack 1).SortOutcome sorted) ∧
      ∀ sorted, (reachBack 1).SortOutcome sorted →
        ∀ n ∈ (reachBack 1).nodes, (reachBack 1).InOrder n (sorted n) := by
  obtain ⟨succeeds, ordered⟩ :=
    sort_ordered_iff (reachBack 1) rfl (bounded_reachBack (by decide))
  exact ⟨succeeds, ordered.mpr ((separated_reachBack_iff 1 (by decide)).mpr (by decide))⟩

/-- With 50001 instructions in each function, the one 50000 before the node and the last one of
the other function are in the wrong order. -/
theorem sort_disordered_far :
    ¬ ∀ (ν ι φ : Type) [DecidableEq ν] [DecidableEq ι] [DecidableEq φ] (g : PlacedGraph ν ι φ),
      g.direction = .backward → (∀ f, (g.insts f).length ≤ 100000) →
      ∀ sorted, g.SortOutcome sorted → ∀ n ∈ g.nodes, g.InOrder n (sorted n) := by
  intro claim
  have bounded := bounded_reachBack (m := 49999) (by omega)
  have separated := (all_inOrder_iff rfl bounded).mp (claim _ _ _ (reachBack 49999) rfl bounded)
  have near := (separated_reachBack_iff 49999 (by omega)).mp separated
  omega

end Examples

end PlacedGraph

end Arthas.Slicing
