import Arthas.Lib.PartialLoops
import Arthas.Slicing.DgWalk

/-!
What a slice is, without a walk: the dependences that a direction and the dependence flags
select, as relations between nodes, and the nodes that they connect to the start. The two
approaches differ in which nodes they pass through and in where a control-dependent block
leads.
-/

set_option autoImplicit false
set_option relaxedAutoImplicit false

namespace Arthas.Slicing

open Lib Lib.Worklist Relation

namespace EdgeKind

/-- The direction of slicing that follows edges of the kind. -/
def direction : EdgeKind → SliceDirection
  | use | data | control | interference => .forward
  | user | revData | revControl | revInterference => .backward

def dependenceFlag : EdgeKind → Nat
  | use | user => SliceDependenceFlags.defUse
  | data | revData => SliceDependenceFlags.memory
  | control | revControl => SliceDependenceFlags.control
  | interference | revInterference => SliceDependenceFlags.interference

end EdgeKind

/-- Slices in the direction with these flags follow edges of the kind. -/
def Enabled (dir : SliceDirection) (sliceDepFlags : Nat) (k : EdgeKind) : Prop :=
  sliceDepFlags &&& k.dependenceFlag ≠ 0 ∧ (dir = .full ∨ dir = k.direction)

section Options

theorem or_and_ne_zero (a b c : Nat) : (a ||| b) &&& c ≠ 0 ↔ a &&& c ≠ 0 ∨ b &&& c ≠ 0 := by
  rw [Nat.and_or_distrib_right, Ne, Nat.or_eq_zero_iff, not_and_or]

theorem walkFlag_and (k k' : EdgeKind) : k.walkFlag &&& k'.walkFlag ≠ 0 ↔ k = k' := by
  cases k <;> cases k' <;> decide

theorem walks_and (walks : List EdgeKind) (set : Nat) (k : EdgeKind) :
    walks.foldl (fun set k => set ||| k.walkFlag) set &&& k.walkFlag ≠ 0 ↔
      set &&& k.walkFlag ≠ 0 ∨ k ∈ walks := by
  induction walks generalizing set with
  | nil => simp
  | cons k' walks ih =>
    rw [List.foldl_cons, ih, or_and_ne_zero, walkFlag_and, List.mem_cons, or_assoc,
      eq_comm (a := k')]

theorem relationOpts_and (sliceDepFlags : Nat) (kinds : List (Nat × List EdgeKind))
    (k : EdgeKind) : relationOpts sliceDepFlags kinds &&& k.walkFlag ≠ 0 ↔
      ∃ p ∈ kinds, sliceDepFlags &&& p.1 ≠ 0 ∧ k ∈ p.2 := by
  suffices ∀ flags, kinds.foldl (addRelation sliceDepFlags) flags &&& k.walkFlag ≠ 0 ↔
      flags &&& k.walkFlag ≠ 0 ∨ ∃ p ∈ kinds, sliceDepFlags &&& p.1 ≠ 0 ∧ k ∈ p.2 by
    simpa [relationOpts] using this 0
  induction kinds with
  | nil => simp
  | cons p kinds ih =>
    intro flags
    rw [List.foldl_cons, ih, List.exists_mem_cons_iff, addRelation]
    by_cases off : sliceDepFlags &&& p.1 = 0
    · simp [off]
    · simp only [off, if_false, or_and_ne_zero, walks_and, Nat.zero_and, ne_eq, not_true,
        false_or, not_false_eq_true, true_and, or_assoc]

/-- The options have the bit of a kind exactly when slices follow its edges. -/
theorem options_walkFlag (dir : SliceDirection) (sliceDepFlags : Nat) (k : EdgeKind) :
    sliceRelationOpts dir sliceDepFlags &&& k.walkFlag ≠ 0 ↔ Enabled dir sliceDepFlags k := by
  cases dir <;> rw [sliceRelationOpts, relationOpts_and, Enabled] <;> cases k <;>
    simp [EdgeKind.direction, EdgeKind.dependenceFlag]

/-- Without options there is nothing to follow. -/
theorem enabled_options {dir : SliceDirection} {sliceDepFlags : Nat} {k : EdgeKind}
    (enabled : Enabled dir sliceDepFlags k) : sliceRelationOpts dir sliceDepFlags ≠ 0 := by
  intro off
  have bit := (options_walkFlag dir sliceDepFlags k).mpr enabled
  rw [off, Nat.zero_and] at bit
  exact bit rfl

/-- In every direction some kind of control dependences is followed when they are asked for. -/
theorem exists_enabled (dir : SliceDirection) {sliceDepFlags : Nat}
    (asked : sliceDepFlags &&& SliceDependenceFlags.control ≠ 0) :
    ∃ k, Enabled dir sliceDepFlags k := by
  cases dir with
  | backward => exact ⟨.revControl, asked, Or.inr rfl⟩
  | forward => exact ⟨.control, asked, Or.inr rfl⟩
  | full => exact ⟨.control, asked, Or.inl rfl⟩

/-- What one kind contributes: the edges, then what the blocks lead to. -/
def gatherKind {τ : Type*} (options : Nat) (edges : EdgeKind → List τ)
    (blocks : EdgeKind → Option (List τ)) (k : EdgeKind) : Option (List τ) :=
  if options &&& k.walkFlag = 0 then some [] else (blocks k).map fun ends => edges k ++ ends

/-- What the kinds contribute, in an order. -/
def gather {τ : Type*} (options : Nat) (edges : EdgeKind → List τ)
    (blocks : EdgeKind → Option (List τ)) (order : List EdgeKind) : Option (List τ) :=
  (order.mapM (gatherKind options edges blocks)).map List.flatten

variable {σ τ : Type*} {edges : EdgeKind → List τ} {blocks : EdgeKind → Option (List τ)}

/-- Looking at the kinds one after the other is going through what they contribute. -/
theorem foldlM_gather {options : Nat} {step : σ → EdgeKind → Option σ} {f : σ → τ → σ}
    (steps : ∀ s k, step s k =
      (gatherKind options edges blocks k).map fun ends => ends.foldl f s)
    (order : List EdgeKind) (s : σ) :
    order.foldlM step s =
      (gather options edges blocks order).map fun ends => ends.foldl f s := by
  obtain rfl : step = fun s k =>
      (gatherKind options edges blocks k).map fun ends => ends.foldl f s := by
    funext s k
    exact steps s k
  rw [foldlM_map (gatherKind options edges blocks) (fun s ends => ends.foldl f s), gather,
    Option.map_map]
  congr 1
  funext ends
  exact List.foldl_flatten.symm

variable {dir : SliceDirection} {sliceDepFlags : Nat} {order : List EdgeKind}
  (every : ∀ k, k ∈ order)

include every

theorem gather_eq_none :
    gather (sliceRelationOpts dir sliceDepFlags) edges blocks order = none ↔
      ∃ k, Enabled dir sliceDepFlags k ∧ blocks k = none := by
  rw [gather, Option.map_eq_none_iff, mapM_eq_none_iff]
  constructor
  · rintro ⟨k, -, missing⟩
    rw [gatherKind] at missing
    split_ifs at missing with off
    exact ⟨k, (options_walkFlag dir sliceDepFlags k).mp off, Option.map_eq_none_iff.mp missing⟩
  · rintro ⟨k, enabled, missing⟩
    refine ⟨k, every k, ?_⟩
    rw [gatherKind, if_neg ((options_walkFlag dir sliceDepFlags k).mpr enabled), missing,
      Option.map_none]

/-- When all is gathered, each kind followed had its blocks. -/
theorem blocks_of_gather {ends : List τ}
    (found : gather (sliceRelationOpts dir sliceDepFlags) edges blocks order = some ends)
    {k : EdgeKind} (enabled : Enabled dir sliceDepFlags k) :
    ∃ others, blocks k = some others := by
  apply Option.ne_none_iff_exists'.mp
  intro missing
  rw [(gather_eq_none every).mpr ⟨k, enabled, missing⟩] at found
  exact absurd found (by simp)

theorem mem_gather {ends : List τ}
    (found : gather (sliceRelationOpts dir sliceDepFlags) edges blocks order = some ends)
    (x : τ) : x ∈ ends ↔ ∃ k, Enabled dir sliceDepFlags k ∧
      (x ∈ edges k ∨ ∃ others, blocks k = some others ∧ x ∈ others) := by
  obtain ⟨parts, gathered, rfl⟩ := Option.map_eq_some_iff.mp found
  simp only [List.mem_flatten, mem_of_mapM_eq_some gathered]
  constructor
  · rintro ⟨part, ⟨k, -, here⟩, member⟩
    rw [gatherKind] at here
    split_ifs at here with off
    · obtain rfl : part = [] := by simpa using here.symm
      exact absurd member List.not_mem_nil
    · obtain ⟨others, there, rfl⟩ := Option.map_eq_some_iff.mp here
      exact ⟨k, (options_walkFlag dir sliceDepFlags k).mp off,
        (List.mem_append.mp member).imp_right fun member => ⟨others, there, member⟩⟩
  · rintro ⟨k, enabled, member⟩
    obtain ⟨others, there⟩ := blocks_of_gather every found enabled
    refine ⟨edges k ++ others, ⟨k, every k, ?_⟩, List.mem_append.mpr (member.imp_right ?_)⟩
    · rw [gatherKind, if_neg ((options_walkFlag dir sliceDepFlags k).mpr enabled), there,
        Option.map_some]
    · rintro ⟨_, same, member⟩
      exact Option.some.inj (there.symm.trans same) ▸ member

end Options

namespace DependenceGraph

variable {δ β γ ι φ : Type*} (g : DependenceGraph δ β γ ι φ) (dir : SliceDirection)
  (sliceDepFlags : Nat)

/-- The blocks that a block has control edges of the kind to. -/
def controlBlocks : EdgeKind → β → List β
  | .control => g.blockControl
  | .revControl => g.blockRevControl
  | _ => fun _ => []

/-- `b` is control dependent on the block of `u`, or the other way around. -/
def ControlBlock (k : EdgeKind) (u : δ) (b : β) : Prop :=
  Enabled dir sliceDepFlags k ∧ ∃ block, g.getBBlock u = some block ∧ b ∈ g.controlBlocks k block

/-- The dependences in a slice graph: a control-dependent block stands for its last node. -/
inductive StoreEdge (u v : δ) : Prop where
  | edge (k : EdgeKind) (enabled : Enabled dir sliceDepFlags k) (mem : v ∈ g.edges k u)
  | block (k : EdgeKind) (b : β) (control : g.ControlBlock dir sliceDepFlags k u b)
    (last : g.getLastNode b = some v)

variable {g dir sliceDepFlags} in
theorem StoreEdge.enabled {u v : δ} (edge : g.StoreEdge dir sliceDepFlags u v) :
    ∃ k, Enabled dir sliceDepFlags k := by
  cases edge with
  | edge k enabled => exact ⟨k, enabled⟩
  | block k b control => exact ⟨k, control.1⟩

/-- The node that a control-dependent block stands for in marking. -/
def entryNode : EdgeKind → β → Option δ
  | .control => g.getFirstNode
  | _ => g.getLastNode

/-- The dependences that marking follows: forward, a control-dependent block stands for its
first node. -/
inductive MarkEdge (u v : δ) : Prop where
  | edge (k : EdgeKind) (enabled : Enabled dir sliceDepFlags k) (mem : v ∈ g.edges k u)
  | block (k : EdgeKind) (b : β) (control : g.ControlBlock dir sliceDepFlags k u b)
    (entry : g.entryNode k b = some v)

variable {g dir sliceDepFlags} in
theorem MarkEdge.enabled {u v : δ} (edge : g.MarkEdge dir sliceDepFlags u v) :
    ∃ k, Enabled dir sliceDepFlags k := by
  cases edge with
  | edge k enabled => exact ⟨k, enabled⟩
  | block k b control => exact ⟨k, control.1⟩

/-- Storing goes on from and to instructions that belong into a slice. -/
def StoreStep (u v : δ) : Prop :=
  (g.sliceInst u).isSome ∧ (g.sliceInst v).isSome ∧ g.StoreEdge dir sliceDepFlags u v

/-- A path of instructions that belong into a slice leads from the first node to the second. -/
def StoreReach : δ → δ → Prop := ReflTransGen (g.StoreStep dir sliceDepFlags)

/-- A path through nodes of any kind leads from the first node to the second. -/
def MarkReach : δ → δ → Prop := ReflTransGen (g.MarkEdge dir sliceDepFlags)

end DependenceGraph

end Arthas.Slicing
