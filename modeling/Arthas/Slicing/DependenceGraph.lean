import Arthas.Slicing.SliceGraph
import Arthas.Lib.Worklist

/-!
The dependence graph (`dg/Node.h`, `dg/BBlock.h`) and the walk over its nodes
(`NodesWalk.h`). Nodes, blocks and subgraphs are referred to by their addresses. A walk
marks the nodes it queues with its number, which comes from a counter that all walks share.
-/

set_option autoImplicit false
set_option relaxedAutoImplicit false

namespace Arthas.Slicing

open Lib.Worklist

/-- What `shouldSliceInst` asks of an instruction. -/
inductive Opcode where
  | unreachable
  | ret (hasReturnValue : Bool)
  | other
  deriving DecidableEq

/-- `llvm::Value`, up to `dyn_cast<Instruction>`. -/
inductive Value (ι : Type*) where
  | instruction (inst : ι)
  | other
  deriving DecidableEq

def Value.dynCast {ι : Type*} : Value ι → Option ι
  | .instruction inst => some inst
  | .other => none

/-- The containers of edges a node has. -/
inductive EdgeKind where
  | use
  | user
  | data
  | revData
  | control
  | revControl
  | interference
  | revInterference
  deriving DecidableEq

namespace EdgeKind

def reverse : EdgeKind → EdgeKind
  | use => user
  | user => use
  | data => revData
  | revData => data
  | control => revControl
  | revControl => control
  | interference => revInterference
  | revInterference => interference

/-- The bit of `NodesWalkFlags`. -/
def walkFlag : EdgeKind → Nat
  | control => 2 ^ 1
  | data => 2 ^ 2
  | revControl => 2 ^ 3
  | revData => 2 ^ 4
  | use => 2 ^ 5
  | user => 2 ^ 6
  | interference => 2 ^ 7
  | revInterference => 2 ^ 8

/-- The kind of the slice edges made for it. -/
def sliceDependence : EdgeKind → SliceDependence
  | use | user => .registerDefUse
  | data | revData => .memoryDependence
  | control | revControl => .controlDependence
  | interference | revInterference => .interfereDependence

end EdgeKind

/-- Nodes `δ`, basic blocks `β` and subgraphs `γ`, with instructions `ι` in functions `φ`.
Edges are added in both directions at once. -/
structure DependenceGraph (δ β γ ι φ : Type*) where
  getValue : δ → Value ι
  getOpcode : ι → Opcode
  getFunction : ι → φ
  getBBlock : δ → Option β
  getDG : δ → Option γ
  edges : EdgeKind → δ → List δ
  blockControl : β → List β
  blockRevControl : β → List β
  getNodes : β → List δ
  edges_reverse : ∀ k u v, v ∈ edges k u ↔ u ∈ edges k.reverse v
  blockControl_reverse : ∀ b c, c ∈ blockControl b ↔ b ∈ blockRevControl c
  getBBlock_of_mem : ∀ b, ∀ n ∈ getNodes b, getBBlock n = some b

variable {δ β γ ι φ : Type*}

namespace DependenceGraph

variable (g : DependenceGraph δ β γ ι φ)

def getFirstNode (b : β) : Option δ := (g.getNodes b).head?

def getLastNode (b : β) : Option δ := (g.getNodes b).getLast?

/-- `DgWalkBase::shouldSliceInst`. -/
def shouldSliceInst (inst : ι) : Bool :=
  match g.getOpcode inst with
  | .unreachable => false
  | .ret hasReturnValue => hasReturnValue
  | .other => true

/-- The instruction of a node, when it is one that belongs into a slice. -/
def sliceInst (n : δ) : Option ι :=
  match (g.getValue n).dynCast with
  | none => none
  | some inst => if g.shouldSliceInst inst then some inst else none

theorem sliceInst_eq_some {n : δ} {inst : ι} :
    g.sliceInst n = some inst ↔
      g.getValue n = .instruction inst ∧ g.shouldSliceInst inst = true := by
  rw [sliceInst]
  cases g.getValue n with
  | other => simp [Value.dynCast]
  | instruction other =>
    simp only [Value.dynCast, Option.ite_none_right_eq_some, Option.some.injEq,
      Value.instruction.injEq]
    constructor
    · rintro ⟨accepted, rfl⟩
      exact ⟨rfl, accepted⟩
    · rintro ⟨rfl, accepted⟩
      exact ⟨accepted, rfl⟩

end DependenceGraph

/-- What walks leave behind: the shared counter, and for each node the last walk that
queued it; the slice ids of nodes, blocks and subgraphs. -/
structure WalkData (δ β γ : Type*) where
  walkRunCounter : Nat
  lastwalkid : δ → Nat
  nodeSlice : δ → Nat
  blockSlice : β → Nat
  graphSlice : γ → Nat

/-- `NodesWalk` while it runs; its options are those of the function that runs it. -/
structure NodesWalk (δ β γ : Type*) extends WalkData δ β γ where
  queue : List δ
  runId : Nat

/-- `run_id = ++walk_run_counter`, an `unsigned int`. -/
def NodesWalk.start (data : WalkData δ β γ) : NodesWalk δ β γ :=
  let runId := (data.walkRunCounter + 1) % 2 ^ 32
  { data with walkRunCounter := runId, queue := [], runId := runId }

namespace NodesWalk

variable [DecidableEq δ] [DecidableEq β] [DecidableEq γ]

def setQueue (queue : List δ) (w : NodesWalk δ β γ) : NodesWalk δ β γ := { w with queue := queue }

/-- `NodesWalk::enqueue`. -/
def enqueue (d : Discipline δ) (w : NodesWalk δ β γ) (n : δ) : NodesWalk δ β γ :=
  if w.lastwalkid n = w.runId then w
  else { w with
    lastwalkid := Function.update w.lastwalkid n w.runId
    queue := d.push n w.queue }

def processEdges (d : Discipline δ) (edges : List δ) (w : NodesWalk δ β γ) : NodesWalk δ β γ :=
  edges.foldl (enqueue d) w

/-- `setSlice` of the node, its block and its subgraph, as `markSlice` and `mark` do. -/
def setSlice {ι φ : Type*} (g : DependenceGraph δ β γ ι φ) (sliceId : Nat) (n : δ)
    (w : NodesWalk δ β γ) : NodesWalk δ β γ :=
  { w with
    nodeSlice := Function.update w.nodeSlice n sliceId
    blockSlice := match g.getBBlock n with
      | none => w.blockSlice
      | some block => Function.update w.blockSlice block sliceId
    graphSlice := match g.getDG n with
      | none => w.graphSlice
      | some subgraph => Function.update w.graphSlice subgraph sliceId }

/-- The order in which `NodesWalk::walk` looks at the kinds. -/
def walkOrder : List EdgeKind :=
  [.control, .revControl, .data, .revData, .use, .user, .interference, .revInterference]

variable (g : DependenceGraph δ β γ ι φ)

/-- `enqueue` of a pointer, which must not be null. -/
def enqueueAll (d : Discipline δ) (nodes : List (Option δ)) (w : NodesWalk δ β γ) :
    Option (NodesWalk δ β γ) :=
  nodes.foldlM (fun w n => n.map (enqueue d w)) w

def processBBlockRevCDs (d : Discipline δ) (n : δ) (w : NodesWalk δ β γ) :
    Option (NodesWalk δ β γ) :=
  match g.getBBlock n with
  | none => some w
  | some BB => enqueueAll d ((g.blockRevControl BB).map g.getLastNode) w

def processBBlockCDs (d : Discipline δ) (n : δ) (w : NodesWalk δ β γ) :
    Option (NodesWalk δ β γ) :=
  match g.getBBlock n with
  | none => some w
  | some BB => enqueueAll d ((g.blockControl BB).map g.getFirstNode) w

/-- One of the tests of the options in `NodesWalk::walk`. -/
def processKind (d : Discipline δ) (options : Nat) (n : δ) (w : NodesWalk δ β γ)
    (k : EdgeKind) : Option (NodesWalk δ β γ) :=
  if options &&& k.walkFlag = 0 then some w
  else
    let w := processEdges d (g.edges k n) w
    match k with
    | .control => processBBlockCDs g d n w
    | .revControl => processBBlockRevCDs g d n w
    | _ => some w

/-- The body of the loop: the function is called for the node, then its edges are
followed. -/
def visit (d : Discipline δ) (options : Nat) (func : δ → NodesWalk δ β γ → NodesWalk δ β γ)
    (n : δ) (w : NodesWalk δ β γ) : Option (NodesWalk δ β γ) :=
  let w := func n w
  if options = 0 then some w
  else walkOrder.foldlM (processKind g d options n) w

/-- `NodesWalk::walk`, for the options that `sliceRelationOpts` gives. -/
def walk (d : Discipline δ) (options : Nat) (func : δ → NodesWalk δ β γ → NodesWalk δ β γ)
    (entry : List δ) (fuel : Nat) (data : WalkData δ β γ) : Option (NodesWalk δ β γ) :=
  drain NodesWalk.queue setQueue (visit g d options func) fuel
    (processEdges d entry (start data))

end NodesWalk

end Arthas.Slicing
