import Arthas.Dg.RDMap
import Arthas.Lib.GraphWalk

/-!
The reaching definitions analysis (`RDNode.h`, `ReachingDefinitions.h`,
`ReachingDefinitions.cpp`). Nodes take over the maps of their predecessors, round after
round, until a round changes nothing or the limit on the nodes visited is met.
-/

set_option autoImplicit false
set_option relaxedAutoImplicit false

namespace Arthas.Dg

open Lib

/-- What the builder of the graph tells a node. -/
inductive NodeCall (ν : Type*) where
  | addDef (ds : DefSite ν) (strongUpdate : Bool)
  | addOverwrites (ds : DefSite ν)
  | addUse (ds : DefSite ν)

/-- The sets of a node, and its map before the analysis. -/
structure NodeSets (ν : Type*) where
  defs : List (DefSite ν)
  overwrites : List (DefSite ν)
  uses : List (DefSite ν)
  defMap : RDMap ν

def NodeSets.empty {ν : Type*} : NodeSets ν := ⟨[], [], [], .empty⟩

def NodeCall.run {ν : Type*} [DecidableEq ν] (O : Objects ν) (n : ν) (s : NodeSets ν) :
    NodeCall ν → NodeSets ν
  | .addDef ds strongUpdate =>
    let s := if strongUpdate then { s with overwrites := SetVector.insert s.overwrites ds }
      else { s with defs := SetVector.insert s.defs ds }
    { s with defMap := s.defMap.update O ds n }
  | .addOverwrites ds => { s with overwrites := SetVector.insert s.overwrites ds }
  | .addUse ds => { s with uses := SetVector.insert s.uses ds }

/-- `ReachingDefinitionsGraph`. An edge is added at both its ends, and the node of unknown
memory stands for an object only. -/
structure RDGraph (ν : Type*) extends Objects ν where
  root : ν
  successors : ν → List ν
  predecessors : ν → List ν
  calls : ν → List (NodeCall ν)
  mem_predecessors : ∀ u v, u ∈ predecessors v ↔ v ∈ successors u
  calls_unknownMemory : calls unknownMemory = []

/-- The maps of the nodes, the nodes that the round has changed so far, and how many were
visited in all rounds. -/
structure RDState (ν : Type*) where
  maps : ν → RDMap ν
  changed : List ν
  totalNum : Nat

/-- The number of visits after which the analysis breaks off. -/
def visitLimit : Nat := 20000

namespace RDGraph

variable {ν : Type*} [DecidableEq ν] (G : RDGraph ν)

def sets (n : ν) : NodeSets ν := (G.calls n).foldl (NodeCall.run G.toObjects n) .empty

def overwrites (n : ν) : List (DefSite ν) := (G.sets n).overwrites

def uses (n : ν) : List (DefSite ν) := (G.sets n).uses

/-- The maps before the analysis. -/
def initial (n : ν) : RDMap ν := (G.sets n).defMap

/-- `getNodes`: the nodes behind the given ones, breadth first. -/
def getNodes [Fintype ν] (start : List ν) : Option (List ν) :=
  GraphWalk.walk .fifo G.successors (fun n cont => some (cont ++ [n])) (Fintype.card ν + 1)
    (.start .fifo start) []

variable (options : RDOptions)

/-- The turn of `processNode` for a predecessor. The map of the node itself is not merged. -/
def mergeFrom (maps : ν → RDMap ν) (node : ν) (s : RDMap ν × Bool) (n : ν) : RDMap ν × Bool :=
  if n = node then s
  else
    let merged := RDMap.merge G.toObjects options (G.overwrites node) s.1 (maps n)
    (merged.1, s.2 || merged.2)

def processNode (maps : ν → RDMap ν) (node : ν) : RDMap ν × Bool :=
  (G.predecessors node).foldl (G.mergeFrom options maps node) (maps node, false)

/-- The turn of the inner loop of `run`. -/
def visitNode (s : RDState ν) (cur : ν) : RDState ν :=
  let processed := G.processNode options s.maps cur
  { maps := Function.update s.maps cur processed.1
    changed := if processed.2 then s.changed ++ [cur] else s.changed
    totalNum := s.totalNum + 1 }

def processRound : List ν → RDState ν → RDState ν
  | [], s => s
  | cur :: rest, s =>
    let s := G.visitNode options s cur
    if visitLimit < s.totalNum then s else processRound rest s

/-- The rounds. The time that the analysis takes and the number of its visits are looked at
as well, without any effect. -/
def runRounds [Fintype ν] : Nat → List ν → RDState ν → Option (RDState ν)
  | 0, _, _ => none
  | fuel + 1, toProcess, s =>
    let s := G.processRound options toProcess { s with changed := [] }
    if visitLimit < s.totalNum then some s
    else if s.changed = [] then some s
    else (G.getNodes s.changed).bind fun toProcess => runRounds fuel toProcess s

/-- `ReachingDefinitionsAnalysis::run`. -/
def run [Fintype ν] : Option (RDState ν) :=
  (G.getNodes [G.root]).bind fun toProcess =>
    G.runRounds options (visitLimit + 1) toProcess ⟨G.initial, [], 0⟩

/-- The loop over the uses, left at the first use of unknown memory. -/
def gatherUses (m : RDMap ν) : List (DefSite ν) → List ν → List ν
  | [], result => result
  | ds :: rest, result =>
    if ds.target = some G.unknownMemory then
      m.entries.foldl (fun result e => SetVector.insertAll result e.2.nodes) result
    else gatherUses m rest (m.get ds result)

/-- The nodes that may have written what a node uses. -/
def getReachingDefinitions (maps : ν → RDMap ν) (use : ν) : List ν :=
  (maps use).get ⟨some G.unknownMemory, unknownOffset, unknownOffset⟩
    (G.gatherUses (maps use) (G.uses use) [])

end RDGraph

end Arthas.Dg
