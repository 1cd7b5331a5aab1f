import Arthas.Dg.ReachingDefinitions
import Arthas.Lib.Dataflow

/-!
What a run of the reaching definitions analysis finds. A definition reaches a node over a
path on which no node leaves its site out. The run ends, what it finds for a use reaches
it, and below the limit on the visits it finds all that does.
-/

set_option autoImplicit false
set_option relaxedAutoImplicit false

namespace Arthas.Dg

open Lib Lib.Dataflow Relation

def NodeCall.written {ν : Type*} : NodeCall ν → Option (DefSite ν)
  | .addDef ds _ => some ds
  | _ => none

namespace RDGraph

variable {ν : Type*} [DecidableEq ν] (G : RDGraph ν)

def Leads (u v : ν) : Prop := v ∈ G.successors u

/-- `getNodes` gives the nodes behind the given ones, each once. -/
theorem getNodes_spec [Fintype ν] {start : List ν} (nodup : start.Nodup) :
    ∃ nodes, G.getNodes start = some nodes ∧ nodes.Nodup ∧
      ∀ v, v ∈ nodes ↔ ∃ u ∈ start, ReflTransGen G.Leads u v := by
  obtain ⟨l, lNodup, members, same⟩ :=
    GraphWalk.walk_start (Nat.lt_succ_self (Fintype.card ν)) nodup
  have collected : ∀ (l cont : List ν),
      l.foldlM (fun cont n => some (cont ++ [n])) cont = some (cont ++ l) := by
    intro l
    induction l with
    | nil => simp
    | cons n l ih =>
      intro cont
      rw [List.foldlM_cons]
      exact (ih (cont ++ [n])).trans (by simp)
  exact ⟨l, (same _ []).trans (collected l []), lNodup, members⟩

def Reachable (v : ν) : Prop := ReflTransGen G.Leads G.root v

/-- The sites that a node is told it writes. -/
def written (n : ν) : List (DefSite ν) := (G.calls n).filterMap NodeCall.written

/-- The definition of a site by `d` reaches a node. -/
inductive Reaches (d : ν) (ds : DefSite ν) : ν → Prop where
  | start : ds ∈ G.written d → Reaches d ds d
  | step {u v : ν} : Reaches d ds u → G.Leads u v → G.Reachable v →
    ¬ RDMap.Skips G.toObjects (G.overwrites v) ds → Reaches d ds v

variable {G} in
theorem Reaches.written {d v : ν} {ds : DefSite ν} (reaches : G.Reaches d ds v) :
    ds ∈ G.written d := by
  induction reaches with
  | start writes => exact writes
  | step _ _ _ _ ih => exact ih

/-- The nodes that definitions start from and those that let them in. -/
def system : System ν (DefSite ν × ν) where
  starts n f := f.2 = n ∧ f.1 ∈ G.written n
  edge u v := G.Leads u v ∧ G.Reachable v
  passes v f := ¬ RDMap.Skips G.toObjects (G.overwrites v) f.1

def table (maps : ν → RDMap ν) : Table ν (DefSite ν × ν) := fun n f => (maps n).Holds f.1 f.2

def PlainMaps (maps : ν → RDMap ν) : Prop := ∀ n, RDMap.Plain G.toObjects (maps n)

section Visits

variable {G} {maps : ν → RDMap ν} {s : RDState ν}

theorem arrives_iff {v d : ν} {ds : DefSite ν} :
    G.system.Arrives v (ds, d) ↔ G.Reaches d ds v := by
  constructor
  · rintro ⟨n, arrives⟩
    generalize fact : (ds, d) = f at arrives
    induction arrives with
    | start has =>
      subst fact
      obtain ⟨rfl, writes⟩ := has
      exact .start writes
    | step _ leads lets ih =>
      subst fact
      exact (ih rfl).step leads.1 leads.2 lets
  · intro reaches
    induction reaches with
    | start writes => exact System.Arrives.start ⟨rfl, writes⟩
    | step _ leads reachable lets ih => exact ih.step ⟨leads, reachable⟩ lets

/-- A call changes the map at the site it writes, and nowhere else. -/
theorem run_defMap (n : ν) (call : NodeCall ν) (sets : NodeSets ν) :
    (call.run G.toObjects n sets).defMap =
      call.written.elim sets.defMap fun ds => sets.defMap.update G.toObjects ds n := by
  cases call with
  | addDef ds strongUpdate => cases strongUpdate <;> rfl
  | addOverwrites ds => rfl
  | addUse ds => rfl

theorem foldl_run {n : ν} (calls : List (NodeCall ν)) (sets : NodeSets ν)
    (isNode : calls ≠ [] → n ≠ G.unknownMemory) (plain : RDMap.Plain G.toObjects sets.defMap)
    (own : ∀ ds d, sets.defMap.Holds ds d → d = n) :
    let sets' := calls.foldl (NodeCall.run G.toObjects n) sets
    RDMap.Plain G.toObjects sets'.defMap ∧ ∀ ds d, sets'.defMap.Holds ds d ↔
      sets.defMap.Holds ds d ∨ d = n ∧ ds ∈ calls.filterMap NodeCall.written := by
  induction calls generalizing sets with
  | nil => exact ⟨plain, by simp⟩
  | cons call calls ih =>
    have isNode := isNode (List.cons_ne_nil call calls)
    have first := run_defMap (G := G) n call sets
    rw [List.foldl_cons, List.filterMap_cons]
    cases writes : call.written with
    | none =>
      rw [writes, Option.elim_none] at first
      rw [← first] at plain own ⊢
      exact ih _ (fun _ => isNode) plain own
    | some ds =>
      rw [writes, Option.elim_some] at first
      obtain ⟨plain', holds⟩ := ih (call.run G.toObjects n sets) (fun _ => isNode)
        (first ▸ RDMap.plain_update plain isNode) fun ds' d => by
          rw [first, RDMap.holds_update isNode]
          split
          · exact id
          · exact own ds' d
      refine ⟨plain', fun ds' d => ?_⟩
      rw [holds, first, RDMap.holds_update isNode, List.mem_cons]
      by_cases same : ds' = ds
      · have before := own ds' d
        rw [if_pos same]
        tauto
      · rw [if_neg same]
        tauto

theorem initial_spec (n : ν) : RDMap.Plain G.toObjects (G.initial n) ∧
    ∀ ds d, (G.initial n).Holds ds d ↔ d = n ∧ ds ∈ G.written n := by
  have none : ∀ ds d, ¬ (NodeSets.empty : NodeSets ν).defMap.Holds ds d :=
    fun _ _ => List.not_mem_nil
  obtain ⟨plain, holds⟩ := foldl_run (n := n) (G.calls n) .empty
    (fun some same => some (same ▸ G.calls_unknownMemory)) RDMap.plain_empty
    fun ds d holds => (none ds d holds).elim
  exact ⟨plain, fun ds d => (holds ds d).trans ⟨fun h => h.resolve_left (none ds d), Or.inr⟩⟩

theorem plainMaps_initial : G.PlainMaps G.initial := fun n => (initial_spec n).1

theorem table_initial : table G.initial = G.system.starts := by
  funext n f
  exact propext ((initial_spec n).2 f.1 f.2)

/-- With what a merge gains, the flag of the loop around it is raised. -/
theorem gains_flag {facts : Set (DefSite ν × ν)} {ours merged : RDMap ν × Bool}
    (h : RDMap.Gains G.toObjects facts (ours.1, false) merged) :
    RDMap.Gains G.toObjects facts ours (merged.1, ours.2 || merged.2) where
  plain := h.plain
  known := h.known
  holds := h.holds
  changed := by
    rw [Bool.or_eq_true, h.changed]
    simp

theorem gains_processNode (plain : G.PlainMaps maps) (node : ν) :
    RDMap.Gains G.toObjects (⋃ n ∈ G.predecessors node, {f | n ≠ node ∧ (maps n).Holds f.1 f.2 ∧
      ¬ RDMap.Skips G.toObjects (G.overwrites node) f.1}) (maps node, false)
      (G.processNode .default maps node) := by
  refine RDMap.Gains.foldl (P := fun _ => True) (fun _ _ _ _ => trivial) (fun s n _ ours _ => ?_)
    (plain node) trivial
  rw [mergeFrom]
  split
  · next same =>
    have none : {f : DefSite ν × ν | n ≠ node ∧ (maps n).Holds f.1 f.2 ∧
        ¬ RDMap.Skips G.toObjects (G.overwrites node) f.1} = ∅ := by
      ext
      simp [same]
    rw [none]
    exact RDMap.Gains.none ours
  · next other =>
    simp only [ne_eq, other, not_false_eq_true, true_and]
    exact gains_flag (RDMap.gains_merge ours (plain n))

theorem holds_processNode (plain : G.PlainMaps maps) {node : ν} (reachable : G.Reachable node)
    (f : DefSite ν × ν) : (G.processNode .default maps node).1.Holds f.1 f.2 ↔
      table maps node f ∨ ∃ n, G.system.edge n node ∧ table maps n f ∧ G.system.passes node f := by
  rw [(gains_processNode plain node).holds]
  simp only [Set.mem_iUnion, Set.mem_ofPred_eq, exists_prop]
  constructor
  · rintro (before | ⟨n, member, -, holds, lets⟩)
    · exact Or.inl before
    · exact Or.inr ⟨n, ⟨(G.mem_predecessors n node).mp member, reachable⟩, holds, lets⟩
  · rintro (before | ⟨n, leads, holds, lets⟩)
    · exact Or.inl before
    · rcases eq_or_ne n node with rfl | other
      · exact Or.inl holds
      · exact Or.inr ⟨n, (G.mem_predecessors n node).mpr leads.1, other, holds, lets⟩

/-- What the processing of a node does: the node takes in what it lets in of the
definitions of its predecessors. -/
theorem processNode_spec (plain : G.PlainMaps maps) {node : ν} (reachable : G.Reachable node) :
    let processed := G.processNode .default maps node
    RDMap.Plain G.toObjects processed.1 ∧
      G.system.TakesIn node (table maps) (table (Function.update maps node processed.1)) ∧
      (processed.2 = true ↔ ∃ f, processed.1.Holds f.1 f.2 ∧ ¬ table maps node f) := by
  have gains := gains_processNode plain node
  refine ⟨gains.plain, fun c f => ?_, ?_⟩
  · by_cases same : c = node
    · subst same
      rw [table, Function.update_self, holds_processNode plain reachable]
      simp
    · rw [table, Function.update_of_ne same]
      simp [table, same]
  · rw [gains.changed]
    simp only [Bool.false_eq_true, false_or]
    constructor
    · rintro ⟨f, member, new⟩
      exact ⟨f, (gains.holds f.1 f.2).mpr (Or.inr member), new⟩
    · rintro ⟨f, has, new⟩
      exact ⟨f, ((gains.holds f.1 f.2).mp has).resolve_left new, new⟩

end Visits

section Rounds

variable {G} {s : RDState ν} {todo : List ν}

theorem plainMaps_update {maps : ν → RDMap ν} {node : ν} {m : RDMap ν} (plain : G.PlainMaps maps)
    (new : RDMap.Plain G.toObjects m) : G.PlainMaps (Function.update maps node m) := by
  intro n
  by_cases same : n = node
  · subst same
    rw [Function.update_self]
    exact new
  · rw [Function.update_of_ne same]
    exact plain n

/-- A round that did not meet the limit has visited all its nodes; any round keeps to what
arrives, and counts its visits. -/
structure Rounded (G : RDGraph ν) (todo : List ν) (s s' : RDState ν) : Prop where
  plain : G.PlainMaps s'.maps
  sound : (∀ n f, table s.maps n f → G.system.Arrives n f) →
    ∀ n f, table s'.maps n f → G.system.Arrives n f
  counts : s'.totalNum ≤ s.totalNum + todo.length
  round : s'.totalNum ≤ visitLimit → s'.totalNum = s.totalNum + todo.length ∧
    ∃ changed, s'.changed = s.changed ++ changed ∧
      G.system.Round todo (table s.maps) changed (table s'.maps)

theorem processRound_spec (plain : G.PlainMaps s.maps) (reachable : ∀ v ∈ todo, G.Reachable v) :
    G.Rounded todo s (G.processRound .default todo s) := by
  induction todo generalizing s with
  | nil => exact ⟨plain, id, Nat.le_refl _, fun _ => ⟨rfl, [], by simp [processRound], .nil _⟩⟩
  | cons cur rest ih =>
    obtain ⟨plain', takes, flag⟩ := processNode_spec plain (reachable cur List.mem_cons_self)
    have plainNext : G.PlainMaps (G.visitNode .default s cur).maps := plainMaps_update plain plain'
    have sound : (∀ n f, table s.maps n f → G.system.Arrives n f) →
        ∀ n f, table (G.visitNode .default s cur).maps n f → G.system.Arrives n f :=
      fun before n f => takes.arrives before
    have total : (G.visitNode .default s cur).totalNum = s.totalNum + 1 := rfl
    rw [processRound]
    split
    · next beyond =>
      refine ⟨plainNext, sound, ?_, fun under => absurd beyond (by omega)⟩
      rw [List.length_cons]
      omega
    · have rest := ih plainNext fun v member => reachable v (List.mem_cons_of_mem cur member)
      refine ⟨rest.plain, fun before => rest.sound (sound before), ?_, fun under => ?_⟩
      · have := rest.counts
        rw [List.length_cons]
        omega
      · obtain ⟨counted, changed, noted, round⟩ := rest.round under
        refine ⟨by rw [List.length_cons]; omega, ?_⟩
        cases changes : (G.processNode .default s.maps cur).2 with
        | true =>
          obtain ⟨f, now, before⟩ := flag.mp changes
          refine ⟨cur :: changed, by rw [noted]; simp [visitNode, changes], ?_⟩
          refine .changed takes (b := f) ?_ before round
          rw [table, Function.update_self]
          exact now
        | false =>
          refine ⟨changed, by rw [noted]; simp [visitNode, changes],
            .kept takes (fun f now => ?_) round⟩
          by_contra before
          rw [table, Function.update_self] at now
          rw [flag.mpr ⟨f, now, before⟩] at changes
          exact Bool.noConfusion changes

theorem length_le_card [Fintype ν] {nodes : List ν} (nodup : nodes.Nodup) :
    nodes.length ≤ Fintype.card ν := by
  rw [← List.toFinset_card_of_nodup nodup]
  exact Finset.card_le_univ _

/-- Between rounds: the nodes to be visited next, and how far the count can be. -/
structure Between [Fintype ν] (G : RDGraph ν) (count : Nat) (todo : List ν) (s : RDState ν) :
    Prop where
  plain : G.PlainMaps s.maps
  pending : G.system.Pending count todo (table s.maps)
  reachable : ∀ v ∈ todo, G.Reachable v
  nodup : todo.Nodup
  some : todo ≠ []
  early : count < Fintype.card ν
  total : s.totalNum ≤ count * Fintype.card ν

/-- What the analysis ends with: nothing that does not arrive, and everything that does if
the limit was not met, which takes more visits than the square of the number of nodes. -/
structure Analysed [Fintype ν] (G : RDGraph ν) (s : RDState ν) : Prop where
  plain : G.PlainMaps s.maps
  sound : ∀ n f, table s.maps n f → G.system.Arrives n f
  total : s.totalNum ≤ Fintype.card ν * Fintype.card ν
  complete : s.totalNum ≤ visitLimit → ∀ n f, G.system.Arrives n f → table s.maps n f

/-- The visits of a round, on top of those before, stay within the square of the number of
nodes. -/
theorem Between.visits_le [Fintype ν] {count total : Nat} (between : G.Between count todo s)
    (counts : total ≤ s.totalNum + todo.length) :
    total ≤ Fintype.card ν * Fintype.card ν := by
  have before := between.total
  have atMost := length_le_card between.nodup
  have bound : (count + 1) * Fintype.card ν ≤ Fintype.card ν * Fintype.card ν :=
    Nat.mul_le_mul_right _ between.early
  rw [Nat.succ_mul] at bound
  omega

/-- After a round that changed something, the nodes behind the changed ones are visited in
the next one. -/
theorem between_next [Fintype ν] {count : Nat} {changed : List ν} {s' : RDState ν}
    (between : G.Between count todo s) (plain : G.PlainMaps s'.maps)
    (round : G.system.Round todo (table s.maps) changed (table s'.maps))
    (counted : s'.totalNum = s.totalNum + todo.length) (something : changed ≠ []) :
    ∃ next, G.getNodes changed = some next ∧ G.Between (count + 1) next s' := by
  have visited := round.changed_subset
  have changedNodup : changed.Nodup := round.nodup between.nodup
  obtain ⟨next, got, nodup, behind⟩ := getNodes_spec (G := G) changedNodup
  have pending : G.system.Pending (count + 1) next (table s'.maps) := by
    refine between.pending.round round fun a member a' leads => (behind a').mpr ?_
    exact ⟨a, member, .single leads.1⟩
  have reachable : ∀ v ∈ next, G.Reachable v := by
    intro v member
    obtain ⟨u, uChanged, path⟩ := (behind v).mp member
    exact (between.reachable u (visited uChanged)).trans path
  have some : next ≠ [] := by
    obtain ⟨a, member⟩ := List.exists_mem_of_ne_nil _ something
    exact List.ne_nil_of_mem ((behind a).mpr ⟨a, member, .refl⟩)
  have early := between.pending.round_lt round something
  have total : s'.totalNum ≤ (count + 1) * Fintype.card ν := by
    have before := between.total
    have atMost := length_le_card between.nodup
    rw [Nat.succ_mul]
    omega
  exact ⟨next, got, plain, pending, reachable, nodup, some, early, total⟩

theorem runRounds_spec [Fintype ν] {fuel count : Nat} (between : G.Between count todo s)
    (enough : visitLimit < fuel + s.totalNum) (under : s.totalNum ≤ visitLimit) :
    ∃ s', G.runRounds .default fuel todo s = some s' ∧ G.Analysed s' := by
  induction fuel generalizing count todo s with
  | zero => omega
  | succ fuel ih =>
    have rounded : G.Rounded todo { s with changed := [] }
        (G.processRound .default todo { s with changed := [] }) :=
      processRound_spec between.plain between.reachable
    have squared := between.visits_le rounded.counts
    have sound := rounded.sound between.pending.sound
    rw [runRounds]
    split
    · next beyond =>
      exact ⟨_, rfl, rounded.plain, sound, squared, fun below => absurd beyond (by omega)⟩
    · next notOver =>
      obtain ⟨counted, changed, noted, round⟩ := rounded.round (by omega)
      rw [List.nil_append] at noted
      split
      · next nothing =>
        obtain rfl : changed = [] := noted.symm.trans nothing
        exact ⟨_, rfl, rounded.plain, sound, squared,
          fun _ n f => (between.pending.done round n f).mpr⟩
      · next something =>
        rw [noted] at something
        obtain ⟨next, got, afterwards⟩ := between_next between rounded.plain round counted something
        have visits : 0 < todo.length := List.length_pos_of_ne_nil between.some
        change _ = s.totalNum + todo.length at counted
        rw [noted, got, Option.bind_some]
        exact ih afterwards (by omega) (by omega)

/-- A run ends, and has analysed the graph. -/
theorem run_spec [Fintype ν] (G : RDGraph ν) : ∃ s, G.run .default = some s ∧ G.Analysed s := by
  obtain ⟨nodes, got, nodup, behind⟩ := getNodes_spec (G := G) (List.nodup_singleton G.root)
  have reachable : ∀ v, v ∈ nodes ↔ G.Reachable v := by
    intro v
    rw [behind]
    constructor
    · rintro ⟨u, member, path⟩
      obtain rfl : u = G.root := List.mem_singleton.mp member
      exact path
    · exact fun path => ⟨G.root, List.mem_singleton_self _, path⟩
  have between : G.Between 0 nodes ⟨G.initial, [], 0⟩ := by
    refine ⟨plainMaps_initial, ?_, fun v => (reachable v).mp, nodup, ?_, ?_, Nat.zero_le _⟩
    · rw [table_initial]
      exact System.pending_start fun _ v leads => (reachable v).mpr leads.2
    · exact List.ne_nil_of_mem ((reachable G.root).mpr .refl)
    · exact Fintype.card_pos_iff.mpr ⟨G.root⟩
  have enough : visitLimit < visitLimit + 1 + 0 := Nat.lt_succ_self visitLimit
  obtain ⟨s, run, analysed⟩ := runRounds_spec between enough (Nat.zero_le _)
  exact ⟨s, by rw [RDGraph.run, got]; exact run, analysed⟩

end Rounds

section Queries

variable {G} {maps : ν → RDMap ν} {use d : ν}

/-- A site that a node asks for: one that its uses meet, or one of unknown memory. -/
def Asked (G : RDGraph ν) (use : ν) (ds : DefSite ν) : Prop :=
  ds.target = some G.unknownMemory ∨
    ∃ u ∈ G.uses use, u.target = some G.unknownMemory ∨ RDMap.Meets u ds

theorem mem_gatherUses {m : RDMap ν} (plain : RDMap.Plain G.toObjects m) {sites : List (DefSite ν)}
    {found : List ν} :
    d ∈ G.gatherUses m sites found ↔ d ∈ found ∨ ∃ ds, m.Holds ds d ∧
      ∃ u ∈ sites, u.target = some G.unknownMemory ∨ RDMap.Meets u ds := by
  induction sites generalizing found with
  | nil => simp [gatherUses]
  | cons u sites ih =>
    rw [gatherUses]
    split
    · next unknown =>
      -- the loop is left: everything was found
      rw [RDMap.mem_allNodes plain]
      simp [unknown]
    · next known =>
      rw [ih, RDMap.mem_get plain, or_assoc, ← exists_or]
      refine or_congr_right (exists_congr fun ds => ?_)
      rw [List.exists_mem_cons_iff, and_or_left]
      simp only [known, false_or]
      rw [and_comm]

/-- What a query finds in the maps. -/
theorem mem_getReachingDefinitions (plain : G.PlainMaps maps) :
    d ∈ G.getReachingDefinitions maps use ↔ ∃ ds, table maps use (ds, d) ∧ G.Asked use ds := by
  have unknown : ∀ ds, RDMap.Meets ⟨some G.unknownMemory, unknownOffset, unknownOffset⟩ ds ↔
      ds.target = some G.unknownMemory := fun ds =>
    ⟨fun meets => meets.1.symm, fun same => ⟨same.symm, Or.inl rfl⟩⟩
  rw [getReachingDefinitions, RDMap.mem_get (plain use), mem_gatherUses (plain use)]
  simp only [List.not_mem_nil, false_or, unknown, ← exists_or]
  refine exists_congr fun ds => ?_
  rw [Asked, and_or_left, or_comm, and_comm (b := ds.target = some G.unknownMemory)]
  rfl

end Queries

section Finding

variable [Fintype ν] (G : RDGraph ν)

/-- The analysis ends for every graph, after at most as many visits as the square of the
number of its nodes. What it finds for a use reaches it and is asked for, also when the
limit on the visits has cut it short, and all of it is found when not. -/
theorem getReachingDefinitions_run : ∃ s, G.run .default = some s ∧
    s.totalNum ≤ Fintype.card ν * Fintype.card ν ∧
    (∀ use d, d ∈ G.getReachingDefinitions s.maps use →
      ∃ ds, G.Reaches d ds use ∧ G.Asked use ds) ∧
    (s.totalNum ≤ visitLimit → ∀ use d ds, G.Reaches d ds use → G.Asked use ds →
      d ∈ G.getReachingDefinitions s.maps use) := by
  obtain ⟨s, run, analysed⟩ := G.run_spec
  refine ⟨s, run, analysed.total, fun use d found => ?_, fun below use d ds reaches asked => ?_⟩
  · obtain ⟨ds, holds, asked⟩ := (mem_getReachingDefinitions analysed.plain).mp found
    exact ⟨ds, arrives_iff.mp (analysed.sound use (ds, d) holds), asked⟩
  · have holds := analysed.complete below use (ds, d) (arrives_iff.mpr reaches)
    exact (mem_getReachingDefinitions analysed.plain).mpr ⟨ds, holds, asked⟩

end Finding

end RDGraph

end Arthas.Dg
