import Arthas.Reactor.PassEffect

/-!
Destinations in the sequence log. Every node of the table is given the address of its
offset when the pool is opened again; a record then lies at its own offset, wherever
the pool was mapped.
-/

set_option autoImplicit false
set_option relaxedAutoImplicit false

namespace Arthas.Reactor

open Arthas.Lib ByteImage Checkpoint Journal

/-- A record whose destination is its offset in the pool at `pop`. -/
def placedAt (pop : UInt64) (d : SingleData) : SingleData :=
  { d with sortedPmemAddress := some (pop + d.offset) }

instance (sLog : SeqLog) (key : Int) : Decidable (sLog.InTable key) :=
  inferInstanceAs (Decidable (_ ∧ _))

theorem find_assignAddresses (sLog : SeqLog) (pop : UInt64) (key : Int) :
    (assignAddresses sLog pop).find key =
      if sLog.InTable key then (sLog.find key).map (SeqNode.update (placedAt pop))
      else sLog.find key := by
  unfold SeqLog.find ChainTable.find
  simp only [assignAddresses]
  split_ifs with hbucket hin hin
  · exact ChainTable.findKey_map _ (f := SeqNode.update (placedAt pop)) (fun _ => rfl) _ _
  · exact absurd hbucket hin
  · exact absurd hin hbucket
  · rfl

/-- The number is hashed into the table and has a record. -/
def Checkpoint.SeqLog.Holds (sLog : SeqLog) (key : Int) : Prop :=
  sLog.InTable key ∧ (sLog.find key).isSome

theorem lookup_assignAddresses {sLog : SeqLog} {key : Int} (h : sLog.Holds key) (pop : UInt64) :
    lookup (assignAddresses sLog pop) key = placedAt pop (lookup sLog key) := by
  obtain ⟨n, hn⟩ := Option.isSome_iff_exists.mp h.2
  simp [lookup, find_assignAddresses, h.1, hn, SeqNode.update]

theorem place_placedAt {w : World} {pop : UInt64} (hbase : w.base = some pop) (d : SingleData) :
    w.place (placedAt pop d) = some d.offset := by
  simp only [World.place, placedAt, hbase, base_add_sub]

/-- The pool is mapped, and the record of the number goes to its own offset there. -/
def World.Placed (w : World) (q : Int) : Prop :=
  w.place (lookup w.sLog q) = some (lookup w.sLog q).offset

/-- What a pass sees of a placed number does not depend on where the pool is mapped. -/
theorem World.Placed.view_eq {w : World} {q : Int} (h : w.Placed q) :
    w.view q =
      ({ lookup w.sLog q with sortedPmemAddress := none }, some (lookup w.sLog q).offset) :=
  Prod.ext rfl h

end Arthas.Reactor
