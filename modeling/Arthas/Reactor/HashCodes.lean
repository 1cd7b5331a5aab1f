import Mathlib
import Arthas.Reactor.OrderedLogs

/-!
The hash codes of the three logs as indexes of their bucket arrays (`hashCode`,
`txhashCode`, `checkpoint_hashcode`). The remainder of a negative key is taken in unsigned
arithmetic, and its negation is narrowed to `int` without coming back into the array.
-/

set_option autoImplicit false
set_option relaxedAutoImplicit false

namespace Arthas.Reactor.Checkpoint

/-- The code is an index of an array of `size` buckets. -/
def ValidIndex (size : Nat) (code : Int) : Prop := 0 ≤ code ∧ code < size

section Bounds

variable {size : Nat} {key : Int}

/-- The narrowing to 32 bits makes the 64-bit negation of a small number its negation. -/
theorem toInt32_neg {r : Int} (nonneg : 0 ≤ r) (small : r < 2 ^ 31) :
    toInt32 (-r % 2 ^ 64) = -r := by
  have wrapped : (-r % 2 ^ 64) % (2 ^ 32 : Nat) = -r % (2 ^ 32 : Nat) :=
    Int.emod_emod_of_dvd (-r) (by decide)
  rw [toInt32, ← Int.emod_bmod, wrapped, Int.emod_bmod]
  exact Int.bmod_eq_of_le (by omega) (by omega)

/-- The code of a negative key is never positive. -/
theorem bucketIndex_of_neg (positive : 0 < size) (few : size < 2 ^ 31) (negative : key < 0) :
    bucketIndex size key = -(key % 2 ^ 64 % (size : Int)) := by
  obtain ⟨nonneg, below⟩ := remainder_bounds positive key
  simp only [bucketIndex, if_pos negative]
  exact toInt32_neg nonneg (by omega)

/-- The code of a key is an index exactly when the key is not negative or the size divides
the key as it is converted. -/
theorem bucketIndex_valid_iff (positive : 0 < size) (few : size < 2 ^ 31) (key : Int) :
    ValidIndex size (bucketIndex size key) ↔ 0 ≤ key ∨ (size : Int) ∣ key % 2 ^ 64 := by
  rcases lt_or_ge key 0 with negative | nonneg
  · obtain ⟨low, high⟩ := remainder_bounds positive key
    rw [ValidIndex, bucketIndex_of_neg positive few negative, Int.dvd_iff_emod_eq_zero]
    omega
  · exact ⟨fun _ => Or.inl nonneg, fun _ => bucketIndex_bounds positive few nonneg⟩

/-- Whatever the key, its code reaches fewer than `size` buckets before the array. -/
theorem bucketIndex_gt_neg_size (positive : 0 < size) (few : size < 2 ^ 31) (key : Int) :
    -(size : Int) < bucketIndex size key := by
  rcases lt_or_ge key 0 with negative | nonneg
  · obtain ⟨low, high⟩ := remainder_bounds positive key
    rw [bucketIndex_of_neg positive few negative]
    omega
  · have inside := (bucketIndex_bounds positive few nonneg).1
    omega

/-- Only a single bucket makes the code of every key an index: two neighbouring negative
keys have no other divisor in common. -/
theorem forall_bucketIndex_valid_iff (positive : 0 < size) (few : size < 2 ^ 31) :
    (∀ key, ValidIndex size (bucketIndex size key)) ↔ size = 1 := by
  constructor
  · intro valid
    have divides : ∀ key < 0, (size : Int) ∣ key % 2 ^ 64 := by
      intro key negative
      have either := (bucketIndex_valid_iff positive few key).mp (valid key)
      exact either.resolve_left (by omega)
    have apart : (size : Int) ∣ -1 % 2 ^ 64 - -2 % 2 ^ 64 :=
      dvd_sub (divides (-1) (by decide)) (divides (-2) (by decide))
    have unit : (size : Int) ∣ 1 := by simpa using apart
    exact_mod_cast Int.eq_one_of_dvd_one (by omega) unit
  · rintro rfl key
    refine (bucketIndex_valid_iff positive few key).mpr (Or.inr ?_)
    exact one_dvd _

/-- An offset is unsigned, so its code is always an index. -/
theorem checkpointHashcode_valid (cLog : CheckpointLog) (positive : 0 < cLog.size)
    (offset : UInt64) : ValidIndex cLog.size (checkpointHashcode cLog offset) := by
  have below : offset.toNat % cLog.size < cLog.size := Nat.mod_lt _ positive
  have few := cLog.size_lt
  rw [ValidIndex, checkpointHashcode, toInt32_size (by omega)]
  omega

end Bounds

/-- The codes of a key and of an offset are indexes of the three logs exactly when the key is
not negative, or its value in 64 unsigned bits is a multiple of both sizes. -/
theorem hashCodes_valid_iff (sLog : SeqLog) (tLog : TxLog) (cLog : CheckpointLog)
    (seqPositive : 0 < sLog.size) (seqFew : sLog.size < 2 ^ 31)
    (txPositive : 0 < tLog.size) (txFew : tLog.size < 2 ^ 31) (positive : 0 < cLog.size)
    (key : Int) (int32 : -2 ^ 31 ≤ key) (offset : UInt64) :
    (ValidIndex sLog.size (hashCode sLog key) ∧ ValidIndex tLog.size (txhashCode tLog key) ∧
        ValidIndex cLog.size (checkpointHashcode cLog offset)) ↔
      0 ≤ key ∨ ((sLog.size : Int) ∣ 2 ^ 64 + key ∧ (tLog.size : Int) ∣ 2 ^ 64 + key) := by
  have seqIff := bucketIndex_valid_iff seqPositive seqFew key
  have txIff := bucketIndex_valid_iff txPositive txFew key
  have offsetValid := checkpointHashcode_valid cLog positive offset
  rw [hashCode, txhashCode, seqIff, txIff]
  rcases lt_or_ge key 0 with negative | nonneg
  · have converted : key % 2 ^ 64 = 2 ^ 64 + key := by omega
    have signed : ¬ 0 ≤ key := by omega
    simp only [converted, signed, offsetValid, false_or, and_true]
  · simp only [nonneg, offsetValid, true_or, and_true]

/-- The key `-1` and ten buckets. -/
theorem hashCodes_valid_fails :
    hashCode (SeqLog.empty 10) (-1) = -5 ∧
      ¬ ValidIndex (SeqLog.empty 10).size (hashCode (SeqLog.empty 10) (-1)) := by
  have code : hashCode (SeqLog.empty 10) (-1) = -5 := by decide
  refine ⟨code, ?_⟩
  rw [code, ValidIndex]
  decide

theorem hashCodes_valid_iff_minusOne :
    (ValidIndex (SeqLog.empty 5).size (hashCode (SeqLog.empty 5) (-1)) ∧
        ValidIndex (TxLog.empty 3).size (txhashCode (TxLog.empty 3) (-1)) ∧
        ValidIndex (CheckpointLog.ofEntries []).size
          (checkpointHashcode (CheckpointLog.ofEntries []) 7)) ↔
      (0 : Int) ≤ -1 ∨ (((SeqLog.empty 5).size : Int) ∣ 2 ^ 64 + -1 ∧
        ((TxLog.empty 3).size : Int) ∣ 2 ^ 64 + -1) :=
  hashCodes_valid_iff (SeqLog.empty 5) (TxLog.empty 3) (CheckpointLog.ofEntries []) (by decide)
    (by decide) (by decide) (by decide) (by decide) (-1) (by decide) 7

end Arthas.Reactor.Checkpoint
