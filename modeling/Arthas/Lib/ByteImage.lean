import Mathlib
import Arthas.Lib.Journal

/-!
Byte images addressed by 64-bit offsets: a run of bytes laid down at an offset, a
run read back, and the places such a run covers. Offsets wrap like the machine's,
so moving an image and an offset by the same amount changes nothing.
-/

set_option autoImplicit false
set_option relaxedAutoImplicit false

namespace Arthas.Lib.ByteImage

abbrev Image := UInt64 → UInt8

/-- The place `a` lies among the `n` bytes from `off` on. -/
def covers (off : UInt64) (n : Nat) (a : UInt64) : Bool := decide ((a - off).toNat < n)

/-- The byte that `bytes`, laid down at `off`, puts at `a`. -/
def window (off : UInt64) (bytes : List UInt8) (a : UInt64) : Option UInt8 :=
  bytes[(a - off).toNat]?

def blit (img : Image) (off : UInt64) (bytes : List UInt8) : Image :=
  fun a => (window off bytes a).getD (img a)

def slice (img : Image) (off : UInt64) (n : Nat) : List UInt8 :=
  (List.range n).map fun i => img (off + UInt64.ofNat i)

@[simp] theorem length_slice (img : Image) (off : UInt64) (n : Nat) :
    (slice img off n).length = n := by
  simp [slice]

theorem window_isSome_iff (off : UInt64) (bytes : List UInt8) (a : UInt64) :
    (window off bytes a).isSome ↔ covers off bytes.length a := by
  simp [window, covers]

theorem covers_mono {off a : UInt64} {m n : Nat} (h : m ≤ n) (hc : covers off m a) :
    covers off n a := by
  simp only [covers, decide_eq_true_eq] at hc ⊢
  exact Nat.lt_of_lt_of_le hc h

/-- An offset counted from a base is recovered from the address it stands for. -/
theorem base_add_sub (base off : UInt64) : (base + off) - base = off := by
  rw [UInt64.add_comm, UInt64.add_sub_cancel]

theorem add_offset_toNat (off a : UInt64) : off + UInt64.ofNat (a - off).toNat = a := by
  rw [UInt64.ofNat_toNat, UInt64.add_comm, UInt64.sub_add_cancel]

theorem window_slice (img : Image) (off : UInt64) (n : Nat) (a : UInt64) :
    window off (slice img off n) a = if covers off n a then some (img a) else none := by
  by_cases h : (a - off).toNat < n
  · simp [window, slice, covers, h, -UInt64.ofNat_toNat, add_offset_toNat]
  · simp [window, slice, covers, h]

/-- Laying a run back where it was read restores exactly the places it covers. -/
theorem blit_slice (img m : Image) (off : UInt64) (n : Nat) :
    blit m off (slice img off n) = fun a => if covers off n a then img a else m a := by
  funext a
  simp only [blit, window_slice]
  split <;> rfl

/-- A run of fewer than `2^64` bytes is read back when each place it covers has its byte. -/
theorem slice_eq_of_window {img : Image} {off : UInt64} {bytes : List UInt8}
    (hlen : bytes.length < 2 ^ 64)
    (h : ∀ a, ∀ v, window off bytes a = some v → img a = v) :
    slice img off bytes.length = bytes := by
  apply List.ext_getElem (length_slice img off _)
  intro i hi hi'
  have hsub : (off + UInt64.ofNat i - off).toNat = i := by
    rw [base_add_sub, UInt64.toNat_ofNat_of_lt' (Nat.lt_trans hi' hlen)]
  have hw : window off bytes (off + UInt64.ofNat i) = some bytes[i] := by
    rw [window, hsub, List.getElem?_eq_getElem hi']
  simpa [slice] using h _ _ hw

/-- The journal step of a run of bytes that saves the `n` bytes from its own offset. -/
def overwrite (off : UInt64) (n : Nat) (bytes : List UInt8) : Journal.Step UInt64 UInt8 :=
  ⟨covers off n, window off bytes⟩

@[simp] theorem overwrite_apply (off : UInt64) (n : Nat) (bytes : List UInt8) (m : Image) :
    (overwrite off n bytes).apply m = blit m off bytes := rfl

theorem overwrite_restore (off : UInt64) (n : Nat) (bytes : List UInt8) (snapshot m : Image) :
    (overwrite off n bytes).restore snapshot m = blit m off (slice snapshot off n) :=
  (blit_slice snapshot m off n).symm

theorem overwrite_covered {off : UInt64} {n : Nat} {bytes : List UInt8}
    (h : bytes.length ≤ n) : (overwrite off n bytes).Covered := by
  intro a ha
  exact covers_mono h ((window_isSome_iff off bytes a).mp ha)

end Arthas.Lib.ByteImage
