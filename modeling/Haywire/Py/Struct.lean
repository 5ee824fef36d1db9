import Mathlib.Algebra.Group.Nat.Basic
import Haywire.Py.Builtins

/-!
# Slices and `struct`

The ELF decoder reads fixed-width little-endian fields with
`struct.unpack('<H' | '<I' | '<Q', data[a:b])[0]`.  `unpack` raises `struct.error`
unless the slice has exactly the width of the format, and a slice past the end of
the buffer is silently shorter, so the width check is where a short buffer shows.

`packLE w v` is `struct.pack` for the same formats, used to state what a
well-formed image holds; `leValue_packLE` is the round trip below `256 ^ w`.
-/

namespace Haywire.Py

/-- `data[a:b]` for `0 ≤ a ≤ b`: clamped at the end of `data`. -/
def getSlice {α : Type} (data : List α) (a b : Nat) : List α := (data.drop a).take (b - a)

/-- The number with the given little-endian bytes. -/
def leValue : List UInt8 → Nat
  | [] => 0
  | b :: bs => b.toNat + 256 * leValue bs

/-- `struct.unpack('<' + fmt, b)[0]` for an unsigned format of `w` bytes. -/
def unpackLE (w : Nat) (b : List UInt8) : Except PyError Nat :=
  if b.length = w then .ok (leValue b) else .error .structError

/-- `struct.pack('<' + fmt, v)` for an unsigned format of `w` bytes. -/
def packLE : Nat → Nat → List UInt8
  | 0, _ => []
  | w + 1, v => UInt8.ofNat (v % 256) :: packLE w (v / 256)

@[simp] theorem length_packLE (w v : Nat) : (packLE w v).length = w := by
  induction w generalizing v with
  | zero => rfl
  | succ w ih => simp [packLE, ih]

theorem leValue_packLE {w v : Nat} (h : v < 256 ^ w) : leValue (packLE w v) = v := by
  induction w generalizing v with
  | zero => simp at h; simp [packLE, leValue, h]
  | succ w ih =>
    have hlt : v / 256 < 256 ^ w := by
      rw [Nat.div_lt_iff_lt_mul (by decide)]; rwa [Nat.pow_succ] at h
    have hb : (UInt8.ofNat (v % 256)).toNat = v % 256 :=
      UInt8.toNat_ofNat_of_lt (Nat.mod_lt _ (by decide))
    simp only [packLE, leValue, hb, ih hlt]
    omega

theorem unpackLE_of_length {w : Nat} {b : List UInt8} (h : b.length = w) :
    unpackLE w b = .ok (leValue b) := by
  simp [unpackLE, h]

/-! ## Slices -/

@[simp] theorem length_getSlice {α : Type} (data : List α) (a b : Nat) :
    (getSlice data a b).length = min (b - a) (data.length - a) := by
  simp [getSlice]

/-- A slice inside a slice. -/
theorem getSlice_getSlice {α : Type} (data : List α) (i a b : Nat) (hab : a ≤ b) (hb : b ≤ 56) :
    getSlice (getSlice data i (i + 56)) a b = getSlice data (i + a) (i + b) := by
  simp only [getSlice, Nat.add_sub_cancel_left, List.drop_take, List.drop_drop, List.take_take]
  rw [inf_of_le_left (by omega : b - a ≤ 56 - a)]
  congr 1
  omega

end Haywire.Py
