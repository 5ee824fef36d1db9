import Mathlib.Algebra.Order.Group.Nat

/-!
# `int / int` in doubles

Python's `a / b` on two `int`s returns the double nearest the exact quotient, ties to
even: CPython's true division of integers is correctly rounded.  For `0 < a` and a
quotient below `2 ^ 53`, that double is `m / 2 ^ k`, where the scale `k` is the least
with `2 ^ 52 * b ≤ a * 2 ^ k` and `m` is `a * 2 ^ k / b` rounded to an integer; a
carry to `m = 2 ^ 53` gives the first double of the next binade, the same value.
A quotient of `0` is `0 / 2 ^ k` for any `k`.  The scan of `scan_for_video` divides a
count by the length of its sample, a quotient at most `1`.

`quotientScale_bounds` places the scaled quotient in `[2 ^ 52, 2 ^ 53)` and
`roundDiv_near` bounds the rounding by half a unit; those two facts are all that the
comparisons built on `trueDiv` use, apart from the tie.
-/

namespace Haywire.Py

/-- The scale `k` of the quotient `a / b`: the least `k`, searched within `fuel`
doublings of `a`, with `2 ^ 52 * b ≤ a * 2 ^ k`. -/
def quotientScale : Nat → Nat → Nat → Nat
  | 0, _, _ => 0
  | fuel + 1, a, b => if 2 ^ 52 * b ≤ a then 0 else quotientScale fuel (2 * a) b + 1

/-- `a / b` rounded to the nearest integer, ties to even. -/
def roundDiv (a b : Nat) : Nat :=
  if b < 2 * (a % b) ∨ (2 * (a % b) = b ∧ a / b % 2 = 1) then a / b + 1 else a / b

/-- `a / b` for `0 < b` and `a < 2 ^ 53 * b`: the double `m / 2 ^ k`, as `(m, k)`. -/
def trueDiv (a b : Nat) : Nat × Nat :=
  (roundDiv (a * 2 ^ quotientScale (b + 53) a b) b, quotientScale (b + 53) a b)

/-- Within enough fuel, the scale puts `a * 2 ^ k` in `[2 ^ 52 * b, 2 ^ 53 * b)`, unless
`a` is already above it (`k = 0`). -/
theorem quotientScale_bounds : ∀ fuel a b, 2 ^ 52 * b ≤ a * 2 ^ fuel →
    2 ^ 52 * b ≤ a * 2 ^ quotientScale fuel a b ∧
      (quotientScale fuel a b = 0 ∨ a * 2 ^ quotientScale fuel a b < 2 ^ 53 * b)
  | 0, a, b, h => ⟨h, .inl rfl⟩
  | fuel + 1, a, b, h => by
    rw [quotientScale]
    split
    · rename_i ha
      exact ⟨by rw [Nat.pow_zero, Nat.mul_one]; exact ha, .inl rfl⟩
    · rename_i ha
      have hdouble : ∀ k, a * 2 ^ (k + 1) = 2 * a * 2 ^ k := fun k => by
        rw [Nat.pow_succ, Nat.mul_comm (2 ^ k) 2, ← Nat.mul_assoc, Nat.mul_comm a 2]
      obtain ⟨h₁, h₂⟩ := quotientScale_bounds fuel (2 * a) b (by rw [← hdouble]; exact h)
      refine ⟨by rw [hdouble]; exact h₁, .inr ?_⟩
      rw [hdouble]
      rcases h₂ with h₂ | h₂
      · rw [h₂]; omega
      · exact h₂

/-- The fuel `trueDiv` gives the scale is enough for every positive `a`. -/
theorem quotientScale_trueDiv {a b : Nat} (ha : 0 < a) :
    2 ^ 52 * b ≤ a * 2 ^ quotientScale (b + 53) a b ∧
      (quotientScale (b + 53) a b = 0 ∨ a * 2 ^ quotientScale (b + 53) a b < 2 ^ 53 * b) := by
  refine quotientScale_bounds _ a b ?_
  have hb : b < 2 ^ b := Nat.lt_two_pow b
  have : 2 ^ (b + 53) = 2 ^ b * 2 ^ 53 := Nat.pow_add 2 b 53
  calc 2 ^ 52 * b ≤ 2 ^ 53 * 2 ^ b := by omega
    _ = 1 * 2 ^ (b + 53) := by rw [this, Nat.one_mul, Nat.mul_comm]
    _ ≤ a * 2 ^ (b + 53) := Nat.mul_le_mul_right _ ha

/-- A quotient at most `1` is scaled by at least `2 ^ 52`, into `[2 ^ 52, 2 ^ 53)`. -/
theorem quotientScale_of_le {a b : Nat} (ha : 0 < a) (hab : a ≤ b) :
    2 ^ 52 ≤ 2 ^ quotientScale (b + 53) a b ∧ 2 ^ 52 * b ≤ a * 2 ^ quotientScale (b + 53) a b ∧
      a * 2 ^ quotientScale (b + 53) a b < 2 ^ 53 * b := by
  obtain ⟨hlo, hhi⟩ := quotientScale_trueDiv (b := b) ha
  have hb : 0 < b := Nat.lt_of_lt_of_le ha hab
  have hT : 2 ^ 52 ≤ 2 ^ quotientScale (b + 53) a b :=
    Nat.le_of_mul_le_mul_left (calc
      b * 2 ^ 52 = 2 ^ 52 * b := Nat.mul_comm _ _
      _ ≤ a * 2 ^ quotientScale (b + 53) a b := hlo
      _ ≤ b * 2 ^ quotientScale (b + 53) a b := Nat.mul_le_mul_right _ hab) hb
  refine ⟨hT, hlo, hhi.resolve_left fun h => ?_⟩
  rw [h] at hT
  exact absurd hT (by decide)

/-- `roundDiv a b` is within half a unit of `a / b`. -/
theorem roundDiv_near (a : Nat) {b : Nat} (hb : 0 < b) :
    2 * a ≤ 2 * (roundDiv a b * b) + b ∧ 2 * (roundDiv a b * b) ≤ 2 * a + b := by
  have hdm := Nat.div_add_mod a b
  have hr := Nat.mod_lt a hb
  unfold roundDiv
  generalize a / b = q at hdm ⊢
  generalize a % b = r at hdm hr ⊢
  rw [Nat.mul_comm] at hdm
  split
  · rw [Nat.add_mul, Nat.one_mul]; omega
  · omega

end Haywire.Py
