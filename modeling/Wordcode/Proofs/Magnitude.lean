import Wordcode.Json.Numeral

/-!
# Integers of 64 bits are finite numbers

A text may only hold numbers that are finite as doubles. Rounding gives a finite double for every
numerator of at most a thousand bits (`round_finite`), so that the numeral of an integer of 64 bits
is always within the range (`isFinite_ofInt`).
-/

namespace Wordcode

namespace Binary

theorem log2_bounds (num den : Nat) :
    (num.log2 : Int) - den.log2 - 1 ≤ log2 num den ∧
      log2 num den ≤ (num.log2 : Int) - den.log2 := by
  unfold log2
  dsimp only
  split <;> omega

theorem roundDiv_le (num den : Nat) : roundDiv num den ≤ num + 1 := by
  have quotient := Nat.div_le_self num den
  unfold roundDiv
  dsimp only
  split
  · omega
  · split <;> omega

/-- A numerator that is not huge rounds to a finite double, whose exponent and significand stay
near the size of the numerator. -/
theorem round_finite {num : Nat} (den : Nat) (negative : Bool) (small : num.log2 ≤ 1000) :
    ∃ m e, Format.double.round negative num den = .finite negative m e ∧
      e ≤ num.log2 ∧ m ≤ num * 2 ^ (53 + den.log2) + 1 := by
  unfold Format.round
  split
  · next zero =>
    refine ⟨0, _, rfl, ?_, by omega⟩
    simp only [Format.double]
    omega
  · obtain ⟨least, most⟩ := log2_bounds num den
    have scaled : ∀ exponent : Int, log2 num den - 52 ≤ exponent →
        roundDiv (scale 2 num den (-exponent)).1 (scale 2 num den (-exponent)).2 ≤
          num * 2 ^ (53 + den.log2) + 1 := by
      intro exponent bound
      refine Nat.le_trans (roundDiv_le _ _) (Nat.succ_le_succ ?_)
      unfold scale
      split
      · exact Nat.mul_le_mul_left _ (Nat.pow_le_pow_right (by decide) (by omega))
      · exact Nat.le_mul_of_pos_right _ (Nat.two_pow_pos _)
    have precision : Format.double.precision = 53 := rfl
    have lowest : Format.double.minExponent = -1074 := rfl
    have highest : Format.double.maxExponent = 971 := rfl
    dsimp only
    generalize same : max (log2 num den - (Format.double.precision - 1)) Format.double.minExponent =
      exponent
    have bounded := scaled exponent (by omega)
    generalize roundDiv _ _ = m at bounded ⊢
    by_cases carry : m = 2 ^ Format.double.precision
    · rw [if_pos carry, if_neg (by omega)]
      exact ⟨m / 2, exponent + 1, rfl, by omega, by omega⟩
    · rw [if_neg carry, if_neg (by omega)]
      exact ⟨m, exponent, rfl, by omega, bounded⟩

end Binary

namespace Json.Numeral

theorem le_ofDigitChars (ds : List Char) (n : Nat) : n ≤ Nat.ofDigitChars 10 ds n := by
  induction ds generalizing n with
  | nil => exact Nat.le_of_eq Nat.ofDigitChars_nil.symm
  | cons d ds ih =>
    rw [Nat.ofDigitChars_cons]
    have more := ih (10 * n + (d.toNat - '0'.toNat))
    omega

theorem accumulate_eq {ds : List Char} {n : Nat}
    (small : Nat.ofDigitChars 10 ds n < 2 ^ (64 : Nat)) :
    accumulate n ds = (Nat.ofDigitChars 10 ds n, []) := by
  induction ds generalizing n with
  | nil => rw [accumulate, Nat.ofDigitChars_nil]
  | cons d ds ih =>
    have same : n * 10 + (d.toNat - 48) = 10 * n + (d.toNat - '0'.toNat) := by
      rw [Nat.mul_comm]
      rfl
    rw [Nat.ofDigitChars_cons, ← same] at small ⊢
    have smaller := le_ofDigitChars ds (n * 10 + (d.toNat - 48))
    rw [accumulate, if_pos (by omega), ih small]

theorem parts_ofInt {n : Int} (small : n.natAbs < 2 ^ (64 : Nat)) :
    (ofInt n).parts = (n.natAbs, 0) := by
  have value : Nat.ofDigitChars 10 (Digits.decimal n.natAbs) 0 = n.natAbs := Digits.value_decimal _
  have whole := accumulate_eq (value.symm ▸ small)
  rw [value] at whole
  simp only [parts, ofInt, whole]
  rfl

theorem power_zero : power 0 = .finite false (2 ^ (52 : Nat)) (-52) := by decide +kernel

theorem log2_le_of_lt {n k : Nat} (small : n < 2 ^ (k + 1)) : n.log2 ≤ k := by
  rcases Nat.eq_zero_or_pos n with rfl | positive
  · exact Nat.zero_le k
  · have below := (Nat.log2_lt (by omega)).mpr small
    omega

theorem isFinite_ofInt {n : Int} (small : n.natAbs < 2 ^ (64 : Nat)) : (ofInt n).isFinite := by
  have bits : n.natAbs.log2 ≤ 63 := log2_le_of_lt small
  obtain ⟨m, e, rounded, exponent, significand⟩ :=
    Binary.round_finite 1 (ofInt n).negative (Nat.le_trans bits (by decide : 63 ≤ 1000))
  -- The product with one is rounded once more; its numerator has less than two hundred bits.
  have large : m * 2 ^ 52 * 2 ^ (e + -52).toNat < 2 ^ 200 := by
    have shift : 2 ^ (e + -52).toNat ≤ 2 ^ 11 := Nat.pow_le_pow_right (by decide) (by omega)
    have one : Nat.log2 1 = 0 := by decide
    rw [one] at significand
    have factor := Nat.mul_le_mul_left (m * 2 ^ 52) shift
    omega
  have first : (Binary.scale 2 (m * 2 ^ 52) 1 (e + -52)).1 < 2 ^ 200 := by
    unfold Binary.scale
    split
    · exact large
    · have positive := Nat.le_mul_of_pos_right (m * 2 ^ 52) (Nat.two_pow_pos (e + -52).toNat)
      exact Nat.lt_of_le_of_lt positive large
  obtain ⟨m', e', product, _⟩ := Binary.round_finite
    (Binary.scale 2 (m * 2 ^ 52) 1 (e + -52)).2 ((ofInt n).negative != false)
    (Nat.le_trans (log2_le_of_lt first) (by decide : 199 ≤ 1000))
  rw [isFinite, double?, parts_ofInt small]
  simp only [rounded, Int.le_refl, if_true, scaleUp, Int.toNat_zero, power_zero, Binary.Number.mul]
  rw [product]
  rfl

end Json.Numeral

end Wordcode
