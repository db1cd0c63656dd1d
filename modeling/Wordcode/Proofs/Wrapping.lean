import Mathlib.Data.Int.ModEq
import Wordcode.Instruction

/-!
# Words and the integers they stand for

`Kind.wrap` takes any integer to the one of a kind that is congruent to it. A word read at a kind
is the wrapped integer it was made from, and `apply_eq_result` shows that every operation of the
machine is the operation on integers, wrapped.
-/

namespace Wordcode

namespace Word

theorem toNat_ofInt (n : Int) : ((UInt64.ofInt n).toNat : Int) = n % 2 ^ 64 := by
  have := Int.emod_nonneg n (show (2 : Int) ^ 64 ≠ 0 by decide)
  have := Int.emod_lt_of_pos n (show (0 : Int) < 2 ^ 64 by decide)
  rw [UInt64.ofInt, UInt64.toNat_ofNat']
  omega

theorem ofInt_natCast (n : Nat) : UInt64.ofInt n = UInt64.ofNat n := by
  apply UInt64.toNat_inj.mp
  have cast := toNat_ofInt n
  rw [UInt64.toNat_ofNat']
  omega

theorem ofInt_toNat (w : Word) : UInt64.ofInt w.toNat = w := by
  rw [ofInt_natCast, UInt64.ofNat_toNat]

theorem ofInt_sub (m n : Int) : UInt64.ofInt (m - n) = UInt64.ofInt m - UInt64.ofInt n := by
  rw [Int.sub_eq_add_neg, UInt64.ofInt_add, UInt64.ofInt_neg, UInt64.sub_eq_add_neg]

theorem toInt_toInt64 (w : Word) : w.toInt64.toInt = Kind.i64.integer w := by
  have small := w.toNat_lt
  have whole : w.toNat % 2 ^ 64 = w.toNat := Nat.mod_eq_of_lt small
  rw [Int64.toInt, UInt64.toBitVec_toInt64, BitVec.toInt_eq_toNat_cond, UInt64.toNat_toBitVec]
  simp only [Kind.integer, show Kind.i64.bits = 64 from rfl, show Kind.i64.signed = true from rfl,
    whole, true_and]
  split <;> split <;> omega

theorem ofInt_toInt (x : Int64) : UInt64.ofInt x.toInt = x.toUInt64 := by
  have small := x.toUInt64.toNat_lt
  have cast := toNat_ofInt x.toInt
  have cond := BitVec.toInt_eq_toNat_cond x.toBitVec
  apply UInt64.toNat_inj.mp
  change x.toInt = _ at cond
  change x.toUInt64.toNat < _ at small
  rw [show x.toBitVec.toNat = x.toUInt64.toNat from rfl] at cond
  split at cond <;> omega

end Word

namespace Kind

/-- An integer reduced modulo `2 ^ bits` and read with the signedness of the kind. -/
def wrap (k : Kind) (n : Int) : Int :=
  let low := n % 2 ^ k.bits
  if k.signed ∧ 2 ^ (k.bits - 1) ≤ low then low - 2 ^ k.bits else low

theorem two_pow_pos (k : Kind) : (0 : Int) < 2 ^ k.bits := Int.pow_pos (by decide)

theorem two_pow_eq_double (k : Kind) : (2 : Int) ^ k.bits = 2 * 2 ^ (k.bits - 1) := by
  exact_mod_cast k.two_pow_bits

theorem two_pow_dvd (k : Kind) : (2 : Int) ^ k.bits ∣ 2 ^ 64 := pow_dvd_pow 2 k.width.bits_le

/-- The integers of a kind are as many as its words. -/
theorem upper_eq (k : Kind) : k.upper = k.lower + 2 ^ k.bits := by
  have double := k.two_pow_eq_double
  unfold upper lower
  split <;> omega

/-- No two integers of a kind are congruent. -/
theorem eq_of_modEq {k : Kind} {m n : Int} (congruent : m ≡ n [ZMOD 2 ^ k.bits])
    (left : k.InRange m) (right : k.InRange n) : m = n := by
  have width := k.upper_eq
  have close : |n - m| < 2 ^ k.bits := by
    unfold InRange at left right
    rw [abs_lt]
    omega
  have zero := Int.eq_zero_of_abs_lt_dvd congruent.dvd close
  omega

theorem wrap_modEq (k : Kind) (n : Int) : k.wrap n ≡ n [ZMOD 2 ^ k.bits] := by
  unfold wrap
  dsimp only
  split
  · exact (Int.modEq_sub_modulus_iff.mpr (Int.mod_modEq n _).symm).symm
  · exact Int.mod_modEq n _

theorem wrap_congr {k : Kind} {m n : Int} (congruent : m ≡ n [ZMOD 2 ^ k.bits]) :
    k.wrap m = k.wrap n := by
  have same : m % 2 ^ k.bits = n % 2 ^ k.bits := congruent
  simp only [wrap, same]

theorem inRange_wrap (k : Kind) (n : Int) : k.InRange (k.wrap n) := by
  have low := Int.emod_nonneg n (Int.ne_of_gt k.two_pow_pos)
  have high := Int.emod_lt_of_pos n k.two_pow_pos
  have double := k.two_pow_eq_double
  unfold InRange wrap lower upper
  generalize n % 2 ^ k.bits = residue at low high ⊢
  cases k.signed
  · simp only [Bool.false_eq_true, false_and, if_false]
    omega
  · simp only [true_and, if_true]
    split <;> omega

/-- An integer of the kind is left alone. -/
theorem wrap_of_inRange {k : Kind} {n : Int} (inside : k.InRange n) : k.wrap n = n :=
  eq_of_modEq (k.wrap_modEq n) (k.inRange_wrap n) inside

theorem integer_eq_wrap (k : Kind) (w : Word) : k.integer w = k.wrap w.toNat := by
  have residue : ((w.toNat % 2 ^ k.bits : Nat) : Int) = (w.toNat : Int) % 2 ^ k.bits := by simp
  have half : (2 ^ (k.bits - 1) ≤ w.toNat % 2 ^ k.bits) ↔
      (2 : Int) ^ (k.bits - 1) ≤ (w.toNat : Int) % 2 ^ k.bits := by
    rw [← residue]
    exact_mod_cast Iff.rfl
  simp only [integer, wrap, residue, half]

theorem integer_modEq (k : Kind) (w : Word) : w.toNat ≡ k.integer w [ZMOD 2 ^ k.bits] := by
  rw [integer_eq_wrap]
  exact (k.wrap_modEq _).symm

theorem toNat_ofInt_modEq (k : Kind) (n : Int) :
    ((UInt64.ofInt n).toNat : Int) ≡ n [ZMOD 2 ^ k.bits] := by
  rw [Word.toNat_ofInt]
  exact (Int.mod_modEq n _).of_dvd k.two_pow_dvd

/-- A word made from an integer reads as that integer, wrapped. -/
@[simp] theorem integer_ofInt (k : Kind) (n : Int) : k.integer (UInt64.ofInt n) = k.wrap n := by
  rw [integer_eq_wrap]
  exact wrap_congr (k.toNat_ofInt_modEq n)

/-- The normal form of a word is the word of the integer it stands for. -/
theorem normalize_eq_ofInt (k : Kind) (w : Word) : k.normalize w = UInt64.ofInt (k.integer w) := by
  have low : k.truncate w = UInt64.ofInt (w.toNat % 2 ^ k.bits : Nat) := by
    rw [Word.ofInt_natCast, ← toNat_truncate, UInt64.ofNat_toNat]
  have modulus : UInt64.ofNat (2 ^ k.bits) = UInt64.ofInt (2 ^ k.bits) := by
    rw [← Word.ofInt_natCast, Nat.cast_pow, Nat.cast_ofNat]
  unfold normalize integer
  simp only [toNat_truncate]
  split
  · rw [low, modulus, Word.ofInt_sub]
  · exact low

/-- An integer of the kind reads back from its word. -/
theorem integer_ofInt_of_inRange {k : Kind} {n : Int} (inside : k.InRange n) :
    k.integer (UInt64.ofInt n) = n := by
  rw [integer_ofInt, wrap_of_inRange inside]

theorem normalize_ofInt {k : Kind} {n : Int} (inside : k.InRange n) :
    k.normalize (UInt64.ofInt n) = UInt64.ofInt n := by
  rw [normalize_eq_ofInt, integer_ofInt_of_inRange inside]

/-- The bits of a kind are all zero exactly when the word stands for zero. -/
theorem truncate_eq_zero_iff (k : Kind) (w : Word) : k.truncate w = 0 ↔ k.integer w = 0 := by
  have small := Nat.mod_lt w.toNat (Nat.two_pow_pos k.bits)
  have modulus : (2 : Int) ^ k.bits = ((2 ^ k.bits : Nat) : Int) := by simp
  have half := Nat.two_pow_pos (k.bits - 1)
  rw [← UInt64.toNat_inj, toNat_truncate, UInt64.toNat_zero]
  unfold integer
  dsimp only
  split <;> omega

/-- At 64 bits with a sign a word keeps every integer of a signed kind. -/
theorem toInt_normalize {k : Kind} (signed : k.signed = true) (w : Word) :
    (k.normalize w).toInt64.toInt = k.integer w := by
  have inside := k.inRange_integer w
  have bound : (2 : Int) ^ (k.bits - 1) ≤ 2 ^ 63 := by
    have short : k.bits ≤ 64 := k.width.bits_le
    exact_mod_cast Nat.pow_le_pow_right (n := 2) (by decide) (show k.bits - 1 ≤ 63 by omega)
  rw [normalize_eq_ofInt, Word.toInt_toInt64, integer_ofInt]
  apply wrap_of_inRange
  simp only [InRange, lower, upper, signed, if_true] at inside
  simp only [InRange, lower, upper, i64, if_true, show bits ⟨.w64, true⟩ - 1 = 63 from rfl]
  omega

theorem integer_add (k : Kind) (lhs rhs : Word) :
    k.integer (lhs + rhs) = k.wrap (k.integer lhs + k.integer rhs) := by
  have sum : lhs + rhs = UInt64.ofInt (lhs.toNat + rhs.toNat) := by
    rw [UInt64.ofInt_add, Word.ofInt_toNat, Word.ofInt_toNat]
  rw [sum, integer_ofInt]
  exact wrap_congr ((k.integer_modEq lhs).add (k.integer_modEq rhs))

theorem integer_sub (k : Kind) (lhs rhs : Word) :
    k.integer (lhs - rhs) = k.wrap (k.integer lhs - k.integer rhs) := by
  have difference : lhs - rhs = UInt64.ofInt (lhs.toNat - rhs.toNat) := by
    rw [Word.ofInt_sub, Word.ofInt_toNat, Word.ofInt_toNat]
  rw [difference, integer_ofInt]
  exact wrap_congr ((k.integer_modEq lhs).sub (k.integer_modEq rhs))

theorem integer_mul (k : Kind) (lhs rhs : Word) :
    k.integer (lhs * rhs) = k.wrap (k.integer lhs * k.integer rhs) := by
  have product : lhs * rhs = UInt64.ofInt (lhs.toNat * rhs.toNat) := by
    rw [UInt64.ofInt_mul, Word.ofInt_toNat, Word.ofInt_toNat]
  rw [product, integer_ofInt]
  exact wrap_congr ((k.integer_modEq lhs).mul (k.integer_modEq rhs))

theorem integer_quotient (k : Kind) (lhs rhs : Word) :
    k.integer (k.quotient lhs rhs) = k.wrap ((k.integer lhs).tdiv (k.integer rhs)) := by
  unfold quotient
  split
  case isTrue signed =>
    rw [← Word.ofInt_toInt, integer_ofInt, Int64.toInt_div, toInt_normalize signed,
      toInt_normalize signed]
    exact wrap_congr ((Int.ModEq.of_dvd k.two_pow_dvd (Int.bmod_emod ..)))
  case isFalse unsigned =>
    have read : ∀ w, k.integer w = ((k.truncate w).toNat : Int) := by
      intro w
      rw [toNat_truncate]
      simp [integer, unsigned]
    rw [integer_eq_wrap, UInt64.toNat_div, read lhs, read rhs]
    rfl

end Kind

namespace ArithOp

/-- The operation on integers. Division truncates toward zero and has no result for a divisor of
zero. -/
def result? : ArithOp → Int → Int → Option Int
  | add, a, b => some (a + b)
  | sub, a, b => some (a - b)
  | mul, a, b => some (a * b)
  | div, a, b => if b = 0 then none else some (a.tdiv b)

/-- An operation of the machine is the operation on the integers that the operands stand for at
its kind, and leaves the word of the wrapped result. -/
theorem apply_eq_result (op : ArithOp) (k : Kind) (lhs rhs : Word) :
    op.apply k lhs rhs =
      (op.result? (k.integer lhs) (k.integer rhs)).map fun n => UInt64.ofInt (k.wrap n) := by
  cases op with
  | add => rw [apply, k.normalize_eq_ofInt, k.integer_add, result?, Option.map_some]
  | sub => rw [apply, k.normalize_eq_ofInt, k.integer_sub, result?, Option.map_some]
  | mul => rw [apply, k.normalize_eq_ofInt, k.integer_mul, result?, Option.map_some]
  | div =>
    simp only [apply, result?, k.truncate_eq_zero_iff]
    split
    · rfl
    · rw [k.normalize_eq_ofInt, k.integer_quotient, Option.map_some]

end ArithOp

/-- The immediate of a push is the residue of the integer that it stands for. -/
theorem Instruction.integer_emod {i : Instruction} {k : Kind} (pushes : i.opcode = .push k) :
    k.integer (UInt64.ofNat i.immediate) % 2 ^ k.bits = i.immediate := by
  have fits := i.fits
  rw [pushes] at fits
  -- The immediate is below the modulus of its kind, so no bits are lost in the word.
  have modulus : (256 : Nat) ^ (Opcode.push k).operandLen = 2 ^ k.bits := (Nat.pow_mul 2 8 _).symm
  have bound : (2 : Nat) ^ k.bits ≤ 2 ^ 64 := Nat.pow_le_pow_right (by decide) k.width.bits_le
  have whole : (UInt64.ofNat i.immediate).toNat = i.immediate := by
    rw [UInt64.toNat_ofNat']
    exact Nat.mod_eq_of_lt (by omega)
  rw [← k.integer_modEq, whole]
  exact Int.emod_eq_of_lt (by omega) (by exact_mod_cast modulus ▸ fits)

end Wordcode
