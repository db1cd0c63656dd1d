import Wordcode.Digits
import Wordcode.Kind

/-!
# Machine words and typed values

A machine word has 64 bits. At a kind only the low bits count: `Kind.truncate` keeps them,
`Kind.normalize` extends them back to a full word by the kind's signedness, and `Kind.integer`
is the integer they stand for. A `Value` is an integer in the range of its kind.
-/

namespace Wordcode

abbrev Word := UInt64

namespace Kind

def truncate (k : Kind) (w : Word) : Word := UInt64.ofNat (w.toNat % 2 ^ k.bits)

/-- The low bits of a word extended back to 64 bits, by the top one of them for a signed kind and
by zeros for an unsigned one. -/
def normalize (k : Kind) (w : Word) : Word :=
  let low := k.truncate w
  if k.signed ∧ 2 ^ (k.bits - 1) ≤ low.toNat then low - UInt64.ofNat (2 ^ k.bits) else low

/-- The integer that the low bits of a word stand for, in two's complement for a signed kind. -/
def integer (k : Kind) (w : Word) : Int :=
  let low : Nat := w.toNat % 2 ^ k.bits
  if k.signed ∧ 2 ^ (k.bits - 1) ≤ low then (low : Int) - 2 ^ k.bits else low

def lower (k : Kind) : Int := if k.signed then -2 ^ (k.bits - 1) else 0

/-- The bound that every integer of the kind stays below. -/
def upper (k : Kind) : Int := if k.signed then 2 ^ (k.bits - 1) else 2 ^ k.bits

def InRange (k : Kind) (n : Int) : Prop := k.lower ≤ n ∧ n < k.upper

instance (k : Kind) (n : Int) : Decidable (k.InRange n) :=
  inferInstanceAs (Decidable (_ ∧ _))

theorem toNat_truncate (k : Kind) (w : Word) : (k.truncate w).toNat = w.toNat % 2 ^ k.bits := by
  have bound : (2 : Nat) ^ k.bits ≤ 2 ^ 64 := Nat.pow_le_pow_right (by decide) k.width.bits_le
  have positive : 0 < 2 ^ k.bits := Nat.two_pow_pos _
  have small : w.toNat % 2 ^ k.bits < 2 ^ k.bits := Nat.mod_lt _ positive
  rw [truncate, UInt64.toNat_ofNat']
  exact Nat.mod_eq_of_lt (by omega)

theorem two_pow_bits (k : Kind) : 2 ^ k.bits = 2 * 2 ^ (k.bits - 1) := by
  have positive := k.width.bytes_pos
  rw [← Nat.pow_succ', show (k.bits - 1).succ = k.bits by unfold bits Width.bits; omega]

theorem inRange_integer (k : Kind) (w : Word) : k.InRange (k.integer w) := by
  have small : w.toNat % 2 ^ k.bits < 2 ^ k.bits := Nat.mod_lt _ (Nat.two_pow_pos _)
  have double := k.two_pow_bits
  have whole : (2 : Int) ^ k.bits = ((2 ^ k.bits : Nat) : Int) := by simp
  have half : (2 : Int) ^ (k.bits - 1) = ((2 ^ (k.bits - 1) : Nat) : Int) := by simp
  unfold InRange integer lower upper
  rw [whole, half]
  generalize w.toNat % 2 ^ k.bits = low at small ⊢
  generalize 2 ^ k.bits = modulus at small double ⊢
  generalize 2 ^ (k.bits - 1) = top at double ⊢
  cases k.signed
  · simp only [Bool.false_eq_true, false_and, if_false]
    omega
  · simp only [true_and, if_true]; split <;> omega

end Kind

namespace Word

def signed (w : Word) : Int := Kind.i64.integer w

end Word

@[ext] structure Value where
  kind : Kind
  number : Int
  inRange : kind.InRange number
  deriving DecidableEq

namespace Value

def ofWord (k : Kind) (w : Word) : Value := ⟨k, k.integer w, k.inRange_integer w⟩

def ofInt? (k : Kind) (n : Int) : Option Value :=
  if h : k.InRange n then some ⟨k, n, h⟩ else none

/-- The full word that holds the value on the stack. -/
def word (v : Value) : Word := UInt64.ofInt v.number

/-- The value's two's-complement bits at its own width. -/
def bits (v : Value) : Word := v.kind.truncate v.word

def text (v : Value) : String := String.ofList (Digits.signed v.number)

@[simp] theorem kind_ofWord (k : Kind) (w : Word) : (ofWord k w).kind = k := rfl

@[simp] theorem number_ofWord (k : Kind) (w : Word) : (ofWord k w).number = k.integer w := rfl

end Value

end Wordcode
