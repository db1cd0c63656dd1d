import Wordcode.Proofs.Operands
import Wordcode.Proofs.Results

/-!
# Views of a word

At a kind a word can be given by its low bits, by its normal form, by the value that is read from
it, or by the operand bytes of a push. None of these shows more or less than the integer that the
word stands for: low bits and normal form are words of it (`truncate_eq_ofInt`), and keep it
(`integer_truncate`, `integer_normalize`). So any view can be had from any other.
-/

namespace Wordcode

namespace Kind

/-- The low bits of a word are the least natural number congruent to the integer it stands for. -/
theorem truncate_eq_ofInt (k : Kind) (w : Word) :
    k.truncate w = UInt64.ofInt (k.integer w % 2 ^ k.bits) := by
  have residue : k.integer w % 2 ^ k.bits = (w.toNat % 2 ^ k.bits : Nat) := by
    rw [← k.integer_modEq w]
    simp
  rw [residue, Word.ofInt_natCast, truncate]

theorem toNat_truncate_lt (k : Kind) (w : Word) : (k.truncate w).toNat < 2 ^ k.bits := by
  rw [toNat_truncate]
  exact Nat.mod_lt _ (Nat.two_pow_pos _)

theorem truncate_truncate (k : Kind) (w : Word) : k.truncate (k.truncate w) = k.truncate w := by
  apply UInt64.toNat_inj.mp
  rw [toNat_truncate, Nat.mod_eq_of_lt (k.toNat_truncate_lt w)]

theorem integer_truncate (k : Kind) (w : Word) : k.integer (k.truncate w) = k.integer w :=
  integer_congr (k.truncate_truncate w)

theorem integer_normalize (k : Kind) (w : Word) : k.integer (k.normalize w) = k.integer w := by
  rw [normalize_eq_ofInt, integer_ofInt_of_inRange (k.inRange_integer w)]

theorem normalize_truncate (k : Kind) (w : Word) :
    k.normalize (k.truncate w) = k.normalize w := by
  rw [normalize_eq_ofInt, integer_truncate, ← normalize_eq_ofInt]

theorem truncate_normalize (k : Kind) (w : Word) :
    k.truncate (k.normalize w) = k.truncate w := by
  rw [truncate_eq_ofInt, integer_normalize, ← truncate_eq_ofInt]

end Kind

namespace Value

theorem ofWord_word (v : Value) : ofWord v.kind v.word = v :=
  Value.ext rfl (Kind.integer_ofInt_of_inRange v.inRange)

/-- The bits of a value at its own width stand for its number. -/
theorem integer_bits (v : Value) : v.kind.integer v.bits = v.number := by
  rw [bits, Kind.integer_truncate]
  exact Kind.integer_ofInt_of_inRange v.inRange

end Value

/-! ### Operand bytes -/

namespace BigEndian

/-- The word with a byte shifted in from the right. -/
def shiftIn (acc : Word) (b : UInt8) : Word := acc <<< 8 ||| b.toUInt64

/-- The word that bytes are shifted into one after another. -/
def fold (bs : List UInt8) : Word := bs.foldl shiftIn 0

theorem toNat_shiftIn (acc : Word) (b : UInt8) :
    (shiftIn acc b).toNat = (acc.toNat * 256 + b.toNat) % 2 ^ 64 := by
  have digit : b.toNat < 2 ^ 8 := b.toNat_lt
  have shifted : acc.toNat <<< 8 % 2 ^ 64 = (acc.toNat % 2 ^ 56) <<< 8 := by
    rw [Nat.shiftLeft_eq, Nat.shiftLeft_eq]
    omega
  have disjoint : (acc.toNat % 2 ^ 56) <<< 8 ||| b.toNat = (acc.toNat % 2 ^ 56) <<< 8 + b.toNat :=
    (Nat.shiftLeft_add_eq_or_of_lt digit _).symm
  rw [shiftIn, UInt64.toNat_or, UInt64.toNat_shiftLeft, UInt8.toNat_toUInt64]
  show acc.toNat <<< 8 % 2 ^ 64 ||| b.toNat = _
  rw [shifted, disjoint, Nat.shiftLeft_eq]
  omega

theorem toNat_foldl_shiftIn (bs : List UInt8) (acc : Word) :
    (bs.foldl shiftIn acc).toNat = (acc.toNat * 256 ^ bs.length + number bs) % 2 ^ 64 := by
  induction bs generalizing acc with
  | nil =>
    have small := acc.toNat_lt
    rw [List.foldl_nil, number, List.length_nil, Nat.pow_zero]
    omega
  | cons b rest ih =>
    -- A bit that is shifted out weighs a multiple of `2 ^ 64`, so all of them may go at the end.
    have digits : (acc.toNat * 256 + b.toNat) * 256 ^ rest.length + number rest =
        acc.toNat * 256 ^ (b :: rest).length + number (b :: rest) := by
      rw [number, List.length_cons, Nat.pow_succ, Nat.add_mul, Nat.mul_assoc, Nat.mul_comm 256,
        Nat.add_assoc]
    rw [List.foldl_cons, ih, toNat_shiftIn, ← digits, Nat.add_mod, Nat.mod_mul_mod, ← Nat.add_mod]

/-- Shifting bytes into a word gives the number they denote, less what does not fit. -/
theorem toNat_fold (bs : List UInt8) : (fold bs).toNat = number bs % 2 ^ 64 := by
  rw [fold, toNat_foldl_shiftIn, UInt64.toNat_zero, Nat.zero_mul, Nat.zero_add]

end BigEndian

theorem Instruction.fold_pushWord (k : Kind) (w : Word) :
    BigEndian.fold (BigEndian.bytes (pushWord k w).immediate (Opcode.push k).operandLen) =
      k.truncate w := by
  apply UInt64.toNat_inj.mp
  have fits : (pushWord k w).immediate < 256 ^ (Opcode.push k).operandLen := (pushWord k w).fits
  rw [BigEndian.toNat_fold, BigEndian.number_bytes, Nat.mod_eq_of_lt fits]
  exact Nat.mod_eq_of_lt (k.truncate w).toNat_lt

/-- The views of a word agree. A value that is read from a word has the normal form as its word, and
every value is read back from its own word. Low bits and normal form can each be computed from the
other, and either from itself. The bits of an integer literal are low bits, and stand for its
number. A push is written with as many operand bytes as its opcode has, and shifting these into a
word gives the low bits again. -/
theorem Word.views_agree :
    (∀ (k : Kind) (w : Word),
      (Value.ofWord k w).word = k.normalize w ∧ (Value.ofWord k w).kind = k ∧
      k.normalize (k.normalize w) = k.normalize w ∧
      k.normalize (k.truncate w) = k.normalize w ∧
      k.truncate (k.normalize w) = k.truncate w ∧ (k.truncate w).toNat < 2 ^ k.bits ∧
      ∀ d : Draft, ∃ operand,
        (d.emit (.pushWord k w)).code = d.code ++ (Opcode.push k).byte :: operand ∧
        operand.length = (Opcode.push k).operandLen ∧ BigEndian.fold operand = k.truncate w) ∧
    (∀ v : Value, Value.ofWord v.kind v.word = v) ∧
    ∀ (l : Literal) (k : Kind), l.scalar = .int k →
      ∃ v bits, l = .int v ∧ l.bits? = some bits ∧ k.truncate bits = bits ∧
        Value.ofWord k (k.normalize bits) = v := by
  refine ⟨?_, Value.ofWord_word, ?_⟩
  · intro k w
    refine ⟨Value.word_ofWord k w, rfl, Kind.normalize_normalize (Nat.le_refl k.bits) w,
      k.normalize_truncate w, k.truncate_normalize w, k.toNat_truncate_lt w, ?_⟩
    intro d
    exact ⟨_, rfl, BigEndian.length_bytes _ _, Instruction.fold_pushWord k w⟩
  · intro l k kind
    cases l with
    | float => cases kind
    | int v =>
      cases kind
      refine ⟨v, v.bits, rfl, rfl, v.kind.truncate_truncate v.word, ?_⟩
      apply Value.ext
      · rfl
      · exact (v.kind.integer_normalize v.bits).trans v.integer_bits

end Wordcode
