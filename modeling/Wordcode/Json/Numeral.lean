import Wordcode.Binary.Shortest

/-!
# Numerals

A JSON number is kept as it is written: sign, whole part, fraction digits and exponent. Whether it
counts as an integer and which floating-point number it stands for are questions to the numeral.
-/

namespace Wordcode.Json

/-- A number as it is written. No fraction digits means that there is no decimal point. -/
@[ext] structure Numeral where
  negative : Bool
  whole : Nat
  fraction : List Char
  exponent : Option Int
  deriving DecidableEq

namespace Numeral

/-! ### Writing -/

def ofInt (n : Int) : Numeral := ⟨n < 0, n.natAbs, [], none⟩

def chars (n : Numeral) : List Char :=
  (if n.negative then ['-'] else []) ++ Digits.decimal n.whole ++
    (if n.fraction.isEmpty then [] else '.' :: n.fraction) ++
    match n.exponent with
    | none => []
    | some e => 'e' :: Digits.signed e

/-! ### Reading -/

/-- Reads a whole part: digits, and a leading zero only if it is the only one. -/
def scanWhole (cs : List Char) : Option (Nat × List Char) :=
  match cs.takeWhile Char.isDigit with
  | [] => none
  | '0' :: _ :: _ => none
  | ds => some (Digits.value ds, cs.dropWhile Char.isDigit)

def scanFraction : List Char → Option (List Char × List Char)
  | '.' :: cs =>
    match cs.takeWhile Char.isDigit with
    | [] => none
    | ds => some (ds, cs.dropWhile Char.isDigit)
  | cs => some ([], cs)

def scanExponentDigits (negative : Bool) (cs : List Char) : Option (Option Int × List Char) :=
  match cs.takeWhile Char.isDigit with
  | [] => none
  | ds =>
    let n : Int := Digits.value ds
    some (some (if negative then -n else n), cs.dropWhile Char.isDigit)

def scanExponent : List Char → Option (Option Int × List Char)
  | c :: cs =>
    if c = 'e' ∨ c = 'E' then
      match cs with
      | '-' :: cs => scanExponentDigits true cs
      | '+' :: cs => scanExponentDigits false cs
      | cs => scanExponentDigits false cs
    else some (none, c :: cs)
  | [] => some (none, [])

def scanUnsigned (negative : Bool) (cs : List Char) : Option (Numeral × List Char) := do
  let (whole, cs) ← scanWhole cs
  let (fraction, cs) ← scanFraction cs
  let (exponent, cs) ← scanExponent cs
  return (⟨negative, whole, fraction, exponent⟩, cs)

def scan : List Char → Option (Numeral × List Char)
  | '-' :: cs => scanUnsigned true cs
  | cs => scanUnsigned false cs

/-! ### What is left is shorter -/

theorem length_dropWhile_le (p : Char → Bool) (cs : List Char) :
    (cs.dropWhile p).length ≤ cs.length :=
  (List.dropWhile_sublist p).length_le

theorem length_scanWhole {cs after : List Char} {n : Nat}
    (h : scanWhole cs = some (n, after)) : after.length < cs.length := by
  unfold scanWhole at h
  match cs with
  | [] => simp at h
  | c :: cs =>
    by_cases digit : c.isDigit
    · have shorter := length_dropWhile_le Char.isDigit cs
      simp only [List.dropWhile_cons_of_pos digit] at h
      split at h <;> simp at h
      rw [← h.2]
      rw [List.length_cons]
      omega
    · simp [List.takeWhile_cons_of_neg digit] at h

theorem length_scanFraction {cs after ds : List Char}
    (h : scanFraction cs = some (ds, after)) : after.length ≤ cs.length := by
  unfold scanFraction at h
  split at h
  · rename_i cs
    have shorter := length_dropWhile_le Char.isDigit cs
    split at h <;> simp at h
    rw [← h.2]
    rw [List.length_cons]
    omega
  · simp at h
    obtain ⟨-, rfl⟩ := h
    exact Nat.le_refl _

theorem length_scanExponentDigits {cs after : List Char} {negative : Bool} {e : Option Int}
    (h : scanExponentDigits negative cs = some (e, after)) : after.length ≤ cs.length := by
  unfold scanExponentDigits at h
  have shorter := length_dropWhile_le Char.isDigit cs
  split at h <;> simp at h
  rw [← h.2]; exact shorter

theorem length_scanExponent {cs after : List Char} {e : Option Int}
    (h : scanExponent cs = some (e, after)) : after.length ≤ cs.length := by
  unfold scanExponent at h
  split at h
  · split at h
    · split at h
      all_goals
        have shorter := length_scanExponentDigits h
        simp only [List.length_cons]
        omega
    · simp at h
      obtain ⟨-, rfl⟩ := h
      exact Nat.le_refl _
  · simp at h
    obtain ⟨-, rfl⟩ := h
    exact Nat.le_refl _

theorem length_scanUnsigned {cs after : List Char} {negative : Bool} {n : Numeral}
    (h : scanUnsigned negative cs = some (n, after)) : after.length < cs.length := by
  simp only [scanUnsigned, bind, Option.bind_eq_some_iff, Prod.exists] at h
  obtain ⟨_, _, whole, _, _, fraction, _, _, exponent, same⟩ := h
  have first := length_scanWhole whole
  have second := length_scanFraction fraction
  have third := length_scanExponent exponent
  simp [pure] at same
  rw [← same.2]; omega

theorem length_scan {cs after : List Char} {n : Numeral}
    (h : scan cs = some (n, after)) : after.length < cs.length := by
  unfold scan at h
  split at h
  · have shorter := length_scanUnsigned h
    rw [List.length_cons]
    omega
  · exact length_scanUnsigned h

/-! ### The number a numeral stands for -/

/-- The integer of a numeral that has neither fraction nor exponent. A negative zero is no
integer. -/
def integer? (n : Numeral) : Option Int :=
  if n.fraction.isEmpty ∧ n.exponent.isNone ∧ ¬(n.negative ∧ n.whole = 0) then
    some (if n.negative then -(n.whole : Int) else n.whole)
  else none

/-- Extends a significand by digits as long as it stays below `2 ^ 64`, and gives the digits that
are left. -/
def accumulate (significand : Nat) : List Char → Nat × List Char
  | [] => (significand, [])
  | d :: ds =>
    let longer := significand * 10 + (d.toNat - 48)
    if longer < 2 ^ (64 : Nat) then accumulate longer ds else (significand, d :: ds)

/-- The significand and the decimal exponent of a numeral, cut to the digits that fit in 64 bits.
Digits of the whole part that do not fit raise the exponent, digits of the fraction that do not
fit are dropped. -/
def parts (n : Numeral) : Nat × Int :=
  let (significand, rest) := accumulate 0 (Digits.decimal n.whole)
  let (significand, unused) := accumulate significand n.fraction
  let used : Int := (n.fraction.length : Int) - unused.length
  (significand, rest.length - used + n.exponent.getD 0)

def maxPower : Nat := 308

def power (e : Nat) : Binary.Number := Binary.Format.double.ofDecimal false 1 e

/-- Divides by a power of ten, in steps that a double can hold. -/
def scaleDown (x : Binary.Number) (e : Nat) : Binary.Number :=
  if e ≤ maxPower then x.div .double (power e)
  else if x.isZero then x
  else scaleDown (x.div .double (power maxPower)) (e - maxPower)
termination_by e
decreasing_by have : maxPower = 308 := rfl; omega

def scaleUp (x : Binary.Number) (e : Nat) : Option Binary.Number :=
  if e ≤ maxPower then
    let y := x.mul .double (power e)
    if y.isInfinite then none else some y
  else if x.isZero then some x
  else none

/-- The double a numeral is read as: the significand, rounded to a double, times or divided by a
rounded power of ten. There is none if the numeral is too large. -/
def double? (n : Numeral) : Option Binary.Number :=
  let (significand, exponent) := n.parts
  let x := Binary.Format.double.round n.negative significand 1
  if 0 ≤ exponent then scaleUp x exponent.toNat else some (scaleDown x (-exponent).toNat)

/-- The number of a floating-point kind that a numeral is read as. Integers of 64 bits are rounded
directly, all else goes through a double. -/
def float? (k : FloatKind) (n : Numeral) : Option Binary.Number :=
  match n.integer? with
  | some i =>
    if -2 ^ (63 : Nat) ≤ i ∧ i < 2 ^ (64 : Nat) then some (k.format.ofInt i)
    else n.double?.map (·.convert k.format)
  | none => n.double?.map (·.convert k.format)

def isFinite (n : Numeral) : Bool := n.double?.isSome

/-! ### The numeral of a floating-point number -/

structure Layout where
  least : Int
  greatest : Int

end Numeral

end Wordcode.Json

namespace Wordcode.FloatKind

/-- Numbers of single precision are written positionally from `1e-6` to below `1e13`, those of
double precision from `1e-5` to below `1e16`. -/
def layout : FloatKind → Json.Numeral.Layout
  | f32 => ⟨-5, 13⟩
  | f64 => ⟨-4, 16⟩

end Wordcode.FloatKind

namespace Wordcode.Json.Numeral

/-- The numeral of a shortest decimal. A positional one always has a fraction digit. -/
def ofDecimal (l : Layout) (negative : Bool) (d : Binary.Decimal) : Numeral :=
  let ds := d.digits
  let count : Int := ds.length
  if count ≤ d.point ∧ d.point ≤ l.greatest then
    ⟨negative, Digits.value ds * 10 ^ (d.point - count).toNat, ['0'], none⟩
  else if 0 < d.point ∧ d.point ≤ l.greatest then
    ⟨negative, Digits.value (ds.take d.point.toNat), ds.drop d.point.toNat, none⟩
  else if l.least ≤ d.point ∧ d.point ≤ 0 then
    ⟨negative, 0, List.replicate (-d.point).toNat '0' ++ ds, none⟩
  else
    ⟨negative, Digits.value (ds.take 1), ds.drop 1, some (d.point - 1)⟩

def ofFloat? (k : FloatKind) : Binary.Number → Option Numeral
  | .finite negative 0 _ => some ⟨negative, 0, ['0'], none⟩
  | .finite negative m e => some (ofDecimal k.layout negative (Binary.shortest k.format m e))
  | _ => none

end Wordcode.Json.Numeral
