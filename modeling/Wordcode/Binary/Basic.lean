import Wordcode.Kind

/-!
# Binary floating-point numbers

A finite number is a signed integer significand times a power of two. `Format.round` takes a
non-negative fraction to the nearest number of a format, and a half goes to the even
significand. All operations here round an exact fraction once.
-/

namespace Wordcode.Binary

/-- A binary format: how many significant bits it has, and the least and greatest exponent of the
last of them. -/
structure Format where
  precision : Nat
  minExponent : Int
  maxExponent : Int
  deriving DecidableEq

/-- A number of a format. A finite one is `significand * 2 ^ exponent`, and zero keeps its sign. -/
inductive Number where
  | finite (negative : Bool) (significand : Nat) (exponent : Int)
  | infinite (negative : Bool)
  | nan
  deriving DecidableEq

/-- A quotient rounded to the nearest integer; a half goes to the even neighbour. -/
def roundDiv (num den : Nat) : Nat :=
  let q := num / den
  let twice := 2 * (num % den)
  if twice < den then q
  else if den < twice then q + 1
  else q + q % 2

def scale (base num den : Nat) (exponent : Int) : Nat × Nat :=
  if 0 ≤ exponent then (num * base ^ exponent.toNat, den)
  else (num, den * base ^ (-exponent).toNat)

/-- The greatest exponent of two that does not exceed a positive fraction. -/
def log2 (num den : Nat) : Int :=
  let guess : Int := (num.log2 : Int) - den.log2
  let (n, d) := scale 2 num den (-guess)
  if d ≤ n then guess else guess - 1

namespace Format

def single : Format := ⟨24, -149, 104⟩

def double : Format := ⟨53, -1074, 971⟩

/-- The number of the format nearest to `num / den`, with a given sign. Whatever rounds beyond the
greatest exponent is infinite. -/
def round (f : Format) (negative : Bool) (num den : Nat) : Number :=
  if num = 0 then .finite negative 0 f.minExponent
  else
    let exponent := max (log2 num den - (f.precision - 1)) f.minExponent
    let (n, d) := scale 2 num den (-exponent)
    let m := roundDiv n d
    let (m, exponent) := if m = 2 ^ f.precision then (m / 2, exponent + 1) else (m, exponent)
    if f.maxExponent < exponent then .infinite negative else .finite negative m exponent

def ofInt (f : Format) (n : Int) : Number := f.round (n < 0) n.natAbs 1

/-- The number of the format nearest to a decimal `significand * 10 ^ exponent`. The digits are
only expanded where the result can be neither infinite nor zero. -/
def ofDecimal (f : Format) (negative : Bool) (significand : Nat) (exponent : Int) : Number :=
  let magnitude := exponent + (Nat.toDigits 10 significand).length
  if significand = 0 ∨ magnitude < -400 then f.round negative 0 1
  else if 400 < magnitude then .infinite negative
  else
    let (n, d) := scale 10 significand 1 exponent
    f.round negative n d

end Format

namespace Number

def isZero : Number → Bool
  | finite _ 0 _ => true
  | _ => false

def isInfinite : Number → Bool
  | infinite _ => true
  | _ => false

def convert (f : Format) : Number → Number
  | finite negative m e =>
    let (n, d) := scale 2 m 1 e
    f.round negative n d
  | x => x

def mul (f : Format) : Number → Number → Number
  | finite s m e, finite s' m' e' =>
    let (n, d) := scale 2 (m * m') 1 (e + e')
    f.round (s != s') n d
  | _, _ => nan

/-- The quotient of two finite numbers, rounded once; the divisor is not zero. -/
def div (f : Format) : Number → Number → Number
  | finite s m e, finite s' m' e' =>
    let (n, d) := scale 2 m m' (e - e')
    f.round (s != s') n d
  | _, _ => nan

end Number

end Wordcode.Binary

namespace Wordcode.FloatKind

def format : FloatKind → Binary.Format
  | f32 => .single
  | f64 => .double

end Wordcode.FloatKind
