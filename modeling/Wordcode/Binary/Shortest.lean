import Wordcode.Binary.Basic
import Wordcode.Digits

/-!
# Shortest decimals

Among the decimals that round to a given binary number, `shortest` picks one with the fewest
digits, and of those the nearest. The search looks at ever finer decimal grids: on each, only the
two neighbours of the number can be the nearest candidates.
-/

namespace Wordcode.Binary

/-- A decimal `0.d₁d₂…dₙ * 10 ^ point`. -/
structure Decimal where
  digits : List Char
  point : Int
  deriving DecidableEq

/-- The reals that round to a number, as multiples of the fourth part of its last place. -/
structure Interval where
  low : Nat
  mid : Nat
  high : Nat
  closed : Bool
  deriving DecidableEq

namespace Format

/-- The interval around a positive significand. Below a power of two the numbers lie twice as
dense; the ends round to an even significand. -/
def interval (f : Format) (m : Nat) (exponent : Int) : Interval :=
  let below := if m = 2 ^ (f.precision - 1) ∧ f.minExponent < exponent then 1 else 2
  ⟨4 * m - below, 4 * m, 4 * m + 2, m % 2 = 0⟩

end Format

namespace Interval

def holds (i : Interval) (n d : Nat) : Bool :=
  if i.closed then i.low * d ≤ n && n ≤ i.high * d else i.low * d < n && n < i.high * d

end Interval

def pointOf (num den : Nat) : Int :=
  if den ≤ num then ((Nat.toDigits 10 (num / den)).length : Int)
  else
    let zeros := (Nat.toDigits 10 (den / num)).length
    if num * 10 ^ (zeros - 1) = den then 2 - zeros else 1 - zeros

/-- The best multiple of `10 ^ (point - count)` in the interval, if there is one. -/
def candidate (i : Interval) (exponent : Int) (point : Int) (count : Nat) : Option Nat :=
  -- in units of the grid, the number is `mid * num / den`
  let (a, b) := scale 2 1 1 (exponent - 2)
  let (num, den) := scale 10 a b (count - point)
  let lower := i.mid * num / den
  let inside := fun c => i.holds (c * den) num
  match inside lower, inside (lower + 1) with
  | true, true =>
    let distance := 2 * (i.mid * num % den)
    if distance < den then some lower
    else if den < distance then some (lower + 1)
    else some (lower + lower % 2)
  | true, false => some lower
  | false, true => some (lower + 1)
  | false, false => none

def trimZeros (digits : List Char) : List Char := (digits.reverse.dropWhile (· = '0')).reverse

/-- The shortest decimal for a positive significand. Seventeen digits always suffice. -/
def shortest (f : Format) (m : Nat) (exponent : Int) : Decimal :=
  let i := f.interval m exponent
  let (num, den) := scale 2 m 1 exponent
  let point := pointOf num den
  match (List.range 17).findSome? fun k => (candidate i exponent point (k + 1)).map (k + 1, ·) with
  | some (count, c) =>
    let digits := Digits.decimal c
    -- a candidate that reached the next power of ten has one digit more
    ⟨trimZeros digits, point + ((digits.length : Int) - count)⟩
  | none => ⟨Digits.decimal m, 0⟩

end Wordcode.Binary
