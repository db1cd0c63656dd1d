import Wordcode.Binary.Basic
import Wordcode.Digits

/-!
# Floating-point numbers from text

A number in decimal notation is rounded once, from its exact value. Infinity and not-a-number are
written as words.
-/

namespace Wordcode.Binary

def splitSign : List Char → Bool × List Char
  | '-' :: cs => (true, cs)
  | '+' :: cs => (false, cs)
  | cs => (false, cs)

def exponent? : List Char → Option Int
  | [] => some 0
  | c :: cs =>
    let (negative, ds) := splitSign cs
    if (c = 'e' ∨ c = 'E') ∧ ds ≠ [] ∧ ds.all Char.isDigit then
      let n : Int := Digits.value ds
      some (if negative then -n else n)
    else none

namespace Format

/-- Reads decimal notation without a sign: digits, of which at least one stands before or after the
point, and an exponent. -/
def parseDecimal? (f : Format) (negative : Bool) (cs : List Char) : Option Number :=
  let whole := cs.takeWhile Char.isDigit
  let (fraction, rest) :=
    match cs.dropWhile Char.isDigit with
    | '.' :: cs => (cs.takeWhile Char.isDigit, cs.dropWhile Char.isDigit)
    | cs => ([], cs)
  if whole.isEmpty ∧ fraction.isEmpty then none
  else
    (exponent? rest).map fun e =>
      f.ofDecimal negative (Digits.value (whole ++ fraction)) (e - fraction.length)

def parse? (f : Format) (s : String) : Option Number :=
  let (negative, cs) := splitSign s.toList
  match String.ofList (cs.map Char.toLower) with
  | "inf" | "infinity" => some (.infinite negative)
  | "nan" => some .nan
  | _ => f.parseDecimal? negative cs

end Format

end Wordcode.Binary
