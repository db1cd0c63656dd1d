/-!
# Digits of natural numbers

The decimal and hexadecimal notations that listings, messages and texts share, as lists of
characters. `Digits.value` reads a decimal numeral back.
-/

namespace Wordcode.Digits

def decimal (n : Nat) : List Char := Nat.toDigits 10 n

def signed : Int → List Char
  | .ofNat n => decimal n
  | .negSucc n => '-' :: decimal (n + 1)

/-- The decimal numeral of a number, filled with zeros in front up to a least width. -/
def padded (width n : Nat) : List Char :=
  List.replicate (width - (decimal n).length) '0' ++ decimal n

def value (digits : List Char) : Nat := Nat.ofDigitChars 10 digits 0

/-- The hexadecimal digit of a number below sixteen, with letters in upper case. -/
def upperHex (n : Nat) : Char :=
  if n < 10 then Char.ofNat (48 + n) else Char.ofNat (55 + n)

def hexByte (b : UInt8) : List Char := [upperHex (b.toNat / 16), upperHex (b.toNat % 16)]

/-- The number a hexadecimal digit of either case stands for. -/
def hexValue? (c : Char) : Option Nat :=
  if '0' ≤ c ∧ c ≤ '9' then some (c.toNat - 48)
  else if 'a' ≤ c ∧ c ≤ 'f' then some (c.toNat - 87)
  else if 'A' ≤ c ∧ c ≤ 'F' then some (c.toNat - 55)
  else none

theorem isDigit_decimal {n : Nat} {c : Char} (member : c ∈ decimal n) : c.isDigit :=
  Nat.isDigit_of_mem_toDigits (by decide) (by decide) member

theorem decimal_eq_cons (n : Nat) : ∃ d ds, decimal n = d :: ds ∧ d.isDigit := by
  obtain ⟨d, ds, same⟩ := List.exists_cons_of_ne_nil (Nat.toDigits_ne_nil (n := n) (b := 10))
  have member : d ∈ decimal n := by
    rw [decimal, same]
    exact List.mem_cons_self
  exact ⟨d, ds, same, isDigit_decimal member⟩

@[simp] theorem value_decimal (n : Nat) : value (decimal n) = n :=
  Nat.ofDigitChars_toDigits (by decide) (by decide)

end Wordcode.Digits
