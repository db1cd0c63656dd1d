import Wordcode.Binary.Basic
import Wordcode.Digits

/-!
# Lexemes of settings files

The smallest parts of a TOML document: blanks, line ends and comments, quoted strings, numbers and
date-times. A scanner takes its lexeme from the head of a text and gives what is left.
-/

namespace Wordcode.Toml

/-- Takes something from the head of a text, and gives it with the rest of the text. -/
abbrev Scanner (α : Type) := List Char → Option (α × List Char)

/-! ### Blanks, line ends and comments -/

def isBlank (c : Char) : Bool := c = ' ' || c = '\t'

/-- The characters that stand for themselves in comments and strings: all but control characters,
of which only the tab may stand. -/
def isTextChar (c : Char) : Bool := c = '\t' || (0x20 ≤ c.toNat && c.toNat ≠ 0x7F)

def skipBlanks (cs : List Char) : List Char := cs.dropWhile isBlank

def skipComment : List Char → List Char
  | '#' :: cs => cs.dropWhile isTextChar
  | cs => cs

def newline? : List Char → Option (List Char)
  | '\n' :: cs => some cs
  | '\r' :: '\n' :: cs => some cs
  | _ => none

/-- Takes what may follow an expression on its line, and the line end or the end of the text. -/
def lineEnd? (cs : List Char) : Option (List Char) :=
  match skipComment (skipBlanks cs) with
  | [] => some []
  | cs => newline? cs

/-- Skips blanks, line ends and comments; each comment must end with its line. -/
def skipLines : (fuel : Nat) → List Char → Option (List Char)
  | 0, cs => some cs
  | fuel + 1, cs =>
    match skipBlanks cs with
    | '#' :: cs => (newline? (skipComment ('#' :: cs))).bind (skipLines fuel)
    | cs =>
      match newline? cs with
      | some cs => skipLines fuel cs
      | none => some cs

/-! ### Strings -/

def hexNumber? (cs : List Char) : Option Nat :=
  cs.foldlM (fun n c => (Digits.hexValue? c).map (n * 16 + ·)) 0

def codePoint (count : Nat) : Scanner Char := fun cs => do
  let n ← hexNumber? (cs.take count)
  if (cs.take count).length = count ∧ n.isValidChar then some (Char.ofNat n, cs.drop count)
  else none

def escape : Scanner Char
  | 'b' :: cs => some ('\x08', cs)
  | 't' :: cs => some ('\t', cs)
  | 'n' :: cs => some ('\n', cs)
  | 'f' :: cs => some ('\x0c', cs)
  | 'r' :: cs => some ('\r', cs)
  | '"' :: cs => some ('"', cs)
  | '\\' :: cs => some ('\\', cs)
  | 'u' :: cs => codePoint 4 cs
  | 'U' :: cs => codePoint 8 cs
  | _ => none

def prepend (c : Char) : Option (List Char × List Char) → Option (List Char × List Char)
  | some (s, cs) => some (c :: s, cs)
  | none => none

def basicBody : (fuel : Nat) → Scanner (List Char)
  | 0, _ => none
  | fuel + 1, cs =>
    match cs with
    | [] => none
    | '"' :: cs => some ([], cs)
    | '\\' :: cs =>
      match escape cs with
      | some (c, cs) => prepend c (basicBody fuel cs)
      | none => none
    | c :: cs => if isTextChar c then prepend c (basicBody fuel cs) else none

def literalBody : Scanner (List Char)
  | [] => none
  | '\'' :: cs => some ([], cs)
  | c :: cs => if isTextChar c then prepend c (literalBody cs) else none

def skipGap : (fuel : Nat) → List Char → List Char
  | 0, cs => cs
  | fuel + 1, cs =>
    match newline? (skipBlanks cs) with
    | some cs => skipGap fuel cs
    | none => skipBlanks cs

/-- Takes the gap after a backslash at the end of a line: the line end and all blanks around it. -/
def lineGap? (cs : List Char) : Option (List Char) :=
  (newline? (skipBlanks cs)).map fun cs => skipGap cs.length cs

/-- Takes the rest of a string over several lines. Up to two quotes may stand before the three that
close it. -/
def multilineBody : (fuel : Nat) → Scanner (List Char)
  | 0, _ => none
  | fuel + 1, cs =>
    match cs with
    | [] => none
    | '"' :: '"' :: '"' :: '"' :: '"' :: cs => some (['"', '"'], cs)
    | '"' :: '"' :: '"' :: '"' :: cs => some (['"'], cs)
    | '"' :: '"' :: '"' :: cs => some ([], cs)
    | '\\' :: cs =>
      match lineGap? cs, escape cs with
      | some cs, _ => multilineBody fuel cs
      | none, some (c, cs) => prepend c (multilineBody fuel cs)
      | none, none => none
    | c :: rest =>
      match newline? cs with
      | some cs => prepend '\n' (multilineBody fuel cs)
      | none => if isTextChar c then prepend c (multilineBody fuel rest) else none

def multilineLiteralBody : (fuel : Nat) → Scanner (List Char)
  | 0, _ => none
  | fuel + 1, cs =>
    match cs with
    | [] => none
    | '\'' :: '\'' :: '\'' :: '\'' :: '\'' :: cs => some (['\'', '\''], cs)
    | '\'' :: '\'' :: '\'' :: '\'' :: cs => some (['\''], cs)
    | '\'' :: '\'' :: '\'' :: cs => some ([], cs)
    | c :: rest =>
      match newline? cs with
      | some cs => prepend '\n' (multilineLiteralBody fuel cs)
      | none => if isTextChar c then prepend c (multilineLiteralBody fuel rest) else none

def dropNewline (cs : List Char) : List Char := (newline? cs).getD cs

def lineString : Scanner String
  | '"' :: cs => (basicBody (cs.length + 1) cs).map fun (s, cs) => (String.ofList s, cs)
  | '\'' :: cs => (literalBody cs).map fun (s, cs) => (String.ofList s, cs)
  | _ => none

/-- Takes a string of any form. A line end right after three opening quotes is not part of it. -/
def string : Scanner String
  | '"' :: '"' :: '"' :: cs =>
    let cs := dropNewline cs
    (multilineBody (cs.length + 1) cs).map fun (s, cs) => (String.ofList s, cs)
  | '\'' :: '\'' :: '\'' :: cs =>
    let cs := dropNewline cs
    (multilineLiteralBody (cs.length + 1) cs).map fun (s, cs) => (String.ofList s, cs)
  | cs => lineString cs

/-! ### Numbers -/

/-- Takes digits of a class. An underscore may stand between two digits. -/
def digitRun (isDigit : Char → Bool) : Scanner (List Char) := fun cs =>
  let part := fun c => isDigit c || c = '_'
  let written := cs.takeWhile part
  if (written.splitBy fun a b => a != '_' || b != '_').length = 1 ∧
      written.head? ≠ some '_' ∧ written.getLast? ≠ some '_' then
    some (written.filter isDigit, cs.dropWhile part)
  else none

/-- Takes a run of decimal digits that has no superfluous zero in front. -/
def wholeDigits : Scanner (List Char) := fun cs => do
  let (ds, cs) ← digitRun Char.isDigit cs
  match ds with
  | '0' :: _ :: _ => none
  | _ => some (ds, cs)

def sign : List Char → Bool × List Char
  | '+' :: cs => (false, cs)
  | '-' :: cs => (true, cs)
  | cs => (false, cs)

/-- A number: an integer, or a float whose value nothing depends on. -/
inductive Number where
  | integer (n : Int)
  | float

def bounded (n : Int) : Option Number :=
  if -2 ^ (63 : Nat) ≤ n ∧ n < 2 ^ (63 : Nat) then some (.integer n) else none

def radixInteger (base : Nat) : Scanner Number := fun cs => do
  let isDigit := fun c => ((Digits.hexValue? c).map (decide <| · < base)).getD false
  let (ds, cs) ← digitRun isDigit cs
  let n := ds.foldl (fun n c => n * base + (Digits.hexValue? c).getD 0) 0
  return (← bounded n, cs)

def exponent : Scanner Int := fun cs => do
  let (negative, cs) := sign cs
  let (ds, cs) ← digitRun Char.isDigit cs
  let n : Int := Digits.value ds
  return (if negative then -n else n, cs)

def exponent? : Scanner Int
  | 'e' :: cs | 'E' :: cs => exponent cs
  | cs => some (0, cs)

/-- A float by its sign, digits and exponent. A positive one must not be too large for a double. -/
def floatOf (negative : Bool) (whole fraction : List Char) (e : Int) : Option Number :=
  let x := Binary.Format.double.ofDecimal negative (Digits.value (whole ++ fraction))
    (e - fraction.length)
  if x.isInfinite ∧ ¬negative then none else some .float

def decimal (negative : Bool) : Scanner Number
  | 'i' :: 'n' :: 'f' :: cs => some (.float, cs)
  | 'n' :: 'a' :: 'n' :: cs => some (.float, cs)
  | cs => do
    let (whole, cs) ← wholeDigits cs
    match cs with
    | '.' :: cs =>
      let (fraction, cs) ← digitRun Char.isDigit cs
      let (e, cs) ← exponent? cs
      return (← floatOf negative whole fraction e, cs)
    | 'e' :: cs | 'E' :: cs =>
      let (e, cs) ← exponent cs
      return (← floatOf negative whole [] e, cs)
    | cs =>
      let n : Int := Digits.value whole
      return (← bounded (if negative then -n else n), cs)

def number : Scanner Number
  | '0' :: 'x' :: cs => radixInteger 16 cs
  | '0' :: 'o' :: cs => radixInteger 8 cs
  | '0' :: 'b' :: cs => radixInteger 2 cs
  | cs =>
    let (negative, cs) := sign cs
    decimal negative cs

/-! ### Date-times -/

def fixed (count least greatest : Nat) : Scanner Nat := fun cs =>
  let ds := cs.take count
  let n := Digits.value ds
  if ds.length = count ∧ ds.all Char.isDigit ∧ least ≤ n ∧ n ≤ greatest then some (n, cs.drop count)
  else none

def char (c : Char) : List Char → Option (List Char)
  | d :: cs => if c = d then some cs else none
  | [] => none

def daysIn (year month : Nat) : Nat :=
  if month = 2 then
    if year % 4 = 0 ∧ (year % 100 ≠ 0 ∨ year % 400 = 0) then 29 else 28
  else if month ∈ [4, 6, 9, 11] then 30
  else 31

def date (cs : List Char) : Option (List Char) := do
  let (year, cs) ← fixed 4 0 9999 cs
  let cs ← char '-' cs
  let (month, cs) ← fixed 2 1 12 cs
  let cs ← char '-' cs
  let (_, cs) ← fixed 2 1 (daysIn year month) cs
  return cs

def hourMinute (cs : List Char) : Option (List Char) := do
  let (_, cs) ← fixed 2 0 23 cs
  let cs ← char ':' cs
  let (_, cs) ← fixed 2 0 59 cs
  return cs

def secondFraction : List Char → List Char
  | '.' :: d :: cs => if d.isDigit then cs.dropWhile Char.isDigit else '.' :: d :: cs
  | cs => cs

/-- Takes a time of day. A leap second may be the sixtieth. -/
def time (cs : List Char) : Option (List Char) := do
  let cs ← char ':' (← hourMinute cs)
  let (_, cs) ← fixed 2 0 60 cs
  return secondFraction cs

def offset : List Char → List Char
  | 'Z' :: cs | 'z' :: cs => cs
  | '+' :: cs => (hourMinute cs).getD ('+' :: cs)
  | '-' :: cs => (hourMinute cs).getD ('-' :: cs)
  | cs => cs

def timeAfterDate : List Char → List Char
  | c :: cs =>
    if c = 'T' ∨ c = 't' ∨ c = ' ' then
      match time cs with
      | some cs => offset cs
      | none => c :: cs
    else c :: cs
  | [] => []

def dateTime (cs : List Char) : Option (List Char) :=
  match date cs with
  | some cs => some (timeAfterDate cs)
  | none => time cs

end Wordcode.Toml
