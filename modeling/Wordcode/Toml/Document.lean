import Wordcode.Toml.Lexeme
import Wordcode.Toml.Table

/-!
# Reading settings files

`parse?` reads a TOML document into its table. An expression is a key with a value, a table
header, or empty, and takes a line of its own; arrays and some strings may extend over several
lines.
-/

namespace Wordcode.Toml

/-! ### Keys -/

def isKeyChar (c : Char) : Bool := c.isAlphanum || c = '_' || c = '-'

def simpleKey : Scanner String := fun cs =>
  match cs with
  | '"' :: _ | '\'' :: _ => lineString cs
  | _ =>
    match cs.takeWhile isKeyChar with
    | [] => none
    | name => some (String.ofList name, cs.dropWhile isKeyChar)

def keyParts : (fuel : Nat) → Scanner (List String)
  | 0, _ => none
  | fuel + 1, cs => do
    let (name, cs) ← simpleKey (skipBlanks cs)
    match skipBlanks cs with
    | '.' :: cs =>
      let (names, cs) ← keyParts fuel cs
      return (name :: names, cs)
    | cs => return ([name], cs)

/-- The number of levels that keys, arrays and inline tables stay below. -/
def levelLimit : Nat := 80

def key : Scanner (List String × String) := fun cs => do
  let (names, cs) ← keyParts (cs.length + 1) cs
  if names.length < levelLimit then return ((names.dropLast, ← names.getLast?), cs) else none

/-! ### Values -/

/-- Takes the items of an array up to its end. A comma may stand after the last one. -/
def arrayItems (item : Scanner Value) : (fuel : Nat) → List Char → Option (List Char)
  | 0, _ => none
  | fuel + 1, cs => do
    match ← skipLines (cs.length + 1) cs with
    | ']' :: cs => return cs
    | cs =>
      let (_, cs) ← item cs
      match ← skipLines (cs.length + 1) cs with
      | ',' :: cs => arrayItems item fuel cs
      | ']' :: cs => return cs
      | _ => none

def inlineEntries (item : Scanner Value) : (fuel : Nat) → Entries → List Char → Option (List Char)
  | 0, _, _ => none
  | fuel + 1, es, cs => do
    let ((path, name), cs) ← key cs
    let cs ← char '=' cs
    let (v, cs) ← item (skipBlanks cs)
    let es ← Entries.insert path name v .header es
    match skipBlanks cs with
    | ',' :: cs => inlineEntries item fuel es cs
    | '\x7d' :: cs => return cs
    | _ => none

def inlineTable (item : Scanner Value) (cs : List Char) : Option (List Char) :=
  match skipBlanks cs with
  | '\x7d' :: cs => some cs
  | cs => inlineEntries item (cs.length + 1) [] cs

def atom : Scanner Value := fun cs =>
  match cs with
  | '"' :: _ | '\'' :: _ => (string cs).map fun (_, cs) => (.other, cs)
  | 't' :: 'r' :: 'u' :: 'e' :: cs => some (.boolean true, cs)
  | 'f' :: 'a' :: 'l' :: 's' :: 'e' :: cs => some (.boolean false, cs)
  | _ =>
    match dateTime cs with
    | some cs => some (.other, cs)
    | none =>
      match number cs with
      | some (.integer n, cs) => some (.integer n, cs)
      | some (.float, cs) => some (.other, cs)
      | none => none

/-- Takes a value, in which fewer than `levels` arrays and inline tables are nested. -/
def value : (levels : Nat) → Scanner Value
  | 0, _ => none
  | levels + 1, cs =>
    match cs with
    | '[' :: cs =>
      if levels = 0 then none
      else (arrayItems (value levels) (cs.length + 1) cs).map fun cs => (.other, cs)
    | '\x7b' :: cs =>
      if levels = 0 then none else (inlineTable (value levels) cs).map fun cs => (.other, cs)
    | cs => atom cs

/-! ### Expressions -/

def entry (d : Draft) (cs : List Char) : Option (Draft × List Char) := do
  let ((path, name), cs) ← key cs
  let cs ← char '=' cs
  let (v, cs) ← value levelLimit (skipBlanks cs)
  let cs ← lineEnd? cs
  return (← d.insert path name v, cs)

/-- Takes a header after its opening bracket or brackets, up to the end of the line. -/
def header (d : Draft) (element : Bool) (cs : List Char) : Option (Draft × List Char) := do
  let ((path, name), cs) ← key cs
  let cs ← char ']' cs
  let cs ← if element then char ']' cs else some cs
  let cs ← lineEnd? cs
  return (← d.start element path name, cs)

def expressions : (fuel : Nat) → Draft → List Char → Option Draft
  | 0, _, _ => none
  | fuel + 1, d, cs =>
    match skipBlanks cs with
    | [] => some d
    | '#' :: cs => (lineEnd? ('#' :: cs)).bind (expressions fuel d)
    | '[' :: '[' :: cs => (header d true cs).bind fun (d, cs) => expressions fuel d cs
    | '[' :: cs => (header d false cs).bind fun (d, cs) => expressions fuel d cs
    | cs =>
      match newline? cs with
      | some cs => expressions fuel d cs
      | none => (entry d cs).bind fun (d, cs) => expressions fuel d cs

def dropMark : List Char → List Char
  | '\ufeff' :: cs => cs
  | cs => cs

def parse? (s : String) : Option Entries :=
  let cs := dropMark s.toList
  (expressions (cs.length + 1) .empty cs).map (·.root)

end Wordcode.Toml
