import Wordcode.Json.Numeral
import Wordcode.Json.Quoted

/-!
# Tokens

A JSON text is a sequence of tokens with blanks between them. `Token.chars` writes a token and
`lex` cuts a text into its tokens.
-/

namespace Wordcode.Json

/-- A token. A string whose escapes leave half a surrogate pair alone is grammatical but denotes
no text. -/
inductive Token where
  | openArray | closeArray
  | openObject | closeObject
  | comma | colon
  | null
  | bool (b : Bool)
  | number (n : Numeral)
  | text (s : Option String)
  deriving DecidableEq

namespace Token

def chars : Token → List Char
  | openArray => ['[']
  | closeArray => [']']
  | openObject => ['\x7b']
  | closeObject => ['\x7d']
  | comma => [',']
  | colon => [':']
  | null => ['n', 'u', 'l', 'l']
  | bool true => ['t', 'r', 'u', 'e']
  | bool false => ['f', 'a', 'l', 's', 'e']
  | number n => n.chars
  | text (some s) => Quoted.chars s.toList
  | text none => ['"', '\\', 'u', 'd', '8', '0', '0', '"']

def isBlank (c : Char) : Bool := c = ' ' || c = '\n' || c = '\r' || c = '\t'

def scan (c : Char) (cs : List Char) : Option (Token × List Char) :=
  match c, cs with
  | '[', cs => some (openArray, cs)
  | ']', cs => some (closeArray, cs)
  | '\x7b', cs => some (openObject, cs)
  | '\x7d', cs => some (closeObject, cs)
  | ',', cs => some (comma, cs)
  | ':', cs => some (colon, cs)
  | 'n', 'u' :: 'l' :: 'l' :: cs => some (null, cs)
  | 't', 'r' :: 'u' :: 'e' :: cs => some (bool true, cs)
  | 'f', 'a' :: 'l' :: 's' :: 'e' :: cs => some (bool false, cs)
  | '"', cs =>
    match Quoted.scan cs with
    | some (pieces, cs) => some (text ((Quoted.assemble pieces).map String.ofList), cs)
    | none => none
  | c, cs =>
    match Numeral.scan (c :: cs) with
    | some (n, cs) => some (number n, cs)
    | none => none

theorem length_scan {c : Char} {cs after : List Char} {t : Token}
    (h : scan c cs = some (t, after)) : after.length < (c :: cs).length := by
  unfold scan at h
  split at h
  case h_10 =>
    split at h
    · rename_i found
      simp at h
      have shorter := Quoted.length_scan (h.2 ▸ found)
      rw [List.length_cons]
      omega
    · simp at h
  case h_11 =>
    split at h
    · rename_i found
      simp at h
      exact Numeral.length_scan (h.2 ▸ found)
    · simp at h
  all_goals
    simp at h
    rw [← h.2]
    simp only [List.length_cons]
    omega

end Token

def lex (cs : List Char) : Option (List Token) :=
  match cs with
  | [] => some []
  | c :: cs =>
    if Token.isBlank c then lex cs
    else
      match _found : Token.scan c cs with
      | some (t, after) => (lex after).map (t :: ·)
      | none => none
termination_by cs.length
decreasing_by
  · simp
  · exact Token.length_scan _found

end Wordcode.Json
