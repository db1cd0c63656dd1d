import Wordcode.Digits

/-!
# Quoted text

Strings between double quotes, with backslash escapes. An escape names a UTF-16 unit, so a text
may be grammatical without denoting characters: two units of a surrogate pair have to meet.
`chars` writes a string and `scan` reads the pieces up to the closing quote.
-/

namespace Wordcode.Json.Quoted

/-! ### Writing -/

def shortEscape? : Char → Option Char
  | '"' => some '"'
  | '\\' => some '\\'
  | '\x08' => some 'b'
  | '\x0c' => some 'f'
  | '\n' => some 'n'
  | '\r' => some 'r'
  | '\t' => some 't'
  | _ => none

/-- A character inside quotes. Control characters are escaped, all others but the quote and the
backslash stand for themselves. -/
def escaped (c : Char) : List Char :=
  match shortEscape? c with
  | some e => ['\\', e]
  | none =>
    if c.toNat < 0x20 then
      ['\\', 'u', '0', '0', Nat.digitChar (c.toNat / 16), Nat.digitChar (c.toNat % 16)]
    else [c]

def chars (s : List Char) : List Char := '"' :: s.flatMap escaped ++ ['"']

/-! ### Reading -/

/-- A piece of a quoted text: a character, or one half of a surrogate pair. -/
inductive Piece where
  | plain (c : Char)
  | high (unit : Nat)
  | low (unit : Nat)
  deriving DecidableEq

def Piece.ofUnit (n : Nat) : Piece :=
  if 0xD800 ≤ n ∧ n < 0xDC00 then .high n
  else if 0xDC00 ≤ n ∧ n < 0xE000 then .low n
  else .plain (Char.ofNat n)

def unescape? : Char → Option Char
  | '"' => some '"'
  | '\\' => some '\\'
  | '/' => some '/'
  | 'b' => some '\x08'
  | 'f' => some '\x0c'
  | 'n' => some '\n'
  | 'r' => some '\r'
  | 't' => some '\t'
  | _ => none

def unit? (a b c d : Char) : Option Nat := do
  let a ← Digits.hexValue? a
  let b ← Digits.hexValue? b
  let c ← Digits.hexValue? c
  let d ← Digits.hexValue? d
  return ((a * 16 + b) * 16 + c) * 16 + d

/-- Reads pieces up to the closing quote. Raw control characters are refused. -/
def scan : List Char → Option (List Piece × List Char)
  | [] => none
  | '"' :: cs => some ([], cs)
  | '\\' :: 'u' :: a :: b :: c :: d :: cs =>
    match unit? a b c d, scan cs with
    | some n, some (ps, after) => some (.ofUnit n :: ps, after)
    | _, _ => none
  | '\\' :: e :: cs =>
    match unescape? e, scan cs with
    | some c, some (ps, after) => some (.plain c :: ps, after)
    | _, _ => none
  | c :: cs =>
    if c.toNat < 0x20 ∨ c = '\\' then none
    else
      match scan cs with
      | some (ps, after) => some (.plain c :: ps, after)
      | none => none

/-- The characters of the pieces, if every half of a surrogate pair meets the other half. -/
def assemble : List Piece → Option (List Char)
  | [] => some []
  | .plain c :: ps => (assemble ps).map (c :: ·)
  | .high h :: .low l :: ps =>
    (assemble ps).map (Char.ofNat (0x10000 + (h - 0xD800) * 0x400 + (l - 0xDC00)) :: ·)
  | _ => none

theorem length_scan {cs after : List Char} {ps : List Piece} (h : scan cs = some (ps, after)) :
    after.length < cs.length := by
  fun_induction scan cs generalizing ps with
  | case1 => simp at h
  | case2 cs =>
    simp at h
    rw [h.2, List.length_cons]
    exact Nat.lt_succ_self _
  | case3 a b c d cs n rest tail found _ ih =>
    simp at h
    have shorter := ih (h.2 ▸ found)
    simp only [List.length_cons]
    omega
  | case4 => simp at h
  | case5 e cs _ c rest tail found _ ih =>
    simp at h
    have shorter := ih (h.2 ▸ found)
    simp only [List.length_cons]
    omega
  | case6 => simp at h
  | case7 => simp at h
  | case8 c cs _ _ _ _ rest tail found ih =>
    simp at h
    have shorter := ih (h.2 ▸ found)
    simp only [List.length_cons]
    omega
  | case9 => simp at h

end Wordcode.Json.Quoted
