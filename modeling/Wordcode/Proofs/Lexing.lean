import Wordcode.Json.Token

/-!
# Tokens are read as they are written

Numerals, quoted texts and tokens read back from the characters they are written as, whatever
follows them. Only a numeral needs something of what follows: it must not be taken for more of the
numeral (`Stops`). `lex_chars_append` puts the tokens together.
-/

namespace Wordcode

namespace Digits

/-- Only zero is written with a zero in front. -/
theorem head?_decimal {n : Nat} (positive : 0 < n) : (decimal n).head? ≠ some '0' := by
  induction n using Nat.strongRecOn with
  | ind n ih =>
    unfold decimal
    rw [Nat.toDigits_eq_if (by decide)]
    split
    · rw [List.head?_cons, ne_eq, Option.some.injEq, Nat.digitChar_eq_zero]
      omega
    · obtain ⟨d, ds, same, _⟩ := decimal_eq_cons (n / 10)
      have front := ih (n / 10) (by omega) (by omega)
      rw [same] at front
      rw [show Nat.toDigits 10 (n / 10) = d :: ds from same]
      exact front

end Digits

namespace Json

namespace Numeral

/-- What follows is no more of a numeral. -/
def Stops (rest : List Char) : Prop :=
  ∀ c, rest.head? = some c → c.isDigit = false ∧ c ≠ '.' ∧ c ≠ 'e' ∧ c ≠ 'E'

theorem stops_cons {c : Char} (rest : List Char)
    (other : c.isDigit = false ∧ c ≠ '.' ∧ c ≠ 'e' ∧ c ≠ 'E') : Stops (c :: rest) := by
  intro d first
  cases first
  exact other

/-- A run of digits ends where the next character is none. -/
theorem span_digits {ds rest : List Char} (digits : ∀ c ∈ ds, c.isDigit)
    (boundary : ∀ c, rest.head? = some c → c.isDigit = false) :
    (ds ++ rest).takeWhile Char.isDigit = ds ∧ (ds ++ rest).dropWhile Char.isDigit = rest := by
  rw [List.takeWhile_append_of_pos digits, List.dropWhile_append_of_pos digits]
  cases rest with
  | nil => exact ⟨List.append_nil ds, rfl⟩
  | cons c rest =>
    have none := boundary c rfl
    simp [none]

theorem span_decimal (n : Nat) {rest : List Char}
    (boundary : ∀ c, rest.head? = some c → c.isDigit = false) :
    (Digits.decimal n ++ rest).takeWhile Char.isDigit = Digits.decimal n ∧
      (Digits.decimal n ++ rest).dropWhile Char.isDigit = rest :=
  span_digits (fun _ member => Digits.isDigit_decimal member) boundary

theorem scanWhole_decimal (n : Nat) {rest : List Char}
    (boundary : ∀ c, rest.head? = some c → c.isDigit = false) :
    scanWhole (Digits.decimal n ++ rest) = some (n, rest) := by
  obtain ⟨taken, dropped⟩ := span_decimal n boundary
  unfold scanWhole
  rw [taken, dropped]
  split
  · next empty =>
    obtain ⟨d, ds, same, _⟩ := Digits.decimal_eq_cons n
    rw [empty] at same
    cases same
  · next second others long =>
    rcases Nat.eq_zero_or_pos n with rfl | positive
    · cases long
    · have front := Digits.head?_decimal positive
      rw [long] at front
      exact absurd rfl front
  · rw [Digits.value_decimal]

theorem scanFraction_append {ds rest : List Char} (digits : ∀ c ∈ ds, c.isDigit)
    (boundary : ∀ c, rest.head? = some c → c.isDigit = false ∧ c ≠ '.') :
    scanFraction ((if ds.isEmpty then [] else '.' :: ds) ++ rest) = some (ds, rest) := by
  obtain ⟨taken, dropped⟩ := span_digits digits (fun c first => (boundary c first).1)
  cases ds with
  | nil =>
    rw [List.isEmpty_nil, if_pos rfl, List.nil_append]
    unfold scanFraction
    split
    · exact absurd rfl (boundary _ rfl).2
    · rfl
  | cons d ds =>
    rw [List.isEmpty_cons, if_neg Bool.false_ne_true, List.cons_append, scanFraction, taken,
      dropped]

theorem scanExponentDigits_decimal (negative : Bool) (n : Nat) {rest : List Char}
    (stops : Stops rest) :
    scanExponentDigits negative (Digits.decimal n ++ rest) =
      some (some (if negative then -(n : Int) else n), rest) := by
  obtain ⟨taken, dropped⟩ := span_decimal n (fun c first => (stops c first).1)
  obtain ⟨d, ds, same, _⟩ := Digits.decimal_eq_cons n
  have value := Digits.value_decimal n
  unfold scanExponentDigits
  rw [taken, dropped]
  rw [same] at value ⊢
  dsimp only
  rw [value]

theorem scanExponent_signed (e : Int) {rest : List Char} (stops : Stops rest) :
    scanExponent ('e' :: Digits.signed e ++ rest) = some (some e, rest) := by
  cases e with
  | negSucc n =>
    rw [Digits.signed, List.cons_append, List.cons_append, scanExponent, if_pos (.inl rfl)]
    exact scanExponentDigits_decimal true (n + 1) stops
  | ofNat n =>
    -- The digits start with neither of the signs.
    obtain ⟨d, ds, same, digit⟩ := Digits.decimal_eq_cons n
    have scanned := scanExponentDigits_decimal false n stops
    rw [same, List.cons_append] at scanned
    rw [Digits.signed, same, List.cons_append, List.cons_append, scanExponent, if_pos (.inl rfl)]
    · exact scanned
    · rintro cs ⟨⟩
      cases digit
    · rintro cs ⟨⟩
      cases digit

theorem scanExponent_of_stops {rest : List Char} (stops : Stops rest) :
    scanExponent rest = some (none, rest) := by
  cases rest with
  | nil => rfl
  | cons c rest =>
    obtain ⟨_, _, small, large⟩ := stops c rfl
    exact if_neg (not_or.mpr ⟨small, large⟩)

def exponentChars (n : Numeral) : List Char :=
  match n.exponent with
  | none => []
  | some e => 'e' :: Digits.signed e

theorem scanExponent_exponentChars (n : Numeral) {rest : List Char} (stops : Stops rest) :
    scanExponent (n.exponentChars ++ rest) = some (n.exponent, rest) := by
  unfold exponentChars
  cases n.exponent with
  | none => exact scanExponent_of_stops stops
  | some e => exact scanExponent_signed e stops

theorem exponentChars_boundary (n : Numeral) {rest : List Char} (stops : Stops rest) :
    ∀ c, (n.exponentChars ++ rest).head? = some c → c.isDigit = false ∧ c ≠ '.' := by
  unfold exponentChars
  cases n.exponent with
  | none =>
    intro c first
    exact ⟨(stops c first).1, (stops c first).2.1⟩
  | some e =>
    intro c first
    cases first
    decide

theorem fractionChars_boundary (n : Numeral) {rest : List Char} (stops : Stops rest) :
    ∀ c, ((if n.fraction.isEmpty then [] else '.' :: n.fraction) ++
      (n.exponentChars ++ rest)).head? = some c → c.isDigit = false := by
  intro c first
  split at first
  · exact (n.exponentChars_boundary stops c first).1
  · cases first
    decide

theorem scanUnsigned_append (n : Numeral) {rest : List Char} (digits : ∀ c ∈ n.fraction, c.isDigit)
    (stops : Stops rest) :
    scanUnsigned n.negative (Digits.decimal n.whole ++
      ((if n.fraction.isEmpty then [] else '.' :: n.fraction) ++ (n.exponentChars ++ rest))) =
      some (n, rest) := by
  have whole := scanWhole_decimal n.whole (n.fractionChars_boundary stops)
  have fraction := scanFraction_append digits (n.exponentChars_boundary stops)
  have exponent := n.scanExponent_exponentChars stops
  simp only [scanUnsigned, whole, fraction, exponent, Option.bind_eq_bind, Option.bind_some]
  rfl

/-- A numeral whose fraction is made of digits reads back as it is written. -/
theorem scan_chars_append (n : Numeral) {rest : List Char} (digits : ∀ c ∈ n.fraction, c.isDigit)
    (stops : Stops rest) : scan (n.chars ++ rest) = some (n, rest) := by
  have unsigned := n.scanUnsigned_append digits stops
  have split : n.chars ++ rest = (if n.negative then ['-'] else []) ++ (Digits.decimal n.whole ++
      ((if n.fraction.isEmpty then [] else '.' :: n.fraction) ++ (n.exponentChars ++ rest))) := by
    have whole : n.chars = (if n.negative then ['-'] else []) ++ Digits.decimal n.whole ++
        (if n.fraction.isEmpty then [] else '.' :: n.fraction) ++ n.exponentChars := rfl
    rw [whole, List.append_assoc, List.append_assoc, List.append_assoc]
  rw [split]
  cases sign : n.negative with
  | true =>
    rw [sign] at unsigned
    exact unsigned
  | false =>
    obtain ⟨d, ds, same, digit⟩ := Digits.decimal_eq_cons n.whole
    rw [sign, same] at unsigned
    rw [same, if_neg Bool.false_ne_true, List.nil_append, List.cons_append, scan]
    · exact unsigned
    · intro _ minus
      cases minus
      cases digit

/-- A numeral starts with a minus sign or a digit. -/
theorem chars_eq_cons (n : Numeral) : ∃ c cs, n.chars = c :: cs ∧ (c = '-' ∨ c.isDigit) := by
  obtain ⟨d, ds, same, digit⟩ := Digits.decimal_eq_cons n.whole
  unfold chars
  rw [same]
  cases n.negative with
  | true => exact ⟨'-', _, rfl, .inl rfl⟩
  | false => exact ⟨d, _, rfl, .inr digit⟩

end Numeral

namespace Quoted

theorem hexValue?_digitChar {n : Nat} (small : n < 16) :
    Digits.hexValue? (Nat.digitChar n) = some n := by
  have table : ∀ n : Fin 16, Digits.hexValue? (Nat.digitChar n) = some n.val := by decide
  exact table ⟨n, small⟩

theorem unit?_control {c : Char} (control : c.toNat < 0x20) :
    unit? '0' '0' (Nat.digitChar (c.toNat / 16)) (Nat.digitChar (c.toNat % 16)) =
      some c.toNat := by
  have zero : Digits.hexValue? '0' = some 0 := by decide
  simp only [unit?, zero, hexValue?_digitChar (show c.toNat / 16 < 16 by omega),
    hexValue?_digitChar (show c.toNat % 16 < 16 by omega), Option.bind_eq_bind, Option.bind_some]
  show some _ = _
  congr 1
  omega

theorem ofUnit_toNat {c : Char} (control : c.toNat < 0x20) : Piece.ofUnit c.toNat = .plain c := by
  rw [Piece.ofUnit, if_neg (by omega), if_neg (by omega), Char.ofNat_toNat]

/-- A short escape is read as the character it was written for. -/
theorem unescape?_shortEscape {c e : Char} (short : shortEscape? c = some e) :
    unescape? e = some c ∧ e ≠ 'u' := by
  unfold shortEscape? at short
  split at short <;> cases short <;> exact ⟨rfl, by decide⟩

theorem scan_escaped_append (c : Char) (rest : List Char) :
    scan (escaped c ++ rest) = (scan rest).map fun (ps, after) => (.plain c :: ps, after) := by
  unfold escaped
  split
  · next e short =>
    obtain ⟨back, other⟩ := unescape?_shortEscape short
    rw [List.cons_append, List.singleton_append, scan.eq_4]
    · rw [back]
      cases scan rest <;> rfl
    · intro a b c d cs unit
      exact absurd unit other
  · next long =>
    split
    · next control =>
      rw [List.cons_append, List.cons_append, List.cons_append, List.cons_append, List.cons_append,
        List.singleton_append, scan, unit?_control control]
      rcases scan rest with _ | ⟨ps, after⟩
      · rfl
      · dsimp only
        rw [ofUnit_toNat control]
        rfl
    · next printable =>
      -- Neither the quote nor the backslash is left to stand for itself.
      have quote : c ≠ '"' := by
        rintro rfl
        cases long
      have backslash : c ≠ '\\' := by
        rintro rfl
        cases long
      rw [List.singleton_append, scan, if_neg (not_or.mpr ⟨printable, backslash⟩)]
      · cases scan rest <;> rfl
      · exact fun same => quote same
      · intro _ _ _ _ _ same
        exact absurd same backslash
      · intro _ _ same
        exact absurd same backslash

theorem scan_escaped (s : List Char) (rest : List Char) :
    scan (s.flatMap escaped ++ '"' :: rest) = some (s.map .plain, rest) := by
  induction s with
  | nil => rfl
  | cons c s ih =>
    rw [List.flatMap_cons, List.append_assoc, scan_escaped_append, ih]
    rfl

theorem assemble_plain (s : List Char) : assemble (s.map .plain) = some s := by
  induction s with
  | nil => rfl
  | cons c s ih => rw [List.map_cons, assemble, ih, Option.map_some]

end Quoted

namespace Token

/-- The token can be read again: the fraction of a numeral is made of digits. -/
def Legible : Token → Prop
  | number n => ∀ c ∈ n.fraction, c.isDigit
  | _ => True

instance : DecidablePred Legible
  | number n => List.decidableBAll (fun c : Char => c.isDigit) n.fraction
  | openArray | closeArray | openObject | closeObject | comma | colon | null | bool _ | text _ =>
    inferInstanceAs (Decidable True)

def isNumber : Token → Bool
  | number _ => true
  | _ => false

theorem scan_of_numeral {c : Char} (cs : List Char) (starts : c = '-' ∨ c.isDigit) :
    isBlank c = false ∧
    scan c cs = (Numeral.scan (c :: cs)).map fun (n, after) => (number n, after) := by
  have other : ∀ d : Char, d ≠ '-' → d.isDigit = false → c ≠ d := by
    rintro d minus digit rfl
    rcases starts with same | yes
    · exact minus same
    · rw [yes] at digit
      cases digit
  constructor
  · simp [isBlank, other ' ' (by decide) (by decide), other '\n' (by decide) (by decide),
      other '\r' (by decide) (by decide), other '\t' (by decide) (by decide)]
  · unfold scan
    split
    case h_11 => cases Numeral.scan (c :: cs) <;> rfl
    all_goals exact absurd rfl (other _ (by decide) (by decide))

theorem scan_quoted (s : String) (rest : List Char) :
    scan '"' (s.toList.flatMap Quoted.escaped ++ '"' :: rest) = some (text (some s), rest) := by
  rw [scan, Quoted.scan_escaped]
  dsimp only
  rw [Quoted.assemble_plain, Option.map_some, String.ofList_toList]

end Token

theorem lex_of_scan {c : Char} {cs after : List Char} {t : Token}
    (visible : Token.isBlank c = false) (scanned : Token.scan c cs = some (t, after)) :
    lex (c :: cs) = (lex after).map (t :: ·) := by
  rw [lex, visible, if_neg Bool.false_ne_true]
  split
  · next found =>
    rw [scanned] at found
    cases found
    rfl
  · next missing =>
    rw [scanned] at missing
    cases missing

/-- A token is read as it is written, and reading goes on behind it. -/
theorem lex_chars_append {t : Token} {rest : List Char} (legible : t.Legible)
    (stops : t.isNumber → Numeral.Stops rest) :
    lex (t.chars ++ rest) = (lex rest).map (t :: ·) := by
  cases t with
  | number n =>
    obtain ⟨c, cs, same, starts⟩ := n.chars_eq_cons
    have scanned := n.scan_chars_append legible (stops rfl)
    obtain ⟨visible, numeral⟩ := Token.scan_of_numeral (cs ++ rest) starts
    rw [same, List.cons_append] at scanned
    rw [scanned, Option.map_some] at numeral
    rw [Token.chars, same, List.cons_append]
    exact lex_of_scan visible numeral
  | text s =>
    cases s with
    | some s =>
      rw [Token.chars, Quoted.chars, List.append_assoc, List.singleton_append]
      exact lex_of_scan (by decide) (Token.scan_quoted s rest)
    | none => exact lex_of_scan (by decide) rfl
  | bool b => cases b <;> exact lex_of_scan (by decide) rfl
  | openArray | closeArray | openObject | closeObject | comma | colon | null =>
    exact lex_of_scan (by decide) rfl

end Json

end Wordcode
