import Mathlib.Data.List.TakeWhile
import Wordcode.Listing
import Wordcode.Proofs.Reading
import Wordcode.Proofs.Wrapping

/-!
# Listings are read back

`Listing.assemble?` makes bytes of the text of a listing and of nothing else: on each line the
mnemonic names the opcode, and the number behind it is reduced to the width of the operand. A line
shows an offset, an opcode and a number (`ofLine?_body`), and these are enough to write the record
(`bytes?_entry`).
-/

namespace Wordcode

namespace Digits

def natural? (digits : List Char) : Option Nat :=
  if digits ≠ [] ∧ digits.all Char.isDigit then some (value digits) else none

def integer? : List Char → Option Int
  | '-' :: digits => (natural? digits).map fun n => -(n : Int)
  | digits => (natural? digits).map fun n => (n : Int)

theorem isDigit_padded {width n : Nat} {c : Char} (member : c ∈ padded width n) : c.isDigit := by
  rcases List.mem_append.mp member with zero | digit
  · rw [List.eq_of_mem_replicate zero]
    rfl
  · exact isDigit_decimal digit

theorem natural?_padded (width n : Nat) : natural? (padded width n) = some n := by
  have digits : (padded width n).all Char.isDigit := List.all_eq_true.mpr fun _ => isDigit_padded
  have present : padded width n ≠ [] := by
    obtain ⟨d, ds, same, _⟩ := decimal_eq_cons n
    simp [padded, same]
  have number : value (padded width n) = n := by
    rw [value, padded, Nat.ofDigitChars_append, Nat.ofDigitChars_replicate_zero, Nat.mul_zero]
    exact value_decimal n
  rw [natural?, if_pos ⟨present, digits⟩, number]

theorem natural?_decimal (n : Nat) : natural? (decimal n) = some n := by
  have plain := natural?_padded 0 n
  rwa [padded, Nat.zero_sub] at plain

theorem integer?_signed (n : Int) : integer? (signed n) = some n := by
  cases n with
  | ofNat n =>
    obtain ⟨d, ds, same, digit⟩ := decimal_eq_cons n
    have plain : integer? (decimal n) = (natural? (decimal n)).map fun n => (n : Int) := by
      rw [same]
      unfold integer?
      split
      · next first =>
        cases first
        cases digit
      · rfl
    rw [signed, plain, natural?_decimal]
    rfl
  | negSucc n =>
    rw [signed, integer?, natural?_decimal]
    rfl

theorem of_mem_signed {n : Int} {c : Char} (member : c ∈ signed n) : c = '-' ∨ c.isDigit := by
  cases n with
  | ofNat n => exact .inr (isDigit_decimal member)
  | negSucc n =>
    rcases List.mem_cons.mp member with sign | digit
    · exact .inl sign
    · exact .inr (isDigit_decimal digit)

end Digits

namespace Opcode

/-- Every operation, in the order of its byte. -/
def all : List Opcode :=
  nop :: Kind.all.map push ++ ArithOp.all.flatMap (fun op => Kind.all.map (arith op)) ++ [ret]

def ofName? (name : String) : Option Opcode := all.find? (·.name = name)

theorem ofName?_name (op : Opcode) : ofName? op.name = some op := by
  match op with
  | nop | ret => rfl
  | push ⟨w, s⟩ => cases w <;> cases s <;> rfl
  | arith op ⟨w, s⟩ => cases op <;> cases w <;> cases s <;> rfl

theorem of_mem_suffix {k : Kind} {c : Char} (member : c ∈ (suffix k).toList) :
    c ≠ ' ' ∧ c ≠ '\n' := by
  obtain ⟨w, s⟩ := k
  cases w <;> cases s <;> revert c <;> simp [suffix, Width.digits]

theorem of_mem_name {op : Opcode} {c : Char} (member : c ∈ op.name.toList) :
    c ≠ ' ' ∧ c ≠ '\n' := by
  cases op with
  | nop | ret => revert c; simp [name]
  | push k =>
    rw [name, String.toList_append, List.mem_append] at member
    rcases member with family | kind
    · revert c; simp
    · exact of_mem_suffix kind
  | arith op k =>
    rw [name, String.toList_append, List.mem_append] at member
    rcases member with family | kind
    · cases op <;> revert c <;> simp [ArithOp.name]
    · exact of_mem_suffix kind

end Opcode

namespace Listing

/-- What a line shows: an offset, an operation and, behind some operations, a number. -/
structure Entry where
  offset : Nat
  opcode : Opcode
  number : Option Int
  deriving DecidableEq

/-- The lines of a text, without the characters that end them. -/
def lines : List Char → List (List Char)
  | [] => []
  | c :: rest =>
    if c = '\n' then [] :: lines rest
    else
      match lines rest with
      | [] => [[c]]
      | line :: others => (c :: line) :: others

namespace Entry

/-- Reads a line: the offset up to a colon, the mnemonic up to a blank, the number behind it. -/
def ofLine? (line : List Char) : Option Entry :=
  match line.dropWhile (· ≠ ':') with
  | ':' :: ' ' :: text => do
    let offset ← Digits.natural? (line.takeWhile (· ≠ ':'))
    let opcode ← Opcode.ofName? (String.ofList (text.takeWhile (· ≠ ' ')))
    match text.dropWhile (· ≠ ' ') with
    | [] => return ⟨offset, opcode, none⟩
    | _ :: digits => return ⟨offset, opcode, some (← Digits.integer? digits)⟩
  | _ => none

/-- The bytes of a line. A number stands behind a push and nowhere else; its residue is written, the
most significant byte first, in as many bytes as the operand has. -/
def bytes? (e : Entry) : Option (List UInt8) :=
  match e.opcode.isPush, e.number with
  | true, some n =>
    let residue := n % 2 ^ (8 * e.opcode.operandLen)
    some (e.opcode.byte :: BigEndian.bytes residue.toNat e.opcode.operandLen)
  | false, none => some [e.opcode.byte]
  | _, _ => none

end Entry

def entries? (text : String) : Option (List Entry) := (lines text.toList).mapM Entry.ofLine?

/-- The bytes that a listing was made from, by its text alone. -/
def assemble? (text : String) : Option (List UInt8) := do
  let entries ← entries? text
  return (← entries.mapM Entry.bytes?).flatten

theorem lines_append {line : List Char} (whole : '\n' ∉ line) (rest : List Char) :
    lines (line ++ '\n' :: rest) = line :: lines rest := by
  induction line with
  | nil => rw [List.nil_append, lines, if_pos rfl]
  | cons c line ih =>
    obtain ⟨other, whole⟩ := not_or.mp (List.mem_cons.not.mp whole)
    rw [List.cons_append, lines, if_neg (Ne.symm other), ih whole]

theorem lines_flatMap_newline {α : Type} {body : α → List Char} (whole : ∀ a, '\n' ∉ body a)
    (xs : List α) : lines (xs.flatMap fun a => body a ++ ['\n']) = xs.map body := by
  induction xs with
  | nil => rfl
  | cons a rest ih =>
    rw [List.flatMap_cons, List.append_assoc, List.singleton_append, lines_append (whole a), ih,
      List.map_cons]

theorem span_ne {c : Char} {front : List Char} (absent : c ∉ front) (rest : List Char) :
    (front ++ c :: rest).takeWhile (· ≠ c) = front ∧
      (front ++ c :: rest).dropWhile (· ≠ c) = c :: rest := by
  have different : ∀ d ∈ front, decide (d ≠ c) := by
    intro d member
    exact decide_eq_true fun same => absent (same ▸ member)
  rw [List.takeWhile_append_of_pos different, List.dropWhile_append_of_pos different]
  simp

end Listing

theorem Instruction.shown?_of_push {i : Instruction} {k : Kind} (pushes : i.opcode = .push k) :
    i.shown? = some (k.integer (UInt64.ofNat i.immediate)) := by
  unfold shown?
  rw [pushes]
  dsimp only
  cases signed : k.signed with
  | true => rw [if_pos rfl, Word.signed, ← Word.toInt_toInt64, Kind.toInt_normalize signed]
  | false =>
    simp only [Kind.normalize, Kind.integer, signed, Bool.false_eq_true, false_and, if_false,
      Kind.toNat_truncate]

namespace Record

/-- The line of the record without the character that ends it. -/
def body (r : Record) : List Char :=
  Digits.padded 4 r.offset ++ ':' :: ' ' :: r.instruction.render

def entry (r : Record) : Listing.Entry := ⟨r.offset, r.opcode, r.instruction.shown?⟩

theorem line_eq_body (r : Record) : r.line = r.body ++ ['\n'] := by
  simp [line, body]

theorem newline_not_mem_body (r : Record) : '\n' ∉ r.body := by
  have offset : '\n' ∉ Digits.padded 4 r.offset := fun member =>
    absurd (Digits.isDigit_padded member) (by decide)
  have word : '\n' ∉ r.instruction.opcode.name.toList := fun member =>
    (Opcode.of_mem_name member).2 rfl
  have number : ∀ n, '\n' ∉ Digits.signed n := by
    intro n member
    rcases Digits.of_mem_signed member with sign | digit
    · cases sign
    · cases digit
  unfold body Instruction.render
  cases r.instruction.shown? <;> simp [offset, word, number]

theorem ofLine?_body (r : Record) : Listing.Entry.ofLine? r.body = some r.entry := by
  obtain ⟨offset, i⟩ := r
  have colon : ':' ∉ Digits.padded 4 offset := fun member =>
    absurd (Digits.isDigit_padded member) (by decide)
  obtain ⟨taken, dropped⟩ := Listing.span_ne colon (' ' :: i.render)
  unfold Listing.Entry.ofLine? body entry
  simp only [taken, dropped, Digits.natural?_padded]
  unfold Instruction.render
  cases i.shown? with
  | none =>
    have word : ∀ c ∈ i.opcode.name.toList, decide (c ≠ ' ') := fun c member =>
      decide_eq_true (Opcode.of_mem_name member).1
    simp only [List.takeWhile_eq_self_iff.mpr word, List.dropWhile_eq_nil_iff.mpr word,
      String.ofList_toList, Opcode.ofName?_name]
    rfl
  | some n =>
    have blank : ' ' ∉ i.opcode.name.toList := fun member => (Opcode.of_mem_name member).1 rfl
    obtain ⟨taken, dropped⟩ := Listing.span_ne blank (Digits.signed n)
    simp only [taken, dropped, String.ofList_toList, Opcode.ofName?_name, Option.bind_eq_bind,
      Option.bind_some, Digits.integer?_signed]
    rfl

theorem bytes?_entry (r : Record) : r.entry.bytes? = some r.instruction.encode := by
  obtain ⟨offset, i⟩ := r
  cases same : i.opcode with
  | push k =>
    have shown := Instruction.shown?_of_push same
    have residue : (k.integer (UInt64.ofNat i.immediate) %
        2 ^ (8 * (Opcode.push k).operandLen)).toNat = i.immediate := by
      have exact := Instruction.integer_emod same
      rw [Kind.bits, Width.bits] at exact
      rw [Opcode.operandLen, exact, Int.toNat_natCast]
    simp only [entry, Listing.Entry.bytes?, opcode, same, shown, Opcode.isPush, residue,
      Instruction.encode]
  | nop | ret | arith =>
    simp [entry, Listing.Entry.bytes?, opcode, same, Instruction.shown?, Opcode.isPush,
      Instruction.encode, Opcode.operandLen, BigEndian.bytes]

end Record

namespace Listing

theorem lines_flatMap (records : List Record) :
    lines (records.flatMap (·.line)) = records.map (·.body) := by
  simp only [Record.line_eq_body]
  exact lines_flatMap_newline Record.newline_not_mem_body records

theorem entries?_flatMap (records : List Record) :
    entries? (String.ofList (records.flatMap (·.line))) = some (records.map (·.entry)) := by
  rw [entries?, String.toList_ofList, lines_flatMap, List.mapM_map,
    show Entry.ofLine? ∘ Record.body = fun r => some r.entry from funext Record.ofLine?_body]
  exact List.mapM_pure

theorem assemble?_flatMap (records : List Record) :
    assemble? (String.ofList (records.flatMap (·.line))) =
      some (Stream.encode (records.map (·.instruction))) := by
  have pieces : (records.map (·.entry)).mapM Entry.bytes? =
      some (records.map (·.instruction.encode)) := by
    rw [List.mapM_map,
      show Entry.bytes? ∘ Record.entry = fun r => some r.instruction.encode from
        funext Record.bytes?_entry]
    exact List.mapM_pure
  simp only [assemble?, entries?_flatMap, Option.bind_eq_bind, Option.bind_some, pieces]
  rw [Stream.encode, List.flatMap_map, List.flatMap_def]
  rfl

example : assemble? "0000: PUSH_I8 -1\n0002: PUSH_U8 255\n0004: ADD_I8\n0005: RET\n" =
    some [0x01, 0xFF, 0x02, 0xFF, 0x10, 0x50] := by rfl

end Listing

namespace Program

theorem disassemble_eq_error_iff {p : Program} {e : DecodeError} :
    p.disassemble = .error e ↔ (Stream.decode p.code).failure = some e := by
  unfold disassemble
  cases met : (Stream.decode p.code).failure <;> simp [met]

theorem disassemble_eq_ok_iff {p : Program} {text : String} :
    p.disassemble = .ok text ↔ (Stream.decode p.code).failure = none ∧
      text = String.ofList ((Stream.decode p.code).records.flatMap (·.line)) := by
  unfold disassemble
  cases met : (Stream.decode p.code).failure <;> simp [met, eq_comm]

theorem assemble?_of_disassemble {p : Program} {text : String}
    (listed : p.disassemble = .ok text) : Listing.assemble? text = some p.code := by
  obtain ⟨clean, rfl⟩ := disassemble_eq_ok_iff.mp listed
  obtain ⟨instructions, whole⟩ := Stream.failure_eq_none_iff.mp clean
  rw [Listing.assemble?_flatMap, whole, Stream.decode_encode, Stream.map_instruction_layout]

/-- A listing is faithful. There is none exactly where decoding ends in an error, which is then
reported. Otherwise it has a line for each record, which shows the record's own offset, and the
bytes of the stream are recovered from its text. So streams with the same listing are the same. -/
theorem disassemble_faithful (p : Program) :
    let d := Stream.decode p.code
    (∀ e, p.disassemble = .error e ↔ d.failure = some e) ∧
    (d.failure = none → ∃ text, p.disassemble = .ok text ∧
      (Listing.lines text.toList).length = d.records.length ∧
      Listing.entries? text =
        some (d.records.map fun r => ⟨r.offset, r.opcode, r.instruction.shown?⟩) ∧
      Listing.assemble? text = some p.code) ∧
    ∀ q : Program, d.failure = none → q.disassemble = p.disassemble → q.code = p.code := by
  intro d
  have listed : d.failure = none →
      p.disassemble = .ok (String.ofList (d.records.flatMap (·.line))) :=
    fun clean => disassemble_eq_ok_iff.mpr ⟨clean, rfl⟩
  refine ⟨fun _ => disassemble_eq_error_iff, ?_, ?_⟩
  · intro clean
    refine ⟨_, listed clean, ?_, Listing.entries?_flatMap d.records,
      assemble?_of_disassemble (listed clean)⟩
    rw [String.toList_ofList, Listing.lines_flatMap, List.length_map]
  · intro q clean same
    have recovered := assemble?_of_disassemble (listed clean)
    rw [assemble?_of_disassemble (same.trans (listed clean))] at recovered
    exact Option.some.inj recovered

end Program

end Wordcode
