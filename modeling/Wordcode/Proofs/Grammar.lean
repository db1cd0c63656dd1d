import Wordcode.Proofs.Reading

/-!
# The grammar of valid streams

`Plain` bytes are well-formed records without a return, one after another. `Verdict` says in their
terms what is valid and what is first wrong with any stream, without decoding it. Every stream has
a verdict (`exists_verdict`), and validation reports it (`validate_eq`).
-/

namespace Wordcode

/-- Well-formed records one after another, none of which is a return. -/
inductive Plain : List UInt8 → Prop where
  | nil : Plain []
  | nop {rest : List UInt8} (more : Plain rest) : Plain (Opcode.nop.byte :: rest)
  | push (k : Kind) {operand rest : List UInt8} (whole : operand.length = k.width.bytes)
      (more : Plain rest) : Plain ((Opcode.push k).byte :: (operand ++ rest))
  | arith (op : ArithOp) (k : Kind) {rest : List UInt8} (more : Plain rest) :
      Plain ((Opcode.arith op k).byte :: rest)

/-- What there is to say about a stream. A return ends it, or is followed by something, whatever
that is; or else plain records are followed by a byte that is no opcode, by an opcode with too few
bytes behind it, or by nothing. -/
inductive Verdict : List UInt8 → Except StreamError Unit → Prop where
  | valid {front : List UInt8} (plain : Plain front) :
      Verdict (front ++ [Opcode.ret.byte]) (.ok ())
  | codeAfterReturn {front rest : List UInt8} (plain : Plain front) (more : rest ≠ []) :
      Verdict (front ++ Opcode.ret.byte :: rest) (.error (.codeAfterReturn front.length))
  | unknownOpcode {front : List UInt8} {byte : UInt8} (plain : Plain front)
      (unknown : ∀ op : Opcode, byte ≠ op.byte) (rest : List UInt8) :
      Verdict (front ++ byte :: rest) (.error (.decode (.unknownOpcode front.length byte)))
  | truncatedOperand {front operand : List UInt8} {op : Opcode} (plain : Plain front)
      (short : operand.length < op.operandLen) :
      Verdict (front ++ op.byte :: operand)
        (.error (.decode (.truncatedOperand front.length op operand.length)))
  | missingReturn {front : List UInt8} (plain : Plain front) :
      Verdict front (.error .missingReturn)

namespace Instruction

/-- The instruction with given operand bytes. -/
def ofOperand (op : Opcode) (operand : List UInt8) (whole : operand.length = op.operandLen) :
    Instruction :=
  ⟨op, BigEndian.number operand, whole ▸ BigEndian.number_lt operand⟩

theorem encode_ofOperand {op : Opcode} {operand : List UInt8}
    (whole : operand.length = op.operandLen) :
    (ofOperand op operand whole).encode = op.byte :: operand := by
  have bytes := BigEndian.bytes_number operand
  rw [whole] at bytes
  exact congrArg (op.byte :: ·) bytes

/-- A list of instructions has no return, or is cut at its first one. -/
theorem split_at_ret (instructions : List Instruction) :
    (∀ i ∈ instructions, i.opcode ≠ .ret) ∨
    ∃ before after, instructions = before ++ .ret :: after ∧ ∀ i ∈ before, i.opcode ≠ .ret := by
  cases search : instructions.find? (·.opcode = .ret) with
  | none =>
    left
    intro i member
    simpa using List.find?_eq_none.mp search i member
  | some i =>
    right
    obtain ⟨found, before, after, split, unreturned⟩ := List.find?_eq_some_iff_append.mp search
    rw [eq_of_opcode_eq (j := .ret) (of_decide_eq_true found) rfl] at split
    exact ⟨before, after, split, fun j member => by simpa using unreturned j member⟩

end Instruction

theorem Plain.encode_append {i : Instruction} {rest : List UInt8} (other : i.opcode ≠ .ret)
    (more : Plain rest) : Plain (i.encode ++ rest) := by
  obtain ⟨op, immediate, fits⟩ := i
  cases op with
  | nop => exact .nop more
  | push k => exact .push k (BigEndian.length_bytes _ _) more
  | arith op k => exact .arith op k more
  | ret => exact absurd rfl other

/-- Plain bytes are what instructions other than the return are written as. -/
theorem plain_iff_encode {code : List UInt8} :
    Plain code ↔ ∃ instructions : List Instruction,
      (∀ i ∈ instructions, i.opcode ≠ .ret) ∧ code = Stream.encode instructions := by
  constructor
  · intro plain
    induction plain with
    | nil => exact ⟨[], nofun, rfl⟩
    | nop _ ih =>
      obtain ⟨following, others, rfl⟩ := ih
      exact ⟨.nop :: following, List.forall_mem_cons.mpr ⟨nofun, others⟩, rfl⟩
    | push k whole _ ih =>
      obtain ⟨following, others, rfl⟩ := ih
      refine ⟨.ofOperand (.push k) _ whole :: following, ?_, ?_⟩
      · exact List.forall_mem_cons.mpr ⟨nofun, others⟩
      · have written := @Instruction.encode_ofOperand (.push k) _ whole
        exact congrArg (· ++ Stream.encode following) written.symm
    | arith op k _ ih =>
      obtain ⟨following, others, rfl⟩ := ih
      exact ⟨.arith op k :: following, List.forall_mem_cons.mpr ⟨nofun, others⟩, rfl⟩
  · rintro ⟨instructions, others, rfl⟩
    induction instructions with
    | nil => exact .nil
    | cons i rest ih =>
      obtain ⟨other, others⟩ := List.forall_mem_cons.mp others
      exact (ih others).encode_append other

/-- Plain bytes are those that decode to the end without a return. -/
theorem plain_iff_decode {code : List UInt8} :
    Plain code ↔ (Stream.decode code).failure = none ∧
      ∀ r ∈ (Stream.decode code).records, r.opcode ≠ .ret := by
  rw [plain_iff_encode, Stream.failure_eq_none_iff]
  constructor
  · rintro ⟨instructions, others, rfl⟩
    rw [Stream.decode_encode]
    exact ⟨⟨instructions, rfl⟩, (Stream.opcode_layout_iff (· ≠ .ret)).mpr others⟩
  · rintro ⟨⟨instructions, rfl⟩, unreturned⟩
    rw [Stream.decode_encode] at unreturned
    exact ⟨instructions, (Stream.opcode_layout_iff (· ≠ .ret)).mp unreturned, rfl⟩

namespace Program

theorem validate_encode {before : List Instruction} (k : Option Kind)
    (unreturned : ∀ i ∈ before, i.opcode ≠ .ret) :
    validate ⟨Stream.encode before, k⟩ = .error .missingReturn := by
  rw [validate, Stream.decode_encode, Decoded.check]
  dsimp only
  rw [Stream.find?_layout_eq_none unreturned]

theorem validate_of_unread {before : List Instruction} {byte : UInt8} {rest : List UInt8}
    {e : DecodeError} (k : Option Kind) (unreturned : ∀ i ∈ before, i.opcode ≠ .ret)
    (unread : Instruction.decode (Stream.encode before).length byte rest = .error e) :
    validate ⟨Stream.encode before ++ byte :: rest, k⟩ = .error (.decode e) := by
  have stuck : Stream.decodeFrom (0 + (Stream.encode before).length) (byte :: rest) =
      ⟨[], some e⟩ := by
    rw [Stream.decodeFrom, Nat.zero_add, unread]
  rw [validate, Stream.decode, Stream.decodeFrom_encode_append, stuck, Decoded.check]
  dsimp only
  rw [List.append_nil, Stream.find?_layout_eq_none unreturned]

end Program

namespace Verdict

theorem validate_eq {code : List UInt8} {result : Except StreamError Unit}
    (verdict : Verdict code result) (k : Option Kind) : Program.validate ⟨code, k⟩ = result := by
  cases verdict with
  | valid plain =>
    obtain ⟨before, unreturned, rfl⟩ := plain_iff_encode.mp plain
    rw [Program.validate_append_ret [] k unreturned, if_pos rfl]
  | @codeAfterReturn _ rest plain more =>
    obtain ⟨before, unreturned, rfl⟩ := plain_iff_encode.mp plain
    rw [Program.validate_append_ret rest k unreturned, if_neg more]
  | unknownOpcode plain unknown rest =>
    obtain ⟨before, unreturned, rfl⟩ := plain_iff_encode.mp plain
    apply Program.validate_of_unread k unreturned
    exact Instruction.decode_eq_error_iff.mpr (.inl ⟨unknown, rfl⟩)
  | @truncatedOperand _ _ op plain short =>
    obtain ⟨before, unreturned, rfl⟩ := plain_iff_encode.mp plain
    apply Program.validate_of_unread k unreturned
    exact Instruction.decode_eq_error_iff.mpr (.inr ⟨op, rfl, short, rfl⟩)
  | missingReturn plain =>
    obtain ⟨before, unreturned, rfl⟩ := plain_iff_encode.mp plain
    exact Program.validate_encode k unreturned

theorem of_return {front : List UInt8} (plain : Plain front) (rest : List UInt8) :
    ∃ result, Verdict (front ++ Opcode.ret.byte :: rest) result := by
  by_cases last : rest = []
  · rw [last]
    exact ⟨_, .valid plain⟩
  · exact ⟨_, .codeAfterReturn plain last⟩

/-- Every stream has a verdict: the instructions that can be read have a first return or none, and
without one the place decides where reading stops. -/
theorem exists_verdict (code : List UInt8) : ∃ result, Verdict code result := by
  obtain ⟨instructions, ending⟩ := Stream.decodeFrom_cases 0 code
  rcases Instruction.split_at_ret instructions with unreturned | ⟨before, after, rfl, unreturned⟩
  · have plain := plain_iff_encode.mpr ⟨instructions, unreturned, rfl⟩
    obtain ⟨rfl, _⟩ | ⟨byte, rest, e, rfl, unread, _⟩ := ending
    · exact ⟨_, .missingReturn plain⟩
    · rcases Instruction.decode_eq_error_iff.mp unread with ⟨unknown, _⟩ | ⟨op, rfl, short, _⟩
      · exact ⟨_, .unknownOpcode plain unknown rest⟩
      · exact ⟨_, .truncatedOperand plain short⟩
  · have plain := plain_iff_encode.mpr ⟨before, unreturned, rfl⟩
    rw [Stream.encode_append, Stream.encode_cons] at ending
    obtain ⟨rfl, _⟩ | ⟨byte, rest, e, rfl, _⟩ := ending
    · exact of_return plain (Stream.encode after)
    · rw [List.append_assoc]
      exact of_return plain (Stream.encode after ++ byte :: rest)

end Verdict

theorem Program.validate_eq_ok_iff {p : Program} :
    p.validate = .ok () ↔ ∃ before : List Instruction,
      (∀ i ∈ before, i.opcode ≠ .ret) ∧ p.code = Stream.encode (before ++ [.ret]) := by
  obtain ⟨code, k⟩ := p
  constructor
  · intro valid
    obtain ⟨result, verdict⟩ := Verdict.exists_verdict code
    rw [verdict.validate_eq k] at valid
    subst valid
    cases verdict with
    | valid plain =>
      obtain ⟨before, unreturned, rfl⟩ := plain_iff_encode.mp plain
      refine ⟨before, unreturned, ?_⟩
      rw [Stream.encode_append]
      rfl
  · rintro ⟨before, unreturned, rfl⟩
    rw [validate_encode_ret [] k unreturned, if_pos rfl]

/-- Validation reports the verdict on the stream: it accepts exactly plain records with a return at
their end, and otherwise names the first thing that is wrong. Plain records are those that decode
to the end without a return. -/
theorem Program.validate_eq_iff_verdict (p : Program) :
    (∀ result, p.validate = result ↔ Verdict p.code result) ∧
    ∀ front, Plain front ↔ (Stream.decode front).failure = none ∧
      ∀ r ∈ (Stream.decode front).records, r.opcode ≠ .ret := by
  refine ⟨?_, fun _ => plain_iff_decode⟩
  intro result
  constructor
  · rintro rfl
    obtain ⟨result, verdict⟩ := Verdict.exists_verdict p.code
    rw [verdict.validate_eq p.resultKind]
    exact verdict
  · intro verdict
    exact verdict.validate_eq p.resultKind

end Wordcode
