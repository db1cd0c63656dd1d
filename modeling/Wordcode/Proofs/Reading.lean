import Mathlib.Algebra.GroupWithZero.Nat
import Wordcode.Lowering
import Wordcode.Proofs.Encoding

/-!
# Reading any stream

A stream need not have been written as one. `decodeFrom_cases` says what reading makes of any
bytes: it takes whole instructions off their front, and stops at their end or at the first place
where no instruction can be read. A `Cursor` is asked for one record after another; its answers are
the decoded records and, after them, the error (`answer_start`).
-/

namespace Wordcode

theorem Opcode.ofByte?_eq_some_iff {b : UInt8} {op : Opcode} :
    ofByte? b = some op ↔ b = op.byte := by
  constructor
  · intro read
    exact (byte_of_ofByte? read).symm
  · rintro rfl
    exact ofByte?_byte op

theorem Opcode.ofByte?_eq_none_iff {b : UInt8} :
    ofByte? b = none ↔ ∀ op : Opcode, b ≠ op.byte := by
  rw [Option.eq_none_iff_forall_ne_some]
  exact forall_congr' fun _ => not_congr ofByte?_eq_some_iff

namespace Instruction

/-- The instructions are the opcodes with an immediate of the operand's width, and with zero where
there is no operand. -/
theorem exists_instruction_iff {op : Opcode} {n : Nat} :
    (∃ i : Instruction, i.opcode = op ∧ i.immediate = n) ↔
      if op.isPush then n < 2 ^ (8 * op.operandLen) else n = 0 := by
  have bound : n < 256 ^ op.operandLen ↔
      if op.isPush then n < 2 ^ (8 * op.operandLen) else n = 0 := by
    cases op with
    | push k => rw [Nat.pow_mul]; rfl
    | nop | arith | ret => simp [Opcode.operandLen, Opcode.isPush]
  rw [← bound]
  constructor
  · rintro ⟨i, rfl, rfl⟩
    exact i.fits
  · intro fits
    exact ⟨⟨op, n, fits⟩, rfl, rfl⟩

/-- Without an operand the opcode is all there is to an instruction. -/
theorem eq_of_opcode_eq {i j : Instruction} (same : i.opcode = j.opcode)
    (bare : j.opcode.operandLen = 0) : i = j := by
  have left := i.fits
  have right := j.fits
  rw [same, bare, Nat.pow_zero] at left
  rw [bare, Nat.pow_zero] at right
  exact Instruction.ext same (by omega)

theorem decode_eq_error_iff {offset : Nat} {byte : UInt8} {rest : List UInt8} {e : DecodeError} :
    decode offset byte rest = .error e ↔
      (∀ op : Opcode, byte ≠ op.byte) ∧ e = .unknownOpcode offset byte ∨
      ∃ op : Opcode, byte = op.byte ∧ rest.length < op.operandLen ∧
        e = .truncatedOperand offset op rest.length := by
  simp only [← Opcode.ofByte?_eq_none_iff, ← Opcode.ofByte?_eq_some_iff]
  unfold decode
  cases Opcode.ofByte? byte with
  | none => simp [eq_comm]
  | some op =>
    dsimp only
    split
    · next whole =>
      rw [List.length_take] at whole
      constructor
      · intro impossible
        cases impossible
      · rintro (⟨unknown, _⟩ | ⟨_, ⟨⟩, short, _⟩)
        · cases unknown
        · omega
    · next short =>
      rw [List.length_take] at short
      constructor
      · intro failed
        cases failed
        exact .inr ⟨op, rfl, by omega, rfl⟩
      · rintro (⟨unknown, _⟩ | ⟨_, ⟨⟩, _, rfl⟩)
        · cases unknown
        · rfl

end Instruction

namespace Stream

/-- What reading makes of any bytes: whole instructions up to their end, or up to a place where no
instruction can be read. -/
theorem decodeFrom_cases (offset : Nat) (code : List UInt8) :
    ∃ instructions,
      code = encode instructions ∧
        decodeFrom offset code = ⟨layout offset instructions, none⟩ ∨
      ∃ byte rest e, code = encode instructions ++ byte :: rest ∧
        Instruction.decode (offset + (encode instructions).length) byte rest = .error e ∧
        decodeFrom offset code = ⟨layout offset instructions, some e⟩ := by
  fun_induction decodeFrom offset code with
  | case1 offset => exact ⟨[], .inl ⟨rfl, rfl⟩⟩
  | case2 offset byte rest e unread => exact ⟨[], .inr ⟨byte, rest, e, rfl, unread, rfl⟩⟩
  | case3 offset byte rest i read tail ih =>
    -- The instruction that was read goes in front of those of the rest.
    have front := Instruction.eq_encode_append read
    obtain ⟨following, ⟨code, decoded⟩ | ⟨next, left, e, code, unread, decoded⟩⟩ := ih
    · refine ⟨i :: following, .inl ⟨?_, ?_⟩⟩
      · rw [front, code, encode_cons]
      · rw [show tail = _ from decoded, layout]
    · refine ⟨i :: following, .inr ⟨next, left, e, ?_, ?_, ?_⟩⟩
      · rw [front, code, encode_cons, List.append_assoc]
      · rw [encode_cons, List.length_append, Instruction.length_encode, ← Nat.add_assoc]
        exact unread
      · rw [show tail = _ from decoded, layout]

/-- The records of a stream are those of the instructions it begins with; only where nothing is left
after them does reading end without an error. -/
theorem exists_rest (code : List UInt8) :
    ∃ instructions rest, code = encode instructions ++ rest ∧
      (decode code).records = layout 0 instructions ∧
      ((decode code).failure = none ↔ rest = []) := by
  obtain ⟨instructions, ⟨whole, decoded⟩ | ⟨byte, rest, e, cut, _, decoded⟩⟩ :=
    decodeFrom_cases 0 code
  · refine ⟨instructions, [], ?_, congrArg _ decoded, ?_⟩
    · rw [List.append_nil, whole]
    · exact iff_of_true (congrArg _ decoded) rfl
  · refine ⟨instructions, byte :: rest, cut, congrArg _ decoded, ?_⟩
    rw [decode, decoded]
    simp

theorem failure_eq_none_iff {code : List UInt8} :
    (decode code).failure = none ↔ ∃ instructions, code = encode instructions := by
  constructor
  · intro clean
    obtain ⟨instructions, rest, whole, _, finished⟩ := exists_rest code
    exact ⟨instructions, by rw [whole, finished.mp clean, List.append_nil]⟩
  · rintro ⟨instructions, rfl⟩
    rw [decode_encode]

/-- The first record starts at `offset`, and each other one where the record before it ends. -/
def Contiguous (offset : Nat) : List Record → Prop
  | [] => True
  | r :: rest => r.offset = offset ∧ Contiguous r.next rest

theorem contiguous_layout (offset : Nat) (instructions : List Instruction) :
    Contiguous offset (layout offset instructions) := by
  induction instructions generalizing offset with
  | nil => trivial
  | cons i rest ih => exact ⟨rfl, ih _⟩

theorem map_instruction_layout (offset : Nat) (instructions : List Instruction) :
    (layout offset instructions).map (·.instruction) = instructions := by
  have same := map_layout id offset instructions
  rwa [List.map_id] at same

theorem encode_inj {first second : List Instruction} (same : encode first = encode second) :
    first = second := by
  have decoded := congrArg decode same
  rw [decode_encode, decode_encode] at decoded
  rw [← map_instruction_layout 0 first, ← map_instruction_layout 0 second,
    (Decoded.mk.inj decoded).1]

theorem offset_layout {offset i : Nat} {instructions : List Instruction} {r : Record}
    (found : (layout offset instructions)[i]? = some r) :
    r.offset = offset + (((layout offset instructions).take i).map (·.instruction.size)).sum := by
  induction instructions generalizing offset i with
  | nil => cases found
  | cons instruction rest ih =>
    rw [layout] at found ⊢
    cases i with
    | zero =>
      cases found
      rfl
    | succ i =>
      rw [List.getElem?_cons_succ] at found
      rw [ih found, List.take_succ_cons, List.map_cons, List.sum_cons, Nat.add_assoc]

theorem length_encode (instructions : List Instruction) :
    (encode instructions).length = (instructions.map (·.size)).sum := by
  induction instructions with
  | nil => rfl
  | cons i rest ih =>
    rw [encode_cons, List.length_append, Instruction.length_encode, ih, List.map_cons,
      List.sum_cons]

theorem eq_nil_of_length_encode {first second : List Instruction}
    (same : (encode (first ++ second)).length = (encode first).length) : second = [] := by
  rw [encode_append, List.length_append] at same
  exact encode_eq_nil_iff.mp (List.eq_nil_of_length_eq_zero (by omega))

/-- Each instruction takes at least one byte, so the bytes before a place tell the instructions. -/
theorem eq_of_length_encode {before after before' after' : List Instruction}
    (same : before ++ after = before' ++ after')
    (length : (encode before).length = (encode before').length) : before = before' := by
  rcases List.append_eq_append_iff.mp same with ⟨more, rfl, _⟩ | ⟨more, rfl, _⟩
  · rw [eq_nil_of_length_encode length.symm, List.append_nil]
  · rw [eq_nil_of_length_encode length, List.append_nil]

/-- A record is read at a place exactly when the bytes of its instruction stand there. -/
theorem decodeAt?_eq_ok_iff {code : List UInt8} {offset : Nat} {r : Record} :
    decodeAt? code offset = some (.ok r) ↔
      r.offset = offset ∧ r.instruction.encode <+: code.drop offset := by
  unfold decodeAt?
  constructor
  · intro read
    split at read
    · cases read
    · next byte rest left =>
      cases decoded : Instruction.decode offset byte rest with
      | error e =>
        rw [decoded] at read
        cases read
      | ok i =>
        rw [decoded] at read
        cases read
        rw [Instruction.eq_encode_append decoded] at left
        exact ⟨rfl, _, left.symm⟩
  · rintro ⟨rfl, rest, left⟩
    rw [← left, Instruction.encode, List.cons_append]
    dsimp only
    rw [Instruction.decode_encode_append]
    rfl

theorem decodeAt?_encode_append (before : List Instruction) (i : Instruction) (rest : List UInt8) :
    decodeAt? (encode before ++ (i.encode ++ rest)) (encode before).length =
      some (.ok ⟨(encode before).length, i⟩) := by
  refine decodeAt?_eq_ok_iff.mpr ⟨rfl, ?_⟩
  rw [List.drop_left]
  exact List.prefix_append _ _

theorem le_offset_of_mem_layout {offset : Nat} {instructions : List Instruction} {r : Record}
    (member : r ∈ layout offset instructions) : offset ≤ r.offset := by
  induction instructions generalizing offset with
  | nil => cases member
  | cons i rest ih =>
    rcases List.mem_cons.mp member with rfl | later
    · exact Nat.le_refl offset
    · have bound := ih later
      omega

theorem next_le_of_mem_layout {offset : Nat} {instructions : List Instruction} {r : Record}
    (member : r ∈ layout offset instructions) : r.next ≤ offset + (encode instructions).length := by
  induction instructions generalizing offset with
  | nil => cases member
  | cons i rest ih =>
    rw [encode_cons, List.length_append, Instruction.length_encode]
    rcases List.mem_cons.mp member with rfl | later
    · simp only [Record.next]
      omega
    · have bound := ih later
      omega

end Stream

/-! ### The reader that is asked for one record after another -/

/-- All that reading yields in order: the records and, at the end, the error if there is one. -/
def Decoded.items (d : Decoded) : List (Except DecodeError Record) :=
  d.records.map .ok ++ d.failure.toList.map .error

theorem Stream.drop_next {code rest : List UInt8} {offset : Nat} {byte : UInt8}
    (left : code.drop offset = byte :: rest) (i : Instruction) :
    code.drop (offset + i.size) = rest.drop i.opcode.operandLen := by
  rw [← List.drop_drop, left, Instruction.size, Nat.add_comm, List.drop_succ_cons]

/-- Decoding from a place on: what stands there, and after a record what follows it. -/
theorem Stream.decodeFrom_drop (code : List UInt8) (offset : Nat) :
    decodeFrom offset (code.drop offset) =
      match decodeAt? code offset with
      | none => ⟨[], none⟩
      | some (.error e) => ⟨[], some e⟩
      | some (.ok r) =>
        let tail := decodeFrom r.next (code.drop r.next)
        ⟨r :: tail.records, tail.failure⟩ := by
  unfold decodeAt?
  cases left : code.drop offset with
  | nil => rw [decodeFrom]
  | cons byte rest =>
    rw [decodeFrom]
    dsimp only
    cases Instruction.decode offset byte rest with
    | error e => rfl
    | ok i => simp only [Except.map, Record.next, drop_next left]

theorem Stream.items_decodeFrom (code : List UInt8) (offset : Nat) :
    (decodeFrom offset (code.drop offset)).items =
      match decodeAt? code offset with
      | none => []
      | some (.error e) => [.error e]
      | some (.ok r) => .ok r :: (decodeFrom r.next (code.drop r.next)).items := by
  rw [decodeFrom_drop]
  rcases decodeAt? code offset with _ | e | r <;> rfl

/-- A place in a stream that is being read, and whether an error was met there. -/
structure Cursor where
  offset : Nat
  failed : Bool

namespace Cursor

def start : Cursor := ⟨0, false⟩

/-- Asks for the next record. At the end of the stream there is none, and none after an error. -/
def next (code : List UInt8) (c : Cursor) : Option (Except DecodeError Record) × Cursor :=
  if c.failed then (none, c)
  else
    match Stream.decodeAt? code c.offset with
    | none => (none, c)
    | some (.ok r) => (some (.ok r), ⟨r.next, false⟩)
    | some (.error e) => (some (.error e), ⟨c.offset, true⟩)

/-- The answer to the call that comes after `n` others. -/
def answer (code : List UInt8) (c : Cursor) : Nat → Option (Except DecodeError Record)
  | 0 => (c.next code).1
  | n + 1 => (c.next code).2.answer code n

theorem answer_of_failed (code : List UInt8) (offset n : Nat) :
    answer code ⟨offset, true⟩ n = none := by
  induction n with
  | zero => rfl
  | succ n ih => exact ih

/-- From any place on, the answers are what decoding the rest of the stream yields. -/
theorem answer_eq_items (code : List UInt8) (offset n : Nat) :
    answer code ⟨offset, false⟩ n = (Stream.decodeFrom offset (code.drop offset)).items[n]? := by
  rw [Stream.items_decodeFrom]
  induction n generalizing offset with
  | zero =>
    simp only [answer, next, Bool.false_eq_true, if_false]
    rcases Stream.decodeAt? code offset with _ | e | r <;> rfl
  | succ n ih =>
    simp only [answer, next, Bool.false_eq_true, if_false]
    rcases known : Stream.decodeAt? code offset with _ | e | r
    · -- The end of the stream is asked for again.
      have again := ih offset
      rw [known] at again
      exact again
    · exact answer_of_failed code offset n
    · rw [ih r.next, ← Stream.items_decodeFrom]
      rfl

theorem answer_start (code : List UInt8) (n : Nat) :
    start.answer code n = (Stream.decode code).items[n]? := answer_eq_items code 0 n

end Cursor

theorem Decoded.error_last {d : Decoded} {n m : Nat} {e : DecodeError}
    (error : d.items[n]? = some (.error e)) (later : n < m) : d.items[m]? = none := by
  unfold items at error ⊢
  have reached : d.records.length ≤ n := by
    apply Nat.le_of_not_lt
    intro early
    rw [List.getElem?_append_left (by rwa [List.length_map]), List.getElem?_map] at error
    cases found : d.records[n]? <;> simp [found] at error
  apply List.getElem?_eq_none
  cases d.failure <;> simp <;> omega

theorem Draft.code_foldl_emit (d : Draft) (instructions : List Instruction) :
    (instructions.foldl emit d).code = d.code ++ Stream.encode instructions := by
  induction instructions generalizing d with
  | nil => rw [List.foldl_nil, Stream.encode_nil, List.append_nil]
  | cons i rest ih => rw [List.foldl_cons, ih, emit, Stream.encode_cons, List.append_assoc]

/-- Writing and reading are inverse. Instructions that were written are read back, at offsets that
are the sums of the sizes before them. Whatever can be read to the end is what its records are
written as. Any bytes give contiguous records inside them and at most one error, which comes last
and only where the records do not cover the bytes. -/
theorem Stream.encode_decode_inverse :
    (∀ (op : Opcode) (n : Nat), (∃ i : Instruction, i.opcode = op ∧ i.immediate = n) ↔
      if op.isPush then n < 2 ^ (8 * op.operandLen) else n = 0) ∧
    (∀ instructions : List Instruction,
      let code := instructions.flatMap fun i =>
        i.opcode.byte :: BigEndian.bytes i.immediate i.opcode.operandLen
      (instructions.foldl Draft.emit .empty).code = code ∧
      (decode code).failure = none ∧
      (decode code).records.map (·.instruction) = instructions ∧
      ∀ i r, (decode code).records[i]? = some r →
        r.offset = (((decode code).records.take i).map (·.instruction.size)).sum) ∧
    ∀ code : List UInt8,
      let d := decode code
      (d.failure = none → encode (d.records.map (·.instruction)) = code) ∧
      Contiguous 0 d.records ∧
      (∀ r ∈ d.records, r.next ≤ code.length) ∧
      (∀ n, Cursor.start.answer code n = d.items[n]?) ∧
      (∀ n m e, Cursor.start.answer code n = some (.error e) → n < m →
        Cursor.start.answer code m = none) ∧
      (d.failure.isSome ↔ (d.records.map (·.instruction.size)).sum < code.length) := by
  refine ⟨fun _ _ => Instruction.exists_instruction_iff, ?_, ?_⟩
  · intro instructions code
    have decoded : decode code = ⟨layout 0 instructions, none⟩ := decode_encode instructions
    rw [decoded]
    refine ⟨Draft.code_foldl_emit .empty instructions, rfl, ?_, ?_⟩
    · exact map_instruction_layout 0 instructions
    · intro i r found
      rw [offset_layout found, Nat.zero_add]
  · intro code d
    obtain ⟨instructions, rest, whole, records, finished⟩ := exists_rest code
    have answers := Cursor.answer_start code
    have covered : (d.records.map (·.instruction.size)).sum = (encode instructions).length := by
      rw [records, map_layout, length_encode]
    have length : code.length = (encode instructions).length + rest.length := by
      rw [whole, List.length_append]
    refine ⟨?_, ?_, ?_, answers, ?_, ?_⟩
    · intro clean
      rw [records, map_instruction_layout, whole, finished.mp clean, List.append_nil]
    · rw [records]
      exact contiguous_layout 0 instructions
    · intro r member
      rw [records] at member
      have inside := next_le_of_mem_layout member
      omega
    · intro n m e error later
      rw [answers] at error ⊢
      exact Decoded.error_last error later
    · rw [covered, length, Option.isSome_iff_ne_none, ne_eq, finished, ← List.length_eq_zero_iff]
      omega

end Wordcode
