import Wordcode.Stream

/-!
# Encoded instructions

Instructions that are written one after another are read back one by one, whatever the bytes of
their immediates are and whatever follows them. `decodeFrom_encode_append` states this, and
`validate_append_ret` what the validator makes of it.
-/

namespace Wordcode

namespace BigEndian

theorem number_bytes (n count : Nat) : number (bytes n count) = n % 256 ^ count := by
  induction count with
  | zero => simp [bytes, number, Nat.mod_one]
  | succ count ih =>
    have digits : n % 256 ^ (count + 1) = n % 256 ^ count + 256 ^ count * (n / 256 ^ count % 256) :=
      Nat.mod_pow_succ
    rw [bytes, number, ih, length_bytes, UInt8.toNat_ofNat', digits, Nat.mul_comm, Nat.add_comm]

/-- Only the low `count` bytes of a number are written. -/
theorem bytes_mul_add (high n count : Nat) :
    bytes (high * 256 ^ count + n) count = bytes n count := by
  induction count generalizing high with
  | zero => rfl
  | succ count ih =>
    have shift : high * 256 ^ (count + 1) = high * 256 * 256 ^ count := by
      rw [Nat.pow_succ, Nat.mul_assoc, Nat.mul_comm 256]
    have digit : (high * 256 * 256 ^ count + n) / 256 ^ count = high * 256 + n / 256 ^ count := by
      rw [Nat.mul_comm (high * 256), Nat.mul_add_div (Nat.pow_pos (by decide))]
    rw [bytes, bytes, shift, ih, digit]
    congr 1
    apply UInt8.toNat_inj.mp
    rw [UInt8.toNat_ofNat', UInt8.toNat_ofNat']
    omega

theorem bytes_number (bs : List UInt8) : bytes (number bs) bs.length = bs := by
  induction bs with
  | nil => rfl
  | cons b rest ih =>
    have digit : (b.toNat * 256 ^ rest.length + number rest) / 256 ^ rest.length = b.toNat := by
      rw [Nat.mul_comm, Nat.mul_add_div (Nat.pow_pos (by decide)),
        Nat.div_eq_of_lt (number_lt rest), Nat.add_zero]
    rw [number, List.length_cons, bytes, digit, bytes_mul_add, ih, UInt8.ofNat_toNat]

end BigEndian

namespace Instruction

theorem decode_encode_append (offset : Nat) (i : Instruction) (rest : List UInt8) :
    decode offset i.opcode.byte (BigEndian.bytes i.immediate i.opcode.operandLen ++ rest) =
      .ok i := by
  have operand :
      (BigEndian.bytes i.immediate i.opcode.operandLen ++ rest).take i.opcode.operandLen =
        BigEndian.bytes i.immediate i.opcode.operandLen :=
    List.take_left' (BigEndian.length_bytes _ _)
  unfold decode
  rw [Opcode.ofByte?_byte]
  dsimp only
  rw [dif_pos (by rw [operand, BigEndian.length_bytes])]
  congr 1
  apply Instruction.ext
  · rfl
  · show BigEndian.number _ = i.immediate
    rw [operand, BigEndian.number_bytes, Nat.mod_eq_of_lt i.fits]

/-- An instruction is read from its own bytes. -/
theorem eq_encode_append {offset : Nat} {byte : UInt8} {rest : List UInt8} {i : Instruction}
    (read : decode offset byte rest = .ok i) :
    byte :: rest = i.encode ++ rest.drop i.opcode.operandLen := by
  unfold decode at read
  split at read
  · cases read
  · next op known =>
    dsimp only at read
    split at read
    · next complete =>
      cases read
      have operand := BigEndian.bytes_number (rest.take op.operandLen)
      rw [complete] at operand
      rw [encode, operand, Opcode.byte_of_ofByte? known, List.cons_append, List.take_append_drop]
    · cases read

end Instruction

namespace Stream

/-- The records of instructions that stand one after another from an offset on. -/
def layout (offset : Nat) : List Instruction → List Record
  | [] => []
  | i :: rest => ⟨offset, i⟩ :: layout (offset + i.size) rest

@[simp] theorem encode_nil : encode [] = [] := rfl

@[simp] theorem encode_cons (i : Instruction) (rest : List Instruction) :
    encode (i :: rest) = i.encode ++ encode rest := rfl

@[simp] theorem encode_append (first second : List Instruction) :
    encode (first ++ second) = encode first ++ encode second := List.flatMap_append

theorem layout_append (offset : Nat) (first second : List Instruction) :
    layout offset (first ++ second) =
      layout offset first ++ layout (offset + (encode first).length) second := by
  induction first generalizing offset with
  | nil => rfl
  | cons i rest ih =>
    rw [List.cons_append, layout, ih, layout, List.cons_append, encode_cons, List.length_append,
      Instruction.length_encode, Nat.add_assoc]

theorem map_layout {α : Type} (f : Instruction → α) (offset : Nat)
    (instructions : List Instruction) :
    (layout offset instructions).map (fun r => f r.instruction) = instructions.map f := by
  induction instructions generalizing offset with
  | nil => rfl
  | cons i rest ih => rw [layout, List.map_cons, List.map_cons, ih]

/-- Encoded instructions are read back in order, and reading goes on behind them. -/
theorem decodeFrom_encode_append (offset : Nat) (instructions : List Instruction)
    (rest : List UInt8) :
    decodeFrom offset (encode instructions ++ rest) =
      let tail := decodeFrom (offset + (encode instructions).length) rest
      ⟨layout offset instructions ++ tail.records, tail.failure⟩ := by
  induction instructions generalizing offset with
  | nil => rfl
  | cons i following ih =>
    rw [encode_cons, List.append_assoc, Instruction.encode, List.cons_append, decodeFrom,
      Instruction.decode_encode_append]
    dsimp only
    rw [List.drop_left' (BigEndian.length_bytes _ _), ih, layout, List.length_append,
      List.length_cons, BigEndian.length_bytes, Instruction.size, Nat.add_comm i.opcode.operandLen,
      Nat.add_assoc]
    rfl

theorem decode_encode (instructions : List Instruction) :
    decode (encode instructions) = ⟨layout 0 instructions, none⟩ := by
  have whole := decodeFrom_encode_append 0 instructions []
  rw [List.append_nil] at whole
  rw [decode, whole, decodeFrom]
  dsimp only
  rw [List.append_nil]

theorem map_opcode_layout (offset : Nat) (instructions : List Instruction) :
    (layout offset instructions).map (·.opcode) = instructions.map (·.opcode) :=
  map_layout (·.opcode) offset instructions

theorem opcode_layout_iff (P : Opcode → Prop) {offset : Nat} {instructions : List Instruction} :
    (∀ r ∈ layout offset instructions, P r.opcode) ↔ ∀ i ∈ instructions, P i.opcode := by
  rw [← List.forall_mem_map, map_opcode_layout, List.forall_mem_map]

theorem find?_layout_eq_none {offset : Nat} {instructions : List Instruction}
    (unreturned : ∀ i ∈ instructions, i.opcode ≠ .ret) :
    (layout offset instructions).find? (·.opcode = .ret) = none := by
  rw [List.find?_eq_none]
  intro r member
  have other : r.opcode ≠ .ret := (opcode_layout_iff (· ≠ .ret)).mpr unreturned r member
  simpa using other

theorem encode_eq_nil_iff {instructions : List Instruction} :
    encode instructions = [] ↔ instructions = [] := by
  cases instructions with
  | nil => simp
  | cons i rest => simp [Instruction.encode]

end Stream

namespace Program

/-- The first return decides, whatever bytes follow it: the stream is valid when there are none. -/
theorem validate_append_ret {before : List Instruction} (rest : List UInt8) (k : Option Kind)
    (unreturned : ∀ i ∈ before, i.opcode ≠ .ret) :
    validate ⟨Stream.encode before ++ Opcode.ret.byte :: rest, k⟩ =
      if rest = [] then .ok () else .error (.codeAfterReturn (Stream.encode before).length) := by
  have split : Stream.encode before ++ Opcode.ret.byte :: rest =
      Stream.encode (before ++ [.ret]) ++ rest := by
    rw [Stream.encode_append, List.append_assoc]
    rfl
  have found : (Stream.layout 0 (before ++ [.ret])).find? (·.opcode = .ret) =
      some ⟨(Stream.encode before).length, .ret⟩ := by
    rw [Stream.layout_append, List.find?_append, Stream.find?_layout_eq_none unreturned,
      Option.none_or, Nat.zero_add]
    rfl
  have ends : Record.next ⟨(Stream.encode before).length, .ret⟩ =
      (Stream.encode before ++ Opcode.ret.byte :: rest).length ↔ rest = [] := by
    rw [← List.length_eq_zero_iff, List.length_append, List.length_cons]
    show (Stream.encode before).length + 1 = _ ↔ _
    omega
  simp only [validate, Stream.decode, Decoded.check, split, Stream.decodeFrom_encode_append,
    List.find?_append, found, Option.some_or]
  simp only [← split, ends]

theorem validate_encode_ret {before : List Instruction} (after : List Instruction) (k : Option Kind)
    (unreturned : ∀ i ∈ before, i.opcode ≠ .ret) :
    validate ⟨Stream.encode (before ++ .ret :: after), k⟩ =
      if after = [] then .ok () else .error (.codeAfterReturn (Stream.encode before).length) := by
  have general := validate_append_ret (Stream.encode after) k unreturned
  simp only [Stream.encode_eq_nil_iff] at general
  rw [Stream.encode_append]
  exact general

end Program

end Wordcode
