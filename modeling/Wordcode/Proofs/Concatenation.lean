import Wordcode.Proofs.Stripping

/-!
# Streams one after another

Reading a record takes no notice of what stands before it, and none of what stands behind it once
its operand is complete. So behind a stream that can be read to its end any other bytes are read as
they would be alone, further on by the length of the first stream (`decode_append`).
-/

namespace Wordcode

def DecodeError.move (place : Nat → Nat) : DecodeError → DecodeError
  | unknownOpcode offset byte => unknownOpcode (place offset) byte
  | truncatedOperand offset opcode available => truncatedOperand (place offset) opcode available

theorem Instruction.decode_move (place : Nat → Nat) (offset : Nat) (byte : UInt8)
    (rest : List UInt8) :
    decode (place offset) byte rest = (decode offset byte rest).mapError (.move place) := by
  unfold decode
  cases Opcode.ofByte? byte with
  | none => rfl
  | some op =>
    dsimp only
    split <;> rfl

namespace Decoded

/-- What was read, at other places. -/
def move (place : Nat → Nat) (d : Decoded) : Decoded :=
  ⟨d.records.map (.move place), d.failure.map (.move place)⟩

def moveItem (place : Nat → Nat) : Except DecodeError Record → Except DecodeError Record
  | .ok r => .ok (r.move place)
  | .error e => .error (e.move place)

theorem items_move (place : Nat → Nat) (d : Decoded) :
    (d.move place).items = d.items.map (moveItem place) := by
  obtain ⟨records, failure⟩ := d
  cases failure <;> simp [items, move, moveItem, Function.comp_def]

end Decoded

namespace Stream

/-- Further on, the same bytes give the same records and the same error. -/
theorem decodeFrom_add (distance offset : Nat) (code : List UInt8) :
    decodeFrom (offset + distance) code = (decodeFrom offset code).move (· + distance) := by
  -- Induction on the walk: the place of the head is only named in its record or in its error.
  fun_induction decodeFrom offset code with
  | case1 offset => rw [decodeFrom]; rfl
  | case2 offset byte rest e unread =>
    have moved := Instruction.decode_move (· + distance) offset byte rest
    rw [unread] at moved
    rw [decodeFrom, moved]
    rfl
  | case3 offset byte rest i read tail ih =>
    have moved := Instruction.decode_move (· + distance) offset byte rest
    rw [read] at moved
    rw [decodeFrom, moved]
    dsimp only [Except.mapError]
    rw [Nat.add_right_comm, ih]
    rfl

theorem decode_append {p : List UInt8} (clean : (decode p).failure = none) (q : List UInt8) :
    decode (p ++ q) =
      let tail := (decode q).move (· + p.length)
      ⟨(decode p).records ++ tail.records, tail.failure⟩ := by
  obtain ⟨instructions, rfl⟩ := failure_eq_none_iff.mp clean
  rw [decode_encode, decode, decodeFrom_encode_append, decodeFrom_add]
  rfl

theorem items_decode_append {p : List UInt8} (clean : (decode p).failure = none) (q : List UInt8) :
    (decode (p ++ q)).items =
      (decode p).items ++ (decode q).items.map (Decoded.moveItem (· + p.length)) := by
  rw [← Decoded.items_move, decode_append clean]
  simp [Decoded.items, clean]

theorem decodeAt?_append {p : List UInt8} {offset : Nat} {r : Record}
    (read : decodeAt? p offset = some (.ok r)) (q : List UInt8) :
    decodeAt? (p ++ q) offset = some (.ok r) := by
  -- The bytes that were read are still there, in front of all that is appended.
  obtain ⟨place, there⟩ := decodeAt?_eq_ok_iff.mp read
  refine decodeAt?_eq_ok_iff.mpr ⟨place, ?_⟩
  rw [List.drop_append]
  exact there.trans (List.prefix_append _ _)

/-- Decoding is compositional. Behind a stream that can be read to its end, any bytes give the
records that they give alone and end in the same error, if in any, all at offsets that are greater
by the length of the first stream; a reader that asks for one record after another gets them in this
order. A record that is read at any place of a stream is read there whatever bytes are appended. -/
theorem decode_compositional (p q : List UInt8) :
    ((decode p).failure = none →
      (decode (p ++ q)).records =
        (decode p).records ++ (decode q).records.map (.move (· + p.length)) ∧
      (decode (p ++ q)).failure = (decode q).failure.map (.move (· + p.length)) ∧
      ∀ n, Cursor.start.answer (p ++ q) n =
        if n < (decode p).records.length then Cursor.start.answer p n
        else (Cursor.start.answer q (n - (decode p).records.length)).map
          (Decoded.moveItem (· + p.length))) ∧
    ∀ offset r, decodeAt? p offset = some (.ok r) → decodeAt? (p ++ q) offset = some (.ok r) := by
  refine ⟨?_, fun _ _ read => decodeAt?_append read q⟩
  intro clean
  have decoded := decode_append clean q
  refine ⟨congrArg _ decoded, congrArg _ decoded, ?_⟩
  intro n
  have count : (decode p).items.length = (decode p).records.length := by
    simp [Decoded.items, clean]
  rw [Cursor.answer_start, Cursor.answer_start, Cursor.answer_start, items_decode_append clean,
    List.getElem?_append, List.getElem?_map, count]

/-- A byte that looks like a return is the operand of the first stream; the second one is cut inside
an operand. -/
theorem decode_compositional_cut :
    let p : List UInt8 := [0x01, 0x50]
    let q : List UInt8 := [0x10, 0x05, 0x00, 0x01]
    (decode p).failure = none ∧
    (decode (p ++ q)).records.map (fun r => (r.offset, r.opcode)) =
      [(0, .push ⟨.w8, true⟩), (2, .arith .add ⟨.w8, true⟩)] ∧
    (decode (p ++ q)).failure = some (.truncatedOperand 3 (.push ⟨.w32, true⟩) 2) ∧
    decodeAt? (p ++ q) 1 = some (.ok ⟨1, .ret⟩) := by
  intro p q
  have clean : (decode p).failure = none := by decide +kernel
  obtain ⟨joined, kept⟩ := decode_compositional p q
  obtain ⟨records, failure, -⟩ := joined clean
  refine ⟨clean, ?_, ?_, kept 1 ⟨1, .ret⟩ (by decide +kernel)⟩
  · rw [records]
    decide +kernel
  · rw [failure]
    decide +kernel

end Stream

end Wordcode
