import Wordcode.Proofs.Lockstep

/-!
# Streams with another end

A valid stream ends where its return stands, so what follows it or is missing shows. A cut falls
between two records or into the operand of one (`exists_cut`); what is left then decodes up to the
cut record and no further (`decode_take_encode`).
-/

namespace Wordcode

namespace Stream

/-- Every place before the end of the stream lies in one of its records. -/
theorem exists_cut {instructions : List Instruction} {n : Nat}
    (inside : n < (encode instructions).length) :
    ∃ before i after, instructions = before ++ i :: after ∧
      (encode before).length ≤ n ∧ n < (encode before).length + i.size := by
  induction instructions generalizing n with
  | nil => simp at inside
  | cons i rest ih =>
    rw [encode_cons, List.length_append, Instruction.length_encode] at inside
    by_cases first : n < i.size
    · exact ⟨[], i, rest, rfl, Nat.zero_le n, by simpa using first⟩
    · obtain ⟨before, j, after, rfl, low, high⟩ := ih (show n - i.size < _ by omega)
      refine ⟨i :: before, j, after, rfl, ?_, ?_⟩
      · rw [encode_cons, List.length_append, Instruction.length_encode]
        omega
      · rw [encode_cons, List.length_append, Instruction.length_encode]
        omega

section

variable {before : List Instruction} {i : Instruction} {n : Nat} (after : List Instruction)
  (low : (encode before).length ≤ n) (high : n < (encode before).length + i.size)

include low high

theorem take_encode_append :
    (encode (before ++ i :: after)).take n =
      encode before ++ i.encode.take (n - (encode before).length) := by
  rw [encode_append, encode_cons, List.take_append, List.take_of_length_le low,
    List.take_append_of_le_length (by rw [Instruction.length_encode]; omega)]

/-- Decoding goes up to the record that is cut. -/
theorem decode_take_encode :
    decode ((encode (before ++ i :: after)).take n) =
      ⟨layout 0 before, if n = (encode before).length then none else
        some (.truncatedOperand (encode before).length i.opcode
          (n - (encode before).length - 1))⟩ := by
  rw [take_encode_append after low high, decode, decodeFrom_encode_append, Nat.zero_add]
  obtain ⟨extra, rfl⟩ := Nat.exists_eq_add_of_le low
  cases extra with
  | zero => simp [decodeFrom]
  | succ available =>
    have short : available < i.opcode.operandLen := by
      unfold Instruction.size at high
      omega
    have left : ((BigEndian.bytes i.immediate i.opcode.operandLen).take available).length =
        available := by
      rw [List.length_take, BigEndian.length_bytes]
      omega
    have unread : Instruction.decode (encode before).length i.opcode.byte
        ((BigEndian.bytes i.immediate i.opcode.operandLen).take available) =
          .error (.truncatedOperand (encode before).length i.opcode available) :=
      Instruction.decode_eq_error_iff.mpr (.inr ⟨i.opcode, rfl, by omega, by rw [left]⟩)
    rw [Nat.add_sub_cancel_left, Instruction.encode, List.take_succ_cons, decodeFrom, unread,
      if_neg (by omega)]
    simp

theorem layout_eq_filter :
    layout 0 before = (layout 0 (before ++ i :: after)).filter (·.next ≤ n) := by
  have whole : ∀ r ∈ layout 0 before, r.next ≤ n := by
    intro r member
    have bound := next_le_of_mem_layout member
    omega
  have cut : ∀ r ∈ layout (encode before).length (i :: after), n < r.next := by
    intro r member
    rcases List.mem_cons.mp member with rfl | late
    · exact high
    · have bound := le_offset_of_mem_layout late
      unfold Record.next
      omega
  rw [layout_append, Nat.zero_add, List.filter_append,
    List.filter_eq_self.mpr (by simpa using whole),
    List.filter_eq_nil_iff.mpr (by simpa using cut), List.append_nil]

end

theorem offset_ne_of_mem_layout {before after : List Instruction} {i : Instruction} {r : Record}
    {n : Nat} (low : (encode before).length < n) (high : n < (encode before).length + i.size)
    (member : r ∈ layout 0 (before ++ i :: after)) : r.offset ≠ n := by
  rw [layout_append, Nat.zero_add, layout, List.mem_append, List.mem_cons] at member
  rcases member with early | rfl | late
  · have bound := next_le_of_mem_layout early
    unfold Record.next at bound
    omega
  · exact Nat.ne_of_lt low
  · have bound := le_offset_of_mem_layout late
    omega

end Stream

theorem Machine.run_ne_ok_of_failure {code : List UInt8} {e : DecodeError}
    (met : (Stream.decode code).failure = some e) (limit : Nat) (w : Word) :
    run limit code ≠ .ok w := by
  rw [run_eq_conclude, met]
  cases exec limit [] (Stream.decode code).records <;> exact nofun

namespace Program

theorem validate_take {before : List Instruction} {i : Instruction} {n : Nat}
    (after : List Instruction) (k : Option Kind) (unreturned : ∀ j ∈ before, j.opcode ≠ .ret)
    (low : (Stream.encode before).length ≤ n)
    (high : n < (Stream.encode before).length + i.size) :
    validate ⟨(Stream.encode (before ++ i :: after)).take n, k⟩ =
      .error (if n = (Stream.encode before).length then .missingReturn else
        .decode (.truncatedOperand (Stream.encode before).length i.opcode
          (n - (Stream.encode before).length - 1))) := by
  rw [validate, Stream.decode_take_encode after low high, Decoded.check]
  dsimp only
  rw [Stream.find?_layout_eq_none unreturned]
  by_cases between : n = (Stream.encode before).length
  · rw [if_pos between, if_pos between]
  · rw [if_neg between, if_neg between]

theorem exists_cut_of_validate {p : Program} (valid : p.validate = .ok ()) {n : Nat}
    (inside : n < p.code.length) :
    ∃ before i after, p.code = Stream.encode (before ++ i :: after) ∧
      (∀ j ∈ before, j.opcode ≠ .ret) ∧
      (Stream.encode before).length ≤ n ∧ n < (Stream.encode before).length + i.size := by
  obtain ⟨front, unreturned, whole⟩ := validate_eq_ok_iff.mp valid
  rw [whole] at inside
  obtain ⟨before, i, after, split, low, high⟩ := Stream.exists_cut inside
  refine ⟨before, i, after, by rw [whole, split], ?_, low, high⟩
  -- Whatever stands before the cut record stands before the last one, which is the return.
  have same := congrArg List.dropLast split
  rw [List.dropLast_concat, List.dropLast_append_of_ne_nil (by simp)] at same
  intro j member
  exact unreturned j (same ▸ List.mem_append_left _ member)

theorem validate_append {p : Program} (valid : p.validate = .ok ()) {more : List UInt8}
    (added : more ≠ []) (k : Option Kind) :
    validate ⟨p.code ++ more, k⟩ = .error (.codeAfterReturn (p.code.length - 1)) := by
  obtain ⟨before, unreturned, whole⟩ := validate_eq_ok_iff.mp valid
  have reported := validate_append_ret more k unreturned
  rw [if_neg added] at reported
  rw [whole, Stream.encode_append, List.append_assoc, List.length_append]
  exact reported

theorem code_eq_of_beginning {p q : Program} (valid : p.validate = .ok ())
    (valid' : q.validate = .ok ()) (beginning : q.code <+: p.code) : q.code = p.code := by
  obtain ⟨more, same⟩ := beginning
  by_contra different
  have added : more ≠ [] := by
    rintro rfl
    exact different (by rw [← same, List.append_nil])
  have reported := validate_append valid' added p.resultKind
  rw [same, show (⟨p.code, p.resultKind⟩ : Program) = p from rfl, valid] at reported
  cases reported

/-- A valid stream is told from every one with more or fewer bytes at its end. More of them are code
after its return. With fewer, the records that are left whole are still the same; a cut between
two records loses the return, and any other is reported with the opcode and the place of the record
it falls into, with all the bytes its operand should have and with those that are left, and no run
gets past it. So no valid stream is a proper beginning of another. -/
theorem validate_other_end {p : Program} (valid : p.validate = .ok ()) :
    let records := (Stream.decode p.code).records
    (∀ more k, more ≠ [] →
      validate ⟨p.code ++ more, k⟩ = .error (.codeAfterReturn (p.code.length - 1))) ∧
    (∀ n k, n < p.code.length →
      (Stream.decode (p.code.take n)).records = records.filter (·.next ≤ n) ∧
      ((∃ r ∈ records, r.offset = n) →
        validate ⟨p.code.take n, k⟩ = .error .missingReturn) ∧
      ((∀ r ∈ records, r.offset ≠ n) → ∃ r ∈ records, r.offset < n ∧ n < r.next ∧
        let name := r.opcode.name
        let full := r.opcode.operandLen
        let left := n - r.offset - 1
        let e : DecodeError := .truncatedOperand r.offset r.opcode left
        validate ⟨p.code.take n, k⟩ = .error (.decode e) ∧
        e.message =
          s!"{name} at offset {r.offset} expects {full} operand bytes but only {left} remain" ∧
        ∀ limit w, Machine.run limit (p.code.take n) ≠ .ok w)) ∧
    ∀ q : Program, q.validate = .ok () → q.code <+: p.code → q.code = p.code := by
  intro records
  refine ⟨fun _ k added => validate_append valid added k, ?_,
    fun _ valid' beginning => code_eq_of_beginning valid valid' beginning⟩
  intro n k inside
  obtain ⟨before, i, after, whole, unreturned, low, high⟩ := exists_cut_of_validate valid inside
  have listed : records = Stream.layout 0 (before ++ i :: after) := by
    show (Stream.decode p.code).records = _
    rw [whole, Stream.decode_encode]
  have decoded := Stream.decode_take_encode after low high
  have reported := validate_take after k unreturned low high
  rw [listed, whole]
  refine ⟨?_, ?_, ?_⟩
  · rw [decoded]
    exact Stream.layout_eq_filter after low high
  · rintro ⟨r, member, rfl⟩
    have between : r.offset = (Stream.encode before).length := by
      by_contra within
      exact Stream.offset_ne_of_mem_layout (by omega) high member rfl
    rw [reported, if_pos between]
  · intro within
    have member : ⟨(Stream.encode before).length, i⟩ ∈
        Stream.layout 0 (before ++ i :: after) := by
      rw [Stream.layout_append, Nat.zero_add]
      exact List.mem_append_right _ List.mem_cons_self
    have later : n ≠ (Stream.encode before).length := (within _ member).symm
    rw [if_neg later] at decoded reported
    refine ⟨_, member, Nat.lt_of_le_of_ne low later.symm, high, reported, rfl, ?_⟩
    exact Machine.run_ne_ok_of_failure (congrArg Decoded.failure decoded)

/-- A pushed word of four bytes and a return: cut inside the word, cut behind it, and extended. -/
theorem validate_other_end_push :
    let code : List UInt8 := [0x05, 0x00, 0x01, 0xE2, 0x40, 0x50]
    let records := (Stream.decode code).records
    validate ⟨code, none⟩ = .ok () ∧
    validate ⟨code ++ [0x00], none⟩ = .error (.codeAfterReturn 5) ∧
    validate ⟨code.take 5, none⟩ = .error .missingReturn ∧
    ∃ r ∈ records, r.offset < 3 ∧ 3 < r.next ∧
      validate ⟨code.take 3, none⟩ =
        .error (.decode (.truncatedOperand r.offset r.opcode (3 - r.offset - 1))) := by
  intro code records
  have valid : validate ⟨code, none⟩ = .ok () := by decide +kernel
  obtain ⟨extended, cut, -⟩ := validate_other_end valid
  refine ⟨valid, extended [0x00] none (by decide), ?_, ?_⟩
  · exact (cut 5 none (by decide)).2.1 ⟨⟨5, .ret⟩, by decide +kernel, rfl⟩
  · obtain ⟨r, member, low, high, reported, -⟩ :=
      (cut 3 none (by decide)).2.2 (by decide +kernel)
    exact ⟨r, member, low, high, reported⟩

end Program

end Wordcode
