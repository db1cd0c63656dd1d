import Wordcode.Proofs.Limits

/-!
# The depth of the stack, foretold

Opcodes alone tell how deep the stack is at each record, hence which record finds too few words or
no free slot. `Depth.walk` follows the depth and sees no immediate. A run ends as `Depth.forecast`
says unless it divides by zero (`run_foretold`).
-/

namespace Wordcode

/-- The opcodes of a stream, up to the first place where none can be read. -/
def Stream.opcodes (code : List UInt8) : List Opcode := (decode code).records.map (·.opcode)

theorem Stream.opcodes_encode (instructions : List Instruction) :
    opcodes (encode instructions) = instructions.map (·.opcode) := by
  rw [opcodes, decode_encode, map_opcode_layout]

namespace Depth

/-- The depth after an opcode at `offset`, or the fault that is certain there. -/
def step (limit offset depth : Nat) : Opcode → Except Fault Nat
  | .nop | .ret => .ok depth
  | .push _ => if limit ≤ depth then .error (.stackOverflow limit) else .ok (depth + 1)
  | .arith _ _ => if depth < 2 then .error (.stackUnderflow offset) else .ok (depth - 1)

/-- The depth after opcodes that stand one after another from `offset` on. -/
def walk (limit offset depth : Nat) : List Opcode → Except Fault Nat
  | [] => .ok depth
  | op :: rest =>
    (step limit offset depth op).bind (walk limit (offset + (1 + op.operandLen)) · rest)

/-- What a depth means at the end of a stream. -/
def finish (length : Nat) : Nat → Except Fault Unit
  | 0 => .error (.stackUnderflow length)
  | 1 => .ok ()
  | depth => .error (.unbalancedStack depth)

/-- How a run of the stream has to end if nothing is divided by zero. -/
def forecast (limit : Nat) (code : List UInt8) : Except Fault Unit :=
  (walk limit 0 0 (Stream.opcodes code)).bind (finish code.length)

-- Opcodes fix the sizes of their records, so the end of the stream is foretold as well.
theorem forecast_congr (limit : Nat) {code other : List UInt8}
    (clean : (Stream.decode code).failure = none)
    (clean' : (Stream.decode other).failure = none)
    (same : Stream.opcodes other = Stream.opcodes code) :
    forecast limit other = forecast limit code := by
  obtain ⟨first, rfl⟩ := Stream.failure_eq_none_iff.mp clean
  obtain ⟨second, rfl⟩ := Stream.failure_eq_none_iff.mp clean'
  have size : ∀ instructions : List Instruction, (Stream.encode instructions).length =
      ((Stream.opcodes (Stream.encode instructions)).map (1 + ·.operandLen)).sum := by
    intro instructions
    rw [Stream.length_encode, Stream.opcodes_encode, List.map_map]
    rfl
  rw [forecast, forecast, size, size, same]

end Depth

namespace Machine

/-- How a run ended, without the word it left. -/
def ending (result : Except Fault Word) : Except Fault Unit := result.map fun _ => ()

theorem ending_finish (offset : Nat) (stack : Stack) :
    ending (finish offset stack) = Depth.finish offset stack.length := by
  match stack with
  | [] | [_] | _ :: _ :: _ => rfl

theorem step_foretold {limit : Nat} {stack : Stack} (within : stack.length ≤ limit) (r : Record) :
    (∃ next, step limit stack r = .ok next ∧
      Depth.step limit r.offset stack.length r.opcode = .ok next.length) ∨
    (∃ f, step limit stack r = .error f ∧
      Depth.step limit r.offset stack.length r.opcode = .error f) ∨
    ∃ k, r.opcode = .arith .div k ∧ 2 ≤ stack.length ∧
      step limit stack r = .error (.divisionByZero r.offset) := by
  unfold step push
  cases r.opcode with
  | nop | ret => exact .inl ⟨stack, rfl, rfl⟩
  | push k =>
    by_cases room : stack.length < limit
    · exact .inl ⟨_, if_pos room, if_neg (Nat.not_le.mpr room)⟩
    · exact .inr (.inl ⟨_, if_neg room, if_pos (Nat.not_lt.mp room)⟩)
  | arith op k =>
    match stack with
    | [] | [_] => exact .inr (.inl ⟨_, rfl, rfl⟩)
    | rhs :: lhs :: below =>
      simp only [List.length_cons] at within
      -- Two words are taken before the result is pushed, so there is room for it.
      have room : below.length < limit := by omega
      cases result : op.apply k lhs rhs with
      | some w => exact .inl ⟨w :: below, by simp [result, room], by simp [Depth.step]⟩
      | none =>
        cases op with
        | div => exact .inr (.inr ⟨k, rfl, by simp, by simp [result]⟩)
        | add | sub | mul => cases result

theorem exec_foretold {limit : Nat} {stack : Stack} (within : stack.length ≤ limit)
    (offset : Nat) (instructions : List Instruction) :
    (∃ final, exec limit stack (Stream.layout offset instructions) = .ok final ∧
      Depth.walk limit offset stack.length (instructions.map (·.opcode)) = .ok final.length) ∨
    (∃ f, exec limit stack (Stream.layout offset instructions) = .error f ∧
      Depth.walk limit offset stack.length (instructions.map (·.opcode)) = .error f) ∨
    ∃ before r after k depth, Stream.layout offset instructions = before ++ r :: after ∧
      r.opcode = .arith .div k ∧
      Depth.walk limit offset stack.length (before.map (·.opcode)) = .ok depth ∧ 2 ≤ depth ∧
      exec limit stack (Stream.layout offset instructions) =
        .error (.divisionByZero r.offset) := by
  induction instructions generalizing stack offset with
  | nil => exact .inl ⟨stack, rfl, rfl⟩
  | cons i rest ih =>
    rw [Stream.layout, exec_cons, List.map_cons, Depth.walk]
    rcases step_foretold within ⟨offset, i⟩ with
      ⟨next, stepped, walked⟩ | ⟨f, failed, walked⟩ | ⟨k, divides, deep, failed⟩
    · have first : Depth.step limit offset stack.length i.opcode = .ok next.length := walked
      rw [stepped, first]
      rcases ih (length_step_le within stepped) (offset + i.size) with
        onward | onward | ⟨before, r, after, k, depth, split, divides, reached, deep, failed⟩
      · exact .inl onward
      · exact .inr (.inl onward)
      · refine .inr (.inr ⟨⟨offset, i⟩ :: before, r, after, k, depth, ?_, divides, ?_, deep, ?_⟩)
        · rw [split, List.cons_append]
        · rw [List.map_cons, Depth.walk, Record.opcode, first]
          exact reached
        · exact failed
    · have first : Depth.step limit offset stack.length i.opcode = .error f := walked
      rw [failed, first]
      exact .inr (.inl ⟨f, rfl, rfl⟩)
    · rw [failed]
      exact .inr (.inr ⟨[], ⟨offset, i⟩, _, k, stack.length, rfl, divides, rfl, deep, rfl⟩)

theorem run_foretold (limit : Nat) {code : List UInt8}
    (clean : (Stream.decode code).failure = none) :
    ending (run limit code) = Depth.forecast limit code ∨
    ∃ before r after k depth, (Stream.decode code).records = before ++ r :: after ∧
      r.opcode = .arith .div k ∧
      Depth.walk limit 0 0 (before.map (·.opcode)) = .ok depth ∧ 2 ≤ depth ∧
      run limit code = .error (.divisionByZero r.offset) := by
  obtain ⟨instructions, rfl⟩ := Stream.failure_eq_none_iff.mp clean
  have empty : ([] : Stack).length ≤ limit := Nat.zero_le limit
  rw [run_encode, Depth.forecast, Stream.opcodes_encode, Stream.decode_encode]
  rcases exec_foretold empty 0 instructions with
    ⟨final, ran, walked⟩ | ⟨f, failed, walked⟩ |
      ⟨before, r, after, k, depth, split, divides, reached, deep, failed⟩
  · left
    rw [ran, show Depth.walk limit 0 0 _ = _ from walked]
    exact ending_finish _ final
  · left
    rw [failed, show Depth.walk limit 0 0 _ = _ from walked]
    rfl
  · rw [failed]
    exact .inr ⟨before, r, after, k, depth, split, divides, reached, deep, rfl⟩

/-- A stream that decodes to its end runs as its opcodes foretell, or it divides by zero at a
division that the walk over the opcodes reaches with at least two words on the stack. So streams
with the same opcodes and any immediates end alike, unless one of them divides by zero. -/
theorem run_eq_forecast (limit : Nat) {code : List UInt8}
    (clean : (Stream.decode code).failure = none) :
    (ending (run limit code) = Depth.forecast limit code ∨
      ∃ before r after k depth, (Stream.decode code).records = before ++ r :: after ∧
        r.opcode = .arith .div k ∧
        Depth.walk limit 0 0 (before.map (·.opcode)) = .ok depth ∧ 2 ≤ depth ∧
        run limit code = .error (.divisionByZero r.offset)) ∧
    ∀ other, (Stream.decode other).failure = none →
      Stream.opcodes other = Stream.opcodes code →
        ending (run limit other) = ending (run limit code) ∨
        ∃ offset, run limit code = .error (.divisionByZero offset) ∨
          run limit other = .error (.divisionByZero offset) := by
  refine ⟨run_foretold limit clean, ?_⟩
  intro other clean' same
  rcases run_foretold limit clean with first | ⟨_, r, _, _, _, _, _, _, _, divided⟩
  · rcases run_foretold limit clean' with second | ⟨_, r, _, _, _, _, _, _, _, divided⟩
    · left
      rw [first, second, Depth.forecast_congr limit clean clean' same]
    · exact .inr ⟨r.offset, .inr divided⟩
  · exact .inr ⟨r.offset, .inl divided⟩

/-- Two quotients of bytes are foretold to leave one word; the second divides by zero. -/
theorem run_eq_forecast_quotient :
    let code : List UInt8 := [0x02, 0x07, 0x02, 0x03, 0x41]
    let other : List UInt8 := [0x02, 0x07, 0x02, 0x00, 0x41]
    (Stream.decode code).failure = none ∧ (Stream.decode other).failure = none ∧
    Stream.opcodes other = Stream.opcodes code ∧ Depth.forecast 2 code = .ok () ∧
    ∃ offset, run 2 code = .error (.divisionByZero offset) ∨
      run 2 other = .error (.divisionByZero offset) := by
  intro code other
  have clean : (Stream.decode code).failure = none := by decide +kernel
  have clean' : (Stream.decode other).failure = none := by decide +kernel
  have same : Stream.opcodes other = Stream.opcodes code := by decide +kernel
  refine ⟨clean, clean', same, by decide +kernel, ?_⟩
  rcases (run_eq_forecast 2 clean).2 other clean' same with alike | divided
  · exact absurd alike (by decide +kernel)
  · exact divided

end Machine

end Wordcode
