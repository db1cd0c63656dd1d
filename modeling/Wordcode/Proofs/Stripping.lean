import Wordcode.Proofs.Lockstep

/-!
# Streams without idle records

A no-operation and a return leave the machine as it is, wherever they stand. `Stream.strip` takes
them out of a stream. Its records then move towards the front, each by as many bytes as were taken
out before it (`layout_filter`), and so do the places that faults name; nothing else changes
(`run_stripped`).
-/

namespace Wordcode

/-- Whether the operation leaves the machine as it is. -/
def Opcode.isIdle : Opcode → Bool
  | nop | ret => true
  | push _ | arith _ _ => false

theorem Instruction.size_of_idle {i : Instruction} (idle : i.opcode.isIdle) : i.size = 1 := by
  unfold size
  cases same : i.opcode with
  | nop | ret => rfl
  | push | arith => simp [same, Opcode.isIdle] at idle

def Record.move (place : Nat → Nat) (r : Record) : Record := ⟨place r.offset, r.instruction⟩

/-- The fault at another place, where it names one of the machine's. -/
def Fault.move (place : Nat → Nat) : Fault → Fault
  | stackUnderflow offset => stackUnderflow (place offset)
  | divisionByZero offset => divisionByZero (place offset)
  | f => f

namespace Stream

/-- The stream without its idle records. -/
def strip (code : List UInt8) : List UInt8 :=
  encode (((decode code).records.filter (!·.opcode.isIdle)).map (·.instruction))

/-- The number of idle records that stand before a place. -/
def idleBefore (records : List Record) (place : Nat) : Nat :=
  records.countP fun r => r.opcode.isIdle ∧ r.offset < place

theorem idleBefore_start (offset : Nat) (instructions : List Instruction) :
    idleBefore (layout offset instructions) offset = 0 := by
  rw [idleBefore, List.countP_eq_zero]
  intro r member
  have bound := le_offset_of_mem_layout member
  simp only [decide_eq_true_eq, not_and, Nat.not_lt]
  exact fun _ => bound

theorem idleBefore_cons {offset place : Nat} (i : Instruction) (rest : List Record)
    (later : offset < place) :
    idleBefore (⟨offset, i⟩ :: rest) place =
      idleBefore rest place + if i.opcode.isIdle then 1 else 0 := by
  simp [idleBefore, List.countP_cons, later, Record.opcode]

/-- Without the idle records, each other one stands as many bytes earlier as `removed` and the idle
ones before it come to. -/
theorem layout_filter {offset removed : Nat} (le : removed ≤ offset)
    (instructions : List Instruction) :
    layout (offset - removed) (instructions.filter (!·.opcode.isIdle)) =
      ((layout offset instructions).filter (!·.opcode.isIdle)).map
        (Record.move fun o => o - (removed + idleBefore (layout offset instructions) o)) := by
  induction instructions generalizing offset removed with
  | nil => rfl
  | cons i rest ih =>
    have first := idleBefore_start offset (i :: rest)
    have idleSize : i.opcode.isIdle → i.size = 1 := Instruction.size_of_idle
    -- Behind the first record its own byte counts as well if it was taken out.
    have tail : layout (offset + i.size - (removed + if i.opcode.isIdle then 1 else 0))
        (rest.filter (!·.opcode.isIdle)) =
        ((layout (offset + i.size) rest).filter (!·.opcode.isIdle)).map
          (Record.move fun o => o - (removed + idleBefore (layout offset (i :: rest)) o)) := by
      have fits : (removed + if i.opcode.isIdle then 1 else 0) ≤ offset + i.size := by
        unfold Instruction.size
        split <;> omega
      rw [ih fits]
      apply List.map_congr_left
      intro r member
      have bound := le_offset_of_mem_layout (List.mem_filter.mp member).1
      have later : offset < r.offset := by
        unfold Instruction.size at bound
        omega
      simp only [Record.move, layout, idleBefore_cons i _ later]
      congr 1
      omega
    rw [layout] at first tail ⊢
    cases idle : i.opcode.isIdle with
    | true =>
      rw [idle, if_pos rfl, idleSize idle, Nat.add_sub_add_right] at tail
      rw [List.filter_cons_of_neg (by simp [idle]),
        List.filter_cons_of_neg (by simp [Record.opcode, idle]), tail, idleSize idle]
    | false =>
      rw [idle, if_neg Bool.false_ne_true, Nat.add_zero, Nat.sub_add_comm le] at tail
      rw [List.filter_cons_of_pos (by simp [idle]), layout,
        List.filter_cons_of_pos (by simp [Record.opcode, idle]), List.map_cons, tail]
      simp only [Record.move, first, Nat.add_zero]

theorem length_encode_filter (offset : Nat) (instructions : List Instruction) :
    (encode (instructions.filter (!·.opcode.isIdle))).length +
      idleBefore (layout offset instructions) (offset + (encode instructions).length) =
      (encode instructions).length := by
  induction instructions generalizing offset with
  | nil => rfl
  | cons i rest ih =>
    have onward := ih (offset + i.size)
    rw [Nat.add_assoc] at onward
    have later : offset < offset + (encode (i :: rest)).length := by
      simp only [encode_cons, List.length_append, Instruction.length_encode, Instruction.size]
      omega
    rw [layout, idleBefore_cons i _ later, encode_cons, List.length_append,
      Instruction.length_encode]
    cases idle : i.opcode.isIdle with
    | true =>
      have size := Instruction.size_of_idle idle
      rw [List.filter_cons_of_neg (by simp [idle]), if_pos rfl]
      omega
    | false =>
      rw [List.filter_cons_of_pos (by simp [idle]), if_neg Bool.false_ne_true, encode_cons,
        List.length_append, Instruction.length_encode]
      omega

theorem strip_encode (instructions : List Instruction) :
    strip (encode instructions) = encode (instructions.filter (!·.opcode.isIdle)) := by
  have working : ((layout 0 instructions).map (·.instruction)).filter (!·.opcode.isIdle) =
      ((layout 0 instructions).filter (!·.opcode.isIdle)).map (·.instruction) := List.filter_map
  rw [strip, decode_encode, ← working, map_instruction_layout]

theorem decode_strip {code : List UInt8} (clean : (decode code).failure = none) :
    decode (strip code) = ⟨((decode code).records.filter (!·.opcode.isIdle)).map
      (Record.move fun o => o - idleBefore (decode code).records o), none⟩ := by
  obtain ⟨instructions, rfl⟩ := failure_eq_none_iff.mp clean
  have moved := layout_filter (Nat.zero_le 0) instructions
  simp only [Nat.zero_add] at moved
  rw [strip_encode, decode_encode, decode_encode]
  exact congrArg (Decoded.mk · none) moved

theorem length_strip {code : List UInt8} (clean : (decode code).failure = none) :
    (strip code).length = code.length - idleBefore (decode code).records code.length := by
  obtain ⟨instructions, rfl⟩ := failure_eq_none_iff.mp clean
  have total := length_encode_filter 0 instructions
  rw [Nat.zero_add] at total
  rw [strip_encode, decode_encode]
  dsimp only
  omega

end Stream

namespace Machine

theorem exec_filter (limit : Nat) (stack : Stack) (records : List Record) :
    exec limit stack (records.filter (!·.opcode.isIdle)) = exec limit stack records := by
  induction records generalizing stack with
  | nil => rfl
  | cons r rest ih =>
    cases idle : r.opcode.isIdle with
    | true =>
      have still : step limit stack r = .ok stack := by
        unfold step
        cases same : r.opcode with
        | nop | ret => rfl
        | push | arith => simp [same, Opcode.isIdle] at idle
      rw [List.filter_cons_of_neg (by simp [idle]), exec_cons, still]
      exact ih stack
    | false =>
      rw [List.filter_cons_of_pos (by simp [idle]), exec_cons, exec_cons]
      cases step limit stack r with
      | error f => rfl
      | ok next => exact ih next

theorem step_move (place : Nat → Nat) (limit : Nat) (stack : Stack) (r : Record) :
    step limit stack (r.move place) = (step limit stack r).mapError (Fault.move place) := by
  have pushed : ∀ (below : Stack) (w : Word),
      push limit below w = (push limit below w).mapError (Fault.move place) := by
    intro below w
    rcases push_cases limit below w with same | same <;> rw [same] <;> rfl
  unfold step
  rw [show (r.move place).opcode = r.opcode from rfl]
  cases r.opcode with
  | nop | ret => rfl
  | push k => exact pushed stack _
  | arith op k =>
    match stack with
    | [] | [_] => rfl
    | rhs :: lhs :: below =>
      dsimp only
      cases op.apply k lhs rhs with
      | none => rfl
      | some w => exact pushed below w

theorem exec_move (place : Nat → Nat) (limit : Nat) (stack : Stack) (records : List Record) :
    exec limit stack (records.map (Record.move place)) =
      (exec limit stack records).mapError (Fault.move place) := by
  induction records generalizing stack with
  | nil => rfl
  | cons r rest ih =>
    rw [List.map_cons, exec_cons, exec_cons, step_move]
    cases step limit stack r with
    | error f => rfl
    | ok next => exact ih next

theorem finish_move (place : Nat → Nat) (offset : Nat) (stack : Stack) :
    finish (place offset) stack = (finish offset stack).mapError (Fault.move place) := by
  match stack with
  | [] | [_] | _ :: _ :: _ => rfl

theorem run_of_clean (limit : Nat) {code : List UInt8}
    (clean : (Stream.decode code).failure = none) :
    run limit code = (exec limit [] (Stream.decode code).records).bind (finish code.length) := by
  rw [run_eq_conclude, clean]
  rfl

theorem run_stripped (limit : Nat) {code : List UInt8}
    (clean : (Stream.decode code).failure = none) :
    run limit (Stream.strip code) = (run limit code).mapError
      (Fault.move fun o => o - Stream.idleBefore (Stream.decode code).records o) := by
  have decoded := Stream.decode_strip clean
  rw [run_of_clean limit (congrArg Decoded.failure decoded), run_of_clean limit clean, decoded,
    Stream.length_strip clean]
  dsimp only
  rw [exec_move, exec_filter]
  cases exec limit [] (Stream.decode code).records with
  | error f => rfl
  | ok stack =>
    exact finish_move (fun o => o - Stream.idleBefore (Stream.decode code).records o) _ stack

/-- No-operations and returns are transparent. Taking them all out of a stream that decodes to its
end leaves the other records, each as many bytes earlier as idle ones stood before it, and the end
moves likewise. Under every limit the two streams leave the same word or end in the same fault, at
the place that was moved with the records. -/
theorem run_strip (limit : Nat) {code : List UInt8}
    (clean : (Stream.decode code).failure = none) :
    let records := (Stream.decode code).records
    let place : Nat → Nat := fun offset => offset - Stream.idleBefore records offset
    Stream.decode (Stream.strip code) =
      ⟨(records.filter (!·.opcode.isIdle)).map (Record.move place), none⟩ ∧
    (Stream.strip code).length = place code.length ∧
    run limit (Stream.strip code) = (run limit code).mapError (Fault.move place) :=
  ⟨Stream.decode_strip clean, Stream.length_strip clean, run_stripped limit clean⟩

/-- A division by zero behind two no-operations and a return is three bytes earlier without them. -/
theorem run_strip_quotient :
    let code : List UInt8 := [0x00, 0x02, 0x07, 0x50, 0x02, 0x00, 0x00, 0x41, 0x50]
    (Stream.decode code).failure = none ∧
    Stream.strip code = [0x02, 0x07, 0x02, 0x00, 0x41] ∧
    run 2 code = .error (.divisionByZero 7) ∧
    run 2 (Stream.strip code) = .error (.divisionByZero 4) := by
  intro code
  have clean : (Stream.decode code).failure = none := by decide +kernel
  have divided : run 2 code = .error (.divisionByZero 7) := by decide +kernel
  refine ⟨clean, by decide +kernel, divided, ?_⟩
  rw [(run_strip 2 clean).2.2, divided]
  decide +kernel

end Machine

end Wordcode
