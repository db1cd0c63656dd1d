import Wordcode.Machine
import Wordcode.Proofs.Encoding

/-!
# Execution record by record

The machine decodes a stream while it runs. `runFrom_eq_exec` separates the two: a run is the
execution of the decoded records, in order, and what is left to do at the end of the stream.
-/

namespace Wordcode.Machine

/-- The effect of records in order, up to the first fault. -/
def exec (limit : Nat) (stack : Stack) (records : List Record) : Except Fault Stack :=
  records.foldlM (step limit) stack

/-- The end of a run: an undecodable place is a fault, otherwise one word must be left. -/
def conclude (offset : Nat) (failure : Option DecodeError) (stack : Stack) : Except Fault Word :=
  match failure with
  | some e => .error (.decode e)
  | none => finish offset stack

@[simp] theorem exec_cons (limit : Nat) (stack : Stack) (r : Record) (rest : List Record) :
    exec limit stack (r :: rest) = (step limit stack r).bind (exec limit · rest) := rfl

@[simp] theorem exec_singleton (limit : Nat) (stack : Stack) (r : Record) :
    exec limit stack [r] = step limit stack r := by
  rw [exec_cons]
  cases step limit stack r <;> rfl

@[simp] theorem exec_append (limit : Nat) (stack : Stack) (first second : List Record) :
    exec limit stack (first ++ second) = (exec limit stack first).bind (exec limit · second) := by
  induction first generalizing stack with
  | nil => rfl
  | cons r rest ih =>
    rw [List.cons_append, exec_cons, exec_cons]
    cases step limit stack r with
    | error f => rfl
    | ok next => exact ih next

theorem exec_append_eq_ok {limit : Nat} {stack final : Stack} {first second : List Record}
    (ran : exec limit stack (first ++ second) = .ok final) :
    ∃ middle, exec limit stack first = .ok middle ∧ exec limit middle second = .ok final := by
  rw [exec_append] at ran
  cases executed : exec limit stack first with
  | error f =>
    rw [executed] at ran
    cases ran
  | ok middle =>
    rw [executed] at ran
    exact ⟨middle, rfl, ran⟩

theorem runFrom_eq_exec (limit offset : Nat) (code : List UInt8) (stack : Stack) :
    runFrom limit offset code stack =
      (exec limit stack (Stream.decodeFrom offset code).records).bind
        (conclude (offset + code.length) (Stream.decodeFrom offset code).failure) := by
  fun_induction runFrom limit offset code stack with
  | case1 offset stack =>
    rw [Stream.decodeFrom]
    rfl
  | case2 offset stack byte rest e unread =>
    rw [Stream.decodeFrom, unread]
    rfl
  | case3 offset stack byte rest i read f fault =>
    rw [Stream.decodeFrom, read]
    dsimp only
    rw [exec_cons, fault]
    rfl
  | case4 offset stack byte rest i read next fine ih =>
    have length := congrArg List.length (Instruction.eq_encode_append read)
    rw [List.length_append, Instruction.length_encode] at length
    rw [Stream.decodeFrom, read, ih]
    dsimp only
    rw [exec_cons, fine, length, Nat.add_assoc]
    rfl

/-- Encoded instructions are executed one after another, and never fail to decode. -/
theorem run_encode (limit : Nat) (instructions : List Instruction) :
    run limit (Stream.encode instructions) =
      (exec limit [] (Stream.layout 0 instructions)).bind
        (finish (Stream.encode instructions).length) := by
  rw [run, runFrom_eq_exec, ← Stream.decode, Stream.decode_encode, Nat.zero_add]
  rfl

end Wordcode.Machine
