import Wordcode.Stream

/-!
# The stack machine

The machine walks a stream from its first byte to its last. A push puts a word on the stack, an
arithmetic instruction replaces the two topmost words by the result, and the other instructions
change nothing. At the end exactly one word must be left. There are no branches, so every run
ends.
-/

namespace Wordcode

inductive Fault where
  | decode (error : DecodeError)
  | stackUnderflow (offset : Nat)
  | unbalancedStack (depth : Nat)
  | stackOverflow (limit : Nat)
  | divisionByZero (offset : Nat)
  deriving DecidableEq

namespace Fault

def message : Fault → String
  | decode error => error.message
  | stackUnderflow offset => s!"runtime stack underflow at offset {offset}"
  | unbalancedStack depth =>
    s!"program finished with {depth} values on the stack, expected exactly one"
  | stackOverflow limit => s!"runtime stack exceeded {limit} slots"
  | divisionByZero offset => s!"division by zero at offset {offset}"

end Fault

namespace Machine

/-- The words of the stack, the top one first. -/
abbrev Stack := List Word

def push (limit : Nat) (stack : Stack) (w : Word) : Except Fault Stack :=
  if stack.length < limit then .ok (w :: stack) else .error (.stackOverflow limit)

/-- The effect of one record on the stack. The right operand of an arithmetic instruction lies
above the left one. -/
def step (limit : Nat) (stack : Stack) (r : Record) : Except Fault Stack :=
  match r.opcode with
  | .nop | .ret => .ok stack
  | .push k => push limit stack (k.normalize (UInt64.ofNat r.instruction.immediate))
  | .arith op k =>
    match stack with
    | rhs :: lhs :: below =>
      match op.apply k lhs rhs with
      | some w => push limit below w
      | none => .error (.divisionByZero r.offset)
    | _ => .error (.stackUnderflow r.offset)

def finish (offset : Nat) : Stack → Except Fault Word
  | [w] => .ok w
  | [] => .error (.stackUnderflow offset)
  | stack => .error (.unbalancedStack stack.length)

/-- Runs the rest of a stream, whose first byte stands at `offset`. Each record is decoded when
the machine reaches it. -/
def runFrom (limit offset : Nat) (code : List UInt8) (stack : Stack) : Except Fault Word :=
  match code with
  | [] => finish offset stack
  | byte :: rest =>
    match Instruction.decode offset byte rest with
    | .error e => .error (.decode e)
    | .ok i =>
      match step limit stack ⟨offset, i⟩ with
      | .error f => .error f
      | .ok stack => runFrom limit (offset + i.size) (rest.drop i.opcode.operandLen) stack
termination_by code.length
decreasing_by exact i.length_drop_lt byte rest

def run (limit : Nat) (code : List UInt8) : Except Fault Word := runFrom limit 0 code []

end Machine

end Wordcode
