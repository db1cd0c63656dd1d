import Wordcode.BigEndian
import Wordcode.Digits
import Wordcode.Opcode

/-!
# Instructions

An instruction is an opcode with its immediate; in a stream it is written as the opcode byte
followed by the immediate in big-endian order, exactly as wide as the opcode says. `decode`
reads the instruction at the head of a stream.
-/

namespace Wordcode

/-- An opcode with its immediate bits, which fit into the operand bytes of the opcode. An opcode
without operand bytes has the immediate zero. -/
@[ext] structure Instruction where
  opcode : Opcode
  immediate : Nat
  fits : immediate < 256 ^ opcode.operandLen
  deriving DecidableEq

inductive DecodeError where
  | unknownOpcode (offset : Nat) (byte : UInt8)
  /-- Only `available` bytes follow the opcode at `offset`, fewer than its operand has. -/
  | truncatedOperand (offset : Nat) (opcode : Opcode) (available : Nat)
  deriving DecidableEq

namespace DecodeError

def message : DecodeError → String
  | unknownOpcode offset byte =>
    let digits := String.ofList (Digits.hexByte byte)
    s!"unknown opcode 0x{digits} at offset {offset}"
  | truncatedOperand offset opcode available =>
    let name := opcode.name
    let expected := opcode.operandLen
    s!"{name} at offset {offset} expects {expected} operand bytes but only {available} remain"

end DecodeError

namespace Instruction

def nop : Instruction := ⟨.nop, 0, by decide⟩

def ret : Instruction := ⟨.ret, 0, by decide⟩

def arith (op : ArithOp) (k : Kind) : Instruction := ⟨.arith op k, 0, Nat.zero_lt_one⟩

theorem truncate_fits (k : Kind) (w : Word) :
    (k.truncate w).toNat < 256 ^ (Opcode.push k).operandLen := by
  rw [Kind.toNat_truncate, show (256 : Nat) = 2 ^ 8 from rfl, ← Nat.pow_mul]
  exact Nat.mod_lt _ (Nat.two_pow_pos _)

def pushWord (k : Kind) (w : Word) : Instruction :=
  ⟨.push k, (k.truncate w).toNat, truncate_fits k w⟩

def push (v : Value) : Instruction := pushWord v.kind v.bits

def size (i : Instruction) : Nat := 1 + i.opcode.operandLen

def encode (i : Instruction) : List UInt8 :=
  i.opcode.byte :: BigEndian.bytes i.immediate i.opcode.operandLen

/-- The word a push leaves on the stack. -/
def pushedWord? (i : Instruction) : Option Word :=
  match i.opcode with
  | .push k => some (k.normalize (UInt64.ofNat i.immediate))
  | _ => none

/-- Reads the instruction whose opcode byte is `byte` and whose operand starts `rest`. The offset
only serves to name the place of an error. -/
def decode (offset : Nat) (byte : UInt8) (rest : List UInt8) : Except DecodeError Instruction :=
  match Opcode.ofByte? byte with
  | none => .error (.unknownOpcode offset byte)
  | some op =>
    let operand := rest.take op.operandLen
    if complete : operand.length = op.operandLen then
      .ok ⟨op, BigEndian.number operand, complete ▸ BigEndian.number_lt operand⟩
    else .error (.truncatedOperand offset op rest.length)

@[simp] theorem length_encode (i : Instruction) : i.encode.length = i.size := by
  rw [encode, size, List.length_cons, BigEndian.length_bytes, Nat.add_comm]

theorem length_drop_lt (i : Instruction) (byte : UInt8) (rest : List UInt8) :
    (rest.drop i.opcode.operandLen).length < (byte :: rest).length := by
  rw [List.length_drop, List.length_cons]
  omega

end Instruction

end Wordcode
