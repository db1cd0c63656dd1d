import Wordcode.Instruction

/-!
# Instruction streams

A stream is a flat list of bytes. `Stream.decode` cuts it into records, each an instruction with
the offset of its opcode byte, and stops at the first place where none can be read.
`Program.validate` accepts the streams that decode to the end and whose only return is the last
record.
-/

namespace Wordcode

@[ext] structure Record where
  offset : Nat
  instruction : Instruction
  deriving DecidableEq

namespace Record

def next (r : Record) : Nat := r.offset + r.instruction.size

def opcode (r : Record) : Opcode := r.instruction.opcode

end Record

structure Decoded where
  records : List Record
  failure : Option DecodeError
  deriving DecidableEq

namespace Stream

def decodeFrom (offset : Nat) (code : List UInt8) : Decoded :=
  match code with
  | [] => ⟨[], none⟩
  | byte :: rest =>
    match Instruction.decode offset byte rest with
    | .error e => ⟨[], some e⟩
    | .ok i =>
      let tail := decodeFrom (offset + i.size) (rest.drop i.opcode.operandLen)
      ⟨⟨offset, i⟩ :: tail.records, tail.failure⟩
termination_by code.length
decreasing_by exact i.length_drop_lt byte rest

def decode (code : List UInt8) : Decoded := decodeFrom 0 code

/-- The record at an offset; none once the stream is exhausted. -/
def decodeAt? (code : List UInt8) (offset : Nat) : Option (Except DecodeError Record) :=
  match code.drop offset with
  | [] => none
  | byte :: rest => some ((Instruction.decode offset byte rest).map (⟨offset, ·⟩))

def encode (instructions : List Instruction) : List UInt8 := instructions.flatMap (·.encode)

end Stream

/-- A stream together with the kind of the value it returns, where that is known. -/
@[ext] structure Program where
  code : List UInt8
  resultKind : Option Kind
  deriving DecidableEq

inductive StreamError where
  | decode (error : DecodeError)
  /-- The return at `offset` is not the end of the stream. -/
  | codeAfterReturn (offset : Nat)
  | missingReturn
  deriving DecidableEq

namespace StreamError

def message : StreamError → String
  | decode error => error.message
  | codeAfterReturn offset => s!"instructions follow the return at offset {offset}"
  | missingReturn => "program does not end with a return instruction"

end StreamError

namespace Decoded

/-- Checks the records of a stream of a given length. The first return decides: it must reach the
end of the stream. Without a return, the error that ended the walk is reported if there is one. -/
def check (d : Decoded) (length : Nat) : Except StreamError Unit :=
  match d.records.find? (·.opcode = .ret) with
  | some r => if r.next = length then .ok () else .error (.codeAfterReturn r.offset)
  | none =>
    match d.failure with
    | some e => .error (.decode e)
    | none => .error .missingReturn

end Decoded

namespace Program

def empty : Program := ⟨[], none⟩

/-- A stream from elsewhere, whose result kind is unknown. -/
def ofBytes (code : List UInt8) : Program := ⟨code, none⟩

/-- Checks that the stream decodes to its end and that its only return is its last record. -/
def validate (p : Program) : Except StreamError Unit :=
  (Stream.decode p.code).check p.code.length

end Program

end Wordcode
