import Wordcode.Stream

/-!
# Listings

Two texts for a stream: a disassembly with one line for each record, and a dump of its bytes in
hexadecimal, ten to a line.
-/

namespace Wordcode

namespace Instruction

/-- The number an instruction shows in a listing: a pushed word, read by the signedness of its
kind. -/
def shown? (i : Instruction) : Option Int :=
  match i.opcode with
  | .push k =>
    let w := k.normalize (UInt64.ofNat i.immediate)
    some (if k.signed then w.signed else w.toNat)
  | _ => none

def render (i : Instruction) : List Char :=
  match i.shown? with
  | some n => i.opcode.name.toList ++ ' ' :: Digits.signed n
  | none => i.opcode.name.toList

end Instruction

namespace Record

/-- The line of a record: its offset in at least four digits, a colon and the instruction. -/
def line (r : Record) : List Char :=
  Digits.padded 4 r.offset ++ [':', ' '] ++ r.instruction.render ++ ['\n']

end Record

namespace Listing

def perLine : Nat := 10

/-- Cuts a list into pieces of `size + 1` elements; only the last piece may be shorter. -/
def chunks {α : Type} (size : Nat) : List α → List (List α)
  | [] => []
  | a :: rest => (a :: rest.take size) :: chunks size (rest.drop size)
termination_by l => l.length
decreasing_by rw [List.length_drop, List.length_cons]; omega

/-- The bytes of a line: each as `0x` and two digits, separated by single blanks. -/
def dumpLine (bytes : List UInt8) : List Char :=
  List.intercalate [' '] (bytes.map fun b => '0' :: 'x' :: Digits.hexByte b) ++ ['\n']

end Listing

namespace Program

def disassemble (p : Program) : Except DecodeError String :=
  let d := Stream.decode p.code
  match d.failure with
  | some e => .error e
  | none => .ok (String.ofList (d.records.flatMap (·.line)))

def hexDump (p : Program) : String :=
  String.ofList ((Listing.chunks (Listing.perLine - 1) p.code).flatMap Listing.dumpLine)

end Program

end Wordcode
