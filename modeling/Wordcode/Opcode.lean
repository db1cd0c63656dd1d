import Wordcode.Arithmetic

/-!
# Opcodes

One byte selects the operation. Pushes occupy 0x01 to 0x08. For arithmetic the high nibble
names the family and the low nibble the kind. `ofByte?_byte` and `byte_of_ofByte?` say that
`byte` and `ofByte?` are inverse.
-/

namespace Wordcode

inductive Opcode where
  | nop
  | push (kind : Kind)
  | arith (op : ArithOp) (kind : Kind)
  | ret
  deriving DecidableEq

namespace ArithOp

/-- The first opcode byte of the family. -/
def family : ArithOp → Nat
  | add => 0x10
  | sub => 0x20
  | mul => 0x30
  | div => 0x40

def ofNibble? : Nat → Option ArithOp
  | 1 => some add
  | 2 => some sub
  | 3 => some mul
  | 4 => some div
  | _ => none

theorem ofNibble?_family (op : ArithOp) {i : Nat} (small : i < 16) :
    ofNibble? ((op.family + i) / 16) = some op := by
  have nibble : (op.family + i) / 16 = op.family / 16 := by
    cases op <;> simp only [family] <;> omega
  rw [nibble]
  cases op <;> rfl

theorem family_of_ofNibble? {n : Nat} {op : ArithOp} (found : ofNibble? n = some op) :
    op.family = 16 * n := by
  unfold ofNibble? at found
  split at found <;> cases found <;> rfl

end ArithOp

namespace Opcode

def byte : Opcode → UInt8
  | nop => 0x00
  | push k => UInt8.ofNat (1 + k.index)
  | arith op k => UInt8.ofNat (op.family + k.index)
  | ret => 0x50

def ofByte? (b : UInt8) : Option Opcode :=
  if b = 0x00 then some nop
  else if b = 0x50 then some ret
  else if b ≤ 0x08 then (Kind.ofIndex? (b.toNat - 1)).map push
  else do
    let op ← ArithOp.ofNibble? (b.toNat / 16)
    let k ← Kind.ofIndex? (b.toNat % 16)
    return arith op k

def kind? : Opcode → Option Kind
  | push k | arith _ k => some k
  | nop | ret => none

def arith? : Opcode → Option ArithOp
  | arith op _ => some op
  | _ => none

def isPush : Opcode → Bool
  | push _ => true
  | _ => false

/-- Number of immediate bytes that follow the opcode. -/
def operandLen : Opcode → Nat
  | push k => k.width.bytes
  | _ => 0

def suffix (k : Kind) : String := (if k.signed then "_I" else "_U") ++ k.width.digits

def name : Opcode → String
  | nop => "NOP"
  | push k => "PUSH" ++ suffix k
  | arith op k => op.name ++ suffix k
  | ret => "RET"

theorem ofByte?_eq (b : UInt8) :
    ofByte? b =
      if b.toNat = 0x00 then some nop
      else if b.toNat = 0x50 then some ret
      else if b.toNat ≤ 0x08 then (Kind.ofIndex? (b.toNat - 1)).map push
      else (ArithOp.ofNibble? (b.toNat / 16)).bind fun op =>
        (Kind.ofIndex? (b.toNat % 16)).bind fun k => some (arith op k) := by
  simp only [ofByte?, ← UInt8.toNat_inj, UInt8.le_iff_toNat_le]
  rfl

@[simp] theorem ofByte?_byte (op : Opcode) : ofByte? op.byte = some op := by
  rw [ofByte?_eq]
  cases op with
  | nop | ret => rfl
  | push k =>
    have small := k.index_lt
    have number : (push k).byte.toNat = 1 + k.index :=
      UInt8.toNat_ofNat_of_lt (show _ < 256 by omega)
    rw [number, if_neg (by omega), if_neg (by omega), if_pos (by omega), Nat.add_sub_cancel_left,
      Kind.ofIndex?_index, Option.map_some]
  | arith op k =>
    have small := k.index_lt
    have bounds : 0x10 ≤ op.family ∧ op.family ≤ 0x40 := by cases op <;> decide
    have aligned : op.family % 16 = 0 := by cases op <;> rfl
    have number : (arith op k).byte.toNat = op.family + k.index :=
      UInt8.toNat_ofNat_of_lt (show _ < 256 by omega)
    have low : (op.family + k.index) % 16 = k.index := by omega
    rw [number, if_neg (by omega), if_neg (by omega), if_neg (by omega),
      op.ofNibble?_family (by omega), low, Option.bind_some, Kind.ofIndex?_index, Option.bind_some]

/-- Only the byte of an operation is read as that operation. -/
theorem byte_of_ofByte? {b : UInt8} {op : Opcode} (read : ofByte? b = some op) :
    op.byte = b := by
  rw [ofByte?_eq] at read
  split at read
  · next zero =>
    cases read
    exact (UInt8.toNat_inj.mp zero).symm
  split at read
  · next last =>
    cases read
    exact (UInt8.toNat_inj.mp last).symm
  split at read
  · next nonzero _ _ =>
    obtain ⟨k, found, rfl⟩ := Option.map_eq_some_iff.mp read
    have whole : 1 + k.index = b.toNat := by
      rw [Kind.index_of_ofIndex? found]
      omega
    rw [byte, whole, UInt8.ofNat_toNat]
  · obtain ⟨op, family, read⟩ := Option.bind_eq_some_iff.mp read
    obtain ⟨k, found, same⟩ := Option.bind_eq_some_iff.mp read
    cases same
    have whole : op.family + k.index = b.toNat := by
      rw [ArithOp.family_of_ofNibble? family, Kind.index_of_ofIndex? found]
      omega
    rw [byte, whole, UInt8.ofNat_toNat]

end Opcode

end Wordcode
