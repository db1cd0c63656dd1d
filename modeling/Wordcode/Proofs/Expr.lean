import Wordcode.Lowering
import Wordcode.Proofs.Wrapping

/-!
# Arithmetic expressions

The nodes that can be lowered as values form a type of their own. An expression has a kind, the
integer it denotes and the number of stack slots it needs, none of which mention instructions.
`lower_node` says what is emitted for an expression, and `exists_node_of_lower` that nothing else
is lowered.
-/

namespace Wordcode

namespace ArithOp

def operator : ArithOp → Operator
  | add => .add
  | sub => .sub
  | mul => .mul
  | div => .div

@[simp] theorem arith?_operator (op : ArithOp) : op.operator.arith? = some op := by cases op <;> rfl

end ArithOp

theorem Operator.eq_operator {written : Operator} {op : ArithOp}
    (arithmetic : written.arith? = some op) : written = op.operator := by
  cases written <;> cases arithmetic <;> rfl

/-- Expressions over integer literals of any kinds. -/
inductive Expr where
  | literal (value : Value)
  | binary (left : Expr) (op : ArithOp) (right : Expr)
  deriving DecidableEq

namespace Expr

/-- The node of a tree that the expression is written as. -/
def node : Expr → Node
  | literal v => .literal (.int v)
  | binary left op right => .binary left.node op.operator right.node

/-- The kind of a literal is its own, and that of an operation is resolved from its operands. -/
def kind : Expr → Kind
  | literal v => v.kind
  | binary left _ right => left.kind.promote right.kind

/-- The number of stack slots that evaluation needs. -/
def need : Expr → Nat
  | literal _ => 1
  | binary left _ right => max left.need (1 + right.need)

/-- The integer that an expression denotes. Both operands are wrapped at the kind of the operation,
and so is its result; a divisor of zero leaves it undefined. -/
def denote : Expr → Option Int
  | literal v => some v.number
  | binary left op right => do
    let a ← left.denote
    let b ← right.denote
    let k := left.kind.promote right.kind
    (op.result? (k.wrap a) (k.wrap b)).map k.wrap

/-- The nodes of an expression, operands before their operation and left before right. -/
def postorder : Expr → List Expr
  | literal v => [literal v]
  | binary left op right => left.postorder ++ right.postorder ++ [binary left op right]

/-- The opcode of a node's record. -/
def opcode : Expr → Opcode
  | literal v => .push v.kind
  | binary left op right => .arith op (left.kind.promote right.kind)

/-- The immediate of a node's record: a literal's bits in two's complement at its own width. -/
def immediate : Expr → Nat
  | literal v => (v.number % 2 ^ v.kind.bits).toNat
  | binary _ _ _ => 0

theorem immediate_fits (e : Expr) : e.immediate < 256 ^ e.opcode.operandLen := by
  cases e with
  | literal v =>
    have small := Int.emod_lt_of_pos v.number v.kind.two_pow_pos
    have natural := Int.emod_nonneg v.number (Int.ne_of_gt v.kind.two_pow_pos)
    have modulus : ((256 ^ v.kind.width.bytes : Nat) : Int) = 2 ^ v.kind.bits := by
      rw [Kind.bits, Width.bits, Int.pow_mul]
      rfl
    show (v.number % 2 ^ v.kind.bits).toNat < 256 ^ v.kind.width.bytes
    omega
  | binary left op right => exact Nat.zero_lt_one

/-- The bits of a literal stand for its number. -/
theorem integer_immediate (v : Value) :
    v.kind.integer (UInt64.ofNat (literal v).immediate) = v.number := by
  have natural := Int.emod_nonneg v.number (Int.ne_of_gt v.kind.two_pow_pos)
  rw [← Word.ofInt_natCast, Kind.integer_ofInt, immediate, Int.toNat_of_nonneg natural,
    Kind.wrap_congr (Int.mod_modEq _ _), Kind.wrap_of_inRange v.inRange]

def instruction (e : Expr) : Instruction := ⟨e.opcode, e.immediate, e.immediate_fits⟩

/-- The instructions of an expression: one for each node. -/
def code (e : Expr) : List Instruction := e.postorder.map instruction

@[simp] theorem code_literal (v : Value) : (literal v).code = [(literal v).instruction] := rfl

@[simp] theorem code_binary (left : Expr) (op : ArithOp) (right : Expr) :
    (binary left op right).code =
      left.code ++ right.code ++ [.arith op (left.kind.promote right.kind)] := by
  rw [code, postorder, List.map_append, List.map_append]
  rfl

theorem instruction_literal (v : Value) : (literal v).instruction = .push v := by
  apply Instruction.ext
  · rfl
  · have cast := Word.toNat_ofInt v.number
    have residue := Int.emod_emod_of_dvd v.number v.kind.two_pow_dvd
    show (v.number % 2 ^ v.kind.bits).toNat = (v.kind.truncate v.bits).toNat
    rw [Value.bits, Kind.toNat_truncate, Kind.toNat_truncate, Nat.mod_mod, Value.word, ← residue,
      ← cast]
    rfl

theorem denote_binary {left right : Expr} {a b : Int} (first : left.denote = some a)
    (second : right.denote = some b) (op : ArithOp) :
    (binary left op right).denote =
      (op.result? ((left.kind.promote right.kind).wrap a)
        ((left.kind.promote right.kind).wrap b)).map (left.kind.promote right.kind).wrap := by
  rw [denote, first, second]
  rfl

theorem inRange_denote {e : Expr} {n : Int} (defined : e.denote = some n) : e.kind.InRange n := by
  cases e with
  | literal v =>
    cases defined
    exact v.inRange
  | binary left op right =>
    simp only [denote, Option.bind_eq_bind, Option.bind_eq_some_iff,
      Option.map_eq_some_iff] at defined
    obtain ⟨a, _, b, _, m, _, same⟩ := defined
    rw [← same]
    exact Kind.inRange_wrap _ m

end Expr

namespace Node

/-- What lowering an operation does: the first operand that fails ends it, then the operator is
looked at. -/
theorem lower_binary (left : Node) (op : Operator) (right : Node) :
    (binary left op right).lower =
      match left.lower.outcome, right.lower.outcome, op.arith? with
      | .error e, _, _ => ⟨left.lower.emitted, .error e⟩
      | .ok _, .error e, _ => ⟨left.lower.emitted ++ right.lower.emitted, .error e⟩
      | .ok _, .ok _, none =>
        ⟨left.lower.emitted ++ right.lower.emitted, .error (.unexpectedOperator op)⟩
      | .ok a, .ok b, some arith =>
        ⟨left.lower.emitted ++ right.lower.emitted ++ [.arith arith (a.promote b)],
          .ok (a.promote b)⟩ := by
  rw [lower]
  simp only [bind, Emission.bind, pure, Emission.pure, Emission.emit, Emission.fail]
  cases left.lower.outcome with
  | error e => rfl
  | ok a =>
    cases right.lower.outcome with
    | error e => rfl
    | ok b => cases op.arith? <;> simp

end Node

namespace Expr

/-- An expression is lowered to its code, and to its kind. -/
theorem lower_node (e : Expr) : e.node.lower = ⟨e.code, .ok e.kind⟩ := by
  induction e with
  | literal v => rw [code_literal, instruction_literal]; rfl
  | binary left op right ihl ihr =>
    rw [node, Node.lower_binary, ihl, ihr, op.arith?_operator, code_binary]
    rfl

/-- Nothing but an expression is lowered to a value. -/
theorem exists_node_of_lower {n : Node} {k : Kind} (lowered : n.lower.outcome = .ok k) :
    ∃ e : Expr, n = e.node := by
  fun_induction Node.lower n generalizing k with
  | case1 v => exact ⟨literal v, rfl⟩
  | case3 left op right ihl ihr =>
    rw [← Node.lower, Node.lower_binary] at lowered
    split at lowered
    · cases lowered
    · cases lowered
    · cases lowered
    · next a b arith first second arithmetic =>
      obtain ⟨l, rfl⟩ := ihl first
      obtain ⟨r, rfl⟩ := ihr second
      exact ⟨binary l arith r, by rw [node, Operator.eq_operator arithmetic]⟩
  | case2 | case4 | case5 => cases lowered

end Expr

end Wordcode
