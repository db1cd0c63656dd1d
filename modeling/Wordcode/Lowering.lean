import Wordcode.Stream
import Wordcode.Tree

/-!
# Lowering trees to streams

An expression is lowered in one walk, left operand first, to instructions in postfix order.
Statements are lowered in place: blocks and function bodies contribute their statements,
declarations contribute nothing, and the one `return` ends the stream. What was emitted before an
error stays emitted, so both the emitted code and the outcome of a walk are kept.
-/

namespace Wordcode

inductive LoweringError where
  | unexpectedOperator (op : Operator)
  | statementAsValue (kind : NodeKind)
  /-- An expression in the place of a statement: its value would stay on the stack. -/
  | expressionStatement
  | unaryOperation
  | unsupportedScalar (kind : FloatKind)
  | codeAfterReturn
  | missingReturn
  deriving DecidableEq

namespace LoweringError

def message : LoweringError → String
  | unexpectedOperator op =>
    let symbol := op.symbol
    s!"unexpected operator `{symbol}`"
  | statementAsValue kind =>
    let name := kind.name
    s!"unsupported node kind: {name}"
  | expressionStatement => "unsupported node kind: expression statement"
  | unaryOperation => "unary operation is not implemented"
  | unsupportedScalar kind =>
    let name := kind.name
    s!"scalar kind {name} has no bytecode representation"
  | codeAfterReturn => "code follows the program's return"
  | missingReturn => "program has no return statement"

end LoweringError

/-- The instructions a walk emitted and how it ended. -/
structure Emission (α : Type) where
  emitted : List Instruction
  outcome : Except LoweringError α

namespace Emission

def pure {α : Type} (a : α) : Emission α := ⟨[], .ok a⟩

def fail {α : Type} (e : LoweringError) : Emission α := ⟨[], .error e⟩

def emit (i : Instruction) : Emission Unit := ⟨[i], .ok ()⟩

/-- One walk after another. A walk after a failed one does not take place. -/
def bind {α β : Type} (x : Emission α) (f : α → Emission β) : Emission β :=
  match x.outcome with
  | .error e => ⟨x.emitted, .error e⟩
  | .ok a =>
    let y := f a
    ⟨x.emitted ++ y.emitted, y.outcome⟩

instance : Monad Emission where
  pure := Emission.pure
  bind := Emission.bind

end Emission

namespace Operator

def arith? : Operator → Option ArithOp
  | add => some .add
  | sub => some .sub
  | mul => some .mul
  | div => some .div
  | _ => none

end Operator

namespace Node

/-- Lowers an expression and gives the kind its value is resolved to. The operator of a binary
operation is looked at after both operands. -/
def lower : Node → Emission Kind
  | literal (.int v) => do
    Emission.emit (.push v)
    return v.kind
  | literal (.float k _) => .fail (.unsupportedScalar k)
  | binary left op right => do
    let a ← left.lower
    let b ← right.lower
    match op.arith? with
    | some arith =>
      Emission.emit (.arith arith (a.promote b))
      return a.promote b
    | none => .fail (.unexpectedOperator op)
  | unary _ _ => .fail .unaryOperation
  | node => .fail (.statementAsValue node.kind)

end Node

/-- A program under construction: the code so far, and the kind of the returned value once a
return has been lowered. -/
@[ext] structure Draft where
  code : List UInt8
  resultKind : Option Kind
  deriving DecidableEq

namespace Draft

def empty : Draft := ⟨[], none⟩

def emit (d : Draft) (i : Instruction) : Draft := { d with code := d.code ++ i.encode }

def addExpr (d : Draft) (e : Node) : Draft × Except LoweringError Kind :=
  let walk := e.lower
  ({ d with code := d.code ++ Stream.encode walk.emitted }, walk.outcome)

/-- Appends a return of an expression; a second one is refused. -/
def addReturn (d : Draft) (e : Node) : Draft × Except LoweringError Unit :=
  match d.resultKind with
  | some _ => (d, .error .codeAfterReturn)
  | none =>
    match d.addExpr e with
    | (d, .error err) => (d, .error err)
    | (d, .ok k) => ({ d.emit .ret with resultKind := some k }, .ok ())

mutual

def addStmt (d : Draft) : Node → Draft × Except LoweringError Unit
  | .compound statements => d.addBlock statements
  | .functionDecl _ _ _ body => d.addBlock body
  | .variableDecl _ _ _ => (d, .ok ())
  | .ret value => d.addReturn value
  | .literal _ | .unary _ _ | .binary _ _ _ => (d, .error .expressionStatement)

def addBlock (d : Draft) : List Node → Draft × Except LoweringError Unit
  | [] => (d, .ok ())
  | stmt :: rest =>
    match d.addStmt stmt with
    | (d, .ok ()) => d.addBlock rest
    | (d, .error e) => (d, .error e)

end

def finish (d : Draft) : Except LoweringError Program :=
  match d.resultKind with
  | some k => .ok ⟨d.code, some k⟩
  | none => .error .missingReturn

end Draft

namespace Tree

def compile (t : Tree) : Except LoweringError Program :=
  match Draft.empty.addBlock t.statements with
  | (d, .ok ()) => d.finish
  | (_, .error e) => .error e

end Tree

end Wordcode
