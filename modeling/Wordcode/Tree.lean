import Wordcode.Binary.Basic
import Wordcode.Word

/-!
# Trees

The typed tree that a program is lowered from. Expressions and statements share one node type,
so that a tree may put a statement where a value is expected; lowering reports such places.
-/

namespace Wordcode

/-- The operators a node can carry. Only the four arithmetic ones can be lowered. -/
inductive Operator where
  | assign | assignAdd | assignSub
  | add | sub | mul | div
  | equal | notEqual | greaterEqual | lesserEqual
  | negate
  deriving DecidableEq

namespace Operator

/-- The operator as it is written in source text and messages. -/
def symbol : Operator → String
  | assign => "="
  | assignAdd => "+="
  | assignSub => "-="
  | add => "+"
  | sub => "-"
  | mul => "*"
  | div => "/"
  | equal => "=="
  | notEqual => "!="
  | greaterEqual => ">="
  | lesserEqual => "<="
  | negate => "!"

/-- The operator's name in tree texts. -/
def name : Operator → String
  | assign => "assign"
  | assignAdd => "assign_add"
  | assignSub => "assign_sub"
  | add => "add"
  | sub => "sub"
  | mul => "mul"
  | div => "div"
  | equal => "equal"
  | notEqual => "not_equal"
  | greaterEqual => "greater_equal"
  | lesserEqual => "lesser_equal"
  | negate => "negate"

def all : List Operator :=
  [assign, assignAdd, assignSub, add, sub, mul, div, equal, notEqual, greaterEqual, lesserEqual,
    negate]

def ofName? (s : String) : Option Operator := all.find? (·.name = s)

@[simp] theorem ofName?_name (op : Operator) : ofName? op.name = some op := by
  cases op <;> decide

end Operator

inductive Literal where
  | int (value : Value)
  | float (kind : FloatKind) (number : Binary.Number)
  deriving DecidableEq

namespace Literal

def scalar : Literal → Scalar
  | int v => .int v.kind
  | float k _ => .float k

def bits? : Literal → Option Word
  | int v => some v.bits
  | float _ _ => none

end Literal

structure Parameter where
  name : String
  type : Option Scalar
  deriving DecidableEq

inductive Node where
  | literal (value : Literal)
  | unary (op : Operator) (operand : Node)
  | binary (left : Node) (op : Operator) (right : Node)
  | compound (statements : List Node)
  | variableDecl (name : String) (type : Option Scalar) (init : Option Node)
  | functionDecl (name : String) (params : List Parameter) (returnType : Option Scalar)
      (body : List Node)
  | ret (value : Node)

inductive NodeKind where
  | literal | unary | binary | compound | variableDecl | functionDecl | ret
  deriving DecidableEq

namespace NodeKind

def name : NodeKind → String
  | literal => "literal"
  | unary => "unary operation"
  | binary => "binary operation"
  | compound => "compound statement"
  | variableDecl => "variable declaration"
  | functionDecl => "function declaration"
  | ret => "return statement"

end NodeKind

namespace Node

def kind : Node → NodeKind
  | literal _ => .literal
  | unary _ _ => .unary
  | binary _ _ _ => .binary
  | compound _ => .compound
  | variableDecl _ _ _ => .variableDecl
  | functionDecl _ _ _ _ => .functionDecl
  | ret _ => .ret

def function (name : String) (params : List Parameter) (body : List Node) : Node :=
  functionDecl name params none body

end Node

/-- A whole tree: the statements of an implicit outermost block. -/
structure Tree where
  statements : List Node

namespace Tree

def ofBody (body : List Node) : Tree := ⟨[.function "main" [] body]⟩

def ofExpr (e : Node) : Tree := ofBody [.ret e]

end Tree

end Wordcode
