import Wordcode.Json.Document
import Wordcode.Tree

/-!
# The shape of tree documents

Every kind of node has a tag and a list of named fields, each with a role. The list serves both
written forms of a node: an object with the tag among its fields in any order, and an array of
the tag and the fields in this order.
-/

namespace Wordcode

open Json (Document)

inductive Role where
  | node | nodes | initializer | literal | operator | scalar | name | parameters
  deriving DecidableEq

inductive Part where
  | node (n : Node)
  | nodes (ns : List Node)
  | initializer (n : Option Node)
  | literal (l : Literal)
  | operator (op : Operator)
  | scalar (s : Option Scalar)
  | name (s : String)
  | parameters (ps : List Parameter)

def Part.node? : Part → Option Node
  | node n => some n
  | _ => none

namespace Role

/-- What a field holds that is not written; some roles need to be. -/
def missing? : Role → Option Part
  | initializer => some (.initializer none)
  | scalar => some (.scalar none)
  | parameters => some (.parameters [])
  | _ => none

def ofNode? (n : Node) : Role → Option Part
  | node => some (.node n)
  | initializer => some (.initializer (some n))
  | _ => none

def holdsNode : Role → Bool
  | node | initializer => true
  | _ => false

end Role

structure Field where
  name : String
  role : Role
  deriving DecidableEq

namespace NodeKind

def all : List NodeKind := [literal, unary, binary, compound, variableDecl, functionDecl, ret]

def tag : NodeKind → String
  | literal => "literal"
  | unary => "unary"
  | binary => "binary"
  | compound => "compound"
  | variableDecl => "variable_declaration"
  | functionDecl => "function_declaration"
  | ret => "return"

def tagField : String := "node"

/-- The fields of a kind, in the order in which they are written. -/
def shape : NodeKind → List Field
  | literal => [⟨"value", .literal⟩]
  | unary => [⟨"op", .operator⟩, ⟨"operand", .node⟩]
  | binary => [⟨"left", .node⟩, ⟨"op", .operator⟩, ⟨"right", .node⟩]
  | compound => [⟨"statements", .nodes⟩]
  | variableDecl => [⟨"name", .name⟩, ⟨"ty", .scalar⟩, ⟨"init", .initializer⟩]
  | functionDecl =>
    [⟨"name", .name⟩, ⟨"params", .parameters⟩, ⟨"return_type", .scalar⟩, ⟨"body", .nodes⟩]
  | ret => [⟨"value", .node⟩]

def build? : NodeKind → List Part → Option Node
  | literal, [.literal l] => some (.literal l)
  | unary, [.operator op, .node e] => some (.unary op e)
  | binary, [.node l, .operator op, .node r] => some (.binary l op r)
  | compound, [.nodes ns] => some (.compound ns)
  | variableDecl, [.name s, .scalar ty, .initializer e] => some (.variableDecl s ty e)
  | functionDecl, [.name s, .parameters ps, .scalar ty, .nodes ns] =>
    some (.functionDecl s ps ty ns)
  | ret, [.node e] => some (.ret e)
  | _, _ => none

/-- The kind that a tag stands for. Below the outermost node a tag may also be the number of the
kind. -/
def ofTag? (outermost : Bool) : Document → Option NodeKind
  | .text (some s) => all.find? (·.tag = s)
  | .number n =>
    if outermost then none
    else
      match n.integer? with
      | some (.ofNat i) => all[i]?
      | _ => none
  | _ => none

end NodeKind

end Wordcode
