import Wordcode.Word

/-!
# Arithmetic at a kind

Every operation takes two machine words, looks only at the bits its kind has, and leaves a word
in normal form. Results wrap around at the kind's width. Division truncates toward zero and is
the one operation that can fail.
-/

namespace Wordcode

inductive ArithOp where
  | add | sub | mul | div
  deriving DecidableEq

namespace ArithOp

def name : ArithOp → String
  | add => "ADD"
  | sub => "SUB"
  | mul => "MUL"
  | div => "DIV"

def all : List ArithOp := [add, sub, mul, div]

end ArithOp

namespace Kind

/-- The quotient of two words at a kind. The least signed integer divided by minus one has no
representation and wraps around to itself. -/
def quotient (k : Kind) (lhs rhs : Word) : Word :=
  if k.signed then ((k.normalize lhs).toInt64 / (k.normalize rhs).toInt64).toUInt64
  else k.truncate lhs / k.truncate rhs

end Kind

namespace ArithOp

/-- The normal-form result of an operation at a kind; division by zero has none. -/
def apply (op : ArithOp) (k : Kind) (lhs rhs : Word) : Option Word :=
  match op with
  | add => some (k.normalize (lhs + rhs))
  | sub => some (k.normalize (lhs - rhs))
  | mul => some (k.normalize (lhs * rhs))
  | div => if k.truncate rhs = 0 then none else some (k.normalize (k.quotient lhs rhs))

end ArithOp

end Wordcode
