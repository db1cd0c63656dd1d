import Wordcode.Tree.Shape

/-!
# Trees as documents

`Tree.document` writes a tree as a JSON document and `Tree.ofDocument?` reads one. Writing always
uses the object form with the tag first and every field present. Reading also accepts fields in
any order, fields without a meaning, missing fields that have a default, and arrays in the place
of objects. A field with a meaning must not be repeated.
-/

namespace Wordcode

open Json (Document Numeral)

/-! ### Writing -/

def textDocument (s : String) : Document := .text (some s)

def scalarDocument : Option Scalar → Document
  | some s => textDocument s.name
  | none => .null

namespace Literal

/-- The number of a literal; floating-point numbers that are not finite have none. -/
def numberDocument : Literal → Document
  | int v => .number (.ofInt v.number)
  | float k x =>
    match Numeral.ofFloat? k x with
    | some n => .number n
    | none => .null

def document (l : Literal) : Document :=
  .object [(some "kind", textDocument l.scalar.name), (some "value", l.numberDocument)]

end Literal

def Parameter.document (p : Parameter) : Document :=
  .object [(some "name", textDocument p.name), (some "ty", scalarDocument p.type)]

namespace Node

def tagged (kind : NodeKind) (contents : List Document) : Document :=
  .object ((some NodeKind.tagField, textDocument kind.tag) ::
    (kind.shape.map (some ·.name)).zip contents)

mutual

def document : Node → Document
  | literal l => tagged .literal [l.document]
  | unary op e => tagged .unary [textDocument op.name, e.document]
  | binary l op r => tagged .binary [l.document, textDocument op.name, r.document]
  | compound ns => tagged .compound [.array (documents ns)]
  | variableDecl s ty none => tagged .variableDecl [textDocument s, scalarDocument ty, .null]
  | variableDecl s ty (some e) =>
    tagged .variableDecl [textDocument s, scalarDocument ty, e.document]
  | functionDecl s ps ty ns =>
    tagged .functionDecl
      [textDocument s, .array (ps.map (·.document)), scalarDocument ty, .array (documents ns)]
  | ret e => tagged .ret [e.document]

def documents : List Node → List Document
  | [] => []
  | n :: ns => n.document :: documents ns

end

end Node

namespace Tree

def document (t : Tree) : Document :=
  .object [(some "statements", .array (Node.documents t.statements))]

def render (t : Tree) : String := t.document.render

end Tree

/-! ### Reading leaves -/

/-- The name of a choice without content: a text, or an object with that only field and nothing in
it. -/
def choice? : Document → Option String
  | .text s => s
  | .object [(some s, .null)] => some s
  | .object [(some s, .object [])] => some s
  | _ => none

/-- The content of a field that occurs exactly once. -/
def unique? (fields : List (Option String × Document)) (name : String) : Option Document :=
  match fields.filter (·.1 = some name) with
  | [(_, d)] => some d
  | _ => none

/-- The content of a field that occurs at most once, or nothing in it. -/
def atMostOne? (fields : List (Option String × Document)) (name : String) : Option Document :=
  match fields.filter (·.1 = some name) with
  | [] => some .null
  | [(_, d)] => some d
  | _ => none

def readScalar? : Document → Option (Option Scalar)
  | .null => some none
  | d => ((choice? d).bind Scalar.ofName?).map some

namespace Literal

def ofNumeral? (n : Numeral) : Scalar → Option Literal
  | .int k => (n.integer?.bind (Value.ofInt? k)).map .int
  | .float k => (n.float? k).map (.float k)

/-- The scalar at the head of a literal in array form: its name, or its number in the list of all
scalars. -/
def itemScalar? : Document → Option Scalar
  | .text s => s.bind Scalar.ofName?
  | .number n =>
    match n.integer? with
    | some (.ofNat i) => Scalar.all[i]?
    | _ => none
  | _ => none

def ofNumber? (s : Scalar) : Document → Option Literal
  | .number n => ofNumeral? n s
  | _ => none

def ofDocument? : Document → Option Literal
  | .object fields => do
    let s ← (choice? (← unique? fields "kind")).bind Scalar.ofName?
    ofNumber? s (← unique? fields "value")
  | .array [kind, number] => (itemScalar? kind).bind (ofNumber? · number)
  | _ => none

end Literal

namespace Parameter

def ofParts? (name type : Document) : Option Parameter :=
  match name, readScalar? type with
  | .text (some s), some ty => some ⟨s, ty⟩
  | _, _ => none

def ofDocument? : Document → Option Parameter
  | .object fields => do ofParts? (← unique? fields "name") (← atMostOne? fields "ty")
  | .array [name] => ofParts? name .null
  | .array [name, type] => ofParts? name type
  | _ => none

end Parameter

def readLeaf? : Role → Document → Option Part
  | .initializer, .null => some (.initializer none)
  | .literal, d => (Literal.ofDocument? d).map .literal
  | .operator, d => ((choice? d).bind Operator.ofName?).map .operator
  | .scalar, d => (readScalar? d).map .scalar
  | .name, .text (some s) => some (.name s)
  | .parameters, .array ds => (ds.mapM Parameter.ofDocument?).map .parameters
  | _, _ => none

/-! ### Reading nodes -/

/-- The kind of a node in object form. The tag must occur exactly once. -/
def NodeKind.ofFields? (outermost : Bool) (fields : List (Option String × Document)) :
    Option NodeKind :=
  (unique? fields tagField).bind (ofTag? outermost)

def arrange? (shape : List Field) (parts : List (String × Part)) : Option (List Part) :=
  shape.mapM fun f =>
    match parts.lookup f.name with
    | some p => some p
    | none => f.role.missing?

mutual

def read? (outermost : Bool) (role : Role) : Document → Option Part
  | .object fields =>
    if role.holdsNode then do
      let kind ← NodeKind.ofFields? outermost fields
      let parts ← readFields? kind.shape fields
      let node ← kind.build? (← arrange? kind.shape parts)
      role.ofNode? node
    else readLeaf? role (.object fields)
  | .array ds =>
    if role = .nodes then (readNodes? ds).map .nodes
    else if role.holdsNode then
      match ds with
      | [] => none
      | d :: ds => do
        let kind ← NodeKind.ofTag? outermost d
        let node ← kind.build? (← readItems? kind.shape ds)
        role.ofNode? node
    else readLeaf? role (.array ds)
  | d => readLeaf? role d

def readNodes? : List Document → Option (List Node)
  | [] => some []
  | d :: ds => do
    let n ← (← read? false .node d).node?
    let ns ← readNodes? ds
    return n :: ns

/-- Reads the fields of an object that belong to a shape, each at most once. -/
def readFields? (shape : List Field) :
    List (Option String × Document) → Option (List (String × Part))
  | [] => some []
  | (none, _) :: _ => none
  | (some name, d) :: fields =>
    match shape.find? (·.name = name) with
    | none => readFields? shape fields
    | some f => do
      let p ← read? false f.role d
      let parts ← readFields? shape fields
      if (parts.lookup name).isSome then none else some ((name, p) :: parts)

/-- Reads the fields of an array in the order of a shape. Fields at the end may be missing. -/
def readItems? : List Field → List Document → Option (List Part)
  | shape, [] => shape.mapM (·.role.missing?)
  | [], _ :: _ => none
  | f :: shape, d :: ds => do
    let p ← read? false f.role d
    let ps ← readItems? shape ds
    return p :: ps

end

namespace Node

def ofDocument? (d : Document) : Option Node := (read? true .node d).bind Part.node?

/-- The greatest number of arrays and objects that may be nested in a document, the outermost one
included. -/
def maxLevels : Nat := 127

def parse? (s : String) : Option Node := do
  let d ← Document.parse? s
  if d.admits maxLevels then ofDocument? d else none

end Node

namespace Tree

def ofStatements? (d : Document) : Option Tree :=
  match d with
  | .array ds =>
    if d.admits (Node.maxLevels - 1) then (ds.mapM Node.ofDocument?).map (⟨·⟩) else none
  | _ => none

/-- Reads a tree. Of fields without a meaning only the name is looked at. -/
def ofDocument? : Document → Option Tree
  | .object fields => do
    if fields.all (·.1.isSome) then ofStatements? (← unique? fields "statements") else none
  | .array [d] => ofStatements? d
  | _ => none

def parse? (s : String) : Option Tree := (Document.parse? s).bind ofDocument?

end Tree

end Wordcode
