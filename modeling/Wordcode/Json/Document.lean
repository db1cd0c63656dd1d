import Wordcode.Json.Token

/-!
# Documents

A JSON value keeps the order of its fields and also fields of the same name. `parse?` builds the
value from the tokens one by one, with the open arrays and objects on a stack, so that nesting
has no limit of its own. `Document.admits` is the stricter reading that most of a document gets.
-/

namespace Wordcode.Json

/-- A JSON value. Strings and field names may lack a text; see `Token.text`. -/
inductive Document where
  | null
  | bool (b : Bool)
  | number (n : Numeral)
  | text (s : Option String)
  | array (items : List Document)
  | object (fields : List (Option String × Document))

namespace Document

/-! ### Writing -/

mutual

def tokens : Document → List Token
  | null => [.null]
  | bool b => [.bool b]
  | number n => [.number n]
  | text s => [.text s]
  | array [] => [.openArray, .closeArray]
  | array (v :: items) => .openArray :: (v.tokens ++ moreItems items)
  | object [] => [.openObject, .closeObject]
  | object ((k, v) :: fields) => .openObject :: .text k :: .colon :: (v.tokens ++ moreFields fields)

/-- The tokens of the items after the first, with the closing bracket. -/
def moreItems : List Document → List Token
  | [] => [.closeArray]
  | v :: items => .comma :: (v.tokens ++ moreItems items)

/-- The tokens of the fields after the first, with the closing brace. -/
def moreFields : List (Option String × Document) → List Token
  | [] => [.closeObject]
  | (k, v) :: fields => .comma :: .text k :: .colon :: (v.tokens ++ moreFields fields)

end

def render (d : Document) : String := String.ofList (d.tokens.flatMap Token.chars)

/-! ### Reading -/

/-- An array or object that is still open, with its earlier parts in reverse order. The value in
progress belongs to the field `key` of an object. -/
inductive Frame where
  | array (items : List Document)
  | object (fields : List (Option String × Document)) (key : Option String)

/-- What may come next. -/
inductive State where
  | value (frames : List Frame)
  /-- The first item of an array, or its end. -/
  | firstItem (frames : List Frame)
  /-- The first field of an object, or its end. -/
  | firstField (frames : List Frame)
  | name (fields : List (Option String × Document)) (frames : List Frame)
  | colon (fields : List (Option String × Document)) (key : Option String) (frames : List Frame)
  | complete (value : Document) (frames : List Frame)

def start (frames : List Frame) : Token → Option State
  | .openArray => some (.firstItem frames)
  | .openObject => some (.firstField frames)
  | .null => some (.complete null frames)
  | .bool b => some (.complete (bool b) frames)
  | .number n => some (.complete (number n) frames)
  | .text s => some (.complete (text s) frames)
  | _ => none

def step : State → Token → Option State
  | .value frames, t => start frames t
  | .firstItem frames, .closeArray => some (.complete (array []) frames)
  | .firstItem frames, t => start (.array [] :: frames) t
  | .firstField frames, .closeObject => some (.complete (object []) frames)
  | .firstField frames, .text k => some (.colon [] k frames)
  | .name fields frames, .text k => some (.colon fields k frames)
  | .colon fields k frames, .colon => some (.value (.object fields k :: frames))
  | .complete v (.array items :: frames), .comma => some (.value (.array (v :: items) :: frames))
  | .complete v (.array items :: frames), .closeArray =>
    some (.complete (array (v :: items).reverse) frames)
  | .complete v (.object fields k :: frames), .comma => some (.name ((k, v) :: fields) frames)
  | .complete v (.object fields k :: frames), .closeObject =>
    some (.complete (object ((k, v) :: fields).reverse) frames)
  | _, _ => none

def ofTokens? (tokens : List Token) : Option Document :=
  match tokens.foldlM step (.value []) with
  | some (.complete v []) => some v
  | _ => none

def parse? (s : String) : Option Document := (lex s.toList).bind ofTokens?

/-! ### Strict reading -/

mutual

/-- Whether a value nests at most `levels` arrays and objects, all its strings have a text and all
its numbers are finite. -/
def admits (levels : Nat) : Document → Bool
  | null | bool _ => true
  | number n => n.isFinite
  | text s => s.isSome
  | array items =>
    match levels with
    | 0 => false
    | levels + 1 => admitsItems levels items
  | object fields =>
    match levels with
    | 0 => false
    | levels + 1 => admitsFields levels fields

def admitsItems (levels : Nat) : List Document → Bool
  | [] => true
  | v :: items => v.admits levels && admitsItems levels items

def admitsFields (levels : Nat) : List (Option String × Document) → Bool
  | [] => true
  | (k, v) :: fields => k.isSome && v.admits levels && admitsFields levels fields

end

end Document

end Wordcode.Json
