/-!
# Tables of settings

A TOML document is one table of nested tables. Tables come into being in three ways: by their own
header, on the path of a deeper header, or on the path of a dotted key. Which of these it was
decides how a table may still be extended.
-/

namespace Wordcode.Toml

/-- A value, as far as settings look at it. Every value is checked in full, but only integers and
booleans keep their content. -/
inductive Value where
  | integer (n : Int)
  | boolean (b : Bool)
  | other
  deriving DecidableEq

inductive Origin where
  | header
  | headerPath
  | dottedKey
  deriving DecidableEq

/-- What a name in a table stands for. In an array of tables the latest one comes first. -/
inductive Item where
  | value (v : Value)
  | table (origin : Origin) (entries : List (String × Item))
  | tables (elements : List (List (String × Item)))

abbrev Entries := List (String × Item)

namespace Entries

def set (es : Entries) (name : String) (item : Item) : Entries :=
  if es.any (·.1 = name) then es.map fun e => if e.1 = name then (name, item) else e
  else es ++ [(name, item)]

/-- Changes the table at the end of a path. Missing tables on the way are created with a given
origin, and an array of tables stands for its latest element. A dotted key must not lead through
a table that has a header of its own, and nothing leads through a value. -/
def update (created : Origin) (change : Origin → Entries → Option Entries) :
    (path : List String) → Origin → Entries → Option Entries
  | [], origin, es => change origin es
  | name :: path, _, es =>
    match es.lookup name with
    | none => do
      let inner ← update created change path created []
      return es.set name (.table created inner)
    | some (.value _) => none
    | some (.table origin inner) =>
      if created = .dottedKey ∧ origin = .header then none
      else do
        let inner ← update created change path origin inner
        return es.set name (.table origin inner)
    | some (.tables []) => none
    | some (.tables (latest :: earlier)) => do
      let latest ← update created change path .header latest
      return es.set name (.tables (latest :: earlier))

/-- Adds a value under a dotted key. Only tables made by dotted keys can be extended by them, and
no name is given twice. -/
def insert (path : List String) (name : String) (v : Value) : Origin → Entries → Option Entries :=
  update .dottedKey
    (fun origin es =>
      if decide (origin = .dottedKey) = path.isEmpty ∨ (es.lookup name).isSome then none
      else some (es.set name (.value v)))
    path

/-- Opens the table of a header. A table that so far was only on the path of other headers may
still get its own. -/
def openTable (name : String) (es : Entries) : Option Entries :=
  match es.lookup name with
  | none => some (es.set name (.table .header []))
  | some (.table .headerPath inner) => some (es.set name (.table .header inner))
  | _ => none

def openElement (name : String) (es : Entries) : Option Entries :=
  match es.lookup name with
  | none => some (es.set name (.tables [[]]))
  | some (.tables elements) => some (es.set name (.tables ([] :: elements)))
  | _ => none

end Entries

structure Draft where
  root : Entries
  header : List String

namespace Draft

def empty : Draft := ⟨[], []⟩

def insert (d : Draft) (path : List String) (name : String) (v : Value) : Option Draft := do
  let root ← d.root.update .headerPath (Entries.insert path name v) d.header .header
  return { d with root }

def start (d : Draft) (element : Bool) (path : List String) (name : String) : Option Draft := do
  let change := if element then Entries.openElement name else Entries.openTable name
  let root ← d.root.update .headerPath (fun _ => change) path .header
  return ⟨root, path ++ [name]⟩

end Draft

end Wordcode.Toml
