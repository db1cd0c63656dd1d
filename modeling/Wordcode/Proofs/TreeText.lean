import Wordcode.Proofs.Documents
import Wordcode.Proofs.Fields
import Wordcode.Proofs.Magnitude

/-!
# Trees are read as they are written

A node is written as its tag and the documents of its parts. A part is `Faithful` if its document
can be read from text and gives the part back; `faithful_of_build` carries this from the parts to
the node, and without floating-point literals all parts have it (`faithful_of_integral`).
-/

namespace Wordcode

open Json (Document Numeral)

/-! ### Documents with a meaning -/

namespace Json.Document

theorem legible_array_iff {items : List Document} :
    (array items).Legible ↔ ∀ d ∈ items, d.Legible := by
  have more : ∀ items : List Document,
      (∀ t ∈ moreItems items, t.Legible) ↔ ∀ d ∈ items, d.Legible := by
    intro items
    induction items with
    | nil => simp [moreItems, Token.Legible]
    | cons v items ih =>
      rw [moreItems, List.forall_mem_cons, List.forall_mem_append, ih, List.forall_mem_cons]
      exact ⟨fun h => h.2, fun h => ⟨trivial, h⟩⟩
  cases items with
  | nil => simp [Legible, tokens, Token.Legible]
  | cons v items =>
    rw [Legible, tokens, List.forall_mem_cons, List.forall_mem_append, more, List.forall_mem_cons]
    exact ⟨fun h => h.2, fun h => ⟨trivial, h⟩⟩

theorem legible_object_iff {fields : List (Option String × Document)} :
    (object fields).Legible ↔ ∀ kd ∈ fields, kd.2.Legible := by
  have more : ∀ fields : List (Option String × Document),
      (∀ t ∈ moreFields fields, t.Legible) ↔ ∀ kd ∈ fields, kd.2.Legible := by
    intro fields
    induction fields with
    | nil => simp [moreFields, Token.Legible]
    | cons kd fields ih =>
      rw [moreFields, List.forall_mem_cons, List.forall_mem_cons, List.forall_mem_cons,
        List.forall_mem_append, ih, List.forall_mem_cons]
      exact ⟨fun h => h.2.2.2, fun h => ⟨trivial, trivial, trivial, h⟩⟩
  cases fields with
  | nil => simp [Legible, tokens, Token.Legible]
  | cons kd fields =>
    rw [Legible, tokens, List.forall_mem_cons, List.forall_mem_cons, List.forall_mem_cons,
      List.forall_mem_append, more, List.forall_mem_cons]
    exact ⟨fun h => h.2.2.2, fun h => ⟨trivial, trivial, trivial, h⟩⟩

theorem meaningful_array_iff {items : List Document} :
    (array items).meaningful ↔ ∀ d ∈ items, d.meaningful := by
  rw [meaningful]
  induction items with
  | nil => simp [meaningfulItems]
  | cons v items ih => rw [meaningfulItems, Bool.and_eq_true, ih, List.forall_mem_cons]

theorem meaningful_object_iff {fields : List (Option String × Document)} :
    (object fields).meaningful ↔ ∀ kd ∈ fields, kd.1.isSome ∧ kd.2.meaningful := by
  rw [meaningful]
  induction fields with
  | nil => simp [meaningfulFields]
  | cons kd fields ih =>
    rw [meaningfulFields, Bool.and_eq_true, Bool.and_eq_true, ih, List.forall_mem_cons]

end Json.Document

/-! ### The document of a part -/

namespace Part

def document : Part → Document
  | node n => n.document
  | nodes ns => .array (Node.documents ns)
  | initializer none => .null
  | initializer (some n) => n.document
  | literal l => l.document
  | operator op => textDocument op.name
  | scalar s => scalarDocument s
  | name s => textDocument s
  | parameters ps => .array (ps.map (·.document))

def role : Part → Role
  | node _ => .node
  | nodes _ => .nodes
  | initializer _ => .initializer
  | literal _ => .literal
  | operator _ => .operator
  | scalar _ => .scalar
  | name _ => .name
  | parameters _ => .parameters

end Part

namespace NodeKind

theorem document_of_build {kind : NodeKind} {parts : List Part} {n : Node}
    (built : kind.build? parts = some n) :
    n.document = Node.tagged kind (parts.map (·.document)) := by
  unfold build? at built
  split at built
  case h_5 s ty e =>
    cases built
    cases e <;> rfl
  all_goals cases built <;> rfl

theorem role_of_build {kind : NodeKind} {parts : List Part} {n : Node}
    (built : kind.build? parts = some n) : parts.map (·.role) = kind.shape.map (·.role) := by
  unfold build? at built
  split at built <;> cases built <;> rfl

theorem length_of_build {kind : NodeKind} {parts : List Part} {n : Node}
    (built : kind.build? parts = some n) :
    (parts.map (·.document)).length = kind.shape.length := by
  simpa using congrArg List.length (role_of_build built)

theorem ofTag?_tag (kind : NodeKind) (outermost : Bool) :
    ofTag? outermost (textDocument kind.tag) = some kind := by
  cases kind <;> rfl

theorem ofFields?_tagged (kind : NodeKind) (outermost : Bool) (contents : List Document) :
    ofFields? outermost ((some tagField, textDocument kind.tag) ::
      (kind.shape.map (some ·.name)).zip contents) = some kind := by
  have alone : named ((kind.shape.map (some ·.name)).zip contents) tagField = [] := by
    apply named_eq_nil
    intro field member
    have shaped := (List.of_mem_zip member).1
    revert shaped
    generalize field.1 = name
    revert name
    cases kind <;> decide
  rw [ofFields?, unique?_eq_sole?, named_cons_self, alone]
  exact ofTag?_tag kind outermost

/-- In the object of a node every field holds its own content. -/
theorem readField?_tagged {kind : NodeKind} {contents : List Document}
    (full : contents.length = kind.shape.length) :
    kind.shape.map (readField? ((some tagField, textDocument kind.tag) ::
      (kind.shape.map (some ·.name)).zip contents)) =
      (kind.shape.zip contents).map fun fd => read? false fd.1.role fd.2 := by
  cases kind
  all_goals
    simp only [shape, List.length_cons, List.length_nil] at full
  case literal | compound | ret =>
    obtain ⟨a, rfl⟩ := List.length_eq_one_iff.mp full
    rfl
  case unary =>
    obtain ⟨a, b, rfl⟩ := List.length_eq_two.mp full
    rfl
  case binary | variableDecl =>
    obtain ⟨a, b, c, rfl⟩ := List.length_eq_three.mp full
    rfl
  case functionDecl =>
    match contents, full with
    | [a, b, c, d], _ => rfl

end NodeKind

/-! ### Trees of integers -/

namespace Node

mutual

/-- All literals are integers. -/
def integral : Node → Bool
  | literal (.int _) => true
  | literal (.float _ _) => false
  | unary _ e => e.integral
  | binary l _ r => l.integral && r.integral
  | compound ns => allIntegral ns
  | variableDecl _ _ none => true
  | variableDecl _ _ (some e) => e.integral
  | functionDecl _ _ _ ns => allIntegral ns
  | ret e => e.integral

def allIntegral : List Node → Bool
  | [] => true
  | n :: ns => n.integral && allIntegral ns

end

end Node

def Tree.integral (t : Tree) : Bool := Node.allIntegral t.statements

/-! ### Leaves -/

@[simp] theorem Scalar.ofName?_name (s : Scalar) : ofName? s.name = some s := by
  rcases s with ⟨width, signed⟩ | k
  · cases width <;> cases signed <;> decide
  · cases k <;> decide

theorem readScalar?_scalarDocument (s : Option Scalar) :
    readScalar? (scalarDocument s) = some s := by
  cases s with
  | none => rfl
  | some s =>
    change ((choice? (textDocument s.name)).bind Scalar.ofName?).map some = some (some s)
    rw [textDocument, choice?, Option.bind_some, Scalar.ofName?_name, Option.map_some]

theorem Parameter.ofDocument?_document (p : Parameter) : ofDocument? p.document = some p := by
  change (ofParts? (textDocument p.name) (scalarDocument p.type)) = some p
  simp only [ofParts?, textDocument, readScalar?_scalarDocument]

theorem Kind.natAbs_lt {k : Kind} {n : Int} (inside : k.InRange n) : n.natAbs < 2 ^ (64 : Nat) := by
  obtain ⟨low, high⟩ := inside
  unfold lower at low
  unfold upper at high
  rcases k with ⟨width, _ | _⟩
  all_goals
    cases width <;> simp [bits, Width.bits, Width.bytes] at low high <;> omega

theorem Json.Numeral.integer?_ofInt (n : Int) : (ofInt n).integer? = some n := by
  have signs : ¬(decide (n < 0) = true ∧ n.natAbs = 0) := by
    rw [decide_eq_true_eq]
    omega
  rw [integer?, if_pos ⟨rfl, rfl, signs⟩, ofInt]
  dsimp only
  by_cases negative : n < 0
  · rw [if_pos (decide_eq_true negative)]
    exact congrArg some (by omega)
  · rw [if_neg (by simpa using negative)]
    exact congrArg some (by omega)

theorem Literal.ofDocument?_document (v : Value) :
    ofDocument? (int v).document = some (int v) := by
  change ((choice? (textDocument (Scalar.int v.kind).name)).bind Scalar.ofName?).bind
    (ofNumber? · (.number (.ofInt v.number))) = some (int v)
  rw [textDocument, choice?, Option.bind_some, Scalar.ofName?_name, Option.bind_some, ofNumber?,
    ofNumeral?, Json.Numeral.integer?_ofInt, Option.bind_some, Value.ofInt?, dif_pos v.inRange]
  rfl

/-! ### Faithful parts -/

/-- Text carries the document of the part, and reading it gives the part back. -/
structure Part.Faithful (p : Part) : Prop where
  legible : p.document.Legible
  meaningful : p.document.meaningful
  read : read? false p.role p.document = some p

/-- Text carries the document of the node, and reading it where a node may stand gives the node
back. -/
structure Node.Faithful (n : Node) : Prop where
  legible : n.document.Legible
  meaningful : n.document.meaningful
  read : ∀ (outermost : Bool) {role : Role}, role.holdsNode →
    read? outermost role n.document = role.ofNode? n

theorem legible_text (s : String) : (textDocument s).Legible := by
  simp [textDocument, Document.Legible, Document.tokens, Json.Token.Legible]

theorem meaningful_text (s : String) : (textDocument s).meaningful := rfl

theorem legible_int (n : Int) : (Document.number (.ofInt n)).Legible := by
  simp [Document.Legible, Document.tokens, Json.Token.Legible, Numeral.ofInt]

theorem legible_scalar (s : Option Scalar) : (scalarDocument s).Legible := by
  cases s with
  | none => simp [scalarDocument, Document.Legible, Document.tokens, Json.Token.Legible]
  | some s => exact legible_text s.name

theorem meaningful_scalar (s : Option Scalar) : (scalarDocument s).meaningful := by
  cases s <;> rfl

theorem Parameter.legible (p : Parameter) : p.document.Legible := by
  rw [document, Json.Document.legible_object_iff]
  simp [legible_text, legible_scalar]

theorem Parameter.meaningful (p : Parameter) : p.document.meaningful := by
  rw [document, Json.Document.meaningful_object_iff]
  simp [meaningful_text, meaningful_scalar]

namespace Part

theorem faithful_operator (op : Operator) : (operator op).Faithful where
  legible := legible_text op.name
  meaningful := meaningful_text op.name
  read := by
    change ((choice? (textDocument op.name)).bind Operator.ofName?).map operator = _
    rw [textDocument, choice?, Option.bind_some, Operator.ofName?_name, Option.map_some]

theorem faithful_scalar (s : Option Scalar) : (scalar s).Faithful where
  legible := legible_scalar s
  meaningful := meaningful_scalar s
  read := by
    cases s with
    | none => rfl
    | some s =>
      change (readScalar? (scalarDocument (some s))).map scalar = _
      rw [readScalar?_scalarDocument, Option.map_some]

theorem faithful_name (s : String) : (name s).Faithful where
  legible := legible_text s
  meaningful := meaningful_text s
  read := rfl

theorem faithful_parameters (ps : List Parameter) : (parameters ps).Faithful where
  legible := by
    rw [document, Json.Document.legible_array_iff, List.forall_mem_map]
    exact fun p _ => p.legible
  meaningful := by
    rw [document, Json.Document.meaningful_array_iff, List.forall_mem_map]
    exact fun p _ => p.meaningful
  read := by
    have whole : (ps.map (·.document)).mapM Parameter.ofDocument? = some ps := by
      rw [mapM_eq_some_iff, List.map_map]
      exact List.map_congr_left fun p _ => p.ofDocument?_document
    change ((ps.map (·.document)).mapM Parameter.ofDocument?).map parameters = _
    rw [whole, Option.map_some]

theorem faithful_literal (v : Value) : (literal (.int v)).Faithful where
  legible := by
    rw [document, Literal.document, Json.Document.legible_object_iff]
    simp [legible_text, legible_int, Literal.numberDocument]
  meaningful := by
    have finite := Numeral.isFinite_ofInt (Kind.natAbs_lt v.inRange)
    rw [document, Literal.document, Json.Document.meaningful_object_iff]
    simp [meaningful_text, Literal.numberDocument, Json.Document.meaningful, finite]
  read := by
    change (Literal.ofDocument? (Literal.int v).document).map literal = _
    rw [Literal.ofDocument?_document, Option.map_some]

end Part

theorem NodeKind.faithful_of_build (kind : NodeKind) (parts : List Part) {n : Node}
    (built : kind.build? parts = some n) (faithful : ∀ p ∈ parts, p.Faithful) : n.Faithful := by
  have written := document_of_build built
  have roles := role_of_build built
  have content : ∀ field ∈ (kind.shape.map (some ·.name)).zip (parts.map (·.document)),
      field.1.isSome ∧ ∃ p ∈ parts, p.document = field.2 := by
    intro field member
    obtain ⟨key, document⟩ := List.of_mem_zip member
    obtain ⟨f, -, same⟩ := List.mem_map.mp key
    exact ⟨same ▸ rfl, List.mem_map.mp document⟩
  constructor
  · rw [written, Node.tagged, Json.Document.legible_object_iff, List.forall_mem_cons]
    refine ⟨legible_text kind.tag, ?_⟩
    intro field member
    obtain ⟨-, p, inside, same⟩ := content field member
    exact same ▸ (faithful p inside).legible
  · rw [written, Node.tagged, Json.Document.meaningful_object_iff, List.forall_mem_cons]
    refine ⟨⟨rfl, meaningful_text kind.tag⟩, ?_⟩
    intro field member
    obtain ⟨some, p, inside, same⟩ := content field member
    exact ⟨some, same ▸ (faithful p inside).meaningful⟩
  · intro outermost role holds
    have contentsRead : kind.shape.mapM (readField? ((some tagField, textDocument kind.tag) ::
        (kind.shape.map (some ·.name)).zip (parts.map (·.document)))) = some parts := by
      rw [mapM_eq_some_iff, readField?_tagged (length_of_build built)]
      calc (kind.shape.zip (parts.map (·.document))).map (fun fd => read? false fd.1.role fd.2)
        _ = List.zipWith (read? false) (kind.shape.map (·.role)) (parts.map (·.document)) := by
          rw [List.zipWith_map_left, List.zip, List.map_zipWith]
        _ = List.zipWith (read? false) (parts.map (·.role)) (parts.map (·.document)) := by
          rw [roles]
        _ = parts.map (fun p => read? false p.role p.document) := by
          rw [List.zipWith_map, List.zipWith_self]
        _ = parts.map some := List.map_congr_left fun p inside => (faithful p inside).read
    have named : ((some tagField, textDocument kind.tag) ::
        (kind.shape.map (some ·.name)).zip (parts.map (·.document))).all (·.1.isSome) := by
      rw [List.all_cons, Bool.and_eq_true, List.all_eq_true]
      exact ⟨rfl, fun field member => (content field member).1⟩
    rw [written, Node.tagged, read?_object holds, if_pos named, ofFields?_tagged, Option.bind_some,
      contentsRead, Option.bind_some, built, Option.bind_some]

namespace Node

theorem documents_eq_map (ns : List Node) : documents ns = ns.map (·.document) := by
  induction ns with
  | nil => rfl
  | cons n ns ih => rw [documents, List.map_cons, ih]

theorem readNodes?_documents {ns : List Node} (faithful : ∀ n ∈ ns, n.Faithful) :
    readNodes? (documents ns) = some ns := by
  induction ns with
  | nil => rfl
  | cons n ns ih =>
    rw [List.forall_mem_cons] at faithful
    rw [documents, readNodes?, faithful.1.read false rfl, ih faithful.2]
    rfl

end Node

namespace Part

theorem faithful_node {n : Node} (faithful : n.Faithful) : (node n).Faithful :=
  ⟨faithful.legible, faithful.meaningful, faithful.read false rfl⟩

theorem faithful_initializer {n : Node} (faithful : n.Faithful) :
    (initializer (some n)).Faithful :=
  ⟨faithful.legible, faithful.meaningful, faithful.read false rfl⟩

theorem faithful_uninitialized : (initializer none).Faithful where
  legible := legible_scalar none
  meaningful := rfl
  read := rfl

theorem faithful_nodes {ns : List Node} (faithful : ∀ n ∈ ns, n.Faithful) :
    (nodes ns).Faithful where
  legible := by
    rw [document, Json.Document.legible_array_iff, Node.documents_eq_map, List.forall_mem_map]
    exact fun n member => (faithful n member).legible
  meaningful := by
    rw [document, Json.Document.meaningful_array_iff, Node.documents_eq_map, List.forall_mem_map]
    exact fun n member => (faithful n member).meaningful
  read := by
    change (readNodes? (Node.documents ns)).map nodes = some (nodes ns)
    rw [Node.readNodes?_documents faithful, Option.map_some]

end Part

namespace Node

open NodeKind (faithful_of_build)

mutual

theorem faithful_of_integral : (n : Node) → n.integral → n.Faithful
  | literal (.int v), _ =>
    faithful_of_build .literal [.literal (.int v)] rfl (by simp [Part.faithful_literal])
  | unary op e, all => by
    have operand := Part.faithful_node (faithful_of_integral e all)
    apply faithful_of_build .unary [.operator op, .node e] rfl
    simp [operand, Part.faithful_operator]
  | binary l op r, all => by
    rw [integral, Bool.and_eq_true] at all
    have left := Part.faithful_node (faithful_of_integral l all.1)
    have right := Part.faithful_node (faithful_of_integral r all.2)
    apply faithful_of_build .binary [.node l, .operator op, .node r] rfl
    simp [left, right, Part.faithful_operator]
  | compound ns, all => by
    have body := Part.faithful_nodes (faithful_of_allIntegral ns all)
    apply faithful_of_build .compound [.nodes ns] rfl
    simp [body]
  | variableDecl s ty none, _ => by
    apply faithful_of_build .variableDecl [.name s, .scalar ty, .initializer none] rfl
    simp [Part.faithful_name, Part.faithful_scalar, Part.faithful_uninitialized]
  | variableDecl s ty (some e), all => by
    have init := Part.faithful_initializer (faithful_of_integral e all)
    apply faithful_of_build .variableDecl [.name s, .scalar ty, .initializer (some e)] rfl
    simp [init, Part.faithful_name, Part.faithful_scalar]
  | functionDecl s ps ty ns, all => by
    have body := Part.faithful_nodes (faithful_of_allIntegral ns all)
    apply faithful_of_build .functionDecl [.name s, .parameters ps, .scalar ty, .nodes ns] rfl
    simp [body, Part.faithful_name, Part.faithful_parameters, Part.faithful_scalar]
  | ret e, all => by
    have value := Part.faithful_node (faithful_of_integral e all)
    apply faithful_of_build .ret [.node e] rfl
    simp [value]

theorem faithful_of_allIntegral : (ns : List Node) → allIntegral ns → ∀ n ∈ ns, n.Faithful
  | [], _ => by simp
  | n :: ns, all => by
    rw [allIntegral, Bool.and_eq_true] at all
    rw [List.forall_mem_cons]
    exact ⟨faithful_of_integral n all.1, faithful_of_allIntegral ns all.2⟩

end

end Node

/-! ### Whole trees -/

namespace Tree

theorem legible_of_integral {t : Tree} (all : t.integral) : t.document.Legible := by
  have statements := Part.faithful_nodes (Node.faithful_of_allIntegral t.statements all)
  rw [document, Json.Document.legible_object_iff]
  intro kd member
  obtain rfl := List.mem_singleton.mp member
  exact statements.legible

theorem nesting_render {t : Tree} (all : t.integral) :
    Json.nesting t.render = t.document.levels :=
  Json.Document.nesting_render (legible_of_integral all)

/-- The text of a tree of integers is read as that tree, unless it is nested too deeply. -/
theorem parse?_render {t : Tree} (all : t.integral) :
    parse? t.render = if t.document.levels ≤ Node.maxLevels then some t else none := by
  have faithful := Node.faithful_of_allIntegral t.statements all
  have statements := Part.faithful_nodes faithful
  have nodes : (Node.documents t.statements).mapM Node.ofDocument? = some t.statements := by
    rw [mapM_eq_some_iff, Node.documents_eq_map, List.map_map]
    apply List.map_congr_left
    intro n member
    change (read? true .node n.document).bind Part.node? = some n
    rw [(faithful n member).read true rfl]
    rfl
  have levels : t.document.levels = (Part.nodes t.statements).document.levels + 1 := by
    rw [document, Json.Document.levels]
    simp [Json.Document.levelsOfFields, Part.document]
  have admitted : (Part.nodes t.statements).document.admits (Node.maxLevels - 1) =
      decide (t.document.levels ≤ Node.maxLevels) := by
    rw [Bool.eq_iff_iff, Json.Document.admits_iff, decide_eq_true_iff, levels]
    have : Node.maxLevels = 127 := rfl
    exact ⟨fun h => by omega, fun h => ⟨by omega, statements.meaningful⟩⟩
  rw [parse?, render, Json.Document.parse?_render (legible_of_integral all), Option.bind_some]
  change ofStatements? (Part.nodes t.statements).document = _
  rw [Part.document, ofStatements?, ← Part.document, admitted, nodes]
  simp

end Tree

end Wordcode
