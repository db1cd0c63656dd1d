import Wordcode.Proofs.TreeText

/-!
# Places in a tree document

A place is given by the arrays and objects around it, its `Layer`s. `Place` says which places hold a
tree, a node, a parameter or a literal; the forms of nodes may be mixed on the way. What is around
such a place is read without looking at what stands there, and what stands there is looked at only
through its own reading (`Place.ofDocument?_fill`).
-/

namespace Wordcode

open Json (Document)

/-! ### Layers -/

namespace Json.Document

theorem levelsOfItems_append (first second : List Document) :
    levelsOfItems (first ++ second) = max (levelsOfItems first) (levelsOfItems second) := by
  induction first with
  | nil => simp [levelsOfItems]
  | cons d first ih => rw [List.cons_append, levelsOfItems, levelsOfItems, ih, Nat.max_assoc]

theorem levelsOfFields_append (first second : List (Option String × Document)) :
    levelsOfFields (first ++ second) = max (levelsOfFields first) (levelsOfFields second) := by
  induction first with
  | nil => simp [levelsOfFields]
  | cons kd first ih => rw [List.cons_append, levelsOfFields, levelsOfFields, ih, Nat.max_assoc]

/-- An array or object around a place. -/
inductive Layer where
  | item (before after : List Document)
  | field (before : List (Option String × Document)) (name : String)
      (after : List (Option String × Document))

namespace Layer

/-- The array or object with a document in the place. -/
def fill : Layer → Document → Document
  | item before after, d => array (before ++ d :: after)
  | field before name after, d => object (before ++ (some name, d) :: after)

/-- The array or object with nothing in the place. -/
def rest : Layer → Document
  | item before after => array (before ++ after)
  | field before _ after => object (before ++ after)

theorem levels_fill (l : Layer) (d : Document) :
    (l.fill d).levels = max l.rest.levels (d.levels + 1) := by
  cases l with
  | item before after =>
    simp only [fill, rest, levels, levelsOfItems_append, levelsOfItems]
    omega
  | field before name after =>
    simp only [fill, rest, levels, levelsOfFields_append, levelsOfFields]
    omega

theorem meaningful_fill (l : Layer) (d : Document) :
    (l.fill d).meaningful ↔ l.rest.meaningful ∧ d.meaningful := by
  cases l with
  | item before after =>
    simp only [fill, rest, meaningful_array_iff, List.forall_mem_append, List.forall_mem_cons]
    grind
  | field before name after =>
    simp only [fill, rest, meaningful_object_iff, List.forall_mem_append, List.forall_mem_cons]
    grind

end Layer

/-- The document with a part in the place inside some layers, the outermost of which comes first. -/
def fill (layers : List Layer) (d : Document) : Document := layers.foldr Layer.fill d

@[simp] theorem fill_nil (d : Document) : fill [] d = d := rfl

@[simp] theorem fill_cons (l : Layer) (layers : List Layer) (d : Document) :
    fill (l :: layers) d = l.fill (fill layers d) := rfl

theorem levels_fill_congr (layers : List Layer) {d d' : Document} (same : d.levels = d'.levels) :
    (fill layers d).levels = (fill layers d').levels := by
  induction layers with
  | nil => exact same
  | cons l layers ih => rw [fill_cons, fill_cons, l.levels_fill, l.levels_fill, ih]

theorem meaningful_of_fill {layers : List Layer} {d : Document}
    (whole : (fill layers d).meaningful) : d.meaningful := by
  induction layers with
  | nil => exact whole
  | cons l layers ih => exact ih ((l.meaningful_fill _).mp whole).2

theorem meaningful_fill_of {layers : List Layer} {d d' : Document}
    (whole : (fill layers d).meaningful) (part : d'.meaningful) : (fill layers d').meaningful := by
  induction layers with
  | nil => exact part
  | cons l layers ih =>
    rw [fill_cons, l.meaningful_fill] at whole ⊢
    exact ⟨whole.1, ih whole.2⟩

/-- Around a place that has been admitted, only what stands there is left to be looked at. -/
theorem admits_fill_iff {layers : List Layer} {d : Document} {limit : Nat}
    (whole : (fill layers d).admits limit) (d' : Document) :
    (fill layers d').admits limit ↔ (fill layers d').levels ≤ limit ∧ d'.meaningful := by
  rw [admits_iff] at whole ⊢
  exact and_congr_right fun _ => ⟨meaningful_of_fill, meaningful_fill_of whole.2⟩

def isContainer : Document → Bool
  | array _ | object _ => true
  | _ => false

theorem isContainer_fill (layers : List Layer) {d : Document} (container : d.isContainer) :
    (fill layers d).isContainer := by
  rcases layers with _ | ⟨_ | _, _⟩
  · exact container
  · rfl
  · rfl

end Json.Document

open Json.Document (Layer fill)

/-! ### Reading through a place -/

/-- What is made of a document depends on its part only by what is made of the part, and nothing is
made of it if nothing is made of the part. -/
def Through {α β : Type} (whole : Document → Option α) (part : Document → Option β) : Prop :=
  ∃ others : β → Option α, ∀ d, d.isContainer → whole d = (part d).bind others

namespace Through

theorem comp {α β γ : Type} {whole : Document → Option α} {middle : Document → Option β}
    {part : Document → Option γ} (outer : Through whole middle) {layers : List Layer}
    (inner : Through (fun d => middle (fill layers d)) part) :
    Through (fun d => whole (fill layers d)) part := by
  obtain ⟨g, outer⟩ := outer
  obtain ⟨h, inner⟩ := inner
  refine ⟨fun x => (h x).bind g, ?_⟩
  intro d container
  have deeper : middle (fill layers d) = (part d).bind h := inner d container
  dsimp only
  rw [outer _ (Json.Document.isContainer_fill layers container), deeper, Option.bind_assoc]

theorem bind {α β γ : Type} {whole : Document → Option α} {part : Document → Option β}
    (through : Through whole part) (f : α → Option γ) :
    Through (fun d => (whole d).bind f) part := by
  obtain ⟨g, through⟩ := through
  refine ⟨fun x => (g x).bind f, ?_⟩
  intro d container
  dsimp only
  rw [through d container, Option.bind_assoc]

end Through

theorem mapM_middle {α β : Type} (f : α → Option β) (before : List α) (x : α) (after : List α) :
    (before ++ x :: after).mapM f = (before.mapM f).bind fun front =>
      (f x).bind fun y => (after.mapM f).map fun back => front ++ y :: back := by
  rw [List.mapM_append, List.mapM_cons]
  cases before.mapM f <;> cases f x <;> cases after.mapM f <;> rfl

theorem through_mapM {α : Type} (f : Document → Option α) (before after : List Document) :
    Through (fun d => (before ++ d :: after).mapM f) f := by
  refine ⟨fun y => (before.mapM f).bind fun front =>
    (after.mapM f).map fun back => front ++ y :: back, ?_⟩
  intro d _
  dsimp only
  rw [mapM_middle, Option.bind_comm]

/-! ### Fields of nodes -/

namespace NodeKind

theorem name_ne_tagField {kind : NodeKind} {f : Field} (member : f ∈ kind.shape) :
    f.name ≠ tagField := by
  revert f
  cases kind <;> decide

theorem ofFields?_middle {outermost : Bool} {name : String} (other : name ≠ tagField)
    (before after : List (Option String × Document)) (d : Document) :
    ofFields? outermost (before ++ (some name, d) :: after) =
      ofFields? outermost (before ++ after) := by
  rw [ofFields?, ofFields?, unique?_eq_sole?, unique?_eq_sole?, named_middle_of_ne other]

end NodeKind

theorem length_mapM {α β : Type} {f : α → Option β} {xs : List α} {ys : List β}
    (whole : xs.mapM f = some ys) : ys.length = xs.length := by
  simpa using (congrArg List.length (mapM_eq_some_iff.mp whole)).symm

theorem length_readItems? {shape : List Field} {ds : List Document} {parts : List Part}
    (read : readItems? shape ds = some parts) : parts.length = shape.length := by
  induction ds generalizing shape parts with
  | nil =>
    rw [readItems?] at read
    exact length_mapM read
  | cons d ds ih =>
    cases shape with
    | nil =>
      rw [readItems?] at read
      cases read
    | cons f shape =>
      rw [readItems?] at read
      simp only [Option.bind_eq_bind, Option.bind_eq_some_iff] at read
      obtain ⟨p, -, rest, others, same⟩ := read
      cases same
      rw [List.length_cons, List.length_cons, ih others]

theorem readItems?_middle {first : List Field} {before : List Document}
    (aligned : before.length = first.length) (f : Field) (last : List Field) (d : Document)
    (after : List Document) :
    readItems? (first ++ f :: last) (before ++ d :: after) =
      (readItems? first before).bind fun front => (read? false f.role d).bind fun p =>
        (readItems? last after).map fun back => front ++ p :: back := by
  induction first generalizing before with
  | nil =>
    obtain rfl := List.length_eq_zero_iff.mp aligned
    rw [List.nil_append, List.nil_append, readItems?, readItems?, List.mapM_nil]
    cases read? false f.role d <;> cases readItems? last after <;> rfl
  | cons g first ih =>
    cases before with
    | nil => cases aligned
    | cons e before =>
      rw [List.cons_append, List.cons_append, readItems?, readItems?, ih (Nat.succ.inj aligned)]
      cases read? false g.role e <;> cases readItems? first before <;>
        cases read? false f.role d <;> cases readItems? last after <;> rfl

theorem Role.ne_nodes {role : Role} (holds : role.holdsNode) : role ≠ .nodes := by
  rintro rfl
  cases holds

theorem read?_array_nil {role : Role} (holds : role.holdsNode) (outermost : Bool) :
    read? outermost role (.array []) = none := by
  rw [read?, if_neg (Role.ne_nodes holds), if_pos holds]

theorem read?_array {role : Role} (holds : role.holdsNode) (outermost : Bool) (tag : Document)
    (ds : List Document) :
    read? outermost role (.array (tag :: ds)) =
      (NodeKind.ofTag? outermost tag).bind fun kind =>
        ((readItems? kind.shape ds).bind kind.build?).bind role.ofNode? := by
  rw [read?, if_neg (Role.ne_nodes holds), if_pos holds]
  simp only [Option.bind_eq_bind, Option.bind_assoc]

/-- What an object has for the fields of a shape around one of them, which must not occur itself. -/
def readOthers? (fields : List (Option String × Document)) (first : List Field) (f : Field)
    (last : List Field) : Option (List Part × List Part) :=
  if fields.all (·.1.isSome) ∧ named fields f.name = [] then
    (first.mapM (readField? fields)).bind fun front =>
      (last.mapM (readField? fields)).map fun back => (front, back)
  else none

theorem read?_object_middle {outermost : Bool} {kind : NodeKind} {f : Field}
    {before after : List (Option String × Document)}
    (tagged : NodeKind.ofFields? outermost (before ++ after) = some kind) {first last : List Field}
    (shape : kind.shape = first ++ f :: last) {role : Role} (holds : role.holdsNode)
    (d : Document) :
    read? outermost role (.object (before ++ (some f.name, d) :: after)) =
      (readOthers? (before ++ after) first f last).bind fun (front, back) =>
        (read? false f.role d).bind fun p =>
          (kind.build? (front ++ p :: back)).bind role.ofNode? := by
  have member : f ∈ kind.shape := by
    rw [shape]
    exact List.mem_append_right _ List.mem_cons_self
  have distinct := kind.nodup_shape
  rw [shape, List.map_append, List.map_cons, List.nodup_middle, List.nodup_cons] at distinct
  have other : ∀ g ∈ first ++ last,
      readField? (before ++ (some f.name, d) :: after) g = readField? (before ++ after) g := by
    intro g inside
    have different : f.name ≠ g.name := by
      intro same
      rw [← List.map_append] at distinct
      exact distinct.1 (same ▸ List.mem_map_of_mem inside)
    rw [readField?, readField?, named_middle_of_ne different]
  have names : (before ++ (some f.name, d) :: after).all (·.1.isSome) =
      (before ++ after).all (·.1.isSome) := by
    simp
  rw [List.forall_mem_append] at other
  rw [read?_object holds, NodeKind.ofFields?_middle (NodeKind.name_ne_tagField member), tagged,
    Option.bind_some, shape, mapM_middle, mapM_congr other.1, mapM_congr other.2,
    readField?, sole?_middle, names, readOthers?]
  by_cases all : (before ++ after).all (·.1.isSome)
  · by_cases alone : named (before ++ after) f.name = []
    · rw [if_pos all, if_pos alone, if_pos ⟨all, alone⟩]
      cases first.mapM (readField? (before ++ after)) <;> cases read? false f.role d <;>
        cases last.mapM (readField? (before ++ after)) <;> rfl
    · rw [if_pos all, if_neg alone, if_neg fun both => alone both.2]
      cases first.mapM (readField? (before ++ after)) <;> rfl
  · rw [if_neg all, if_neg fun both => all both.1]
    rfl

theorem read?_array_middle {outermost : Bool} {kind : NodeKind} {f : Field} {tag : Document}
    (tagged : NodeKind.ofTag? outermost tag = some kind) {first last : List Field}
    (shape : kind.shape = first ++ f :: last) {before : List Document}
    (aligned : before.length = first.length) (after : List Document) {role : Role}
    (holds : role.holdsNode) (d : Document) :
    read? outermost role (.array (tag :: (before ++ d :: after))) =
      ((readItems? first before).bind fun front =>
        (readItems? last after).map fun back => (front, back)).bind fun (front, back) =>
        (read? false f.role d).bind fun p =>
          (kind.build? (front ++ p :: back)).bind role.ofNode? := by
  rw [read?_array holds, tagged, Option.bind_some, shape, readItems?_middle aligned]
  cases readItems? first before <;> cases read? false f.role d <;>
    cases readItems? last after <;> rfl

namespace Json.Document.Layer

/-- The layer is around a field of a node. In the object form the tag is one of the other fields, in
the array form it comes first and the field is found by its position. -/
inductive IsField (outermost : Bool) (kind : NodeKind) (f : Field) : Layer → Prop where
  | object {before after : List (Option String × Document)} :
      NodeKind.ofFields? outermost (before ++ after) = some kind → f ∈ kind.shape →
      IsField outermost kind f (.field before f.name after)
  | array {tag : Document} {before after : List Document} :
      NodeKind.ofTag? outermost tag = some kind → kind.shape[before.length]? = some f →
      IsField outermost kind f (.item (tag :: before) after)

/-- A node is built from the part of one field and from those of the fields before and after it,
which do not depend on what the field holds. -/
theorem IsField.read?_fill {outermost : Bool} {kind : NodeKind} {f : Field} {l : Layer}
    (field : l.IsField outermost kind f) :
    ∃ (first last : List Field) (others : Option (List Part × List Part)),
      kind.shape = first ++ f :: last ∧
      (∀ front back, others = some (front, back) →
        front.length = first.length ∧ back.length = last.length) ∧
      ∀ {role : Role}, role.holdsNode → ∀ d, read? outermost role (l.fill d) =
        others.bind fun (front, back) => (read? false f.role d).bind fun p =>
          (kind.build? (front ++ p :: back)).bind role.ofNode? := by
  cases field with
  | @object before after tagged member =>
    obtain ⟨first, last, shape⟩ := List.append_of_mem member
    refine ⟨first, last, readOthers? (before ++ after) first f last, shape, ?_, ?_⟩
    · intro front back found
      unfold readOthers? at found
      split at found
      · simp only [Option.bind_eq_some_iff, Option.map_eq_some_iff] at found
        obtain ⟨_, read, _, read', same⟩ := found
        cases same
        exact ⟨length_mapM read, length_mapM read'⟩
      · cases found
    · intro role holds d
      exact read?_object_middle tagged shape holds d
  | @array tag before after tagged found =>
    obtain ⟨inside, same⟩ := List.getElem?_eq_some_iff.mp found
    have shape : kind.shape =
        kind.shape.take before.length ++ f :: kind.shape.drop (before.length + 1) := by
      rw [← same, List.getElem_cons_drop, List.take_append_drop]
    have aligned : before.length = (kind.shape.take before.length).length := by
      rw [List.length_take]
      omega
    refine ⟨_, _, _, shape, ?_, fun holds d =>
      read?_array_middle tagged shape aligned after holds d⟩
    intro front back found
    simp only [Option.bind_eq_some_iff, Option.map_eq_some_iff] at found
    obtain ⟨_, read, _, read', same⟩ := found
    cases same
    exact ⟨length_readItems? read, length_readItems? read'⟩

end Json.Document.Layer

/-! ### Places with a meaning -/

/-- What an object of a tree document may stand for. -/
inductive Construct where
  | tree
  | node (outermost : Bool)
  | parameter
  | literal
  deriving DecidableEq

namespace Construct

/-- What is read from such an object. -/
abbrev Content : Construct → Type
  | tree => Tree
  | node _ => Node
  | parameter => Parameter
  | literal => Literal

/-- Reads an object for what it stands for. -/
def read? : (c : Construct) → Document → Option c.Content
  | tree, d => Tree.ofDocument? d
  | node outermost, d => (Wordcode.read? outermost .node d).bind Part.node?
  | parameter, d => Parameter.ofDocument? d
  | literal, d => Literal.ofDocument? d

end Construct

/-- In a document that is read in some role, the place inside the layers is that of a construct. -/
inductive Leads : Bool → Role → List Layer → Construct → Prop where
  | node {outermost : Bool} {role : Role} : role.holdsNode →
      Leads outermost role [] (.node outermost)
  | literal {outermost : Bool} : Leads outermost .literal [] .literal
  | parameter {outermost : Bool} {before after : List Document} :
      Leads outermost .parameters [.item before after] .parameter
  | item {outermost : Bool} {before after : List Document} {layers : List Layer} {c : Construct} :
      Leads false .node layers c → Leads outermost .nodes (.item before after :: layers) c
  | field {outermost : Bool} {role : Role} {kind : NodeKind} {f : Field} {l : Layer}
      {layers : List Layer} {c : Construct} : role.holdsNode → l.IsField outermost kind f →
      Leads false f.role layers c → Leads outermost role (l :: layers) c

/-- The layer is around the statements of a tree. -/
inductive Json.Document.Layer.IsRoot : Layer → Prop where
  | object {before after : List (Option String × Document)} :
      IsRoot (.field before "statements" after)
  | array : IsRoot (.item [] [])

/-- In the document of a tree, the place inside the layers is that of a construct. -/
inductive Place : List Layer → Construct → Prop where
  | tree : Place [] .tree
  | statement {l : Layer} {before after : List Document} {layers : List Layer} {c : Construct} :
      l.IsRoot → Leads true .node layers c → Place (l :: .item before after :: layers) c

theorem read?_of_holdsNode {role : Role} (holds : role.holdsNode) {outermost : Bool} {d : Document}
    (container : d.isContainer) :
    read? outermost role d =
      ((read? outermost .node d).bind Part.node?).bind (fun n => role.ofNode? n) := by
  have only : ∀ found : Option Node, found.bind (fun n => role.ofNode? n) =
      ((found.bind fun n => Role.node.ofNode? n).bind Part.node?).bind fun n => role.ofNode? n := by
    intro found
    cases found <;> rfl
  match d, container with
  | .object fields, _ =>
    rw [read?_object holds, read?_object rfl]
    split
    · cases NodeKind.ofFields? outermost fields with
      | none => rfl
      | some kind => exact only _
    · rfl
  | .array (tag :: ds), _ =>
    rw [read?_array holds, read?_array rfl]
    cases NodeKind.ofTag? outermost tag with
    | none => rfl
    | some kind => exact only _
  | .array [], _ =>
    rw [read?_array_nil holds, read?_array_nil rfl]
    rfl

theorem read?_of_leaf {role : Role} (several : role ≠ .nodes) (single : role.holdsNode = false)
    (outermost : Bool) (d : Document) : read? outermost role d = readLeaf? role d := by
  cases d with
  | object fields => rw [read?, single, if_neg Bool.false_ne_true]
  | array ds => cases ds <;> simp [read?, several, single]
  | null | bool | number | text => rw [read?] <;> simp

theorem readNodes?_eq_mapM (ds : List Document) :
    readNodes? ds = ds.mapM fun d => (read? false .node d).bind Part.node? := by
  induction ds with
  | nil => rw [readNodes?, List.mapM_nil]; rfl
  | cons d ds ih =>
    rw [readNodes?, List.mapM_cons, ih]
    cases read? false .node d <;> rfl

theorem read?_nodes (outermost : Bool) (ds : List Document) :
    read? outermost .nodes (.array ds) = (readNodes? ds).map .nodes := by
  cases ds <;> rw [read?, if_pos rfl]

theorem Leads.through {outermost : Bool} {role : Role} {layers : List Layer} {c : Construct}
    (leads : Leads outermost role layers c) :
    Through (fun d => read? outermost role (fill layers d)) c.read? := by
  induction leads with
  | @node outermost role holds =>
    exact ⟨fun n => role.ofNode? n, fun d container => read?_of_holdsNode holds container⟩
  | literal =>
    refine ⟨fun l => some (.literal l), ?_⟩
    intro d _
    exact (read?_of_leaf (by decide) rfl _ d).trans Option.map_eq_bind
  | @parameter outermost before after =>
    obtain ⟨g, through⟩ := (through_mapM Parameter.ofDocument? before after).bind
      fun ps => some (Part.parameters ps)
    refine ⟨g, ?_⟩
    intro d container
    refine Eq.trans ?_ (through d container)
    exact (read?_of_leaf (by decide) rfl _ _).trans Option.map_eq_bind
  | @item outermost before after layers c _ ih =>
    have list : Through (fun d => read? outermost .nodes (.array (before ++ d :: after)))
        fun d => (read? false .node d).bind Part.node? := by
      obtain ⟨g, through⟩ := (through_mapM (fun d => (read? false .node d).bind Part.node?)
        before after).bind fun ns => some (Part.nodes ns)
      refine ⟨g, ?_⟩
      intro d container
      refine Eq.trans ?_ (through d container)
      dsimp only
      rw [read?_nodes, readNodes?_eq_mapM]
      exact Option.map_eq_bind
    exact list.comp (ih.bind Part.node?)
  | @field outermost role kind f l layers c holds field _ ih =>
    obtain ⟨first, last, others, -, -, built⟩ := field.read?_fill
    have node : Through (fun d => read? outermost role (l.fill d)) (read? false f.role) := by
      refine ⟨fun p => others.bind fun (front, back) =>
        (kind.build? (front ++ p :: back)).bind role.ofNode?, ?_⟩
      intro d _
      exact (built holds d).trans (Option.bind_comm others (read? false f.role d))
    exact node.comp ih

/-! ### Trees -/

theorem Json.Document.Layer.IsRoot.ofDocument?_fill {l : Layer} (root : l.IsRoot) :
    ∃ clean : Bool, ∀ d,
      Tree.ofDocument? (l.fill d) = if clean then Tree.ofStatements? d else none := by
  cases root with
  | @object before after =>
    refine ⟨decide ((before ++ after).all (·.1.isSome) ∧
      named (before ++ after) "statements" = []), ?_⟩
    intro d
    have names : (before ++ (some "statements", d) :: after).all (·.1.isSome) =
        (before ++ after).all (·.1.isSome) := by
      simp
    rw [Layer.fill, Tree.ofDocument?, names, unique?_eq_sole?, sole?_middle]
    by_cases all : (before ++ after).all (·.1.isSome) <;>
      by_cases alone : named (before ++ after) "statements" = [] <;> simp [all, alone]
  | array => exact ⟨true, fun d => rfl⟩

/-- Below the root, a tree document is read by what the construct in a place is read as, if strict
reading admits the statements. -/
theorem Place.ofDocument?_fill {layers : List Layer} {c : Construct} (place : Place layers c)
    (below : c ≠ .tree) :
    ∃ others : c.Content → Option Tree, ∀ d, d.isContainer →
      Tree.ofDocument? (fill layers d) =
        if (fill layers.tail d).admits (Node.maxLevels - 1) then (c.read? d).bind others
        else none := by
  cases place with
  | tree => exact absurd rfl below
  | @statement l before after layers c root leads =>
    obtain ⟨clean, rooted⟩ := root.ofDocument?_fill
    have list := through_mapM Node.ofDocument? before after
    obtain ⟨g, through⟩ := (list.comp (leads.through.bind Part.node?)).bind
      fun ns => if clean then some (⟨ns⟩ : Tree) else none
    refine ⟨g, ?_⟩
    intro d container
    have read := through d container
    dsimp only at read
    rw [← read, Json.Document.fill_cons, rooted, List.tail_cons, Json.Document.fill_cons,
      Layer.fill, Tree.ofStatements?]
    cases clean <;> cases (before ++ fill layers d :: after).mapM Node.ofDocument? <;> simp

end Wordcode
