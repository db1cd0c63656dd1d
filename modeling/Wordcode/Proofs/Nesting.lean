import Wordcode.Proofs.TreeText

/-!
# Nesting of tree texts

A node may be written as an object or as an array, and with less than all its fields. None of this
makes a text flatter than the one that `Tree.render` writes: `levels_read?` bounds the document of
what was read by the document it was read from. So what was read once can be written and read again.
-/

namespace Wordcode

open Json (Document)
open Json.Document (levelsOfItems levelsOfFields levelsOfItems_le_iff levels_le_of_mem)

/-! ### Leaves -/

theorem levels_scalarDocument (s : Option Scalar) : (scalarDocument s).levels = 0 := by
  cases s <;> rfl

theorem Parameter.levels_document (p : Parameter) : p.document.levels = 1 := by
  simp [document, Json.Document.levels, levelsOfFields, textDocument, levels_scalarDocument]

theorem Literal.levels_document (l : Literal) : l.document.levels = 1 := by
  have number : l.numberDocument.levels = 0 := by
    unfold numberDocument
    split
    · rfl
    · split <;> rfl
  simp [document, Json.Document.levels, levelsOfFields, textDocument, number]

theorem Parameter.levels_pos {d : Document} {p : Parameter} (read : ofDocument? d = some p) :
    1 ≤ d.levels := by
  unfold ofDocument? at read
  split at read
  case h_4 => cases read
  all_goals
    rw [Json.Document.levels]
    exact Nat.le_add_left _ _

theorem Literal.levels_pos {d : Document} {l : Literal} (read : ofDocument? d = some l) :
    1 ≤ d.levels := by
  unfold ofDocument? at read
  split at read
  case h_3 => cases read
  all_goals
    rw [Json.Document.levels]
    exact Nat.le_add_left _ _

theorem levels_parameters {ds : List Document} {ps : List Parameter}
    (read : ds.mapM Parameter.ofDocument? = some ps) :
    levelsOfItems (ps.map (·.document)) ≤ levelsOfItems ds := by
  rw [levelsOfItems_le_iff, List.forall_mem_map]
  intro p member
  obtain ⟨d, inside, same⟩ := exists_of_mem_mapM read member
  rw [p.levels_document]
  exact Nat.le_trans (Parameter.levels_pos same) (levels_le_of_mem inside)

theorem levels_readLeaf? {role : Role} {d : Document} {p : Part}
    (read : readLeaf? role d = some p) : p.document.levels ≤ d.levels := by
  unfold readLeaf? at read
  split at read
  case h_1 | h_5 =>
    cases read
    exact Nat.zero_le _
  case h_2 =>
    obtain ⟨l, found, rfl⟩ := Option.map_eq_some_iff.mp read
    rw [Part.document, l.levels_document]
    exact Literal.levels_pos found
  case h_3 =>
    obtain ⟨op, -, rfl⟩ := Option.map_eq_some_iff.mp read
    exact Nat.zero_le _
  case h_4 =>
    obtain ⟨s, -, rfl⟩ := Option.map_eq_some_iff.mp read
    rw [Part.document, levels_scalarDocument]
    exact Nat.zero_le _
  case h_6 =>
    obtain ⟨ps, found, rfl⟩ := Option.map_eq_some_iff.mp read
    rw [Part.document, Json.Document.levels, Json.Document.levels]
    exact Nat.succ_le_succ (levels_parameters found)
  case h_7 => cases read

/-! ### Nodes -/

/-- A node stands one level above the contents of its fields. -/
theorem Node.levels_tagged {kind : NodeKind} {contents : List Document}
    (full : contents.length = kind.shape.length) :
    (tagged kind contents).levels = levelsOfItems contents + 1 := by
  have fields : ∀ keys : List (Option String), contents.length = keys.length →
      levelsOfFields (keys.zip contents) = levelsOfItems contents := by
    clear full
    induction contents with
    | nil => simp [levelsOfFields, levelsOfItems]
    | cons d contents ih =>
      rintro (_ | ⟨key, keys⟩) same
      · cases same
      · rw [List.zip_cons_cons, levelsOfFields, levelsOfItems, ih keys (Nat.succ.inj same)]
  have tag : (textDocument kind.tag).levels = 0 := rfl
  rw [tagged, Json.Document.levels, levelsOfFields, fields _ (by simpa using full), tag,
    Nat.zero_max]

theorem Part.levels_nodes_pos (ns : List Node) : 1 ≤ (nodes ns).document.levels := by
  rw [document, Json.Document.levels]
  exact Nat.le_add_left _ _

/-- What fields hold that are not written is not nested, but for the empty list of parameters; the
body beside it is no flatter. -/
theorem NodeKind.levels_of_build {kind : NodeKind} {parts : List Part} {n : Node} {bound : Nat}
    (built : kind.build? parts = some n)
    (shallow : ∀ p ∈ parts, p.document.levels ≤ bound ∨ ∃ role : Role, role.missing? = some p) :
    n.document.levels ≤ bound + 1 := by
  have body : ∀ p ∈ parts, p = .parameters [] → 1 ≤ bound := by
    rintro p member rfl
    unfold build? at built
    split at built
    case h_6 s ps ty ns =>
      rcases shallow (.nodes ns) (by simp) with read | ⟨role, missing⟩
      · exact Nat.le_trans (Part.levels_nodes_pos ns) read
      · cases role <;> cases missing
    case h_8 => cases built
    all_goals simp at member
  have contents : ∀ d ∈ parts.map (·.document), d.levels ≤ bound := by
    rw [List.forall_mem_map]
    intro p member
    rcases shallow p member with read | ⟨role, missing⟩
    · exact read
    · cases role <;> cases missing
      · exact Nat.zero_le _
      · exact Nat.zero_le _
      · exact body _ member rfl
  rw [document_of_build built, Node.levels_tagged (length_of_build built)]
  exact Nat.succ_le_succ (levelsOfItems_le_iff.mpr contents)

theorem Role.document_ofNode? {role : Role} {n : Node} {p : Part} (made : role.ofNode? n = some p) :
    p.document = n.document := by
  cases role <;> cases made <;> rfl

theorem mem_arrange? {shape : List Field} {named : List (String × Part)} {parts : List Part}
    (arranged : arrange? shape named = some parts) {p : Part} (member : p ∈ parts) :
    (∃ name, (name, p) ∈ named) ∨ ∃ role : Role, role.missing? = some p := by
  obtain ⟨f, -, same⟩ := exists_of_mem_mapM arranged member
  split at same
  · next q present =>
    cases same
    obtain ⟨before, after, rfl, -⟩ := List.lookup_eq_some_iff.mp present
    exact .inl ⟨f.name, by simp⟩
  · exact .inr ⟨f.role, same⟩

mutual

theorem levels_read? : (d : Document) → {outermost : Bool} → {role : Role} → {p : Part} →
    read? outermost role d = some p → p.document.levels ≤ d.levels
  | .object fields, outermost, role, p, read => by
    rw [read?] at read
    split at read
    · simp only [Option.bind_eq_bind, Option.bind_eq_some_iff] at read
      obtain ⟨kind, -, named, fieldsRead, parts, arranged, node, built, made⟩ := read
      have shallow := levels_readFields? fields fieldsRead
      rw [Role.document_ofNode? made, Json.Document.levels]
      apply NodeKind.levels_of_build built
      intro q member
      rcases mem_arrange? arranged member with ⟨name, inside⟩ | missing
      · exact .inl (shallow (name, q) inside)
      · exact .inr missing
    · exact levels_readLeaf? read
  | .array [], outermost, role, p, read => by
    rw [read?] at read
    split at read
    · obtain ⟨ns, found, rfl⟩ := Option.map_eq_some_iff.mp read
      exact Nat.succ_le_succ (levels_readNodes? [] found)
    split at read
    · cases read
    · exact levels_readLeaf? read
  | .array (d :: ds), outermost, role, p, read => by
    rw [read?] at read
    split at read
    · obtain ⟨ns, found, rfl⟩ := Option.map_eq_some_iff.mp read
      exact Nat.succ_le_succ (levels_readNodes? (d :: ds) found)
    split at read
    · simp only [Option.bind_eq_bind, Option.bind_eq_some_iff] at read
      obtain ⟨kind, -, parts, itemsRead, node, built, made⟩ := read
      have shallow := NodeKind.levels_of_build built (levels_readItems? ds itemsRead)
      rw [Role.document_ofNode? made, Json.Document.levels, levelsOfItems]
      omega
    · exact levels_readLeaf? read
  | .null, outermost, role, p, read | .bool _, outermost, role, p, read
  | .number _, outermost, role, p, read | .text _, outermost, role, p, read => by
    rw [read?] at read
    · exact levels_readLeaf? read
    all_goals simp

theorem levels_readNodes? : (ds : List Document) → {ns : List Node} →
    readNodes? ds = some ns → levelsOfItems (Node.documents ns) ≤ levelsOfItems ds
  | [], ns, read => by
    rw [readNodes?] at read
    cases read
    exact Nat.le_refl _
  | d :: ds, ns, read => by
    rw [readNodes?] at read
    simp only [Option.bind_eq_bind, Option.bind_eq_some_iff] at read
    obtain ⟨p, first, n, isNode, rest, others, same⟩ := read
    cases same
    have here := levels_read? d first
    have later := levels_readNodes? ds others
    cases p <;> cases isNode
    rw [Node.documents, levelsOfItems, levelsOfItems]
    rw [Part.document] at here
    omega

theorem levels_readFields? : (fields : List (Option String × Document)) → {shape : List Field} →
    {parts : List (String × Part)} → readFields? shape fields = some parts →
    ∀ np ∈ parts, np.2.document.levels ≤ levelsOfFields fields
  | [], shape, parts, read => by
    rw [readFields?] at read
    cases read
    simp
  | (none, _) :: _, shape, parts, read => by
    rw [readFields?] at read
    cases read
  | (some name, d) :: fields, shape, parts, read => by
    rw [readFields?] at read
    split at read
    · intro np member
      have later := levels_readFields? fields read np member
      rw [levelsOfFields]
      omega
    · simp only [Option.bind_eq_bind, Option.bind_eq_some_iff] at read
      obtain ⟨p, first, rest, others, new⟩ := read
      split at new
      · cases new
      cases new
      have here := levels_read? d first
      have later := levels_readFields? fields others
      rw [levelsOfFields, List.forall_mem_cons]
      refine ⟨Nat.le_trans here (Nat.le_max_left _ _), ?_⟩
      intro np member
      exact Nat.le_trans (later np member) (Nat.le_max_right _ _)

theorem levels_readItems? : (ds : List Document) → {shape : List Field} → {parts : List Part} →
    readItems? shape ds = some parts →
    ∀ p ∈ parts, p.document.levels ≤ levelsOfItems ds ∨ ∃ role : Role, role.missing? = some p
  | [], shape, parts, read => by
    rw [readItems?] at read
    intro p member
    obtain ⟨f, -, same⟩ := exists_of_mem_mapM read member
    exact .inr ⟨f.role, same⟩
  | _ :: _, [], parts, read => by
    rw [readItems?] at read
    cases read
  | d :: ds, f :: shape, parts, read => by
    rw [readItems?] at read
    simp only [Option.bind_eq_bind, Option.bind_eq_some_iff] at read
    obtain ⟨p, first, rest, others, same⟩ := read
    cases same
    have here := levels_read? d first
    have later := levels_readItems? ds others
    rw [levelsOfItems, List.forall_mem_cons]
    refine ⟨.inl (Nat.le_trans here (Nat.le_max_left _ _)), ?_⟩
    intro q member
    exact (later q member).imp (fun shallow => Nat.le_trans shallow (Nat.le_max_right _ _)) id

end

/-! ### Trees -/

namespace Tree

theorem levels_document (t : Tree) :
    t.document.levels = levelsOfItems (Node.documents t.statements) + 2 := by
  simp [document, Json.Document.levels, levelsOfFields]

theorem levels_ofStatements? {d : Document} {t : Tree} (read : ofStatements? d = some t) :
    t.document.levels ≤ Node.maxLevels := by
  unfold ofStatements? at read
  split at read
  case h_2 => cases read
  next ds =>
  split at read
  case isFalse => cases read
  next admitted =>
  obtain ⟨ns, found, rfl⟩ := Option.map_eq_some_iff.mp read
  have whole := (Json.Document.admits_iff (.array ds)).mp admitted |>.1
  rw [Json.Document.levels] at whole
  have nodes : levelsOfItems (Node.documents ns) ≤ levelsOfItems ds := by
    rw [Node.documents_eq_map, levelsOfItems_le_iff, List.forall_mem_map]
    intro n member
    obtain ⟨d, inside, nodeRead⟩ := exists_of_mem_mapM found member
    obtain ⟨p, partRead, isNode⟩ := Option.bind_eq_some_iff.mp nodeRead
    cases p <;> cases isNode
    exact Nat.le_trans (levels_read? d partRead) (levels_le_of_mem inside)
  calc Tree.document ⟨ns⟩ |>.levels
    _ = levelsOfItems (Node.documents ns) + 2 := levels_document ⟨ns⟩
    _ ≤ levelsOfItems ds + 2 := Nat.add_le_add_right nodes 2
    _ ≤ Node.maxLevels - 1 + 1 := Nat.succ_le_succ whole

/-- A tree that was read can be written within the limit of the reader. -/
theorem levels_parse? {s : String} {t : Tree} (read : parse? s = some t) :
    t.document.levels ≤ Node.maxLevels := by
  obtain ⟨d, -, found⟩ := Option.bind_eq_some_iff.mp read
  unfold ofDocument? at found
  split at found
  · split at found
    · obtain ⟨statements, -, found⟩ := Option.bind_eq_some_iff.mp found
      exact levels_ofStatements? found
    · cases found
  · exact levels_ofStatements? found
  · cases found

/-- Text and tree agree for trees of integers: a text is read as the tree it was written for if it
nests at most 127 arrays and objects, and refused if it nests more. Whatever text a tree of integers
was read from, the text written for it is read as the same tree. -/
theorem text_round_trip :
    (∀ t : Tree, t.integral →
      (Json.nesting t.render ≤ 127 → parse? t.render = some t) ∧
      (127 < Json.nesting t.render → parse? t.render = none)) ∧
    ∀ (s : String) (t : Tree), parse? s = some t → t.integral → parse? t.render = some t := by
  refine ⟨?_, ?_⟩
  · intro t all
    rw [nesting_render all, parse?_render all]
    exact ⟨fun shallow => if_pos shallow, fun deep => if_neg (Nat.not_le.mpr deep)⟩
  · intro s t read all
    rw [parse?_render all, if_pos (levels_parse? read)]

-- The array form, with a kind by its number and a declaration that leaves out two fields.
example :
    ofDocument? (.array [.array [
      .array [textDocument "variable_declaration", textDocument "x"],
      .array [textDocument "return",
        .array [.number (.ofInt 0), .array [textDocument "u8", .number (.ofInt 7)]]]]]) =
      some ⟨[.variableDecl "x" none none,
        .ret (.literal (.int ⟨⟨.w8, false⟩, 7, by decide⟩))]⟩ := by
  rfl

end Tree

end Wordcode
