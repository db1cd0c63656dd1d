import Wordcode.Proofs.Places

/-!
# Objects are read by the names of their fields

An object of a tree document may have its fields in any order and may have others beside those that
have a meaning for it. Which these are (`Construct.known`) depends, in a node, on the tag, wherever
it stands. Only what stands under a known name is looked at (`Construct.read?_congr`), and a known
name must not stand twice (`Construct.read?_repeated`).
-/

namespace Wordcode

open Json (Document)
open Json.Document (Layer fill)

/-! ### One name -/

theorem length_named_of_perm {fields fields' : List (Option String × Document)}
    (perm : fields'.Perm fields) (name : String) :
    (named fields' name).length = (named fields name).length :=
  (perm.filter _).length_eq

/-- A name that does not stand twice has the same content when fields are moved and others are
inserted. -/
theorem named_of_perm {fields fields' extra : List (Option String × Document)}
    (respelled : fields'.Perm (fields ++ extra)) {name : String} (other : named extra name = [])
    (once : (named fields name).length ≤ 1) : named fields' name = named fields name := by
  have found : (named fields' name).Perm (named fields name) := by
    have whole : (named fields' name).Perm (named (fields ++ extra) name) := respelled.filter _
    rwa [named_append, other, List.append_nil] at whole
  rcases content : named fields name with _ | ⟨kd, _ | _⟩
  · rw [content] at found
    exact List.perm_nil.mp found
  · rw [content] at found
    exact List.perm_singleton.mp found
  · rw [content] at once
    simp at once

/-- A field that occurs once keeps its content when fields are moved and inserted, unless one of the
same name is inserted. -/
theorem unique?_of_perm {fields fields' extra : List (Option String × Document)}
    (respelled : fields'.Perm (fields ++ extra)) {name : String} {d : Document}
    (found : unique? fields name = some d) :
    unique? fields' name = some d ∨ 2 ≤ (named fields' name).length := by
  rw [unique?_eq_sole?] at found ⊢
  rcases content : named fields name with _ | ⟨kd, _ | _⟩
  · rw [content] at found
    cases found
  · by_cases more : named extra name = []
    · left
      rw [named_of_perm respelled more (by simp [content]), found]
    · right
      have there := List.length_pos_iff.mpr more
      rw [length_named_of_perm respelled, named_append, List.length_append, content,
        List.length_singleton]
      omega
  · rw [content] at found
    cases found

theorem mapM_eq_none {α β : Type} {f : α → Option β} {xs : List α} {x : α} (member : x ∈ xs)
    (failed : f x = none) : xs.mapM f = none := by
  obtain ⟨before, after, rfl⟩ := List.append_of_mem member
  rw [mapM_middle, failed]
  cases before.mapM f <;> rfl

/-! ### Known names -/

namespace Construct

/-- The names that have a meaning in an object that stands for the construct. -/
def known : Construct → List (Option String × Document) → List String
  | tree, _ => ["statements"]
  | node outermost, fields =>
    match NodeKind.ofFields? outermost fields with
    | some kind => NodeKind.tagField :: kind.shape.map (·.name)
    | none => [NodeKind.tagField]
  | parameter, _ => ["name", "ty"]
  | literal, _ => ["kind", "value"]

theorem tagField_known (outermost : Bool) (fields : List (Option String × Document)) :
    NodeKind.tagField ∈ (node outermost).known fields := by
  rw [known]
  split <;> exact List.mem_cons_self

theorem known_of_mem_shape {outermost : Bool} {fields : List (Option String × Document)}
    {kind : NodeKind} (tagged : NodeKind.ofFields? outermost fields = some kind) {f : Field}
    (member : f ∈ kind.shape) : f.name ∈ (node outermost).known fields := by
  rw [known, tagged]
  exact List.mem_cons_of_mem _ (List.mem_map_of_mem member)

theorem read?_node (outermost : Bool) (fields : List (Option String × Document)) :
    (node outermost).read? (.object fields) =
      if fields.all (·.1.isSome) then
        (NodeKind.ofFields? outermost fields).bind fun kind =>
          (kind.shape.mapM (readField? fields)).bind kind.build?
      else none := by
  have only : ∀ found : Option Node,
      (found.bind fun n => Role.node.ofNode? n).bind Part.node? = found := by
    intro found
    cases found <;> rfl
  rw [read?, read?_object rfl]
  split
  · cases NodeKind.ofFields? outermost fields with
    | none => rfl
    | some kind => exact only _
  · rfl

theorem read?_congr {c : Construct} {fields fields' : List (Option String × Document)}
    (names : fields'.all (·.1.isSome) = fields.all (·.1.isSome))
    (same : ∀ name ∈ c.known fields, named fields' name = named fields name) :
    c.read? (.object fields') = c.read? (.object fields) := by
  cases c with
  | tree =>
    rw [read?, read?, Tree.ofDocument?, Tree.ofDocument?, names, unique?_eq_sole?,
      unique?_eq_sole?, same _ (by simp [known])]
  | node outermost =>
    have tag : NodeKind.ofFields? outermost fields' = NodeKind.ofFields? outermost fields := by
      rw [NodeKind.ofFields?, NodeKind.ofFields?, unique?_eq_sole?, unique?_eq_sole?,
        same _ (tagField_known _ _)]
    rw [read?_node, read?_node, names, tag]
    cases tagged : NodeKind.ofFields? outermost fields with
    | none => rfl
    | some kind =>
      rw [Option.bind_some, Option.bind_some, mapM_congr]
      intro f member
      rw [readField?, readField?, same _ (known_of_mem_shape tagged member)]
  | parameter =>
    simp only [read?, Parameter.ofDocument?, unique?_eq_sole?, atMostOne?_eq_sole?,
      same "name" (by simp [known]), same "ty" (by simp [known])]
  | literal =>
    simp only [read?, Literal.ofDocument?, unique?_eq_sole?, same "kind" (by simp [known]),
      same "value" (by simp [known])]

theorem read?_repeated {c : Construct} {fields : List (Option String × Document)} {name : String}
    (known : name ∈ c.known fields) (twice : 2 ≤ (named fields name).length) :
    c.read? (.object fields) = none := by
  cases c with
  | tree =>
    obtain rfl := List.mem_singleton.mp known
    rw [read?, Tree.ofDocument?, unique?_eq_sole?, sole?_of_twice twice]
    split <;> rfl
  | node outermost =>
    rw [read?_node]
    cases tagged : NodeKind.ofFields? outermost fields with
    | none => simp
    | some kind =>
      simp only [Construct.known, tagged, List.mem_cons, List.mem_map] at known
      rcases known with rfl | ⟨f, member, rfl⟩
      · rw [NodeKind.ofFields?, unique?_eq_sole?, sole?_of_twice twice] at tagged
        cases tagged
      · rw [Option.bind_some, mapM_eq_none member (sole?_of_twice twice)]
        simp
  | parameter =>
    simp only [Construct.known, List.mem_cons, List.not_mem_nil, or_false] at known
    rw [read?, Parameter.ofDocument?]
    rcases known with rfl | rfl
    · rw [unique?_eq_sole?, sole?_of_twice twice]
      rfl
    · rw [atMostOne?_eq_sole?, sole?_of_twice twice]
      cases unique? fields "name" <;> rfl
  | literal =>
    simp only [Construct.known, List.mem_cons, List.not_mem_nil, or_false] at known
    rw [read?, Literal.ofDocument?]
    rcases known with rfl | rfl
    · rw [unique?_eq_sole?, sole?_of_twice twice]
      rfl
    · rw [unique?_eq_sole? fields "value", sole?_of_twice twice]
      cases unique? fields "kind" with
      | none => rfl
      | some d => simp

/-- What has been read from an object determines which names are known in it, unless a name is
repeated. -/
theorem known_of_perm {c : Construct} {fields fields' extra : List (Option String × Document)}
    (respelled : fields'.Perm (fields ++ extra)) {x : c.Content}
    (read : c.read? (.object fields) = some x) :
    c.known fields' = c.known fields ∨
      ∃ name ∈ c.known fields', 2 ≤ (named fields' name).length := by
  cases c with
  | tree | parameter | literal => exact .inl rfl
  | node outermost =>
    rw [read?_node] at read
    split at read
    · obtain ⟨kind, tagged, -⟩ := Option.bind_eq_some_iff.mp read
      obtain ⟨tag, found, -⟩ := Option.bind_eq_some_iff.mp tagged
      rcases unique?_of_perm respelled found with kept | twice
      · left
        rw [known, known, NodeKind.ofFields?, NodeKind.ofFields?, kept, found]
      · exact .inr ⟨_, tagField_known outermost fields', twice⟩
    · cases read

section

variable {c : Construct} {fields fields' extra : List (Option String × Document)}
  (respelled : fields'.Perm (fields ++ extra)) {x : c.Content}
  (read : c.read? (.object fields) = some x)

include respelled read

/-- Fields may be moved, and fields without a meaning may be inserted. -/
theorem read?_of_unknown
    (unknown : ∀ kd ∈ extra, ∃ name, kd.1 = some name ∧ name ∉ c.known fields) :
    c.read? (.object fields') = some x := by
  rw [← read]
  apply read?_congr
  · have named : extra.all (·.1.isSome) := by
      rw [List.all_eq_true]
      intro kd member
      obtain ⟨name, key, -⟩ := unknown kd member
      rw [key, Option.isSome_some]
    rw [respelled.all_eq, List.all_append, named, Bool.and_true]
  · intro name known
    have inserted : named extra name = [] := by
      apply named_eq_nil
      intro kd member same
      obtain ⟨other, key, stranger⟩ := unknown kd member
      rw [key, Option.some.injEq] at same
      exact stranger (same ▸ known)
    have once : (named fields name).length ≤ 1 := by
      by_contra twice
      rw [read?_repeated known (by omega)] at read
      cases read
    exact named_of_perm respelled inserted once

theorem read?_of_repeated {name : String} (known : name ∈ c.known fields)
    (twice : 2 ≤ (named fields' name).length) : c.read? (.object fields') = none := by
  rcases known_of_perm respelled read with same | ⟨other, known', twice'⟩
  · exact read?_repeated (same ▸ known) twice
  · exact read?_repeated known' twice'

end

end Construct

theorem meaningful_of_perm {fields fields' extra : List (Option String × Document)}
    (respelled : fields'.Perm (fields ++ extra)) (whole : (Document.object fields).meaningful)
    (named : ∀ kd ∈ extra, kd.1.isSome) :
    (Document.object fields').meaningful ↔ ∀ kd ∈ extra, kd.2.meaningful := by
  rw [Json.Document.meaningful_object_iff] at whole ⊢
  constructor
  · intro all kd member
    exact (all kd (respelled.mem_iff.mpr (List.mem_append_right _ member))).2
  · intro all kd member
    rcases List.mem_append.mp (respelled.mem_iff.mp member) with old | new
    · exact whole kd old
    · exact ⟨named kd new, all kd new⟩

theorem Leads.ne_tree {outermost : Bool} {role : Role} {layers : List Layer} {c : Construct}
    (leads : Leads outermost role layers c) : c ≠ .tree := by
  induction leads with
  | node | literal | parameter => exact nofun
  | item _ ih | field _ _ _ ih => exact ih

/-! ### Whole texts -/

namespace Tree

/-- At any place of a tree text, the fields of an object may be moved, and fields without a meaning
may be inserted; outside the object of the tree itself, strict reading must admit what they hold. A
known name must not stand twice. -/
theorem parse?_respelled {layers : List Layer} {c : Construct} (place : Place layers c)
    {fields fields' extra : List (Option String × Document)}
    (respelled : fields'.Perm (fields ++ extra)) {s s' : String} {t : Tree}
    (text : Document.parse? s = some (fill layers (.object fields)))
    (text' : Document.parse? s' = some (fill layers (.object fields')))
    (accepted : parse? s = some t) :
    ((∀ kd ∈ extra, ∃ name, kd.1 = some name ∧ name ∉ c.known fields) →
      (fill layers (.object fields')).levels ≤ Node.maxLevels →
      parse? s' = if c = .tree ∨ ∀ kd ∈ extra, kd.2.meaningful then some t else none) ∧
    ∀ name ∈ c.known fields, 2 ≤ (named fields' name).length → parse? s' = none := by
  rw [parse?, text, Option.bind_some] at accepted
  rw [parse?, text', Option.bind_some]
  cases place with
  | tree =>
    have read : Construct.tree.read? (.object fields) = some t := accepted
    constructor
    · intro unknown _
      rw [if_pos (.inl rfl)]
      exact Construct.read?_of_unknown respelled read unknown
    · intro name known twice
      exact Construct.read?_of_repeated respelled read known twice
  | @statement l before after layers c root leads =>
    have below := leads.ne_tree
    obtain ⟨others, through⟩ := (Place.statement root leads).ofDocument?_fill below
    rw [through _ rfl] at accepted ⊢
    split at accepted
    case isFalse => cases accepted
    next admitted =>
    obtain ⟨x, read, outer⟩ := Option.bind_eq_some_iff.mp accepted
    constructor
    · intro unknown room
      -- Nothing is kept of what is inserted, but strict reading has looked at all of it before.
      have values : (Document.object fields').meaningful ↔ ∀ kd ∈ extra, kd.2.meaningful := by
        apply meaningful_of_perm respelled
        · exact Json.Document.meaningful_of_fill ((Json.Document.admits_iff _).mp admitted).2
        · intro kd member
          obtain ⟨name, key, -⟩ := unknown kd member
          rw [key, Option.isSome_some]
      have levels : (fill (.item before after :: layers) (.object fields')).levels ≤
          Node.maxLevels - 1 := by
        rw [Json.Document.fill_cons, l.levels_fill] at room
        omega
      have admits := Json.Document.admits_fill_iff admitted (.object fields')
      rw [Construct.read?_of_unknown respelled read unknown, Option.bind_some, outer]
      rw [List.tail_cons] at admits ⊢
      simp only [admits, levels, values, below, true_and, false_or]
    · intro name known twice
      rw [Construct.read?_of_repeated respelled read known twice, Option.bind_none, ite_self]

def emptyBlock : List (Option String × Document) :=
  [(some "node", textDocument "compound"), (some "statements", .array [])]

/-- A block inside another, with its fields in reverse after two more of one name, and with a second
tag. -/
theorem parse?_respelled_block :
    parse? "[[[\"compound\",[\x7b\"node\":\"compound\",\"statements\":[]\x7d]]]]" =
      some ⟨[.compound [.compound []]]⟩ ∧
    parse?
        "[[[\"compound\",[\x7b\"op\":-1,\"op\":[],\"statements\":[],\"node\":\"compound\"\x7d]]]]" =
      some ⟨[.compound [.compound []]]⟩ ∧
    parse?
        "[[[\"compound\",[\x7b\"node\":\"compound\",\"statements\":[],\"node\":\"return\"\x7d]]]]" =
      none := by
  have place : Place [.item [] [], .item [] [], .item [textDocument "compound"] [], .item [] []]
      (.node false) :=
    .statement .array (.field rfl (.array rfl rfl) (.item (.node rfl)))
  have text : Document.parse?
      "[[[\"compound\",[\x7b\"node\":\"compound\",\"statements\":[]\x7d]]]]" =
      some (fill [.item [] [], .item [] [], .item [textDocument "compound"] [], .item [] []]
        (.object emptyBlock)) :=
    Json.Document.parse?_of_render (by decide) (by decide)
  have accepted : parse? "[[[\"compound\",[\x7b\"node\":\"compound\",\"statements\":[]\x7d]]]]" =
      some ⟨[.compound [.compound []]]⟩ := by
    rw [parse?, text]
    rfl
  refine ⟨accepted, ?_, ?_⟩
  · have text' : Document.parse?
        "[[[\"compound\",[\x7b\"op\":-1,\"op\":[],\"statements\":[],\"node\":\"compound\"\x7d]]]]" =
        some (fill [.item [] [], .item [] [], .item [textDocument "compound"] [], .item [] []]
          (.object (emptyBlock ++ [(some "op", Document.array []),
            (some "op", .number (.ofInt (-1)))]).reverse)) :=
      Json.Document.parse?_of_render (by decide) (by decide)
    have kept := (parse?_respelled place (List.reverse_perm _) text text' accepted).1
      (by decide) (by decide)
    rwa [if_pos (.inr (by decide))] at kept
  · have text' : Document.parse?
        "[[[\"compound\",[\x7b\"node\":\"compound\",\"statements\":[],\"node\":\"return\"\x7d]]]]" =
        some (fill [.item [] [], .item [] [], .item [textDocument "compound"] [], .item [] []]
          (.object (emptyBlock ++ [(some "node", textDocument "return")]))) :=
      Json.Document.parse?_of_render (by decide) (by decide)
    exact (parse?_respelled place (.refl _) text text' accepted).2 "node" (by decide) (by decide)

/-- A number that is too large to be read makes a node unreadable even in a field without a
meaning. -/
theorem not_forall_parse?_respelled :
    ¬ ∀ (layers : List Layer) (c : Construct) (fields fields' extra :
        List (Option String × Document)) (s s' : String) (t : Tree), Place layers c →
      fields'.Perm (fields ++ extra) → Document.parse? s = some (fill layers (.object fields)) →
      Document.parse? s' = some (fill layers (.object fields')) → parse? s = some t →
      (∀ kd ∈ extra, ∃ name, kd.1 = some name ∧ name ∉ c.known fields) →
      (fill layers (.object fields')).levels ≤ Node.maxLevels → parse? s' = some t := by
  intro claimed
  have place : Place [.field [] "statements" [], .item [] []] (.node true) :=
    .statement .object (.node rfl)
  have text : Document.parse?
      "\x7b\"statements\":[\x7b\"node\":\"compound\",\"statements\":[]\x7d]\x7d" =
      some (fill [.field [] "statements" [], .item [] []] (.object emptyBlock)) :=
    Json.Document.parse?_of_render (by decide) (by decide)
  have accepted : parse?
      "\x7b\"statements\":[\x7b\"node\":\"compound\",\"statements\":[]\x7d]\x7d" =
      some ⟨[.compound []]⟩ := by
    rw [parse?, text]
    rfl
  have text' : Document.parse?
      "\x7b\"statements\":[\x7b\"node\":\"compound\",\"statements\":[],\"x\":1e999\x7d]\x7d" =
      some (fill [.field [] "statements" [], .item [] []]
        (.object (emptyBlock ++ [(some "x", .number ⟨false, 1, [], some 999⟩)]))) :=
    Json.Document.parse?_of_render (by decide) (by decide)
  have kept := claimed _ _ _ _ _ _ _ _ place (.refl _) text text' accepted (by decide) (by decide)
  have rejected : parse?
      "\x7b\"statements\":[\x7b\"node\":\"compound\",\"statements\":[],\"x\":1e999\x7d]\x7d" =
      none := by
    rw [parse?, text', Option.bind_some, ← Option.isNone_iff_eq_none]
    decide
  rw [rejected] at kept
  cases kept

end Tree

end Wordcode
