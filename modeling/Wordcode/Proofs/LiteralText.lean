import Wordcode.Proofs.Evaluation
import Wordcode.Proofs.Places

/-!
# Numbers from text to result

A number stands in the text of a tree as the literal that the tree returns. Around it there may be
blocks and functions, in any of their written forms, and whatever they hold beside the return
(`ReadsReturn`). The number is read exactly if it is in the range of its kind, and then it is what
the tree evaluates to.
-/

namespace Wordcode

open Json (Document Numeral)
open Json.Document (Layer fill)

/-! ### Places of returned numbers -/

namespace Json.Document.Layer

/-- The layer is around the number of a literal of an integer kind. -/
inductive IsNumber (k : Kind) : Layer → Prop where
  | object {before after : List (Option String × Document)} {d : Document} :
      unique? (before ++ after) "kind" = some d →
      (choice? d).bind Scalar.ofName? = some (.int k) → IsNumber k (.field before "value" after)
  | array {d : Document} : Literal.itemScalar? d = some (.int k) → IsNumber k (.item [d] [])

theorem IsNumber.ofDocument?_fill {k : Kind} {l : Layer} (number : l.IsNumber k) :
    ∃ clean : Bool, ∀ m, Literal.ofDocument? (l.fill (.number m)) =
      if clean then (m.integer?.bind (Value.ofInt? k)).map .int else none := by
  cases number with
  | @object before after d found kind =>
    refine ⟨decide (named (before ++ after) "value" = []), ?_⟩
    intro m
    have kept : unique? (before ++ (some "value", .number m) :: after) "kind" = some d := by
      rw [← found, unique?_eq_sole?, unique?_eq_sole?, named_middle_of_ne (by decide)]
    rw [fill, Literal.ofDocument?, kept, unique?_eq_sole?, sole?_middle]
    by_cases alone : named (before ++ after) "value" = [] <;>
      simp [alone, kind, Literal.ofNumber?, Literal.ofNumeral?]
  | @array d kind =>
    refine ⟨true, ?_⟩
    intro m
    simp [fill, Literal.ofDocument?, kind, Literal.ofNumber?, Literal.ofNumeral?]

end Json.Document.Layer

/-- In the document of a node, the place inside the layers is that of the number of a literal which
the node returns, at once or from inside blocks and functions. -/
inductive ReturnedIn (k : Kind) : Bool → List Layer → Prop where
  | ret {outermost : Bool} {l m x : Layer} : l.IsField outermost .ret ⟨"value", .node⟩ →
      m.IsField false .literal ⟨"value", .literal⟩ → x.IsNumber k → ReturnedIn k outermost [l, m, x]
  | block {outermost : Bool} {kind : NodeKind} {f : Field} {l : Layer}
      {before after : List Document} {layers : List Layer} : l.IsField outermost kind f →
      f.role = .nodes → ReturnedIn k false layers →
      ReturnedIn k outermost (l :: .item before after :: layers)

/-! ### Reading around a returned number -/

/-- What is read around a number is nothing, or a return of the number, as a literal of the kind,
among flat statements that do not depend on it. -/
def ReadsReturn {α : Type} (k : Kind) (flat : α → List Node) (read : Numeral → Option α) : Prop :=
  ∃ made : Option (Value → α),
    (∀ g ∈ made, ∃ front back, ∀ v, flat (g v) = front ++ .ret (.literal (.int v)) :: back) ∧
    ∀ m, read m = made.bind fun g => (m.integer?.bind (Value.ofInt? k)).map g

theorem ReadsReturn.enclose {α β : Type} {k : Kind} {flat : α → List Node} {flat' : β → List Node}
    {read : Numeral → Option α} {read' : Numeral → Option β} (inner : ReadsReturn k flat read)
    (wrap : Option (α → β))
    (around : ∀ w ∈ wrap, ∃ front back, ∀ x, flat' (w x) = front ++ flat x ++ back)
    (outer : ∀ m, read' m = wrap.bind fun w => (read m).map w) : ReadsReturn k flat' read' := by
  obtain ⟨made, flattened, same⟩ := inner
  refine ⟨wrap.bind fun w => made.map fun g v => w (g v), ?_, ?_⟩
  · intro g' found
    simp only [Option.mem_def, Option.bind_eq_some_iff, Option.map_eq_some_iff] at found
    obtain ⟨w, wrapped, g, found, rfl⟩ := found
    obtain ⟨front, back, within⟩ := flattened g found
    obtain ⟨front', back', around⟩ := around w wrapped
    refine ⟨front' ++ front, back ++ back', ?_⟩
    intro v
    simp [around, within]
  · intro m
    rw [outer, same]
    cases wrap <;> cases made <;> simp [Function.comp_def]

theorem Node.flatList_append (first second : List Node) :
    flatList (first ++ second) = flatList first ++ flatList second := by
  induction first with
  | nil => rfl
  | cons n first ih => rw [List.cons_append, flatList, flatList, ih, List.append_assoc]

theorem ReadsReturn.mapM {k : Kind} (f : Document → Option Node) {layers : List Layer}
    (reads : ReadsReturn k Node.flat fun m => f (fill layers (.number m)))
    (before after : List Document) :
    ReadsReturn k Node.flatList fun m =>
      (before ++ fill layers (.number m) :: after).mapM f := by
  refine reads.enclose ((before.mapM f).bind fun front =>
    (after.mapM f).map fun back n => front ++ n :: back) ?_ ?_
  · intro w found
    simp only [Option.mem_def, Option.bind_eq_some_iff, Option.map_eq_some_iff] at found
    obtain ⟨front, -, back, -, rfl⟩ := found
    refine ⟨Node.flatList front, Node.flatList back, ?_⟩
    intro n
    rw [Node.flatList_append, Node.flatList, List.append_assoc]
  · intro m
    rw [mapM_middle]
    cases before.mapM f <;> cases f (fill layers (.number m)) <;> cases after.mapM f <;> rfl

/-- Of the nodes, blocks and functions hold statements, and they stand for these. -/
theorem NodeKind.build?_nodes (kind : NodeKind) (front back : List Part) :
    ∃ wrap : Option (List Node → Node), (∀ w ∈ wrap, ∀ ns, (w ns).flat = Node.flatList ns) ∧
      ∀ ns, kind.build? (front ++ .nodes ns :: back) = wrap.map (· ns) := by
  by_cases possible : ∃ ns n, kind.build? (front ++ .nodes ns :: back) = some n
  · -- Where some statements fit in, the other parts are those of a block or of a function.
    obtain ⟨ns, n, built⟩ := possible
    unfold build? at built
    split at built
    case h_4 ms whole =>
      rcases front with _ | ⟨a, front⟩ <;> simp at whole
      obtain ⟨-, rfl⟩ := whole
      exact ⟨some .compound, by simp [Node.flat], fun _ => rfl⟩
    case h_6 name ps ty ms whole =>
      rcases front with _ | ⟨a, _ | ⟨b, _ | ⟨c, _ | ⟨d, front⟩⟩⟩⟩ <;> simp at whole
      obtain ⟨rfl, rfl, rfl, -, rfl⟩ := whole
      exact ⟨some (.functionDecl name ps ty), by simp [Node.flat], fun _ => rfl⟩
    case h_8 => cases built
    all_goals
      next whole =>
      rcases front with _ | ⟨a, _ | ⟨b, _ | ⟨c, front⟩⟩⟩ <;> simp at whole
  · refine ⟨none, nofun, ?_⟩
    intro ns
    rw [Option.map_none, Option.eq_none_iff_forall_ne_some]
    exact fun n built => possible ⟨ns, n, built⟩

theorem Json.Document.Layer.IsField.read?_fill_only {outermost : Bool} {kind : NodeKind}
    {f : Field} {l : Layer} (field : l.IsField outermost kind f) (only : kind.shape = [f]) :
    ∃ clean : Bool, ∀ d, read? outermost .node (l.fill d) = if clean then
      (read? false f.role d).bind fun p => (kind.build? [p]).bind fun n => some (.node n)
      else none := by
  obtain ⟨first, last, others, shape, lengths, built⟩ := field.read?_fill
  obtain ⟨rfl, rfl⟩ : first = [] ∧ last = [] := by
    rw [only] at shape
    rcases first with _ | ⟨g, first⟩ <;> simp at shape
    exact ⟨rfl, shape⟩
  refine ⟨others.isSome, ?_⟩
  intro d
  rw [built rfl]
  rcases found : others with _ | ⟨front, back⟩
  · rfl
  · obtain ⟨no, none⟩ := lengths front back found
    rw [List.length_eq_zero_iff.mp no, List.length_eq_zero_iff.mp none]
    rfl

theorem ReturnedIn.reads {k : Kind} {outermost : Bool} {layers : List Layer}
    (returned : ReturnedIn k outermost layers) :
    ReadsReturn k Node.flat fun m =>
      (read? outermost .node (fill layers (.number m))).bind Part.node? := by
  induction returned with
  | @ret outermost l m x value literal number =>
    obtain ⟨returned, value⟩ := value.read?_fill_only rfl
    obtain ⟨written, literal⟩ := literal.read?_fill_only rfl
    obtain ⟨clean, number⟩ := number.ofDocument?_fill
    refine ⟨if returned && written && clean then some fun v => .ret (.literal (.int v)) else none,
      ?_, ?_⟩
    · intro g found
      split at found <;> cases found
      exact ⟨[], [], fun v => rfl⟩
    · intro num
      dsimp only [Json.Document.fill_cons, Json.Document.fill_nil]
      rw [value, literal, read?_of_leaf (by decide) rfl, readLeaf?, number]
      cases returned <;> cases written <;> cases clean <;> try rfl
      cases num.integer?.bind (Value.ofInt? k) <;> rfl
  | @block outermost kind f l before after layers field role inner ih =>
    obtain ⟨first, last, others, -, -, built⟩ := field.read?_fill
    have list := ReadsReturn.mapM (fun d => (read? false .node d).bind Part.node?) ih before after
    rcases others with _ | ⟨front, back⟩
    · refine ⟨none, nofun, ?_⟩
      intro m
      dsimp only
      rw [Json.Document.fill_cons, built rfl]
      rfl
    -- The node stands for its statements, so that a block adds nothing around the return.
    · obtain ⟨wrap, flattened, wrapped⟩ := kind.build?_nodes front back
      refine list.enclose wrap ?_ ?_
      · intro w found
        refine ⟨[], [], ?_⟩
        intro ns
        rw [flattened w found, List.nil_append, List.append_nil]
      · intro m
        rw [Json.Document.fill_cons, Json.Document.fill_cons, built rfl, Option.bind_some, role,
          Layer.fill, read?_nodes, readNodes?_eq_mapM]
        cases (before ++ fill layers (.number m) :: after).mapM
          fun d => (read? false .node d).bind Part.node? with
        | none => cases wrap <;> rfl
        | some ns =>
          dsimp only [Option.map_some, Option.bind_some]
          rw [wrapped]
          cases wrap <;> rfl

/-! ### Trees -/

/-- In the document of a tree, the place inside the layers is that of the number of a literal which
the tree returns. -/
inductive Returned (k : Kind) : List Layer → Prop where
  | statement {l : Layer} {before after : List Document} {layers : List Layer} : l.IsRoot →
      ReturnedIn k true layers → Returned k (l :: .item before after :: layers)

/-- A tree is read around a returned number if strict reading admits the statements. -/
theorem Returned.reads {k : Kind} {layers : List Layer} (returned : Returned k layers) :
    ∃ read : Numeral → Option Tree, ReadsReturn k Tree.flat read ∧
      ∀ m, Tree.ofDocument? (fill layers (.number m)) =
        if (fill layers.tail (.number m)).admits (Node.maxLevels - 1) then read m else none := by
  obtain @⟨l, before, after, layers, root, inner⟩ := returned
  obtain ⟨clean, rooted⟩ := root.ofDocument?_fill
  have list := ReadsReturn.mapM Node.ofDocument? inner.reads before after
  refine ⟨fun m => if clean then ((before ++ fill layers (.number m) :: after).mapM
    Node.ofDocument?).map (⟨·⟩) else none, ?_, ?_⟩
  · refine list.enclose (if clean then some (⟨·⟩) else none) ?_ ?_
    · intro w found
      split at found <;> cases found
      exact ⟨[], [], fun ns => by simp [Tree.flat]⟩
    · intro m
      cases clean <;> rfl
  · intro m
    rw [Json.Document.fill_cons, rooted, List.tail_cons, Json.Document.fill_cons, Layer.fill,
      Tree.ofStatements?]
    cases clean <;> simp

/-- With a number in the place, the document is that of a tree which returns the number as a literal
of the kind. What is around the place can be read and lowered, as it is when the number is zero. -/
structure ReturnPlace (k : Kind) (layers : List Layer) : Prop where
  returned : Returned k layers
  accepted : ∃ t p, Tree.ofDocument? (fill layers (.number (.ofInt 0))) = some t ∧ t.compile = .ok p

theorem Kind.inRange_zero (k : Kind) : k.InRange 0 := by
  rcases k with ⟨width, signed⟩
  cases width <;> cases signed <;> decide

theorem Value.text_eq (v : Value) : v.text = toString v.number := by
  rw [text]
  cases v.number with
  | ofNat n => rfl
  | negSucc n =>
    change String.ofList ('-' :: Nat.toDigits 10 (n + 1)) = "-" ++ Nat.repr (n + 1)
    rw [← String.toList_inj]
    simp [Nat.repr]

/-- The number in the place is all that decides whether the tree is read, and what it returns. -/
theorem ReturnPlace.ofDocument?_fill {k : Kind} {layers : List Layer}
    (place : ReturnPlace k layers) :
    ∃ g : Value → Tree, (∀ v, (g v).Returns (.literal v)) ∧
      ∀ n, Tree.ofDocument? (fill layers (.number (.ofInt n))) = (Value.ofInt? k n).map g := by
  obtain ⟨read, ⟨made, flattened, same⟩, whole⟩ := place.returned.reads
  obtain ⟨t, p, found, compiled⟩ := place.accepted
  rw [whole, same, Json.Numeral.integer?_ofInt, Option.bind_some, Value.ofInt?,
    dif_pos k.inRange_zero] at found
  split at found
  case isFalse => cases found
  next admitted =>
  simp only [Option.bind_eq_some_iff, Option.map_some, Option.some.injEq] at found
  obtain ⟨g, rfl, rfl⟩ := found
  refine ⟨g, ?_, ?_⟩
  · -- Around the return there are no other statements, or zero would not have been lowered.
    obtain ⟨front, back, among⟩ := flattened g rfl
    obtain ⟨e, returns⟩ := Tree.exists_returns_of_compile compiled
    have alone : front = [] ∧ back = [] := by
      rw [Tree.Returns, among, List.append_eq_singleton_iff] at returns
      rcases returns with ⟨none, same⟩ | ⟨-, same⟩
      · exact ⟨none, (List.cons.inj same).2⟩
      · cases same
    intro v
    rw [Tree.Returns, among, alone.1, alone.2]
    rfl
  · intro n
    rw [whole, same, Json.Numeral.integer?_ofInt, Option.bind_some, Option.bind_some]
    by_cases inside : k.InRange n
    · have levels := Json.Document.levels_fill_congr layers.tail
        (show (Document.number (.ofInt n)).levels = (Document.number (.ofInt 0)).levels from rfl)
      rw [if_pos]
      rw [Json.Document.admits_fill_iff admitted, levels]
      exact ⟨((Json.Document.admits_iff _).mp admitted).1,
        Numeral.isFinite_ofInt (Kind.natAbs_lt inside)⟩
    · simp [Value.ofInt?, inside]

/-- A text that returns a number as a literal of a kind is read exactly if the number is in the
range of the kind. Then it evaluates to a value of the kind that is written as the number is, under
any limit on the stack. -/
theorem Engine.evaluate_number_text {k : Kind} {layers : List Layer} (place : ReturnPlace k layers)
    {s : String} {n : Int} (text : Document.parse? s = some (fill layers (.number (.ofInt n)))) :
    ((Tree.parse? s).isSome ↔ k.InRange n) ∧
    ∀ t, Tree.parse? s = some t → ∀ engine : Engine,
      ∃ v, engine.evaluate t = .ok v ∧ v.kind = k ∧ v.text = toString n := by
  obtain ⟨g, returns, read⟩ := place.ofDocument?_fill
  have parsed : Tree.parse? s = (Value.ofInt? k n).map g := by
    rw [Tree.parse?, text, Option.bind_some, read]
  rw [parsed]
  by_cases inside : k.InRange n
  · rw [Value.ofInt?, dif_pos inside]
    refine ⟨by simp [inside], ?_⟩
    intro t found engine
    cases found
    refine ⟨⟨k, n, inside⟩, ?_, rfl, Value.text_eq _⟩
    rw [evaluate_ok_iff (returns _) engine.depth_pos]
    exact ⟨rfl, rfl⟩
  · rw [Value.ofInt?, dif_neg inside]
    refine ⟨by simp [inside], ?_⟩
    intro t found
    cases found

/-- The layers around the number in a tree whose only statement returns a literal of a kind, written
out in full. -/
def plainReturn (k : Kind) : List Layer :=
  [.field [] "statements" [], .item [] [],
    .field [(some "node", textDocument "return")] "value" [],
    .field [(some "node", textDocument "literal")] "value" [],
    .field [(some "kind", textDocument k.name)] "value" []]

theorem returnPlace_plainReturn (k : Kind) : ReturnPlace k (plainReturn k) where
  returned := by
    have kind : (choice? (textDocument k.name)).bind Scalar.ofName? = some (.int k) :=
      Scalar.ofName?_name (.int k)
    refine .statement .object (.ret (.object rfl ?_) (.object rfl ?_) (.object rfl kind))
    · exact List.mem_singleton_self _
    · exact List.mem_singleton_self _
  accepted := by
    refine ⟨⟨[.ret (.literal (.int ⟨k, 0, k.inRange_zero⟩))]⟩, _, ?_,
      Tree.compile_of_returns (e := .literal ⟨k, 0, k.inRange_zero⟩) rfl⟩
    rcases k with ⟨width, signed⟩
    cases width <;> cases signed <;> rfl

/-- The greatest number of all kinds, and the one after it, under a stack of a single slot. -/
theorem Engine.evaluate_number_text_greatest :
    (∃ t v, Tree.parse? ("\x7b\"statements\":[\x7b\"node\":\"return\",\"value\":" ++
        "\x7b\"node\":\"literal\",\"value\":\x7b\"kind\":\"u64\",\"value\":18446744073709551615" ++
        "\x7d\x7d\x7d]\x7d") = some t ∧
      Engine.evaluate ⟨⟨1, true⟩, by decide⟩ t = .ok v ∧ v.kind = ⟨.w64, false⟩ ∧
      v.text = "18446744073709551615") ∧
    Tree.parse? ("\x7b\"statements\":[\x7b\"node\":\"return\",\"value\":" ++
        "\x7b\"node\":\"literal\",\"value\":\x7b\"kind\":\"u64\",\"value\":18446744073709551616" ++
        "\x7d\x7d\x7d]\x7d") = none := by
  have place := returnPlace_plainReturn ⟨.w64, false⟩
  constructor
  · have text : Document.parse? ("\x7b\"statements\":[\x7b\"node\":\"return\",\"value\":" ++
        "\x7b\"node\":\"literal\",\"value\":\x7b\"kind\":\"u64\",\"value\":18446744073709551615" ++
        "\x7d\x7d\x7d]\x7d") =
        some (fill (plainReturn ⟨.w64, false⟩) (.number (.ofInt 18446744073709551615))) :=
      Json.Document.parse?_of_render (by decide) (by decide)
    obtain ⟨accepted, evaluated⟩ := evaluate_number_text place text
    obtain ⟨t, parsed⟩ := Option.isSome_iff_exists.mp (accepted.mpr (by decide))
    obtain ⟨v, returned, kind, same⟩ := evaluated t parsed ⟨⟨1, true⟩, by decide⟩
    exact ⟨t, v, parsed, returned, kind, same⟩
  · have text : Document.parse? ("\x7b\"statements\":[\x7b\"node\":\"return\",\"value\":" ++
        "\x7b\"node\":\"literal\",\"value\":\x7b\"kind\":\"u64\",\"value\":18446744073709551616" ++
        "\x7d\x7d\x7d]\x7d") =
        some (fill (plainReturn ⟨.w64, false⟩) (.number (.ofInt 18446744073709551616))) :=
      Json.Document.parse?_of_render (by decide) (by decide)
    rw [← Option.not_isSome_iff_eq_none, (evaluate_number_text place text).1]
    decide

end Wordcode
