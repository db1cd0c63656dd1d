import Wordcode.Proofs.Expr

/-!
# The first node that cannot be lowered

Lowering visits the nodes of an expression in post-order and does not enter unary operations and
statements. Each visited node is judged by itself (`Node.offence?`), and the first one that offends
ends the walk with its error. What was emitted until then are the records of the nodes before it
(`lower_cases`).
-/

namespace Wordcode

theorem Operator.arith?_eq_none_iff {op : Operator} :
    op.arith? = none ↔ op ∉ [.add, .sub, .mul, .div] := by
  cases op <;> decide

namespace Node

/-- The nodes that lowering visits, operands before their operation and left before right. -/
def visited : Node → List Node
  | binary left op right => left.visited ++ right.visited ++ [binary left op right]
  | node => [node]

/-- The error of a visited node by itself, whatever its operands are. -/
def offence? : Node → Option LoweringError
  | literal (.int _) => none
  | literal (.float k _) => some (.unsupportedScalar k)
  | binary _ op _ =>
    if op ∈ [.add, .sub, .mul, .div] then none else some (.unexpectedOperator op)
  | unary _ _ => some .unaryOperation
  | node => some (.statementAsValue node.kind)

theorem offence?_eq_none_iff {n : Node} :
    n.offence? = none ↔ (∃ v, n = .literal (.int v)) ∨
      ∃ left op right, n = .binary left op right ∧ op ∈ [Operator.add, .sub, .mul, .div] := by
  cases n with
  | literal l => cases l <;> simp [offence?]
  | binary left op right =>
    by_cases arithmetic : op ∈ [Operator.add, .sub, .mul, .div]
    · rw [offence?, if_pos arithmetic]
      exact iff_of_true rfl (.inr ⟨left, op, right, rfl, arithmetic⟩)
    · rw [offence?, if_neg arithmetic]
      refine iff_of_false nofun ?_
      rintro (⟨v, ⟨⟩⟩ | ⟨_, _, _, ⟨⟩, other⟩)
      exact arithmetic other
  | unary | compound | variableDecl | functionDecl | ret => simp [offence?]

end Node

namespace Expr

theorem visited_node (e : Expr) : e.node.visited = e.postorder.map node := by
  induction e with
  | literal v => rfl
  | binary left op right ihl ihr =>
    rw [node, Node.visited, ihl, ihr, postorder, List.map_append, List.map_append]
    rfl

theorem offence?_node (e : Expr) : e.node.offence? = none := by
  cases e with
  | literal v => rfl
  | binary left op right => cases op <;> rfl

theorem offence?_of_mem_map {es : List Expr} {m : Node} (member : m ∈ es.map node) :
    m.offence? = none := by
  obtain ⟨e, -, rfl⟩ := List.mem_map.mp member
  exact e.offence?_node

end Expr

namespace Node

/-- Lowering gets through an expression. Anything else it leaves at a node that offends, after the
records of expressions only. -/
theorem lower_cases : (n : Node) →
    (∃ e : Expr, n = e.node) ∨
    ∃ (es : List Expr) (m : Node) (after : List Node) (err : LoweringError),
      n.visited = es.map Expr.node ++ m :: after ∧ m.offence? = some err ∧
        n.lower = ⟨es.map Expr.instruction, .error err⟩
  | .literal (.int v) => .inl ⟨.literal v, rfl⟩
  | .binary left op right => by
    rw [lower_binary, visited]
    rcases lower_cases left with ⟨l, rfl⟩ | ⟨es, m, after, err, split, bad, lowered⟩
    · rw [l.lower_node, l.visited_node]
      rcases lower_cases right with ⟨r, rfl⟩ | ⟨es, m, after, err, split, bad, lowered⟩
      · rw [r.lower_node, r.visited_node]
        cases arithmetic : op.arith? with
        | some arith =>
          obtain rfl := Operator.eq_operator arithmetic
          exact .inl ⟨.binary l arith r, rfl⟩
        | none =>
          have bad : offence? (binary l.node op r.node) = some (.unexpectedOperator op) :=
            if_neg (Operator.arith?_eq_none_iff.mp arithmetic)
          refine .inr ⟨l.postorder ++ r.postorder, _, [], _, ?_, bad, ?_⟩
          · rw [List.map_append]
          · rw [List.map_append]
            rfl
      · rw [lowered, split]
        refine .inr ⟨l.postorder ++ es, m, after ++ [binary l.node op right], err, ?_, bad, ?_⟩
        · simp
        · rw [List.map_append]
          rfl
    · rw [lowered, split]
      refine .inr ⟨es, m, after ++ right.visited ++ [binary left op right], err, ?_, bad, rfl⟩
      simp
  | .literal (.float _ _) | .unary _ _ | .compound _ | .variableDecl _ _ _
  | .functionDecl _ _ _ _ | .ret _ => .inr ⟨[], _, [], _, rfl, rfl, rfl⟩

/-- Whether lowering succeeds or not, it has emitted the records of the nodes it visited first. -/
theorem exists_emitted (n : Node) :
    ∃ parts : List Expr, parts.map Expr.node <+: n.visited ∧
      n.lower.emitted = parts.map Expr.instruction := by
  rcases n.lower_cases with ⟨e, rfl⟩ | ⟨parts, m, after, err, split, -, lowered⟩
  · exact ⟨e.postorder, e.visited_node ▸ List.prefix_rfl, by rw [e.lower_node, Expr.code]⟩
  · exact ⟨parts, split ▸ List.prefix_append _ _, by rw [lowered]⟩

theorem takeWhile_of_first {before after : List Node} {m : Node}
    (fine : ∀ earlier ∈ before, earlier.offence? = none) (bad : m.offence? ≠ none) :
    (before ++ m :: after).takeWhile (·.offence? = none) = before := by
  rw [List.takeWhile_append_of_pos (by simpa using fine), List.takeWhile_cons_of_neg (by simpa),
    List.append_nil]

/-- The outcome of lowering, from the first offence among the visited nodes. -/
theorem findSome?_offence (n : Node) :
    (∃ k, n.lower.outcome = .ok k ∧ n.visited.findSome? offence? = none) ∨
      ∃ err, n.lower.outcome = .error err ∧ n.visited.findSome? offence? = some err := by
  rcases n.lower_cases with ⟨e, rfl⟩ | ⟨es, m, after, err, split, bad, lowered⟩
  · refine .inl ⟨e.kind, by rw [e.lower_node], ?_⟩
    rw [e.visited_node, List.findSome?_eq_none_iff]
    exact fun _ => Expr.offence?_of_mem_map
  · refine .inr ⟨err, by rw [lowered], ?_⟩
    rw [split, List.findSome?_eq_some_iff]
    exact ⟨_, m, after, rfl, bad, fun _ => Expr.offence?_of_mem_map⟩

end Node

/-- Appending an expression succeeds exactly when every visited node is an integer literal or an
arithmetic operation. It fails with the error of the first visited node that offends; then it has
appended the records of the nodes before that one, and the result kind is what it was. -/
theorem Draft.addExpr_first_offence (d : Draft) (n : Node) :
    ((∃ k, (d.addExpr n).2 = .ok k) ↔ ∀ m ∈ n.visited, (∃ v, m = .literal (.int v)) ∨
      ∃ left op right, m = .binary left op right ∧ op ∈ [Operator.add, .sub, .mul, .div]) ∧
    (∀ err, (d.addExpr n).2 = .error err ↔
      ∃ before m after, n.visited = before ++ m :: after ∧ m.offence? = some err ∧
        ∀ earlier ∈ before, earlier.offence? = none) ∧
    ∀ before m after, n.visited = before ++ m :: after → m.offence? ≠ none →
      (∀ earlier ∈ before, earlier.offence? = none) →
      ∃ es : List Expr, before = es.map Expr.node ∧
        (d.addExpr n).1 = ⟨d.code ++ Stream.encode (es.map Expr.instruction), d.resultKind⟩ := by
  refine ⟨?_, ?_, ?_⟩
  · simp only [← Node.offence?_eq_none_iff, ← List.findSome?_eq_none_iff]
    rcases n.findSome?_offence with ⟨k, lowered, fine⟩ | ⟨err, lowered, bad⟩
    · simp [addExpr, lowered, fine]
    · simp [addExpr, lowered, bad]
  · intro err
    rw [← List.findSome?_eq_some_iff]
    rcases n.findSome?_offence with ⟨k, lowered, fine⟩ | ⟨err, lowered, bad⟩
    · simp [addExpr, lowered, fine]
    · simp [addExpr, lowered, bad]
  · intro before m after split bad fine
    rcases n.lower_cases with ⟨e, rfl⟩ | ⟨es, m', after', err, split', bad', lowered⟩
    · have member : m ∈ e.node.visited := by simp [split]
      rw [e.visited_node] at member
      exact absurd (Expr.offence?_of_mem_map member) bad
    -- Both splits are at the first offence, so the same nodes stand before it.
    · have same : before = es.map Expr.node := by
        rw [← Node.takeWhile_of_first fine bad, ← split, split',
          Node.takeWhile_of_first (fun _ => Expr.offence?_of_mem_map) (by rw [bad']; exact nofun)]
      exact ⟨es, same, by rw [addExpr, lowered]⟩

-- The operator offends as well, but its operands are visited first.
example : Draft.empty.addExpr (.binary (.literal (.int ⟨⟨.w8, false⟩, 7, by decide⟩)) .equal
      (.unary .negate (.literal (.int ⟨.i64, 1, by decide⟩)))) =
    (⟨[0x02, 0x07], none⟩, .error .unaryOperation) := by
  rfl

end Wordcode
