import Wordcode.Proofs.Exactness
import Wordcode.Proofs.Offences

/-!
# Kinds from leaves

Promotion is stated for two operands. Over a whole expression it comes to a rule that mentions the
literals only (`Kind.ResolvesFrom`): neither the shape of the expression nor its operators play a
part, and the rule has one solution for each set of kinds (`ResolvesFrom.eq_of_same`).
-/

namespace Wordcode

theorem Width.bits_inj {v w : Width} (same : v.bits = w.bits) : v = w := by
  cases v <;> cases w <;> cases same <;> rfl

/-- A kind is of the greatest width among some others, and signed exactly when one of those that
have this width is. -/
structure Kind.ResolvesFrom (k : Kind) (kinds : List Kind) : Prop where
  attained : ∃ a ∈ kinds, a.bits = k.bits
  greatest : ∀ a ∈ kinds, a.bits ≤ k.bits
  signed_iff : k.signed ↔ ∃ a ∈ kinds, a.bits = k.bits ∧ a.signed

namespace Kind.ResolvesFrom

variable {kinds others : List Kind} {a b : Kind}

theorem singleton (k : Kind) : k.ResolvesFrom [k] := by
  constructor <;> simp

theorem congr (resolves : a.ResolvesFrom kinds) (same : ∀ k, k ∈ kinds ↔ k ∈ others) :
    a.ResolvesFrom others := by
  obtain ⟨attained, greatest, signed_iff⟩ := resolves
  simp only [same] at attained greatest signed_iff
  exact ⟨attained, greatest, signed_iff⟩

theorem eq_of_same (left : a.ResolvesFrom kinds) (right : b.ResolvesFrom others)
    (same : ∀ k, k ∈ kinds ↔ k ∈ others) : a = b := by
  have resolves := left.congr same
  obtain ⟨x, inX, widthX⟩ := resolves.attained
  obtain ⟨y, inY, widthY⟩ := right.attained
  have boundX := right.greatest x inX
  have boundY := resolves.greatest y inY
  have bits : a.bits = b.bits := by omega
  have signed : a.signed = b.signed := by
    rw [Bool.eq_iff_iff, resolves.signed_iff, right.signed_iff, bits]
  rcases a with ⟨v, s⟩
  rcases b with ⟨w, t⟩
  obtain rfl : v = w := Width.bits_inj bits
  obtain rfl : s = t := signed
  rfl

/-- Narrower kinds do not matter. -/
theorem append_narrower (resolves : a.ResolvesFrom kinds)
    (narrow : ∀ k ∈ others, k.bits < a.bits) : a.ResolvesFrom (kinds ++ others) := by
  obtain ⟨⟨x, inX, width⟩, greatest, signed_iff⟩ := resolves
  refine ⟨⟨x, List.mem_append_left _ inX, width⟩, ?_, ?_⟩
  · rw [List.forall_mem_append]
    exact ⟨greatest, fun k inside => Nat.le_of_lt (narrow k inside)⟩
  · rw [signed_iff]
    constructor
    · rintro ⟨y, inY, found⟩
      exact ⟨y, List.mem_append_left _ inY, found⟩
    · rintro ⟨y, inY, same, signed⟩
      rcases List.mem_append.mp inY with inside | inside
      · exact ⟨y, inside, same, signed⟩
      · have less := narrow y inside
        omega

/-- The kinds below both operands resolve to the kind of the operation. -/
theorem promote (left : a.ResolvesFrom kinds) (right : b.ResolvesFrom others) :
    (a.promote b).ResolvesFrom (kinds ++ others) := by
  rcases a.promote_cases b with ⟨less, same⟩ | ⟨less, same⟩ | ⟨equal, same⟩
  · rw [same]
    refine left.append_narrower fun k inside => ?_
    have bound := right.greatest k inside
    omega
  · have narrow : ∀ k ∈ kinds, k.bits < b.bits := by
      intro k inside
      have bound := left.greatest k inside
      omega
    rw [same]
    refine (right.append_narrower narrow).congr fun k => ?_
    rw [List.mem_append, List.mem_append, or_comm]
  · obtain ⟨x, inX, width⟩ := left.attained
    rw [same]
    refine ⟨⟨x, List.mem_append_left _ inX, width⟩, ?_, ?_⟩
    · rw [List.forall_mem_append]
      exact ⟨left.greatest, fun k inside => equal ▸ right.greatest k inside⟩
    · show (a.signed || b.signed) ↔ _
      rw [Bool.or_eq_true, left.signed_iff, right.signed_iff, ← equal]
      simp only [List.mem_append, or_and_right, exists_or]
      rfl

end Kind.ResolvesFrom

namespace Expr

def leafKinds (e : Expr) : List Kind := e.literals.map (·.kind)

theorem resolvesFrom_leafKinds (e : Expr) : e.kind.ResolvesFrom e.leafKinds := by
  induction e with
  | literal v => exact .singleton v.kind
  | binary left op right ihl ihr =>
    rw [leafKinds, literals, List.map_append]
    exact ihl.promote ihr

/-- An arithmetic instruction is at the kind of its node. -/
theorem kind_of_opcode {e : Expr} {op : ArithOp} {k : Kind}
    (arithmetic : e.instruction.opcode = .arith op k) : k = e.kind := by
  cases e with
  | literal v => cases arithmetic
  | binary left op' right =>
    cases arithmetic
    rfl

end Expr

/-- An expression that is accepted resolves to the kind of the greatest width among its literals,
signed exactly when a literal of this width is; so does the program that returns it. Expressions
whose literals are of the same kinds resolve to the same kind. Whether the call succeeds or not,
each arithmetic instruction it appends is that of a visited operation, at the kind that the literals
of this operation resolve to. -/
theorem Draft.addExpr_kind_of_leaves :
    (∀ (d : Draft) (n : Node) (k : Kind), (d.addExpr n).2 = .ok k →
      ∃ e : Expr, n = e.node ∧ k.ResolvesFrom e.leafKinds) ∧
    (∀ (t : Tree) (p : Program), t.compile = .ok p →
      ∃ (e : Expr) (k : Kind), t.Returns e ∧ p.resultKind = some k ∧
        k.ResolvesFrom e.leafKinds) ∧
    (∀ (d d' : Draft) (e f : Expr), (∀ k, k ∈ e.leafKinds ↔ k ∈ f.leafKinds) →
      ∃ k, (d.addExpr e.node).2 = .ok k ∧ (d'.addExpr f.node).2 = .ok k) ∧
    ∀ (d : Draft) (n : Node), ∃ parts : List Expr, parts.map Expr.node <+: n.visited ∧
      (d.addExpr n).1.code = d.code ++ Stream.encode (parts.map Expr.instruction) ∧
      ∀ part ∈ parts, ∀ op k, part.instruction.opcode = .arith op k →
        k.ResolvesFrom part.leafKinds := by
  have accepted : ∀ (d : Draft) (e : Expr), (d.addExpr e.node).2 = .ok e.kind := by
    intro d e
    rw [addExpr, e.lower_node]
  refine ⟨?_, ?_, ?_, ?_⟩
  · intro d n k lowered
    obtain ⟨e, rfl⟩ := Expr.exists_node_of_lower lowered
    rw [accepted] at lowered
    cases lowered
    exact ⟨e, rfl, e.resolvesFrom_leafKinds⟩
  · intro t p compiled
    obtain ⟨e, returns, rfl⟩ := Tree.compile_ok_iff.mp compiled
    exact ⟨e, e.kind, returns, rfl, e.resolvesFrom_leafKinds⟩
  · intro d d' e f same
    have kind := e.resolvesFrom_leafKinds.eq_of_same f.resolvesFrom_leafKinds same
    exact ⟨e.kind, accepted d e, by rw [accepted, kind]⟩
  · intro d n
    obtain ⟨parts, visited, emitted⟩ := n.exists_emitted
    refine ⟨parts, visited, by rw [addExpr, emitted], ?_⟩
    intro part _ op k arithmetic
    rw [Expr.kind_of_opcode arithmetic]
    exact part.resolvesFrom_leafKinds

end Wordcode
