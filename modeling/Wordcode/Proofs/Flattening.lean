import Wordcode.Proofs.Statements

/-!
# What lowering looks at

A tree is lowered as its flat statements are, so blocks and functions are only a way to write them
down. What declarations say beside their statements is erased by `Node.bare`; trees with the same
bare form are lowered alike (`compile_bare`).
-/

namespace Wordcode

namespace Node

mutual

/-- The node without names, parameters, types and initialisers. -/
def bare : Node → Node
  | literal v => literal v
  | unary op operand => unary op operand.bare
  | binary left op right => binary left.bare op right.bare
  | compound statements => compound (bareList statements)
  | variableDecl _ _ _ => variableDecl "" none none
  | functionDecl _ _ _ body => functionDecl "" [] none (bareList body)
  | ret value => ret value.bare

def bareList : List Node → List Node
  | [] => []
  | node :: rest => node.bare :: bareList rest

end

theorem lower_bare : (n : Node) → n.bare.lower = n.lower
  | .binary left op right => by
    rw [bare, lower_binary, lower_binary, lower_bare left, lower_bare right]
  | .literal _ | .unary _ _ | .compound _ | .variableDecl _ _ _ | .functionDecl _ _ _ _ | .ret _ =>
    rfl

mutual

theorem flat_bare : (stmt : Node) → stmt.bare.flat = stmt.flat.map bare
  | .compound statements => by rw [bare, flat, flat, flatList_bareList]
  | .functionDecl _ _ _ body => by rw [bare, flat, flat, flatList_bareList]
  | .variableDecl _ _ _ => rfl
  | .literal _ | .unary _ _ | .binary _ _ _ | .ret _ => rfl

theorem flatList_bareList :
    (stmts : List Node) → flatList (bareList stmts) = (flatList stmts).map bare
  | [] => rfl
  | stmt :: rest => by
    rw [bareList, flatList, flatList, List.map_append, flat_bare stmt, flatList_bareList rest]

end

theorem flatList_of_isFlat {stmts : List Node} (plain : ∀ stmt ∈ stmts, stmt.isFlat) :
    flatList stmts = stmts := by
  induction stmts with
  | nil => rfl
  | cons stmt rest ih =>
    obtain ⟨first, others⟩ := List.forall_mem_cons.mp plain
    have alone : stmt.flat = [stmt] := by
      cases stmt with
      | literal | unary | binary | ret => rfl
      | compound | variableDecl | functionDecl => cases first
    rw [flatList, alone, ih others, List.singleton_append]

end Node

namespace Tree

theorem flat_flat (t : Tree) : flat ⟨t.flat⟩ = t.flat :=
  Node.flatList_of_isFlat fun _ => isFlat_of_mem_flat

theorem outcome_map_bare (stmts : List Node) : outcome (stmts.map Node.bare) = outcome stmts := by
  rcases stmts with _ | ⟨stmt, rest⟩
  · rfl
  cases stmt with
  | literal | unary | binary | compound | variableDecl | functionDecl => rfl
  | ret value =>
    have same := value.lower_bare
    cases lowered : value.lower.outcome with
    | error e => simp only [List.map_cons, Node.bare, outcome, same, lowered]
    | ok k =>
      rcases rest with _ | ⟨next, others⟩
      · simp only [List.map_cons, List.map_nil, Node.bare, outcome, same, lowered]
      · cases next <;> simp only [List.map_cons, Node.bare, outcome, same, lowered]

/-- Trees are lowered alike when they differ in names, parameters, types and initialisers only. -/
theorem compile_bare {t u : Tree}
    (alike : Node.bareList t.statements = Node.bareList u.statements) : t.compile = u.compile := by
  have erased : ∀ v : Tree, v.compile = outcome (Node.flatList (Node.bareList v.statements)) := by
    intro v
    rw [compile_eq_outcome, Node.flatList_bareList, outcome_map_bare]
    rfl
  rw [erased, erased, alike]

/-- A tree is lowered as its flat statements are, to the same program or the same error, and what
its declarations say beside them makes no difference. Only expressions and returns are left among
the flat statements, and `outcome` says what becomes of them. -/
theorem compile_eq_compile_flat (t : Tree) :
    t.compile = compile ⟨t.flat⟩ ∧
    (∀ stmt ∈ t.flat, stmt.isFlat) ∧
    t.compile = outcome t.flat ∧
    ∀ u : Tree, Node.bareList t.statements = Node.bareList u.statements →
      t.compile = u.compile := by
  refine ⟨?_, fun _ => isFlat_of_mem_flat, t.compile_eq_outcome, fun _ => compile_bare⟩
  rw [compile_eq_outcome, compile_eq_outcome, flat_flat]

end Tree

end Wordcode
