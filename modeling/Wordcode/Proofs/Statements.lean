import Wordcode.Proofs.Encoding
import Wordcode.Proofs.Expr

/-!
# Trees and the expression they return

A tree is flattened by opening its blocks and function bodies and leaving out its declarations.
Lowering does not tell a tree from its flat form. `compile_eq_outcome` says what it makes of the
flat statements, and `compile_ok_iff` which trees it accepts: those whose flat form is a single
return of an expression.
-/

namespace Wordcode

namespace Node

mutual

/-- The statements a statement stands for: blocks and function bodies are opened in place, and
declarations are left out. -/
def flat : Node → List Node
  | compound statements => flatList statements
  | functionDecl _ _ _ body => flatList body
  | variableDecl _ _ _ => []
  | node => [node]

def flatList : List Node → List Node
  | [] => []
  | stmt :: rest => stmt.flat ++ flatList rest

end

/-- The nodes that flattening leaves alone. -/
def isFlat : Node → Bool
  | literal _ | unary _ _ | binary _ _ _ | ret _ => true
  | compound _ | variableDecl _ _ _ | functionDecl _ _ _ _ => false

mutual

theorem isFlat_of_mem_flat {n : Node} : (stmt : Node) → n ∈ stmt.flat → n.isFlat
  | .compound statements, member => isFlat_of_mem_flatList statements member
  | .functionDecl _ _ _ body, member => isFlat_of_mem_flatList body member
  | .variableDecl _ _ _, member => absurd member List.not_mem_nil
  | .literal _, member | .unary _ _, member | .binary _ _ _, member | .ret _, member => by
    rw [List.mem_singleton.mp member]
    rfl

theorem isFlat_of_mem_flatList {n : Node} : (stmts : List Node) → n ∈ flatList stmts → n.isFlat
  | [], member => absurd member List.not_mem_nil
  | stmt :: rest, member => by
    rw [flatList, List.mem_append] at member
    rcases member with first | later
    · exact isFlat_of_mem_flat stmt first
    · exact isFlat_of_mem_flatList rest later

end

end Node

namespace Draft

theorem addBlock_append (d : Draft) (first second : List Node) :
    d.addBlock (first ++ second) =
      match d.addBlock first with
      | (next, .ok ()) => next.addBlock second
      | (next, .error e) => (next, .error e) := by
  induction first generalizing d with
  | nil => rw [List.nil_append, addBlock]
  | cons stmt rest ih =>
    rw [List.cons_append, addBlock, addBlock]
    rcases d.addStmt stmt with ⟨next, e | _⟩
    · rfl
    · exact ih next

theorem addBlock_singleton (d : Draft) (stmt : Node) : d.addBlock [stmt] = d.addStmt stmt := by
  rw [addBlock]
  rcases d.addStmt stmt with ⟨next, e | _⟩ <;> rfl

mutual

/-- A statement has the effect of its flat statements. -/
theorem addStmt_eq_flat (d : Draft) : (stmt : Node) → d.addStmt stmt = d.addBlock stmt.flat
  | .compound statements => by rw [addStmt, Node.flat, addBlock_eq_flat]
  | .functionDecl _ _ _ body => by rw [addStmt, Node.flat, addBlock_eq_flat]
  | .variableDecl _ _ _ => by rw [addStmt, Node.flat, addBlock]
  | .literal _ | .unary _ _ | .binary _ _ _ | .ret _ => (d.addBlock_singleton _).symm

theorem addBlock_eq_flat (d : Draft) :
    (stmts : List Node) → d.addBlock stmts = d.addBlock (Node.flatList stmts)
  | [] => by rw [Node.flatList]
  | stmt :: rest => by
    rw [addBlock, Node.flatList, addBlock_append, addStmt_eq_flat d stmt]
    rcases d.addBlock stmt.flat with ⟨next, e | _⟩
    · rfl
    · exact addBlock_eq_flat next rest

end

/-- After a return every statement is refused, unless flattening leaves nothing of it. -/
theorem addStmt_of_returned {d : Draft} {stmt : Node} (returned : d.resultKind.isSome)
    (plain : stmt.isFlat) : ∃ e, d.addStmt stmt = (d, .error e) := by
  obtain ⟨k, known⟩ := Option.isSome_iff_exists.mp returned
  cases stmt with
  | literal | unary | binary => exact ⟨.expressionStatement, by rw [addStmt]⟩
  | ret value => exact ⟨.codeAfterReturn, by rw [addStmt, addReturn, known]⟩
  | compound | variableDecl | functionDecl => cases plain

theorem addBlock_of_returned {d : Draft} (returned : d.resultKind.isSome) (stmts : List Node) :
    (d.addBlock stmts).1 = d := by
  rw [addBlock_eq_flat]
  cases left : Node.flatList stmts with
  | nil => rw [addBlock]
  | cons stmt rest =>
    have plain := Node.isFlat_of_mem_flatList stmts (left ▸ List.mem_cons_self)
    obtain ⟨e, refused⟩ := addStmt_of_returned returned plain
    rw [addBlock, refused]

theorem addReturn_node {d : Draft} (unreturned : d.resultKind = none) (e : Expr) :
    d.addReturn e.node = (⟨d.code ++ Stream.encode (e.code ++ [.ret]), some e.kind⟩, .ok ()) := by
  rw [addReturn, unreturned]
  dsimp only [addExpr]
  rw [e.lower_node]
  simp [emit]

end Draft

def Expr.program (e : Expr) : Program := ⟨Stream.encode (e.code ++ [.ret]), some e.kind⟩

namespace Tree

def flat (t : Tree) : List Node := Node.flatList t.statements

/-- Apart from blocks, functions and declarations, the tree is a single return of an expression. -/
def Returns (t : Tree) (e : Expr) : Prop := t.flat = [.ret e.node]

theorem returns_ofExpr (e : Expr) : (ofExpr e.node).Returns e := rfl

/-- What becomes of flat statements: the first of them decides, and nothing may follow a return. -/
def outcome : List Node → Except LoweringError Program
  | [] => .error .missingReturn
  | .ret value :: rest =>
    match value.lower.outcome, rest with
    | .error e, _ => .error e
    | .ok k, [] => .ok ⟨Stream.encode (value.lower.emitted ++ [.ret]), some k⟩
    | .ok _, .ret _ :: _ => .error .codeAfterReturn
    | .ok _, _ :: _ => .error .expressionStatement
  | _ :: _ => .error .expressionStatement

theorem isFlat_of_mem_flat {t : Tree} {stmt : Node} (member : stmt ∈ t.flat) : stmt.isFlat :=
  Node.isFlat_of_mem_flatList t.statements member

theorem compile_eq_outcome (t : Tree) : t.compile = outcome t.flat := by
  have plain : ∀ stmt ∈ t.flat, stmt.isFlat := fun _ => isFlat_of_mem_flat
  rw [compile, Draft.addBlock_eq_flat, ← flat]
  generalize t.flat = stmts at plain ⊢
  rcases stmts with _ | ⟨stmt, rest⟩
  · rfl
  rw [Draft.addBlock]
  cases stmt with
  | literal | unary | binary => rfl
  | compound | variableDecl | functionDecl => cases plain _ List.mem_cons_self
  | ret value =>
    rw [Draft.addStmt]
    cases lowered : value.lower.outcome with
    | error e => simp only [Draft.addReturn, Draft.addExpr, Draft.empty, outcome, lowered]
    | ok k =>
      have added : Draft.empty.addReturn value =
          (⟨Stream.encode (value.lower.emitted ++ [.ret]), some k⟩, .ok ()) := by
        simp [Draft.addReturn, Draft.addExpr, Draft.empty, Draft.emit, lowered]
      rw [added]
      rcases rest with _ | ⟨next, others⟩
      · simp only [outcome, lowered]
        rfl
      -- Whatever follows the return is refused.
      · have second := plain next (by simp)
        cases next with
        | literal | unary | binary | ret =>
          simp only [outcome, lowered]
          rfl
        | compound | variableDecl | functionDecl => cases second

theorem compile_of_returns {t : Tree} {e : Expr} (returns : t.Returns e) :
    t.compile = .ok e.program := by
  rw [compile_eq_outcome, show t.flat = [.ret e.node] from returns]
  simp only [outcome, e.lower_node]
  rfl

theorem exists_returns_of_compile {t : Tree} {p : Program} (accepted : t.compile = .ok p) :
    ∃ e : Expr, t.Returns e := by
  rw [compile_eq_outcome] at accepted
  unfold outcome at accepted
  split at accepted
  · cases accepted
  · next value rest stmts =>
    split at accepted
    · cases accepted
    · next k lowered =>
      obtain ⟨e, rfl⟩ := Expr.exists_node_of_lower lowered
      exact ⟨e, stmts⟩
    · cases accepted
    · cases accepted
  · cases accepted

/-- The trees that are accepted are those that return an expression. -/
theorem compile_ok_iff {t : Tree} {p : Program} :
    t.compile = .ok p ↔ ∃ e : Expr, t.Returns e ∧ p = e.program := by
  constructor
  · intro accepted
    obtain ⟨e, returns⟩ := exists_returns_of_compile accepted
    rw [compile_of_returns returns] at accepted
    exact ⟨e, returns, (Except.ok.inj accepted).symm⟩
  · rintro ⟨e, returns, rfl⟩
    exact compile_of_returns returns

end Tree

end Wordcode
