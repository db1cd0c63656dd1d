import Wordcode.CommandLine
import Wordcode.Proofs.Evaluation
import Wordcode.Proofs.Nesting

/-!
# Stack room for trees from texts

An operand on the right of an operation needs one slot more, and also stands one level deeper in the
text. As the reader limits the levels, it limits the slots: what was read needs at most 123 of them
(`need_le_of_parse?`), and a sum bracketed to the right needs all of these.
-/

namespace Wordcode

open Json.Document (levelsOfItems)

/-! ### Levels of statements and expressions -/

namespace Node

theorem levels_ret (e : Node) : (ret e).document.levels = e.document.levels + 1 := by
  rw [document, levels_tagged rfl]
  simp [levelsOfItems]

theorem levels_binary (left : Node) (op : Operator) (right : Node) :
    (binary left op right).document.levels =
      max left.document.levels right.document.levels + 1 := by
  have text : (textDocument op.name).levels = 0 := rfl
  rw [document, levels_tagged rfl]
  simp [levelsOfItems, text]

theorem levels_compound (ns : List Node) :
    (compound ns).document.levels = levelsOfItems (documents ns) + 2 := by
  rw [document, levels_tagged rfl]
  simp [levelsOfItems, Json.Document.levels]

theorem levels_functionDecl_ge (name : String) (ps : List Parameter) (ty : Option Scalar)
    (ns : List Node) :
    levelsOfItems (documents ns) + 2 ≤ (functionDecl name ps ty ns).document.levels := by
  rw [document, levels_tagged rfl]
  simp only [levelsOfItems, Json.Document.levels]
  omega

mutual

/-- Opening blocks and functions brings statements nearer to the surface. -/
theorem levels_of_mem_flat {n : Node} : (stmt : Node) → n ∈ stmt.flat →
    n.document.levels ≤ stmt.document.levels
  | .compound statements, member => by
    have inner := levels_of_mem_flatList statements member
    rw [levels_compound]
    omega
  | .functionDecl name ps ty body, member => by
    have inner := levels_of_mem_flatList body member
    have outer := levels_functionDecl_ge name ps ty body
    omega
  | .variableDecl _ _ _, member => absurd member List.not_mem_nil
  | .literal _, member | .unary _ _, member | .binary _ _ _, member | .ret _, member => by
    rw [List.mem_singleton.mp member]

theorem levels_of_mem_flatList {n : Node} : (stmts : List Node) → n ∈ flatList stmts →
    n.document.levels ≤ levelsOfItems (documents stmts)
  | [], member => absurd member List.not_mem_nil
  | stmt :: rest, member => by
    rw [flatList, List.mem_append] at member
    rw [documents, levelsOfItems]
    rcases member with first | later
    · have inner := levels_of_mem_flat stmt first
      omega
    · have inner := levels_of_mem_flatList rest later
      omega

end

end Node

namespace Expr

theorem levels_literal (v : Value) : (literal v).node.document.levels = 2 := by
  rw [node, Node.document, Node.levels_tagged rfl, levelsOfItems, Literal.levels_document]
  rfl

theorem levels_binary (left : Expr) (op : ArithOp) (right : Expr) :
    (binary left op right).node.document.levels =
      max left.node.document.levels right.node.document.levels + 1 :=
  Node.levels_binary left.node op.operator right.node

/-- Each slot that an expression needs is a level of its text. -/
theorem need_lt_levels (e : Expr) : e.need < e.node.document.levels := by
  induction e with
  | literal v =>
    rw [levels_literal]
    exact Nat.lt_succ_self 1
  | binary left op right ihl ihr =>
    rw [levels_binary, need]
    omega

theorem integral_node (e : Expr) : e.node.integral := by
  induction e with
  | literal v => rfl
  | binary left op right ihl ihr => rw [node, Node.integral, ihl, ihr, Bool.and_self]

end Expr

/-- Around the returned expression stand the return, the list of statements and the tree. -/
theorem Tree.need_le_levels {t : Tree} {e : Expr} (returns : t.Returns e) :
    e.need + 4 ≤ t.document.levels := by
  have member : Node.ret e.node ∈ Node.flatList t.statements := by
    rw [show Node.flatList t.statements = [.ret e.node] from returns]
    exact List.mem_singleton_self _
  have statement := Node.levels_of_mem_flatList t.statements member
  have value := e.need_lt_levels
  rw [Node.levels_ret] at statement
  rw [levels_document]
  omega

/-- An expression from a text needs at most 123 slots. -/
theorem Tree.need_le_of_parse? {s : String} {t : Tree} {e : Expr} (read : parse? s = some t)
    (returns : t.Returns e) : e.need ≤ 123 := by
  have deep := need_le_levels returns
  have limited := levels_parse? read
  have limit : Node.maxLevels = 127 := rfl
  omega

/-! ### Evaluation -/

/-- With 123 slots, what comes from a text fails only by a division by zero. -/
theorem Engine.evaluate_of_parse? {s : String} {t : Tree} {p : Program} {engine : Engine}
    {err : EngineError} (read : Tree.parse? s = some t) (accepted : t.compile = .ok p)
    (room : 123 ≤ engine.config.maxStackDepth) (failed : engine.evaluate t = .error err) :
    ∃ offset, err = .fault (.divisionByZero offset) := by
  obtain ⟨e, returns⟩ := Tree.exists_returns_of_compile accepted
  have enough := Nat.le_trans (Tree.need_le_of_parse? read returns) room
  obtain ⟨f, rfl, fault⟩ := (evaluate_error_iff returns engine err).mp failed
  obtain ⟨⟨offset, rfl⟩, -⟩ := Expr.firstFault_of_room enough fault
  exact ⟨offset, rfl⟩

namespace Invocation

theorem parse?_of_readTree {i : Invocation} {read : String → Except ReadError String} {t : Tree}
    (found : i.readTree read = .ok t) : ∃ s, Tree.parse? s = some t := by
  unfold readTree at found
  split at found
  · cases found
  · next s _ =>
    split at found
    · next parsed =>
      cases found
      exact ⟨s, parsed⟩
    · cases found

theorem perform_run {i : Invocation} {read : String → Except ReadError String} {engine : Engine}
    {t : Tree} (command : i.command = .run) (made : i.engine read = .ok engine)
    (found : i.readTree read = .ok t) :
    i.perform read =
      ((engine.evaluate t).map fun v => v.text ++ "\n").mapError CommandError.engine := by
  unfold perform
  rw [made, found, command]
  change ((engine.evaluate t).mapError CommandError.engine).bind
    (fun v => .ok (v.text ++ "\n")) = _
  cases engine.evaluate t <;> rfl

end Invocation

/-! ### The bound is exact -/

namespace Expr

/-- The sum of `n + 1` copies of a value, bracketed to the right. -/
def rightSum (v : Value) : Nat → Expr
  | 0 => literal v
  | n + 1 => binary (literal v) .add (rightSum v n)

theorem need_rightSum (v : Value) (n : Nat) : (rightSum v n).need = n + 1 := by
  induction n with
  | zero => rfl
  | succ n ih =>
    rw [rightSum, need, need, ih]
    omega

theorem levels_rightSum (v : Value) (n : Nat) :
    (rightSum v n).node.document.levels = n + 2 := by
  induction n with
  | zero => exact levels_literal v
  | succ n ih =>
    rw [rightSum, levels_binary, levels_literal, ih]
    omega

theorem denote_rightSum (v : Value) (n : Nat) : (rightSum v n).denote ≠ none := by
  induction n with
  | zero => exact nofun
  | succ n ih =>
    obtain ⟨m, sum⟩ := Option.ne_none_iff_exists'.mp ih
    rw [rightSum, denote_binary rfl sum]
    exact nofun

theorem firstFault_rightSum {v : Value} {n limit : Nat} (short : limit ≤ n) :
    (rightSum v n).firstFault limit 0 0 = some (.stackOverflow limit) := by
  cases fault : (rightSum v n).firstFault limit 0 0 with
  | none =>
    have room := need_le_of_clear fault
    rw [need_rightSum] at room
    omega
  | some f =>
    rcases firstFault_cases fault with rfl | ⟨offset, rfl⟩
    · rfl
    · obtain ⟨w, member, raised⟩ := List.exists_of_findSome?_eq_some fault
      exact absurd (denote_eq_none member raised) (denote_rightSum v n)

end Expr

namespace Tree

/-- The flattest tree that returns an expression. -/
def returning (e : Expr) : Tree := ⟨[.ret e.node]⟩

theorem returns_returning (e : Expr) : (returning e).Returns e := rfl

theorem levels_returning (e : Expr) :
    (returning e).document.levels = e.node.document.levels + 3 := by
  rw [levels_document, returning, Node.documents, Node.documents, levelsOfItems, levelsOfItems,
    Node.levels_ret, Nat.max_zero]

theorem parse?_render_returning {e : Expr} (shallow : e.node.document.levels ≤ 124) :
    parse? (returning e).render = some (returning e) := by
  have all : (returning e).integral := by
    rw [returning, integral, Node.allIntegral, Node.allIntegral, Node.integral, e.integral_node,
      Bool.and_self]
  rw [parse?_render all, levels_returning]
  exact if_pos (Nat.add_le_add_right shallow 3)

end Tree

/-- What was read from a text and compiles never overflows a stack of 123 slots or more. So under
the default limit, which is 1024, a run fails after a successful compilation only by a division by
zero. The bound is exact: some text is read and overflows a stack of 122 slots. -/
theorem Engine.evaluate_never_overflows :
    (∀ (s : String) (t : Tree) (p : Program) (engine : Engine), Tree.parse? s = some t →
      t.compile = .ok p → 123 ≤ engine.config.maxStackDepth →
      ∀ n, engine.evaluate t ≠ .error (.fault (.stackOverflow n))) ∧
    (∀ (args : List String) (read : String → Except ReadError String) (i : Invocation)
      (engine : Engine) (t : Tree) (p : Program) (err : CommandError),
      Invocation.ofArgs? args = some i → i.command = .run → i.engine read = .ok engine →
      123 ≤ engine.config.maxStackDepth → i.readTree read = .ok t → t.compile = .ok p →
      Outcome.ofArgs args read = .failure err →
      ∃ offset, err = .engine (.fault (.divisionByZero offset))) ∧
    (Engine.default.config.maxStackDepth = 1024 ∧
      ∀ (i : Invocation) (read : String → Except ReadError String), i.config = none →
        i.engine read = .ok Engine.default) ∧
    ∃ (s : String) (t : Tree) (p : Program), Tree.parse? s = some t ∧ t.compile = .ok p ∧
      ∀ engine : Engine, engine.config.maxStackDepth = 122 →
        engine.evaluate t = .error (.fault (.stackOverflow 122)) := by
  refine ⟨?_, ?_, ⟨rfl, ?_⟩, ?_⟩
  · intro s t p engine read accepted room n overflow
    obtain ⟨offset, same⟩ := evaluate_of_parse? read accepted room overflow
    cases same
  · intro args read i engine t p err understood command made room found accepted failed
    obtain ⟨s, parsed⟩ := Invocation.parse?_of_readTree found
    simp only [Outcome.ofArgs, understood, Invocation.perform_run command made found] at failed
    cases evaluated : engine.evaluate t with
    | ok v =>
      rw [evaluated] at failed
      cases failed
    | error raised =>
      obtain ⟨offset, rfl⟩ := evaluate_of_parse? parsed accepted room evaluated
      rw [evaluated] at failed
      cases failed
      exact ⟨offset, rfl⟩
  · intro i read plain
    unfold Invocation.engine
    rw [plain]
    rfl
  · let one : Value := ⟨.i64, 1, by decide⟩
    let e := Expr.rightSum one 122
    have shallow : e.node.document.levels ≤ 124 := Nat.le_of_eq (Expr.levels_rightSum one 122)
    have returns := Tree.returns_returning e
    refine ⟨_, _, _, Tree.parse?_render_returning shallow, Tree.compile_of_returns returns, ?_⟩
    intro engine limit
    apply evaluate_of_fault returns
    rw [limit]
    exact Expr.firstFault_rightSum (Nat.le_refl 122)

end Wordcode
