import Wordcode.Proofs.Compilation
import Wordcode.Proofs.Visits

/-!
# Evaluation of expressions

The code of an expression, wherever it stands and whatever lies on the stack below, either raises
the first fault of the expression or leaves the word of the integer it denotes (`exec_code`). From
this follow the value and the exact fault of every tree that returns an expression.
-/

namespace Wordcode

namespace Machine

theorem step_literal (limit offset : Nat) (stack : Stack) (v : Value) :
    step limit stack ⟨offset, (Expr.literal v).instruction⟩ =
      push limit stack (UInt64.ofInt v.number) := by
  have word : v.kind.normalize (UInt64.ofNat (Expr.literal v).immediate) =
      UInt64.ofInt v.number := by
    rw [Kind.normalize_eq_ofInt, Expr.integer_immediate]
  exact congrArg (push limit stack) word

theorem push_of_lt {limit : Nat} {stack : Stack} (room : stack.length < limit) (w : Word) :
    push limit stack w = .ok (w :: stack) := if_pos room

/-- An operation on the words of its operands leaves the word of what it denotes. -/
theorem step_binary {left right : Expr} {a b : Int} {limit : Nat} {below : Stack}
    (first : left.denote = some a) (second : right.denote = some b)
    (room : below.length < limit) (op : ArithOp) (offset : Nat) :
    step limit (UInt64.ofInt b :: UInt64.ofInt a :: below)
        ⟨offset, .arith op (left.kind.promote right.kind)⟩ =
      match (Expr.binary left op right).denote with
      | some n => .ok (UInt64.ofInt n :: below)
      | none => .error (.divisionByZero offset) := by
  have applied :=
    op.apply_eq_result (left.kind.promote right.kind) (UInt64.ofInt a) (UInt64.ofInt b)
  rw [Kind.integer_ofInt, Kind.integer_ofInt] at applied
  rw [Expr.denote_binary first second]
  simp only [step, Record.opcode, Instruction.arith, applied]
  cases op.result? _ _ with
  | none => rfl
  | some n => exact push_of_lt room _

theorem exec_code_binary (limit offset : Nat) (stack : Stack) (left : Expr) (op : ArithOp)
    (right : Expr) :
    exec limit stack (Stream.layout offset (Expr.binary left op right).code) =
      ((exec limit stack (Stream.layout offset left.code)).bind
        (exec limit · (Stream.layout (offset + left.size) right.code))).bind
        (step limit ·
          ⟨offset + left.size + right.size, .arith op (left.kind.promote right.kind)⟩) := by
  rw [Expr.code_binary, Stream.layout_append, Stream.layout_append, exec_append, exec_append,
    Stream.encode_append, List.length_append, ← Nat.add_assoc]
  simp only [Stream.layout, exec_singleton]
  rfl

/-- The code of an expression raises its first fault. Without one it finds a free slot, and leaves
the word of what the expression denotes. -/
theorem exec_code (e : Expr) (limit offset : Nat) (stack : Stack) :
    (∀ f, e.firstFault limit offset stack.length = some f →
      exec limit stack (Stream.layout offset e.code) = .error f) ∧
    (e.firstFault limit offset stack.length = none → stack.length < limit ∧
      ∃ n, e.denote = some n ∧
        exec limit stack (Stream.layout offset e.code) = .ok (UInt64.ofInt n :: stack)) := by
  induction e generalizing offset stack with
  | literal v =>
    rw [Expr.code_literal, Stream.layout, Stream.layout, exec_singleton, step_literal,
      Expr.firstFault_literal]
    by_cases room : stack.length < limit
    · rw [if_pos room, push_of_lt room]
      refine ⟨?_, fun _ => ⟨room, v.number, rfl, rfl⟩⟩
      intro f fault
      cases fault
    · rw [if_neg room, push, if_neg room]
      refine ⟨fun f same => congrArg _ (Option.some.inj same), ?_⟩
      intro clear
      cases clear
  | binary left op right ihl ihr =>
    obtain ⟨faultl, clearl⟩ := ihl offset stack
    -- The right operand runs above the word that the left one leaves.
    have second : ∀ a, _ := fun a => ihr (offset + left.size) (UInt64.ofInt a :: stack)
    have operands : (left.firstFault limit offset stack.length).or
        (right.firstFault limit (offset + left.size) (stack.length + 1)) = none →
        stack.length < limit ∧ ∃ a b, left.denote = some a ∧ right.denote = some b ∧
          (exec limit stack (Stream.layout offset left.code)).bind
              (exec limit · (Stream.layout (offset + left.size) right.code)) =
            .ok (UInt64.ofInt b :: UInt64.ofInt a :: stack) := by
      intro clear
      obtain ⟨first, last⟩ := Option.or_eq_none_iff.mp clear
      obtain ⟨room, a, dividend, ran⟩ := clearl first
      obtain ⟨_, b, divisor, ran'⟩ := (second a).2 last
      rw [ran]
      exact ⟨room, a, b, dividend, divisor, ran'⟩
    rw [Expr.firstFault_binary, exec_code_binary]
    constructor
    · intro f fault
      rw [Option.or_eq_some_iff, Option.or_eq_some_iff] at fault
      rcases fault with (inLeft | ⟨clear, inRight⟩) | ⟨clear, here⟩
      · rw [faultl f inLeft]
        rfl
      · obtain ⟨_, a, _, ran⟩ := clearl clear
        rw [ran]
        exact congrArg (Except.bind · _) ((second a).1 f inRight)
      · obtain ⟨room, a, b, dividend, divisor, ran⟩ := operands clear
        rw [Expr.fault?_binary dividend divisor] at here
        split at here
        · next undefined =>
          cases here
          rw [ran]
          refine (step_binary dividend divisor room op _).trans ?_
          rw [undefined]
        · cases here
    · intro clear
      obtain ⟨clear, here⟩ := Option.or_eq_none_iff.mp clear
      obtain ⟨room, a, b, dividend, divisor, ran⟩ := operands clear
      rw [Expr.fault?_binary dividend divisor] at here
      split at here
      · cases here
      · next defined =>
        obtain ⟨n, denoted⟩ := Option.ne_none_iff_exists'.mp defined
        refine ⟨room, n, denoted, ?_⟩
        rw [ran]
        refine (step_binary dividend divisor room op _).trans ?_
        rw [denoted]

theorem run_program (e : Expr) (limit : Nat) :
    (∀ f, e.firstFault limit 0 0 = some f → run limit e.program.code = .error f) ∧
    (e.firstFault limit 0 0 = none →
      ∃ n, e.denote = some n ∧ run limit e.program.code = .ok (UInt64.ofInt n)) := by
  obtain ⟨faulty, clear⟩ := exec_code e limit 0 []
  rw [Expr.program, run_encode, Stream.layout_append, exec_append]
  constructor
  · intro f fault
    rw [faulty f fault]
    rfl
  · intro none
    obtain ⟨_, n, denoted, ran⟩ := clear none
    rw [ran]
    exact ⟨n, denoted, rfl⟩

end Machine

namespace Expr

/-- With room for what the expression needs, the only fault left is a division by zero. -/
theorem firstFault_of_room {e : Expr} {limit : Nat} {f : Fault} (room : e.need ≤ limit)
    (fault : e.firstFault limit 0 0 = some f) :
    (∃ offset, f = .divisionByZero offset) ∧ e.denote = none := by
  obtain ⟨v, member, raised⟩ := List.exists_of_findSome?_eq_some fault
  rcases Visit.fault?_cases raised with rfl | rfl
  · have unfilled := (e.need_le_iff limit 0 0).mp (by omega) v member
    exact absurd raised unfilled
  · exact ⟨⟨v.offset, rfl⟩, denote_eq_none member raised⟩

theorem need_le_of_clear {e : Expr} {limit : Nat} (clear : e.firstFault limit 0 0 = none) :
    e.need ≤ limit := by
  have unfilled : ∀ v ∈ visitsFrom 0 0 e.postorder,
      v.fault? limit ≠ some (.stackOverflow limit) := by
    intro v member overflow
    rw [List.findSome?_eq_none_iff.mp clear v member] at overflow
    cases overflow
  have room := (e.need_le_iff limit 0 0).mpr unfilled
  omega

theorem firstFault_cases {e : Expr} {limit : Nat} {f : Fault}
    (fault : e.firstFault limit 0 0 = some f) :
    f = .stackOverflow limit ∨ ∃ offset, f = .divisionByZero offset := by
  obtain ⟨v, _, raised⟩ := List.exists_of_findSome?_eq_some fault
  rcases Visit.fault?_cases raised with overflow | division
  · exact .inl overflow
  · exact .inr ⟨v.offset, division⟩

end Expr

namespace Engine

theorem evaluate_of_fault {t : Tree} {e : Expr} {f : Fault} {engine : Engine}
    (returns : t.Returns e) (fault : e.firstFault engine.config.maxStackDepth 0 0 = some f) :
    engine.evaluate t = .error (.fault f) := by
  rw [evaluate_of_returns returns, (Machine.run_program e _).1 f fault]
  rfl

theorem evaluate_of_clear {t : Tree} {e : Expr} {engine : Engine} (returns : t.Returns e)
    (clear : e.firstFault engine.config.maxStackDepth 0 0 = none) :
    ∃ v, engine.evaluate t = .ok v ∧ v.kind = e.kind ∧ e.denote = some v.number := by
  obtain ⟨n, denoted, ran⟩ := (Machine.run_program e _).2 clear
  refine ⟨.ofWord e.kind (UInt64.ofInt n), ?_, rfl, ?_⟩
  · rw [evaluate_of_returns returns, ran]
    rfl
  · rw [Value.number_ofWord, Kind.integer_ofInt_of_inRange (Expr.inRange_denote denoted), denoted]

/-- Under any limit, a value that is returned is what the expression denotes. -/
theorem denote_of_evaluate {t : Tree} {e : Expr} {engine : Engine} {v : Value}
    (returns : t.Returns e) (evaluated : engine.evaluate t = .ok v) :
    v.kind = e.kind ∧ e.denote = some v.number := by
  cases fault : e.firstFault engine.config.maxStackDepth 0 0 with
  | none =>
    obtain ⟨u, found, same⟩ := evaluate_of_clear returns fault
    rw [evaluated] at found
    cases found
    exact same
  | some f =>
    rw [evaluate_of_fault returns fault] at evaluated
    cases evaluated

theorem evaluate_ok_iff {t : Tree} {e : Expr} {engine : Engine} {v : Value} (returns : t.Returns e)
    (room : e.need ≤ engine.config.maxStackDepth) :
    engine.evaluate t = .ok v ↔ v.kind = e.kind ∧ e.denote = some v.number := by
  constructor
  · exact denote_of_evaluate returns
  · rintro ⟨kind, denoted⟩
    cases fault : e.firstFault engine.config.maxStackDepth 0 0 with
    | none =>
      obtain ⟨u, found, kind', denoted'⟩ := evaluate_of_clear returns fault
      have same : u = v :=
        Value.ext (kind'.trans kind.symm) (Option.some.inj (denoted'.symm.trans denoted))
      rw [found, same]
    | some f =>
      rw [(Expr.firstFault_of_room room fault).2] at denoted
      cases denoted

theorem evaluate_division_iff {t : Tree} {e : Expr} {engine : Engine} (returns : t.Returns e)
    (room : e.need ≤ engine.config.maxStackDepth) :
    (∃ offset, engine.evaluate t = .error (.fault (.divisionByZero offset))) ↔
      e.denote = none := by
  cases fault : e.firstFault engine.config.maxStackDepth 0 0 with
  | none =>
    obtain ⟨v, found, -, denoted⟩ := evaluate_of_clear returns fault
    simp [found, denoted]
  | some f =>
    obtain ⟨⟨offset, rfl⟩, undefined⟩ := Expr.firstFault_of_room room fault
    simp [evaluate_of_fault returns fault, undefined]

/-- With enough stack a tree evaluates to what its expression denotes, at the expression's kind, and
fails with a division by zero where the expression denotes nothing. -/
theorem evaluate_eq_denote {t : Tree} {e : Expr} (returns : t.Returns e) (engine : Engine)
    (room : e.need ≤ engine.config.maxStackDepth) :
    (∀ n, e.denote = some n → ∃ v, engine.evaluate t = .ok v ∧ v.kind = e.kind ∧ v.number = n) ∧
    (e.denote = none → ∃ offset, engine.evaluate t = .error (.fault (.divisionByZero offset))) := by
  constructor
  · intro n denoted
    have clear : e.firstFault engine.config.maxStackDepth 0 0 = none := by
      rw [Option.eq_none_iff_forall_ne_some]
      intro f fault
      rw [(Expr.firstFault_of_room room fault).2] at denoted
      cases denoted
    obtain ⟨v, evaluated, kind, number⟩ := evaluate_of_clear returns clear
    exact ⟨v, evaluated, kind, Option.some.inj (number.symm.trans denoted)⟩
  · intro undefined
    cases fault : e.firstFault engine.config.maxStackDepth 0 0 with
    | none =>
      obtain ⟨v, _, _, number⟩ := evaluate_of_clear returns fault
      rw [undefined] at number
      cases number
    | some f =>
      obtain ⟨⟨offset, rfl⟩, _⟩ := Expr.firstFault_of_room room fault
      exact ⟨offset, evaluate_of_fault returns fault⟩

/-- The least 8-bit integer divided by minus one, under a stack of just two slots. -/
theorem evaluate_eq_denote_least :
    ∃ v, Engine.evaluate ⟨⟨2, false⟩, by decide⟩
        (.ofExpr (Expr.binary (.literal ⟨⟨.w8, true⟩, -128, by decide⟩) .div
          (.literal ⟨⟨.w8, true⟩, -1, by decide⟩)).node) = .ok v ∧
      v.kind = ⟨.w8, true⟩ ∧ v.number = -128 :=
  (evaluate_eq_denote (Tree.returns_ofExpr _) _ (by decide)).1 (-128) (by decide)

theorem evaluate_error_iff {t : Tree} {e : Expr} (returns : t.Returns e) (engine : Engine)
    (err : EngineError) :
    engine.evaluate t = .error err ↔
      ∃ f, err = .fault f ∧ e.firstFault engine.config.maxStackDepth 0 0 = some f := by
  cases fault : e.firstFault engine.config.maxStackDepth 0 0 with
  | none =>
    obtain ⟨v, evaluated, _⟩ := evaluate_of_clear returns fault
    simp [evaluated]
  | some f =>
    rw [evaluate_of_fault returns fault]
    constructor
    · intro same
      exact ⟨f, (Except.error.inj same).symm, rfl⟩
    · rintro ⟨g, rfl, same⟩
      rw [Option.some.inj same]

/-- The nodes of an accepted tree's expression are visited in post-order, each at the offset of its
record. Evaluation fails exactly when some visit has a fault, with the fault of the first such
visit. So the stack never overflows when there is room for what the expression needs, no value is
returned when there is not, and under no limit does the program fault in any other way. -/
theorem evaluate_first_fault {t : Tree} {p : Program} (accepted : t.compile = .ok p)
    (engine : Engine) :
    ∃ e : Expr, t.Returns e ∧
      (Stream.decode p.code).records = e.visits.map (·.record) ++ [⟨e.size, .ret⟩] ∧
      ((∃ err, engine.evaluate t = .error err) ↔
        ∃ v ∈ e.visits, (v.fault? engine.config.maxStackDepth).isSome) ∧
      (∀ err, engine.evaluate t = .error err ↔
        ∃ f, err = .fault f ∧ ∃ before v after, e.visits = before ++ v :: after ∧
          v.fault? engine.config.maxStackDepth = some f ∧
          ∀ earlier ∈ before, earlier.fault? engine.config.maxStackDepth = none) ∧
      (e.need ≤ engine.config.maxStackDepth →
        ∀ n, engine.evaluate t ≠ .error (.fault (.stackOverflow n))) ∧
      (engine.config.maxStackDepth < e.need → ∀ v, engine.evaluate t ≠ .ok v) ∧
      ∀ limit f, Machine.run limit p.code = .error f →
        f = .stackOverflow limit ∨ ∃ offset, f = .divisionByZero offset := by
  obtain ⟨e, returns, rfl⟩ := Tree.compile_ok_iff.mp accepted
  refine ⟨e, returns, ?_, ?_, ?_, ?_, ?_, ?_⟩
  · rw [e.decode_program, Expr.visits, Expr.map_record_visitsFrom, Stream.layout_append,
      Nat.zero_add]
    rfl
  · constructor
    · rintro ⟨err, failed⟩
      obtain ⟨f, _, fault⟩ := (evaluate_error_iff returns engine err).mp failed
      exact List.findSome?_isSome_iff.mp (Option.isSome_of_eq_some fault)
    · intro faulty
      obtain ⟨f, fault⟩ := Option.isSome_iff_exists.mp (List.findSome?_isSome_iff.mpr faulty)
      exact ⟨.fault f, evaluate_of_fault returns fault⟩
  · intro err
    rw [evaluate_error_iff returns]
    simp only [Expr.firstFault, List.findSome?_eq_some_iff, Expr.visits]
  · intro room n failed
    obtain ⟨f, same, fault⟩ := (evaluate_error_iff returns engine _).mp failed
    obtain ⟨⟨offset, rfl⟩, _⟩ := Expr.firstFault_of_room room fault
    cases same
  · intro short v evaluated
    cases fault : e.firstFault engine.config.maxStackDepth 0 0 with
    | some f =>
      rw [evaluate_of_fault returns fault] at evaluated
      cases evaluated
    | none =>
      have room := Expr.need_le_of_clear fault
      omega
  · intro limit f failed
    cases fault : e.firstFault limit 0 0 with
    | none =>
      obtain ⟨n, _, ran⟩ := (Machine.run_program e limit).2 fault
      rw [ran] at failed
      cases failed
    | some g =>
      rw [(Machine.run_program e limit).1 g fault] at failed
      cases failed
      exact Expr.firstFault_cases fault

/-- In `1 / 0 + (2 + 3)` under two slots the division is reached before the stack overflows. -/
theorem evaluate_first_fault_division :
    let byte := fun (n : Int) (inRange : Kind.InRange ⟨.w8, false⟩ n) =>
      Expr.literal ⟨⟨.w8, false⟩, n, inRange⟩
    let t := Tree.ofExpr (Expr.binary (.binary (byte 1 (by decide)) .div (byte 0 (by decide))) .add
      (.binary (byte 2 (by decide)) .add (byte 3 (by decide)))).node
    ∃ e : Expr, t.Returns e ∧ ∃ before v after, e.visits = before ++ v :: after ∧
      v.fault? 2 = some (.divisionByZero 4) ∧ ∀ earlier ∈ before, earlier.fault? 2 = none := by
  intro byte t
  let engine : Engine := ⟨⟨2, true⟩, by decide⟩
  have failed : engine.evaluate t = .error (.fault (.divisionByZero 4)) :=
    evaluate_of_fault (Tree.returns_ofExpr _) (by decide)
  obtain ⟨e, returns, _, _, first, _⟩ :=
    evaluate_first_fault (Tree.compile_of_returns (Tree.returns_ofExpr _)) engine
  obtain ⟨f, same, found⟩ := (first _).mp failed
  cases same
  exact ⟨e, returns, found⟩

end Engine

end Wordcode
