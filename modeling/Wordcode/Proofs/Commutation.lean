import Wordcode.Proofs.Evaluation

/-!
# Operands of sums and products

The operands of sums and products may be exchanged anywhere in an expression. This moves records,
changes what the stack holds when an operation is reached, and may change which division by zero
comes first, but neither the kind of the expression nor what it denotes (`Exchanged.denote_eq`).
-/

namespace Wordcode

namespace ArithOp

/-- The operations that do not tell their operands apart. -/
def commutes : ArithOp → Bool
  | add | mul => true
  | sub | div => false

theorem result?_comm {op : ArithOp} (commutes : op.commutes) (a b : Int) :
    op.result? a b = op.result? b a := by
  cases op with
  | add => simp only [result?, Int.add_comm]
  | mul => simp only [result?, Int.mul_comm]
  | sub | div => cases commutes

end ArithOp

theorem Kind.promote_comm (a b : Kind) : a.promote b = b.promote a := by
  rcases a with ⟨v, s⟩
  rcases b with ⟨w, t⟩
  cases v <;> cases w <;> simp [promote, Width.bytes, Bool.or_comm]

namespace Expr

/-- The operands of any number of sums and products are exchanged, and all else is kept. -/
inductive Exchanged : Expr → Expr → Prop where
  | literal (v : Value) : Exchanged (.literal v) (.literal v)
  | keep {left left' right right' : Expr} (op : ArithOp) : Exchanged left left' →
      Exchanged right right' → Exchanged (.binary left op right) (.binary left' op right')
  | exchange {left left' right right' : Expr} {op : ArithOp} : op.commutes →
      Exchanged left left' → Exchanged right right' →
      Exchanged (.binary left op right) (.binary right' op left')

theorem denote_binary_comm {op : ArithOp} (commutes : op.commutes) (left right : Expr) :
    (binary left op right).denote = (binary right op left).denote := by
  simp only [denote, left.kind.promote_comm right.kind]
  cases left.denote with
  | none => cases right.denote <;> rfl
  | some a =>
    cases right.denote with
    | none => rfl
    | some b => simp [ArithOp.result?_comm commutes]

namespace Exchanged

theorem kind_eq {e e' : Expr} (exchanged : Exchanged e e') : e.kind = e'.kind := by
  induction exchanged with
  | literal v => rfl
  | keep op _ _ ihl ihr => rw [kind, kind, ihl, ihr]
  | exchange _ _ _ ihl ihr => rw [kind, kind, ihl, ihr, Kind.promote_comm]

-- An operation is resolved from the kinds of its operands, so that these are needed as well.
theorem denote_eq {e e' : Expr} (exchanged : Exchanged e e') : e.denote = e'.denote := by
  induction exchanged with
  | literal v => rfl
  | keep op left right ihl ihr => simp only [denote, ihl, ihr, left.kind_eq, right.kind_eq]
  | exchange commutes left right ihl ihr =>
    rw [denote_binary_comm commutes]
    simp only [denote, ihl, ihr, left.kind_eq, right.kind_eq]

end Exchanged

end Expr

namespace Engine

/-- Expressions of the same kind that denote the same are not told apart by evaluation. -/
theorem evaluate_congr {t t' : Tree} {e e' : Expr} {engine : Engine} (returns : t.Returns e)
    (returns' : t'.Returns e') (room : e.need ≤ engine.config.maxStackDepth)
    (room' : e'.need ≤ engine.config.maxStackDepth) (kind : e.kind = e'.kind)
    (same : e.denote = e'.denote) :
    (∃ v, engine.evaluate t = .ok v ∧ engine.evaluate t' = .ok v) ∨
    ∃ offset offset', engine.evaluate t = .error (.fault (.divisionByZero offset)) ∧
      engine.evaluate t' = .error (.fault (.divisionByZero offset')) := by
  cases meaning : e.denote with
  | none =>
    obtain ⟨offset, failed⟩ := (evaluate_division_iff returns room).mpr meaning
    obtain ⟨offset', failed'⟩ := (evaluate_division_iff returns' room').mpr (same ▸ meaning)
    exact .inr ⟨offset, offset', failed, failed'⟩
  | some n =>
    let v : Value := ⟨e.kind, n, Expr.inRange_denote meaning⟩
    refine .inl ⟨v, ?_, ?_⟩
    · exact (evaluate_ok_iff returns room).mpr ⟨rfl, meaning⟩
    · exact (evaluate_ok_iff returns' room').mpr ⟨kind, same ▸ meaning⟩

/-- Exchanging the operands of any sums and products of an expression keeps the kind that it is
resolved to. Where both forms have the stack they need, they evaluate to the same value or both
divide by zero. -/
theorem evaluate_exchanged {t t' : Tree} {e e' : Expr} (returns : t.Returns e)
    (returns' : t'.Returns e') (exchanged : Expr.Exchanged e e') :
    (∃ p p' k, t.compile = .ok p ∧ t'.compile = .ok p' ∧
      p.resultKind = some k ∧ p'.resultKind = some k) ∧
    ∀ engine : Engine, e.need ≤ engine.config.maxStackDepth →
      e'.need ≤ engine.config.maxStackDepth →
      (∃ v, engine.evaluate t = .ok v ∧ engine.evaluate t' = .ok v) ∨
      ∃ offset offset', engine.evaluate t = .error (.fault (.divisionByZero offset)) ∧
        engine.evaluate t' = .error (.fault (.divisionByZero offset')) := by
  constructor
  · refine ⟨e.program, e'.program, e.kind, Tree.compile_of_returns returns,
      Tree.compile_of_returns returns', rfl, ?_⟩
    exact congrArg some exchanged.kind_eq.symm
  · intro engine room room'
    exact evaluate_congr returns returns' room room' exchanged.kind_eq exchanged.denote_eq

/-- In `200 + 3 * (7 - 9)`, with a 16-bit factor among bytes, both the sum and the product are
exchanged. The one form needs four stack slots and the other two; the difference wraps around to
254 in both. -/
theorem evaluate_exchanged_mixed :
    let byte := fun (n : Int) (inRange : Kind.InRange ⟨.w8, false⟩ n) =>
      Expr.literal ⟨⟨.w8, false⟩, n, inRange⟩
    let difference := Expr.binary (byte 7 (by decide)) .sub (byte 9 (by decide))
    let factor := Expr.literal ⟨⟨.w16, true⟩, 3, by decide⟩
    let e := Expr.binary (byte 200 (by decide)) .add (.binary factor .mul difference)
    let e' := Expr.binary (.binary difference .mul factor) .add (byte 200 (by decide))
    let engine : Engine := ⟨⟨4, true⟩, by decide⟩
    Expr.Exchanged e e' ∧ engine.evaluate (.ofExpr e.node) = .ok ⟨⟨.w16, true⟩, 962, by decide⟩ ∧
      engine.evaluate (.ofExpr e'.node) = .ok ⟨⟨.w16, true⟩, 962, by decide⟩ := by
  intro byte difference factor e e' engine
  have exchanged : Expr.Exchanged e e' :=
    .exchange rfl (.literal _)
      (.exchange rfl (.literal _) (.keep .sub (.literal _) (.literal _)))
  have room : e.need ≤ engine.config.maxStackDepth := by decide
  have evaluated : engine.evaluate (.ofExpr e.node) = .ok ⟨⟨.w16, true⟩, 962, by decide⟩ :=
    (evaluate_ok_iff (Tree.returns_ofExpr _) room).mpr ⟨rfl, by decide⟩
  refine ⟨exchanged, evaluated, ?_⟩
  rcases (evaluate_exchanged (Tree.returns_ofExpr e) (Tree.returns_ofExpr e') exchanged).2 engine
    room (by decide) with ⟨v, found, same⟩ | ⟨_, _, failed, _⟩
  · rw [evaluated] at found
    cases found
    exact same
  · rw [evaluated] at failed
    cases failed

end Engine

end Wordcode
