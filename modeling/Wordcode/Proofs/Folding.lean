import Wordcode.Proofs.Evaluation

/-!
# Constant folding

A part of an expression acts on what surrounds it only through its kind and the integer it denotes
(`denote_fill`). So it may be replaced by the literal of its value, which needs no more stack.
-/

namespace Wordcode

/-- An expression with one place left open. -/
inductive Expr.Context where
  | hole
  | inLeft (context : Context) (op : ArithOp) (right : Expr)
  | inRight (left : Expr) (op : ArithOp) (context : Context)

namespace Expr.Context

/-- The expression with another one in the open place. -/
def fill : Context → Expr → Expr
  | hole, e => e
  | inLeft context op right, e => .binary (context.fill e) op right
  | inRight left op context, e => .binary left op (context.fill e)

/-- The parts that an expression has in its places are its nodes. -/
theorem mem_postorder_iff {e part : Expr} :
    part ∈ e.postorder ↔ ∃ context : Context, e = context.fill part := by
  constructor
  · intro member
    induction e with
    | literal v => exact ⟨hole, (List.mem_singleton.mp member).symm⟩
    | binary left op right ihl ihr =>
      rw [postorder, List.mem_append, List.mem_append, List.mem_singleton] at member
      rcases member with (inside | inside) | same
      · obtain ⟨context, rfl⟩ := ihl inside
        exact ⟨inLeft context op right, rfl⟩
      · obtain ⟨context, rfl⟩ := ihr inside
        exact ⟨inRight left op context, rfl⟩
      · exact ⟨hole, same.symm⟩
  · rintro ⟨context, rfl⟩
    induction context with
    | hole => cases part <;> simp [fill, postorder]
    | inLeft context op right ih => simp [fill, postorder, ih]
    | inRight left op context ih => simp [fill, postorder, ih]

theorem kind_fill {first second : Expr} (kind : first.kind = second.kind) (context : Context) :
    (context.fill first).kind = (context.fill second).kind := by
  induction context with
  | hole => exact kind
  | inLeft context op right ih => simp only [fill, Expr.kind, ih]
  | inRight left op context ih => simp only [fill, Expr.kind, ih]

-- The kinds have to agree as well: every operation around the place is resolved from them.
theorem denote_fill {first second : Expr} (kind : first.kind = second.kind)
    (same : first.denote = second.denote) (context : Context) :
    (context.fill first).denote = (context.fill second).denote := by
  induction context with
  | hole => exact same
  | inLeft context op right ih => simp only [fill, denote, ih, kind_fill kind context]
  | inRight left op context ih => simp only [fill, denote, ih, kind_fill kind context]

theorem need_fill_mono {first second : Expr} (le : first.need ≤ second.need) (context : Context) :
    (context.fill first).need ≤ (context.fill second).need := by
  induction context with
  | hole => exact le
  | inLeft context op right ih =>
    simp only [fill, need]
    omega
  | inRight left op context ih =>
    simp only [fill, need]
    omega

end Expr.Context

theorem Expr.need_pos (e : Expr) : 0 < e.need := by
  induction e with
  | literal v => exact Nat.one_pos
  | binary left op right ihl ihr =>
    rw [need]
    omega

namespace Engine

/-- The places of an expression hold its nodes. Where the part in some place evaluates to a value on
its own, the literal of that value may stand in this place instead: the two expressions evaluate to
the same value, or both divide by zero. -/
theorem evaluate_folded {whole : Tree} {e : Expr} (returns : whole.Returns e) (engine : Engine)
    (room : e.need ≤ engine.config.maxStackDepth) :
    (∀ part, part ∈ e.postorder ↔ ∃ context : Expr.Context, e = context.fill part) ∧
    ∀ (context : Expr.Context) (part : Expr), e = context.fill part →
      ∀ (alone folded : Tree) (other : Engine) (v : Value), alone.Returns part →
      other.evaluate alone = .ok v → folded.Returns (context.fill (.literal v)) →
      (∃ w, engine.evaluate whole = .ok w ∧ engine.evaluate folded = .ok w) ∨
      ∃ offset offset', engine.evaluate whole = .error (.fault (.divisionByZero offset)) ∧
        engine.evaluate folded = .error (.fault (.divisionByZero offset')) := by
  refine ⟨fun _ => Expr.Context.mem_postorder_iff, ?_⟩
  rintro context part rfl alone folded other v returnsPart evaluated replaced
  obtain ⟨kind, denoted⟩ := denote_of_evaluate returnsPart evaluated
  have kindOfValue : (Expr.literal v).kind = part.kind := kind
  have numberOfValue : (Expr.literal v).denote = part.denote := denoted.symm
  have oneSlot : (Expr.literal v).need ≤ part.need := part.need_pos
  have sameKind := Expr.Context.kind_fill kindOfValue context
  have same := Expr.Context.denote_fill kindOfValue numberOfValue context
  have room' := Nat.le_trans (Expr.Context.need_fill_mono oneSlot context) room
  cases meaning : (context.fill part).denote with
  | none =>
    obtain ⟨offset, failed⟩ := (evaluate_division_iff returns room).mpr meaning
    obtain ⟨offset', failed'⟩ := (evaluate_division_iff replaced room').mpr (same.trans meaning)
    exact .inr ⟨offset, offset', failed, failed'⟩
  | some n =>
    let w : Value := ⟨(context.fill part).kind, n, Expr.inRange_denote meaning⟩
    refine .inl ⟨w, ?_, ?_⟩
    · exact (evaluate_ok_iff returns room).mpr ⟨rfl, meaning⟩
    · exact (evaluate_ok_iff replaced room').mpr ⟨sameKind.symm, same.trans meaning⟩

/-- In `1 - (200 + 100) / 2` the sum of the two bytes wraps around to 44, and the rest is computed
from 44 at 16 bits. -/
theorem evaluate_folded_sum :
    let byte := fun (n : Int) (inRange : Kind.InRange ⟨.w8, false⟩ n) =>
      Expr.literal ⟨⟨.w8, false⟩, n, inRange⟩
    let sum := Expr.binary (byte 200 (by decide)) .add (byte 100 (by decide))
    let around := Expr.Context.inRight (byte 1 (by decide)) .sub
      (.inLeft .hole .div (.literal ⟨⟨.w16, true⟩, 2, by decide⟩))
    Engine.default.evaluate (.ofExpr sum.node) = .ok ⟨⟨.w8, false⟩, 44, by decide⟩ ∧
    Engine.default.evaluate (.ofExpr (around.fill (byte 44 (by decide))).node) =
      .ok ⟨⟨.w16, true⟩, -21, by decide⟩ := by
  intro byte sum around
  have small : sum.need ≤ Engine.default.config.maxStackDepth := by decide
  have room : (around.fill sum).need ≤ Engine.default.config.maxStackDepth := by decide
  have alone : Engine.default.evaluate (.ofExpr sum.node) = .ok ⟨⟨.w8, false⟩, 44, by decide⟩ :=
    (evaluate_ok_iff (Tree.returns_ofExpr _) small).mpr ⟨rfl, by decide⟩
  have whole : Engine.default.evaluate (.ofExpr (around.fill sum).node) =
      .ok ⟨⟨.w16, true⟩, -21, by decide⟩ :=
    (evaluate_ok_iff (Tree.returns_ofExpr _) room).mpr ⟨rfl, by decide⟩
  refine ⟨alone, ?_⟩
  rcases (evaluate_folded (Tree.returns_ofExpr _) Engine.default room).2 around sum rfl _ _ _ _
    (Tree.returns_ofExpr _) alone (Tree.returns_ofExpr _) with ⟨w, found, same⟩ | ⟨_, _, failed, _⟩
  · rw [whole] at found
    cases found
    exact same
  · rw [whole] at failed
    cases failed

end Engine

end Wordcode
