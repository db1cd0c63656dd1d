import Wordcode.Proofs.Evaluation

/-!
# Evaluation beside the unbounded integers

`Expr.exact` is the value of an expression over the integers, where nothing wraps around. Evaluation
gives just this value when no operation leaves the range of its kind. Sums, differences and products
at a single width agree with it modulo the width whatever wraps around on the way.
-/

namespace Wordcode

namespace Expr

/-- The value of an expression over the integers; a divisor of zero leaves it undefined. -/
def exact : Expr → Option Int
  | literal v => some v.number
  | binary left op right => do
    let a ← left.exact
    let b ← right.exact
    op.result? a b

/-- A node has an exact result, and this and its exact operands are integers of the node's kind. -/
def Fits : Expr → Prop
  | literal _ => True
  | binary left op right =>
    ∃ a ∈ left.exact, ∃ b ∈ right.exact, ∃ n ∈ op.result? a b,
      (left.kind.promote right.kind).InRange a ∧ (left.kind.promote right.kind).InRange b ∧
        (left.kind.promote right.kind).InRange n

instance : (e : Expr) → Decidable e.Fits
  | literal _ => inferInstanceAs (Decidable True)
  | binary _ _ _ => inferInstanceAs (Decidable (∃ _, _))

def literals : Expr → List Value
  | literal v => [v]
  | binary left _ right => left.literals ++ right.literals

def operations : Expr → List ArithOp
  | literal _ => []
  | binary left op right => left.operations ++ op :: right.operations

theorem exact_binary {left right : Expr} {a b : Int} (first : left.exact = some a)
    (second : right.exact = some b) (op : ArithOp) :
    (binary left op right).exact = op.result? a b := by
  rw [exact, first, second]
  rfl

/-! ### Nothing wraps around -/

theorem denote_of_fits {e : Expr} (fits : ∀ node ∈ e.postorder, node.Fits) :
    ∃ n, e.denote = some n ∧ e.exact = some n := by
  induction e with
  | literal v => exact ⟨v.number, rfl, rfl⟩
  | binary left op right ihl ihr =>
    simp only [postorder, List.forall_mem_append, List.forall_mem_singleton] at fits
    obtain ⟨⟨inLeft, inRight⟩, a, first, b, second, n, result, inA, inB, inN⟩ := fits
    obtain ⟨m, denoted, exactly⟩ := ihl inLeft
    obtain ⟨m', denoted', exactly'⟩ := ihr inRight
    rw [Option.mem_def] at first second result
    obtain rfl : m = a := Option.some.inj (exactly.symm.trans first)
    obtain rfl : m' = b := Option.some.inj (exactly'.symm.trans second)
    refine ⟨n, ?_, ?_⟩
    · rw [denote_binary denoted denoted', Kind.wrap_of_inRange inA, Kind.wrap_of_inRange inB,
        result, Option.map_some, Kind.wrap_of_inRange inN]
    · rw [exact_binary first second, result]

/-! ### Everything wraps around at one width -/

theorem kind_of_width {e : Expr} {w : Width} (uniform : ∀ v ∈ e.literals, v.kind.width = w) :
    e.kind = ⟨w, e.literals.any (·.kind.signed)⟩ := by
  induction e with
  | literal v =>
    rw [literals, List.any_cons, List.any_nil, Bool.or_false,
      ← uniform v (List.mem_singleton_self v)]
    rfl
  | binary left op right ihl ihr =>
    rw [literals, List.forall_mem_append] at uniform
    rw [kind, ihl uniform.1, ihr uniform.2, literals, List.any_append]
    simp [Kind.promote]

end Expr

/-- Apart from division, operations on congruent operands have congruent results. -/
theorem ArithOp.result?_modEq {op : ArithOp} {m a a' b b' : Int} (undivided : op ≠ .div)
    (left : a ≡ a' [ZMOD m]) (right : b ≡ b' [ZMOD m]) :
    ∃ n n', op.result? a b = some n ∧ op.result? a' b' = some n' ∧ n ≡ n' [ZMOD m] := by
  cases op with
  | add => exact ⟨_, _, rfl, rfl, left.add right⟩
  | sub => exact ⟨_, _, rfl, rfl, left.sub right⟩
  | mul => exact ⟨_, _, rfl, rfl, left.mul right⟩
  | div => exact absurd rfl undivided

namespace Expr

theorem denote_modEq {e : Expr} {w : Width} (uniform : ∀ v ∈ e.literals, v.kind.width = w)
    (undivided : .div ∉ e.operations) :
    ∃ m n, e.denote = some m ∧ e.exact = some n ∧ m ≡ n [ZMOD 2 ^ w.bits] := by
  induction e with
  | literal v => exact ⟨_, _, rfl, rfl, rfl⟩
  | binary left op right ihl ihr =>
    have width : (left.kind.promote right.kind).bits = w.bits := by
      rw [show left.kind.promote right.kind = _ from kind_of_width uniform]
      rfl
    rw [literals, List.forall_mem_append] at uniform
    simp only [operations, List.mem_append, List.mem_cons, not_or] at undivided
    obtain ⟨a, a', denoted, exactly, same⟩ := ihl uniform.1 undivided.1
    obtain ⟨b, b', denoted', exactly', same'⟩ := ihr uniform.2 undivided.2.2
    -- Wrapping the operands keeps their residues at this width, and so does wrapping the result.
    generalize promoted : left.kind.promote right.kind = k at width
    rw [← width] at same same' ⊢
    obtain ⟨m, n, result, result', congruent⟩ := ArithOp.result?_modEq (Ne.symm undivided.2.1)
      ((k.wrap_modEq a).trans same) ((k.wrap_modEq b).trans same')
    refine ⟨k.wrap m, n, ?_, ?_, (k.wrap_modEq m).trans congruent⟩
    · rw [denote_binary denoted denoted', promoted, result, Option.map_some]
    · rw [exact_binary exactly exactly', result']

end Expr

namespace Engine

/-- With enough stack, an expression in which every operation stays in the range of its kind
evaluates to its exact value. -/
theorem evaluate_exact {t : Tree} {e : Expr} (returns : t.Returns e)
    (fits : ∀ node ∈ e.postorder, node.Fits) (engine : Engine)
    (room : e.need ≤ engine.config.maxStackDepth) :
    ∃ v, engine.evaluate t = .ok v ∧ v.kind = e.kind ∧ e.exact = some v.number := by
  obtain ⟨n, denoted, exactly⟩ := Expr.denote_of_fits fits
  refine ⟨⟨e.kind, n, Expr.inRange_denote denoted⟩, ?_, rfl, exactly⟩
  exact (evaluate_ok_iff returns room).mpr ⟨rfl, denoted⟩

/-- In `(2 ^ 63 + 5) / 3 - 7` the dividend is beyond every signed word. -/
theorem evaluate_exact_large :
    let e := Expr.binary
      (.binary (.literal ⟨⟨.w64, false⟩, 2 ^ 63 + 5, by decide⟩) .div
        (.literal ⟨⟨.w8, true⟩, 3, by decide⟩)) .sub (.literal ⟨⟨.w16, true⟩, 7, by decide⟩)
    (∀ node ∈ e.postorder, node.Fits) ∧ e.need ≤ 2 ∧
    ∃ v, Engine.evaluate ⟨⟨2, true⟩, by decide⟩ (.ofExpr e.node) = .ok v ∧
      v.kind = ⟨.w64, false⟩ ∧ e.exact = some v.number := by
  intro e
  have fits : ∀ node ∈ e.postorder, node.Fits := by decide
  have room : e.need ≤ 2 := by decide
  exact ⟨fits, room, evaluate_exact (Tree.returns_ofExpr e) fits ⟨⟨2, true⟩, by decide⟩ room⟩

/-- Sums, differences and products of literals of one width evaluate to an integer that is congruent
to the exact value modulo this width, in the range of the resolved kind. That is the kind of this
width that is signed exactly when one of the literals is. -/
theorem evaluate_modular {t : Tree} {e : Expr} {w : Width} (returns : t.Returns e)
    (uniform : ∀ v ∈ e.literals, v.kind.width = w) (undivided : .div ∉ e.operations)
    (engine : Engine) (room : e.need ≤ engine.config.maxStackDepth) :
    ∃ v n, engine.evaluate t = .ok v ∧ e.exact = some n ∧ v.number ≡ n [ZMOD 2 ^ w.bits] ∧
      v.kind = e.kind ∧ v.kind.InRange v.number ∧ v.kind.width = w ∧
      (v.kind.signed ↔ ∃ u ∈ e.literals, u.kind.signed) := by
  obtain ⟨m, n, denoted, exactly, congruent⟩ := Expr.denote_modEq uniform undivided
  have inside := Expr.inRange_denote denoted
  have kind := Expr.kind_of_width uniform
  refine ⟨⟨e.kind, m, inside⟩, n, ?_, exactly, congruent, rfl, inside, ?_, ?_⟩
  · exact (evaluate_ok_iff returns room).mpr ⟨rfl, denoted⟩
  · show e.kind.width = w
    rw [kind]
  · show e.kind.signed ↔ _
    rw [kind]
    exact List.any_eq_true

/-- The square of the byte 200, wrapped around, less the negative byte -100. -/
theorem evaluate_modular_square :
    let e := Expr.binary
      (.binary (.literal ⟨⟨.w8, false⟩, 200, by decide⟩) .mul
        (.literal ⟨⟨.w8, false⟩, 200, by decide⟩)) .sub (.literal ⟨⟨.w8, true⟩, -100, by decide⟩)
    ((∀ v ∈ e.literals, v.kind.width = .w8) ∧ .div ∉ e.operations ∧ e.need ≤ 2) ∧
    ∃ v n, Engine.evaluate ⟨⟨2, false⟩, by decide⟩ (.ofExpr e.node) = .ok v ∧
      e.exact = some n ∧ v.number ≡ n [ZMOD 2 ^ Width.w8.bits] ∧ v.kind = ⟨.w8, true⟩ := by
  intro e
  have uniform : ∀ v ∈ e.literals, v.kind.width = .w8 := by decide
  have undivided : .div ∉ e.operations := by decide
  have room : e.need ≤ 2 := by decide
  obtain ⟨v, n, evaluated, exactly, congruent, kind, -⟩ :=
    evaluate_modular (Tree.returns_ofExpr e) uniform undivided ⟨⟨2, false⟩, by decide⟩ room
  exact ⟨⟨uniform, undivided, room⟩, v, n, evaluated, exactly, congruent, kind⟩

end Engine

end Wordcode
