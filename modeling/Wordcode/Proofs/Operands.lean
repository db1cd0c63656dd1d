import Wordcode.Proofs.Evaluation
import Wordcode.Proofs.Limits

/-!
# The operands of an operation

An operation reads as many low bits of its operands as its kind has, and is the exact operation on
the integers they stand for, modulo the width. In a compiled program the kind of an operation is at
least as wide as those of its operands, and the machine finds there the words of the integers that
the operands denote (`operands_of_reaches`). So converting them loses nothing, and a divisor is zero
at the kind of the operation just when it is zero at its own (`fault?_eq_division_iff_zero`).
-/

namespace Wordcode

namespace Kind

theorem integer_congr {k : Kind} {v w : Word} (low : k.truncate v = k.truncate w) :
    k.integer v = k.integer w := by
  have same : v.toNat % 2 ^ k.bits = w.toNat % 2 ^ k.bits := by
    rw [← toNat_truncate, ← toNat_truncate, low]
  simp only [integer, same]

/-- Minus the least integer of a signed kind is beyond its range, and wraps around to the least. -/
theorem wrap_neg_lower {k : Kind} (signed : k.signed = true) : k.wrap (-k.lower) = k.lower := by
  have double := k.two_pow_eq_double
  have half : (0 : Int) < 2 ^ (k.bits - 1) := Int.pow_pos (by decide)
  have lower : k.lower = -2 ^ (k.bits - 1) := by rw [Kind.lower, if_pos signed]
  have inside : k.InRange k.lower := by
    have width := k.upper_eq
    exact ⟨Int.le_refl _, by omega⟩
  refine eq_of_modEq ((k.wrap_modEq _).trans ?_) (k.inRange_wrap _) inside
  rw [lower, Int.modEq_iff_dvd]
  exact ⟨-1, by omega⟩

end Kind

namespace ArithOp

/-- Of its operands an operation uses only the low bits that its kind has. It has no result exactly
when it is a division and those bits of the divisor are all zero. Any other result is in normal form
at the kind and stands for the one integer of the kind that is congruent to the exact result on the
integers that the operands stand for; the least signed integer divided by minus one is itself. -/
theorem apply_modulo_width (op : ArithOp) (k : Kind) (lhs rhs : Word) :
    (∀ lhs' rhs' : Word, k.truncate lhs' = k.truncate lhs → k.truncate rhs' = k.truncate rhs →
      op.apply k lhs' rhs' = op.apply k lhs rhs) ∧
    (op.apply k lhs rhs = none ↔ op = .div ∧ k.truncate rhs = 0) ∧
    (∀ w, op.apply k lhs rhs = some w → k.normalize w = w ∧
      ∃ n, op.result? (k.integer lhs) (k.integer rhs) = some n ∧
        ∀ m, m = k.integer w ↔ k.InRange m ∧ m ≡ n [ZMOD 2 ^ k.bits]) ∧
    (k.signed → k.integer lhs = k.lower → k.integer rhs = -1 →
      ArithOp.div.apply k lhs rhs = some (UInt64.ofInt k.lower)) := by
  refine ⟨?_, ?_, ?_, ?_⟩
  · intro lhs' rhs' left right
    rw [apply_eq_result, apply_eq_result, Kind.integer_congr left, Kind.integer_congr right]
  · rw [apply_eq_result, Option.map_eq_none_iff, result?_eq_none_iff, Kind.truncate_eq_zero_iff]
  · intro w applied
    rw [apply_eq_result, Option.map_eq_some_iff] at applied
    obtain ⟨n, result, rfl⟩ := applied
    have inside := k.inRange_wrap n
    have congruent := k.wrap_modEq n
    refine ⟨Kind.normalize_ofInt inside, n, result, fun m => ?_⟩
    rw [Kind.integer_ofInt_of_inRange inside]
    constructor
    · rintro rfl
      exact ⟨inside, congruent⟩
    · rintro ⟨inside', congruent'⟩
      exact Kind.eq_of_modEq (congruent'.trans congruent.symm) inside' inside
  · intro signed least minusOne
    rw [apply_eq_result, least, minusOne, result?, if_neg (by decide), Option.map_some,
      Int.tdiv_neg, Int.tdiv_one, Kind.wrap_neg_lower signed]

end ArithOp

/-! ### Conversion to a wider kind -/

namespace Kind

theorem bits_promote (a b : Kind) : (a.promote b).bits = max a.bits b.bits := by
  rcases a.promote_cases b with ⟨less, same⟩ | ⟨less, same⟩ | ⟨equal, same⟩
  · rw [same]
    omega
  · rw [same]
    omega
  · rw [same]
    show a.bits = _
    omega

theorem modEq_of_le {own wide : Kind} (le : own.bits ≤ wide.bits) {m n : Int}
    (congruent : m ≡ n [ZMOD 2 ^ wide.bits]) : m ≡ n [ZMOD 2 ^ own.bits] :=
  congruent.of_dvd (pow_dvd_pow 2 le)

/-- On the way through a wider kind a word keeps all that counts at its own. -/
theorem normalize_normalize {own wide : Kind} (le : own.bits ≤ wide.bits) (w : Word) :
    own.normalize (wide.normalize w) = own.normalize w := by
  have same : own.wrap (wide.integer w) = own.integer w := by
    rw [integer_eq_wrap own]
    exact wrap_congr (modEq_of_le le (wide.integer_modEq w)).symm
  rw [wide.normalize_eq_ofInt, own.normalize_eq_ofInt, integer_ofInt, same,
    own.normalize_eq_ofInt]

theorem wrap_zero (k : Kind) : k.wrap 0 = 0 := by
  have half : ¬ (2 : Int) ^ (k.bits - 1) ≤ 0 := Int.not_le.mpr (Int.pow_pos (by decide))
  simp only [wrap, Int.zero_emod, half, and_false, if_false]

/-- Nothing but zero becomes zero at a wider kind. -/
theorem wrap_eq_zero_iff {own wide : Kind} (le : own.bits ≤ wide.bits) {n : Int}
    (inside : own.InRange n) : wide.wrap n = 0 ↔ n = 0 := by
  constructor
  · intro zero
    have congruent := modEq_of_le le (wide.wrap_modEq n)
    rw [zero] at congruent
    rw [← wrap_of_inRange inside, ← wrap_congr congruent, wrap_zero]
  · rintro rfl
    exact wide.wrap_zero

end Kind

/-! ### Operands on the stack -/

/-- The operation of a visit stands behind the code of its operands. -/
theorem Expr.code_of_visit {e left right : Expr} {op : ArithOp} {offset depth : Nat} {v : Visit}
    (member : v ∈ visitsFrom offset depth e.postorder) (node : v.node = binary left op right) :
    ∃ before after,
      e.code = before ++ left.code ++ right.code ++
        .arith op (left.kind.promote right.kind) :: after ∧
      v.offset = offset + (Stream.encode (before ++ left.code ++ right.code)).length := by
  induction e generalizing offset depth with
  | literal value =>
    rw [List.mem_singleton.mp member] at node
    cases node
  | binary first op' second ihl ihr =>
    rw [visitsFrom_binary, List.mem_append, List.mem_append, List.mem_singleton] at member
    rw [code_binary]
    rcases member with (inside | inside) | rfl
    · obtain ⟨before, after, code, place⟩ := ihl inside
      exact ⟨before, _, by rw [code, List.append_assoc, List.append_assoc]; rfl, place⟩
    · obtain ⟨before, after, code, place⟩ := ihr inside
      refine ⟨first.code ++ before, after ++ [.arith op' (first.kind.promote second.kind)], ?_, ?_⟩
      · simp [code]
      · rw [place, Nat.add_assoc, size, ← List.length_append, ← Stream.encode_append,
          List.append_assoc, List.append_assoc, List.append_assoc]
    · cases node
      refine ⟨[], [], by simp, ?_⟩
      rw [List.nil_append, Stream.encode_append, List.length_append, ← Nat.add_assoc]
      rfl

namespace Machine

theorem exec_code_eq_ok {e : Expr} {limit offset : Nat} {stack final : Stack}
    (ran : exec limit stack (Stream.layout offset e.code) = .ok final) :
    ∃ n, e.denote = some n ∧ final = UInt64.ofInt n :: stack := by
  obtain ⟨faulty, clear⟩ := exec_code e limit offset stack
  cases fault : e.firstFault limit offset stack.length with
  | some f =>
    rw [faulty f fault] at ran
    cases ran
  | none =>
    obtain ⟨-, n, denoted, ran'⟩ := clear fault
    rw [ran] at ran'
    exact ⟨n, denoted, Except.ok.inj ran'⟩

/-- A run over encoded instructions reaches the places between them, each after the instructions
before it. -/
theorem Reaches.exists_exec {limit pc : Nat} {instructions : List Instruction} {stack : Stack}
    (reached : Reaches limit (Stream.encode instructions) pc stack) :
    ∃ before after, instructions = before ++ after ∧ pc = (Stream.encode before).length ∧
      exec limit [] (Stream.layout 0 before) = .ok stack := by
  induction reached with
  | start => exact ⟨[], instructions, rfl, rfl, rfl⟩
  | @next pc stack after r _ read stepped ih =>
    obtain ⟨before, following, rfl, rfl, ran⟩ := ih
    rw [Stream.encode_append] at read
    cases following with
    | nil =>
      rw [Stream.encode_nil, List.append_nil, Stream.decodeAt?, List.drop_length] at read
      cases read
    | cons i rest =>
      rw [Stream.encode_cons, Stream.decodeAt?_encode_append] at read
      cases read
      refine ⟨before ++ [i], rest, by simp, ?_, ?_⟩
      · simp [Record.next]
      · rw [Stream.layout_append, exec_append, ran, Nat.zero_add]
        exact (exec_singleton limit stack _).trans stepped

/-- Where a run over compiled code reaches an operation, its operands lie on top of the stack: the
words of what they denote. -/
theorem operands_of_reaches {e left right : Expr} {op : ArithOp} {v : Visit} {limit : Nat}
    {stack : Stack} (member : v ∈ e.visits) (node : v.node = .binary left op right)
    (reached : Reaches limit e.program.code v.offset stack) :
    ∃ a b below, left.denote = some a ∧ right.denote = some b ∧
      stack = UInt64.ofInt b :: UInt64.ofInt a :: below := by
  obtain ⟨before, after, code, place⟩ := Expr.code_of_visit member node
  obtain ⟨executed, rest, whole, same, ran⟩ := reached.exists_exec
  -- What was executed is the code of the operands and all that stands before it.
  rw [code, List.append_assoc] at whole
  rw [place, Nat.zero_add] at same
  obtain rfl := Stream.eq_of_length_encode whole same
  rw [Stream.layout_append, Stream.layout_append] at ran
  obtain ⟨middle, ran, second⟩ := exec_append_eq_ok ran
  obtain ⟨below, -, first⟩ := exec_append_eq_ok ran
  obtain ⟨a, dividend, rfl⟩ := exec_code_eq_ok first
  obtain ⟨b, divisor, rfl⟩ := exec_code_eq_ok second
  exact ⟨a, b, below, dividend, divisor, rfl⟩

end Machine

/-! ### Divisors -/

namespace Expr

theorem map_node_visitsFrom (offset depth : Nat) (nodes : List Expr) :
    (visitsFrom offset depth nodes).map (·.node) = nodes := by
  induction nodes generalizing offset depth with
  | nil => rfl
  | cons e rest ih => rw [visitsFrom, List.map_cons, ih]

theorem mem_postorder_iff_visit {e part : Expr} :
    part ∈ e.postorder ↔ ∃ v ∈ e.visits, v.node = part := by
  rw [← List.mem_map, visits, map_node_visitsFrom]

theorem need_le_of_mem {e part : Expr} (member : part ∈ e.postorder) : part.need ≤ e.need := by
  induction e with
  | literal v => rw [List.mem_singleton.mp member]
  | binary left op right ihl ihr =>
    rw [postorder, List.mem_append, List.mem_append, List.mem_singleton] at member
    rw [need]
    rcases member with (inside | inside) | rfl
    · have bound := ihl inside
      omega
    · have bound := ihr inside
      omega
    · exact Nat.le_refl _

end Expr

/-- The visit of an operation is a fault just when it divides by what is zero at its own kind. -/
theorem Visit.fault?_eq_division_iff_zero {limit place : Nat} {v : Visit} :
    v.fault? limit = some (.divisionByZero place) ↔
      place = v.offset ∧ ∃ left right, v.node = .binary left .div right ∧
        right.denote = some 0 := by
  have wide : ∀ left right : Expr, right.kind.bits ≤ (left.kind.promote right.kind).bits := by
    intro left right
    rw [Kind.bits_promote]
    exact Nat.le_max_right _ _
  rw [fault?_eq_division_iff]
  refine and_congr_right fun _ => exists₂_congr fun left right => ?_
  constructor
  · rintro ⟨b, node, divisor, zero⟩
    rw [Kind.wrap_eq_zero_iff (wide left right) (Expr.inRange_denote divisor)] at zero
    exact ⟨node, zero ▸ divisor⟩
  · rintro ⟨node, divisor⟩
    exact ⟨0, node, divisor, (Kind.wrap_eq_zero_iff (wide left right)
      (Expr.inRange_denote divisor)).mpr rfl⟩

namespace Engine

theorem evaluate_division_iff_divisor {t : Tree} {e : Expr} {engine : Engine}
    (returns : t.Returns e) (room : e.need ≤ engine.config.maxStackDepth) :
    (∃ offset, engine.evaluate t = .error (.fault (.divisionByZero offset))) ↔
      ∃ left right, .binary left .div right ∈ e.postorder ∧ right.denote = some 0 := by
  constructor
  · rintro ⟨offset, failed⟩
    obtain ⟨f, same, fault⟩ := (evaluate_error_iff returns engine _).mp failed
    cases same
    obtain ⟨v, member, raised⟩ := List.exists_of_findSome?_eq_some fault
    obtain ⟨-, left, right, node, divisor⟩ := Visit.fault?_eq_division_iff_zero.mp raised
    exact ⟨left, right, Expr.mem_postorder_iff_visit.mpr ⟨v, member, node⟩, divisor⟩
  · rintro ⟨left, right, inside, divisor⟩
    obtain ⟨v, member, node⟩ := Expr.mem_postorder_iff_visit.mp inside
    have fault : v.fault? engine.config.maxStackDepth = some (.divisionByZero v.offset) :=
      Visit.fault?_eq_division_iff_zero.mpr ⟨rfl, left, right, node, divisor⟩
    exact (evaluate_division_iff returns room).mpr (Expr.denote_eq_none member fault)

/-- At every operation of a compiled program the machine finds the words of its two operands, each
in normal form at its own kind. Converting them to the kind of the operation can be undone: brought
back to its own kind, a converted operand is the word it was. So with enough stack evaluation
divides by zero exactly when the divisor of some division evaluates to zero at its own kind. -/
theorem evaluate_promoted_operands {t : Tree} {e : Expr} {p : Program} (returns : t.Returns e)
    (accepted : t.compile = .ok p) :
    (∀ v ∈ e.visits, ∀ left op right, v.node = .binary left op right →
      let k := left.kind.promote right.kind
      Stream.decodeAt? p.code v.offset = some (.ok ⟨v.offset, .arith op k⟩) ∧
      ∀ limit stack, Machine.Reaches limit p.code v.offset stack →
        ∃ lhs rhs below, stack = rhs :: lhs :: below ∧
          left.denote = some (left.kind.integer lhs) ∧
          right.denote = some (right.kind.integer rhs) ∧
          left.kind.normalize lhs = lhs ∧ right.kind.normalize rhs = rhs ∧
          left.kind.normalize (k.normalize lhs) = lhs ∧
          right.kind.normalize (k.normalize rhs) = rhs) ∧
    ∀ engine : Engine, e.need ≤ engine.config.maxStackDepth →
      ((∃ offset, engine.evaluate t = .error (.fault (.divisionByZero offset))) ↔
        ∃ left right v, .binary left .div right ∈ e.postorder ∧
          engine.evaluate (.ofExpr right.node) = .ok v ∧ v.kind = right.kind ∧ v.number = 0) := by
  obtain rfl : e.program = p := by
    rw [Tree.compile_of_returns returns] at accepted
    exact Except.ok.inj accepted
  constructor
  · intro v member left op right node k
    constructor
    · obtain ⟨before, after, code, place⟩ := Expr.code_of_visit member node
      rw [Nat.zero_add] at place
      rw [place, Expr.program, code, List.append_assoc, Stream.encode_append, List.cons_append,
        Stream.encode_cons, Stream.decodeAt?_encode_append]
    · intro limit stack reached
      obtain ⟨a, b, below, first, second, rfl⟩ := Machine.operands_of_reaches member node reached
      have inA := Expr.inRange_denote first
      have inB := Expr.inRange_denote second
      have normalA := Kind.normalize_ofInt inA
      have normalB := Kind.normalize_ofInt inB
      have width : k.bits = max left.kind.bits right.kind.bits := Kind.bits_promote _ _
      refine ⟨_, _, below, rfl, ?_, ?_, normalA, normalB, ?_, ?_⟩
      · rw [Kind.integer_ofInt_of_inRange inA, first]
      · rw [Kind.integer_ofInt_of_inRange inB, second]
      · rw [Kind.normalize_normalize (by omega), normalA]
      · rw [Kind.normalize_normalize (by omega), normalB]
  · intro engine room
    rw [evaluate_division_iff_divisor returns room]
    constructor
    · rintro ⟨left, right, inside, divisor⟩
      have room' : right.need ≤ engine.config.maxStackDepth := by
        have division := Expr.need_le_of_mem inside
        rw [Expr.need] at division
        omega
      refine ⟨left, right, ⟨right.kind, 0, Expr.inRange_denote divisor⟩, inside, ?_, rfl, rfl⟩
      exact (evaluate_ok_iff (Tree.returns_ofExpr right) room').mpr ⟨rfl, divisor⟩
    · rintro ⟨left, right, v, inside, evaluated, -, zero⟩
      obtain ⟨-, divisor⟩ := denote_of_evaluate (Tree.returns_ofExpr right) evaluated
      exact ⟨left, right, inside, zero ▸ divisor⟩

/-- In `-1 / 2` the dividend is a signed byte and is read as the greatest unsigned 32-bit integer;
the machine reaches the division with both operands on the stack, and the dividend can be had
back. -/
theorem evaluate_promoted_operands_widened :
    let byte : Kind := ⟨.w8, true⟩
    let wide : Kind := ⟨.w32, false⟩
    let e := Expr.binary (.literal ⟨byte, -1, by decide⟩) .div (.literal ⟨wide, 2, by decide⟩)
    (Tree.ofExpr e.node).compile = .ok e.program ∧
    Machine.Reaches 2 e.program.code 7 [2, -1] ∧ wide.integer (-1) = 2 ^ 32 - 1 ∧
    ∃ lhs rhs below, [2, -1] = rhs :: lhs :: below ∧ byte.normalize lhs = lhs ∧
      byte.normalize (wide.normalize lhs) = lhs := by
  intro byte wide e
  have pushed : Machine.Reaches 2 e.program.code 2 [-1] :=
    .next (r := ⟨0, .push ⟨byte, -1, by decide⟩⟩) .start (by decide +kernel) (by decide +kernel)
  have reached : Machine.Reaches 2 e.program.code 7 [2, -1] :=
    .next (r := ⟨2, .push ⟨wide, 2, by decide⟩⟩) pushed (by decide +kernel) (by decide +kernel)
  have visit : ⟨e, 7, 2⟩ ∈ e.visits := by
    rw [Expr.visits, Expr.visitsFrom_binary]
    exact List.mem_append_right _ (List.mem_singleton_self _)
  have returns := Tree.returns_ofExpr e
  have accepted := Tree.compile_of_returns returns
  obtain ⟨-, found⟩ := (evaluate_promoted_operands returns accepted).1 _ visit _ _ _ rfl
  obtain ⟨lhs, rhs, below, stack, -, -, normal, -, back, -⟩ := found 2 _ reached
  exact ⟨accepted, reached, by decide +kernel, lhs, rhs, below, stack, normal, back⟩

end Engine

end Wordcode
