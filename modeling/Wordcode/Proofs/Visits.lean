import Wordcode.Machine
import Wordcode.Proofs.Encoding
import Wordcode.Proofs.Expr

/-!
# The nodes of an expression in the order of evaluation

Evaluation visits the nodes of an expression in post-order. Each visit has the offset of the node's
record and the number of values that wait on the stack, and decides whether the machine faults
there. The first fault of an expression is put together from those of its operands
(`firstFault_binary`), a stack as deep as `need` is just deep enough (`need_le_iff`), and a fault
of division leaves the expression undefined.
-/

namespace Wordcode

theorem ArithOp.result?_eq_none_iff {op : ArithOp} {a b : Int} :
    op.result? a b = none ↔ op = .div ∧ b = 0 := by
  cases op <;> simp [result?]

/-- A node that is visited, the offset of its record, and the number of values on the stack. -/
structure Visit where
  node : Expr
  offset : Nat
  depth : Nat

namespace Visit

def record (v : Visit) : Record := ⟨v.offset, v.node.instruction⟩

/-- The fault that the visit ends in under a limit on the stack's depth: a literal needs a free
slot, and a divisor must not be zero at the kind of the division. -/
def fault? (limit : Nat) (v : Visit) : Option Fault :=
  match v.node with
  | .literal _ => if v.depth < limit then none else some (.stackOverflow limit)
  | .binary left .div right =>
    if right.denote.map (left.kind.promote right.kind).wrap = some 0 then
      some (.divisionByZero v.offset)
    else none
  | .binary _ _ _ => none

theorem fault?_eq_overflow_iff {limit n : Nat} {v : Visit} :
    v.fault? limit = some (.stackOverflow n) ↔
      n = limit ∧ limit ≤ v.depth ∧ ∃ value, v.node = .literal value := by
  rcases v with ⟨value | ⟨left, op, right⟩, offset, depth⟩
  · simp [fault?, eq_comm, and_comm]
  · cases op <;> simp [fault?]

theorem fault?_eq_division_iff {limit place : Nat} {v : Visit} :
    v.fault? limit = some (.divisionByZero place) ↔
      place = v.offset ∧ ∃ left right b, v.node = .binary left .div right ∧
        right.denote = some b ∧ (left.kind.promote right.kind).wrap b = 0 := by
  rcases v with ⟨value | ⟨left, op, right⟩, offset, depth⟩
  · simp [fault?]
  · cases op <;> simp [fault?, eq_comm, and_comm]

/-- There are no other faults. -/
theorem fault?_cases {limit : Nat} {v : Visit} {f : Fault} (fault : v.fault? limit = some f) :
    f = .stackOverflow limit ∨ f = .divisionByZero v.offset := by
  unfold fault? at fault
  split at fault
  · split at fault <;> cases fault
    exact .inl rfl
  · split at fault <;> cases fault
    exact .inr rfl
  · cases fault

end Visit

namespace Expr

/-- The number of values on the stack after a node: a literal adds one, an operation replaces two
by one. -/
def depthAfter (depth : Nat) : Expr → Nat
  | literal _ => depth + 1
  | binary _ _ _ => depth - 1

/-- The visits of nodes in order, from an offset and a depth on. -/
def visitsFrom (offset depth : Nat) : List Expr → List Visit
  | [] => []
  | e :: rest =>
    ⟨e, offset, depth⟩ :: visitsFrom (offset + e.instruction.size) (e.depthAfter depth) rest

def visits (e : Expr) : List Visit := visitsFrom 0 0 e.postorder

def size (e : Expr) : Nat := (Stream.encode e.code).length

/-- The fault of the first visit that has one. -/
def firstFault (limit offset depth : Nat) (e : Expr) : Option Fault :=
  (visitsFrom offset depth e.postorder).findSome? (·.fault? limit)

theorem map_record_visitsFrom (offset depth : Nat) (nodes : List Expr) :
    (visitsFrom offset depth nodes).map (·.record) =
      Stream.layout offset (nodes.map instruction) := by
  induction nodes generalizing offset depth with
  | nil => rfl
  | cons e rest ih => rw [visitsFrom, List.map_cons, ih, List.map_cons, Stream.layout]; rfl

theorem visitsFrom_append (offset depth : Nat) (first second : List Expr) :
    visitsFrom offset depth (first ++ second) =
      visitsFrom offset depth first ++
        visitsFrom (offset + (Stream.encode (first.map instruction)).length)
          (first.foldl depthAfter depth) second := by
  induction first generalizing offset depth with
  | nil => rfl
  | cons e rest ih =>
    rw [List.cons_append, visitsFrom, ih, visitsFrom, List.cons_append, List.map_cons,
      Stream.encode_cons, List.length_append, Instruction.length_encode, Nat.add_assoc,
      List.foldl_cons]

/-- A whole expression leaves one value. -/
theorem foldl_depthAfter (e : Expr) (depth : Nat) :
    e.postorder.foldl depthAfter depth = depth + 1 := by
  induction e generalizing depth with
  | literal v => rfl
  | binary left op right ihl ihr =>
    rw [postorder, List.foldl_append, List.foldl_append, ihl, ihr]
    rfl

theorem visitsFrom_binary (offset depth : Nat) (left : Expr) (op : ArithOp) (right : Expr) :
    visitsFrom offset depth (binary left op right).postorder =
      visitsFrom offset depth left.postorder ++
        visitsFrom (offset + left.size) (depth + 1) right.postorder ++
        [⟨binary left op right, offset + left.size + right.size, depth + 2⟩] := by
  rw [postorder, visitsFrom_append, visitsFrom_append, List.foldl_append, foldl_depthAfter,
    foldl_depthAfter, List.map_append, Stream.encode_append, List.length_append, ← Nat.add_assoc]
  rfl

theorem firstFault_literal (limit offset depth : Nat) (v : Value) :
    (literal v).firstFault limit offset depth =
      if depth < limit then none else some (.stackOverflow limit) := by
  rw [firstFault, postorder, visitsFrom, visitsFrom, List.findSome?_singleton]
  rfl

theorem firstFault_binary (limit offset depth : Nat) (left : Expr) (op : ArithOp) (right : Expr) :
    (binary left op right).firstFault limit offset depth =
      ((left.firstFault limit offset depth).or
        (right.firstFault limit (offset + left.size) (depth + 1))).or
        (Visit.fault? limit
          ⟨binary left op right, offset + left.size + right.size, depth + 2⟩) := by
  rw [firstFault, visitsFrom_binary, List.findSome?_append, List.findSome?_append,
    List.findSome?_singleton]
  rfl

/-- With both operands defined, an operation faults exactly when it is undefined itself. -/
theorem fault?_binary {left right : Expr} {a b : Int} (dividend : left.denote = some a)
    (divisor : right.denote = some b) (op : ArithOp) (limit offset depth : Nat) :
    Visit.fault? limit ⟨binary left op right, offset, depth⟩ =
      if (binary left op right).denote = none then some (.divisionByZero offset) else none := by
  simp only [denote_binary dividend divisor, Option.map_eq_none_iff, ArithOp.result?_eq_none_iff]
  cases op <;> simp [Visit.fault?, divisor]

/-- No visit finds the stack full exactly when there is room for what the expression needs. -/
theorem need_le_iff (e : Expr) (limit offset depth : Nat) :
    depth + e.need ≤ limit ↔
      ∀ v ∈ visitsFrom offset depth e.postorder, v.fault? limit ≠ some (.stackOverflow limit) := by
  simp only [ne_eq, Visit.fault?_eq_overflow_iff]
  induction e generalizing offset depth with
  | literal v =>
    have same : ∃ value, literal v = literal value := ⟨v, rfl⟩
    simp only [need, postorder, visitsFrom, List.forall_mem_singleton, same, true_and, and_true]
    omega
  | binary left op right ihl ihr =>
    rw [visitsFrom_binary]
    simp only [List.forall_mem_append, List.forall_mem_singleton, ← ihl, ← ihr, need,
      reduceCtorEq, exists_false, and_false, not_false_iff, and_true]
    omega

/-- A division by zero anywhere leaves the whole expression undefined. -/
theorem denote_eq_none {e : Expr} {limit offset depth place : Nat} {v : Visit}
    (member : v ∈ visitsFrom offset depth e.postorder)
    (fault : v.fault? limit = some (.divisionByZero place)) : e.denote = none := by
  obtain ⟨_, left, right, b, division, divisor, zero⟩ := Visit.fault?_eq_division_iff.mp fault
  induction e generalizing offset depth with
  | literal value =>
    rw [List.mem_singleton.mp member] at division
    cases division
  | binary first op second ihl ihr =>
    rw [visitsFrom_binary, List.mem_append, List.mem_append, List.mem_singleton] at member
    rcases member with (inside | inside) | same
    · rw [denote, ihl inside]
      rfl
    · rw [denote, ihr inside]
      cases first.denote <;> rfl
    · rw [same] at division
      cases division
      rw [denote, divisor]
      cases left.denote <;> simp [ArithOp.result?, zero]

end Expr

end Wordcode
