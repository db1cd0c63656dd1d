import Wordcode.Proofs.Execution
import Wordcode.Proofs.Expr

/-!
# Stack heights

How high the stack stands depends on the opcodes alone. Instructions whose walk over heights never
finds too few values cannot underflow the machine (`exec_of_height`). Whatever a lowering emits,
also one that fails, is such a list and leaves the stack at least as high as it was.
-/

namespace Wordcode

namespace Instruction

/-- The height of the stack after instructions, none if one of them finds too few values. -/
def height? (height : Nat) : List Instruction → Option Nat
  | [] => some height
  | i :: rest =>
    match i.opcode with
    | .nop | .ret => height? height rest
    | .push _ => height? (height + 1) rest
    | .arith _ _ => if 2 ≤ height then height? (height - 1) rest else none

/-- From every height on, the instructions raise the stack by a fixed amount. -/
def Raises (instructions : List Instruction) (rise : Nat) : Prop :=
  ∀ height, height? height instructions = some (height + rise)

theorem height?_append (height : Nat) (first second : List Instruction) :
    height? height (first ++ second) = (height? height first).bind (height? · second) := by
  induction first generalizing height with
  | nil => rfl
  | cons i rest ih =>
    rw [List.cons_append, height?, height?]
    split
    · exact ih height
    · exact ih height
    · exact ih (height + 1)
    · split
      · exact ih (height - 1)
      · rfl

theorem raises_nil : Raises [] 0 := fun _ => rfl

theorem Raises.append {first second : List Instruction} {low high : Nat} (below : Raises first low)
    (above : Raises second high) : Raises (first ++ second) (low + high) := by
  intro height
  rw [height?_append, below, Option.bind_some, above, Nat.add_assoc]

theorem raises_push (v : Value) : Raises [push v] 1 := fun _ => rfl

theorem raises_ret : Raises [ret] 0 := fun _ => rfl

/-- Two operands and their operation leave one value. -/
theorem Raises.arith {left right : List Instruction} (first : Raises left 1)
    (second : Raises right 1) (op : ArithOp) (k : Kind) :
    Raises (left ++ right ++ [Instruction.arith op k]) 1 := by
  intro height
  rw [height?_append, first.append second height, Option.bind_some]
  simp [height?, Instruction.arith]

end Instruction

namespace Machine

theorem push_cases (limit : Nat) (stack : Stack) (w : Word) :
    push limit stack w = .ok (w :: stack) ∨ push limit stack w = .error (.stackOverflow limit) := by
  unfold push
  split
  · exact .inl rfl
  · exact .inr rfl

/-- One instruction that finds enough values: it leaves a stack of the height that is walked on
from, or it overflows the stack or divides by zero. -/
theorem step_of_height {i : Instruction} {rest : List Instruction} {stack : Stack} {height : Nat}
    (walk : Instruction.height? stack.length (i :: rest) = some height) (limit offset : Nat) :
    (∃ next : Stack, step limit stack ⟨offset, i⟩ = .ok next ∧
      Instruction.height? next.length rest = some height) ∨
    step limit stack ⟨offset, i⟩ = .error (.stackOverflow limit) ∨
    step limit stack ⟨offset, i⟩ = .error (.divisionByZero offset) := by
  unfold step Record.opcode
  cases same : i.opcode with
  | nop | ret =>
    simp only [Instruction.height?, same] at walk
    exact .inl ⟨stack, rfl, walk⟩
  | push k =>
    simp only [Instruction.height?, same] at walk
    rcases push_cases limit stack (k.normalize (UInt64.ofNat i.immediate)) with pushed | full
    · exact .inl ⟨_, pushed, walk⟩
    · exact .inr (.inl full)
  | arith op k =>
    simp only [Instruction.height?, same] at walk
    split at walk
    · next enough =>
      obtain ⟨rhs, lhs, below, rfl⟩ : ∃ rhs lhs below, stack = rhs :: lhs :: below := by
        match stack with
        | rhs :: lhs :: below => exact ⟨rhs, lhs, below, rfl⟩
      dsimp only
      split
      · next w _ =>
        rcases push_cases limit below w with pushed | full
        · exact .inl ⟨_, pushed, walk⟩
        · exact .inr (.inl full)
      · exact .inr (.inr rfl)
    · cases walk

/-- Instructions that never find too few values leave a stack of the height that was walked to,
unless they overflow the stack or divide by zero. -/
theorem exec_of_height {instructions : List Instruction} {stack : Stack} {height : Nat}
    (walk : Instruction.height? stack.length instructions = some height) (limit offset : Nat) :
    (∃ final : Stack, exec limit stack (Stream.layout offset instructions) = .ok final ∧
      final.length = height) ∨
    exec limit stack (Stream.layout offset instructions) = .error (.stackOverflow limit) ∨
    ∃ place, exec limit stack (Stream.layout offset instructions) =
      .error (.divisionByZero place) := by
  induction instructions generalizing stack offset with
  | nil => exact .inl ⟨stack, rfl, Option.some.inj walk⟩
  | cons i rest ih =>
    rw [Stream.layout, exec_cons]
    rcases step_of_height walk limit offset with ⟨next, stepped, onward⟩ | full | divided
    · rw [stepped]
      exact ih onward (offset + i.size)
    · rw [full]
      exact .inr (.inl rfl)
    · rw [divided]
      exact .inr (.inr ⟨offset, rfl⟩)

/-- A stream that raises the stack runs without a fault of decoding or underflow. -/
theorem run_of_raises {instructions : List Instruction} {rise : Nat}
    (raises : Instruction.Raises instructions rise) (positive : 0 < rise) (limit : Nat) :
    (∀ e, run limit (Stream.encode instructions) ≠ .error (.decode e)) ∧
    ∀ offset, run limit (Stream.encode instructions) ≠ .error (.stackUnderflow offset) := by
  have walk : Instruction.height? ([] : Stack).length instructions = some (0 + rise) := raises 0
  rw [run_encode]
  rcases exec_of_height walk limit 0 with ⟨final, ran, high⟩ | full | ⟨place, divided⟩
  · rw [ran]
    match final with
    | [] =>
      rw [List.length_nil] at high
      omega
    | [w] => exact ⟨nofun, nofun⟩
    | _ :: _ :: _ => exact ⟨nofun, nofun⟩
  · rw [full]
    exact ⟨nofun, nofun⟩
  · rw [divided]
    exact ⟨nofun, nofun⟩

end Machine

/-- Instructions as a lowering may leave them behind: no return, and never too few values. -/
def Residue (instructions : List Instruction) : Prop :=
  (∀ i ∈ instructions, i.opcode ≠ .ret) ∧ ∃ rise, Instruction.Raises instructions rise

theorem residue_nil : Residue [] := ⟨nofun, 0, Instruction.raises_nil⟩

theorem Residue.append {first second : List Instruction} (before : Residue first)
    (after : Residue second) : Residue (first ++ second) := by
  obtain ⟨unreturned, low, below⟩ := before
  obtain ⟨unreturned', high, above⟩ := after
  exact ⟨List.forall_mem_append.mpr ⟨unreturned, unreturned'⟩, low + high, below.append above⟩

theorem Residue.countP_ret {instructions : List Instruction} (left : Residue instructions) :
    instructions.countP (·.opcode = .ret) = 0 := by
  rw [List.countP_eq_zero]
  intro i member
  simpa using left.1 i member

namespace Expr

theorem raises_code (e : Expr) : Instruction.Raises e.code 1 := by
  induction e with
  | literal v =>
    rw [code_literal, instruction_literal]
    exact Instruction.raises_push v
  | binary left op right ihl ihr =>
    rw [code_binary]
    exact ihl.arith ihr op _

theorem opcode_of_mem_code {e : Expr} {i : Instruction} (member : i ∈ e.code) :
    i.opcode ≠ .nop ∧ i.opcode ≠ .ret := by
  obtain ⟨node, _, rfl⟩ := List.mem_map.mp member
  cases node <;> exact ⟨Opcode.noConfusion, Opcode.noConfusion⟩

theorem residue_code (e : Expr) : Residue e.code :=
  ⟨fun _ member => (opcode_of_mem_code member).2, 1, e.raises_code⟩

end Expr

/-- Lowering leaves a residue behind whether it succeeds or not. -/
theorem Node.residue_lower (n : Node) : Residue n.lower.emitted := by
  fun_induction Node.lower n with
  | case1 v =>
    have whole := (Expr.literal v).residue_code
    rwa [Expr.code_literal, Expr.instruction_literal] at whole
  | case3 left op right ihl ihr =>
    rw [← Node.lower]
    cases whole : (binary left op right).lower.outcome with
    | ok k =>
      obtain ⟨e, same⟩ := Expr.exists_node_of_lower whole
      rw [same, e.lower_node]
      exact e.residue_code
    | error err =>
      rw [lower_binary] at whole ⊢
      split at whole
      · exact ihl
      · exact ihl.append ihr
      · exact ihl.append ihr
      · cases whole
  | case2 | case4 | case5 => exact residue_nil

end Wordcode
