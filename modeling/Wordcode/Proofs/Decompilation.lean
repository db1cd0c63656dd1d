import Wordcode.Proofs.Compilation
import Wordcode.Proofs.Grammar

/-!
# From code back to expressions

Code in postfix order is read back on a stack of expressions. `resolve` does the same on their kinds
alone, and accepts no less (`resolveAll_map_kind`); what is read back is lowered to the code it was
read from (`stackCode_rebuildAll`), and the code of an expression is read back as that expression
(`rebuildAll_code`). So the streams that come from trees are those that resolve to one kind.
-/

namespace Wordcode

namespace Instruction

/-- The effect of an instruction on a stack of kinds, the top one first. An operation must be at the
kind its operands resolve to. -/
def resolve (stack : List Kind) (i : Instruction) : Option (List Kind) :=
  match i.opcode with
  | .nop | .ret => some stack
  | .push k => some (k :: stack)
  | .arith _ k =>
    match stack with
    | b :: a :: below => if k = a.promote b then some (k :: below) else none
    | _ => none

def resolveAll (stack : List Kind) (instructions : List Instruction) : Option (List Kind) :=
  instructions.foldlM resolve stack

/-- The effect of an instruction on a stack of expressions. -/
def rebuild (stack : List Expr) (i : Instruction) : Option (List Expr) :=
  match i.opcode with
  | .nop | .ret => some stack
  | .push k => some (.literal (.ofWord k (UInt64.ofNat i.immediate)) :: stack)
  | .arith op k =>
    match stack with
    | right :: left :: below =>
      if k = left.kind.promote right.kind then some (.binary left op right :: below) else none
    | _ => none

def rebuildAll (stack : List Expr) (instructions : List Instruction) : Option (List Expr) :=
  instructions.foldlM rebuild stack

theorem resolve_map_kind (stack : List Expr) (i : Instruction) :
    resolve (stack.map Expr.kind) i = (rebuild stack i).map (List.map Expr.kind) := by
  unfold resolve rebuild
  cases i.opcode with
  | nop | ret | push => rfl
  | arith op k =>
    rcases stack with _ | ⟨right, _ | ⟨left, below⟩⟩
    · rfl
    · rfl
    · by_cases same : k = left.kind.promote right.kind
      · simp [same, Expr.kind]
      · simp [same]

theorem resolveAll_map_kind (stack : List Expr) (instructions : List Instruction) :
    resolveAll (stack.map Expr.kind) instructions =
      (rebuildAll stack instructions).map (List.map Expr.kind) := by
  induction instructions generalizing stack with
  | nil => rfl
  | cons i rest ih =>
    simp only [resolveAll, rebuildAll, List.foldlM_cons, resolve_map_kind]
    cases rebuild stack i with
    | none => rfl
    | some next => exact ih next

theorem resolveAll_append_ret (stack : List Kind) (instructions : List Instruction) :
    resolveAll stack (instructions ++ [.ret]) = resolveAll stack instructions := by
  unfold resolveAll
  rw [List.foldlM_append]
  cases instructions.foldlM resolve stack <;> rfl

end Instruction

namespace Expr

/-- A push is the instruction of the literal that it is read back as. -/
theorem instruction_ofWord {i : Instruction} {k : Kind} (pushes : i.opcode = .push k) :
    (literal (.ofWord k (UInt64.ofNat i.immediate))).instruction = i := by
  have residue := Instruction.integer_emod pushes
  apply Instruction.ext
  · exact pushes.symm
  · show (k.integer (UInt64.ofNat i.immediate) % 2 ^ k.bits).toNat = i.immediate
    omega

/-- Whatever lies on the stack, the code of an expression is read back as the expression. -/
theorem rebuildAll_code (e : Expr) (stack : List Expr) :
    Instruction.rebuildAll stack e.code = some (e :: stack) := by
  induction e generalizing stack with
  | literal v =>
    have same : Value.ofWord v.kind (UInt64.ofNat (literal v).immediate) = v :=
      Value.ext rfl (integer_immediate v)
    exact congrArg (fun v => some (literal v :: stack)) same
  | binary left op right ihl ihr =>
    unfold Instruction.rebuildAll at ihl ihr ⊢
    rw [code_binary, List.foldlM_append, List.foldlM_append, ihl, Option.bind_eq_bind,
      Option.bind_some, ihr]
    simp [Instruction.rebuild, Instruction.arith]

/-- The code of the expressions on a stack, the bottom one first. -/
def stackCode (stack : List Expr) : List Instruction := stack.reverse.flatMap code

@[simp] theorem stackCode_cons (e : Expr) (stack : List Expr) :
    stackCode (e :: stack) = stackCode stack ++ e.code := by
  simp [stackCode]

-- An instruction that does nothing would leave no trace on the stack, so it is excluded.
theorem stackCode_rebuild {stack next : List Expr} {i : Instruction}
    (works : i.opcode ≠ .nop ∧ i.opcode ≠ .ret) (built : Instruction.rebuild stack i = some next) :
    stackCode next = stackCode stack ++ [i] := by
  unfold Instruction.rebuild at built
  split at built
  · next idle => exact absurd idle works.1
  · next idle => exact absurd idle works.2
  · next k pushes =>
    obtain rfl := Option.some.inj built
    rw [stackCode_cons, code_literal, instruction_ofWord pushes]
  · next op k computes =>
    split at built
    · next right left below =>
      split at built
      · next same =>
        obtain rfl := Option.some.inj built
        rw [stackCode_cons, stackCode_cons, stackCode_cons, code_binary,
          Instruction.eq_of_opcode_eq (j := .arith op k) computes rfl, same, List.append_assoc,
          List.append_assoc, List.append_assoc]
      · cases built
    · cases built

/-- What is read back from instructions is lowered to them, behind what lay on the stack. -/
theorem stackCode_rebuildAll {stack final : List Expr} {instructions : List Instruction}
    (work : ∀ i ∈ instructions, i.opcode ≠ .nop ∧ i.opcode ≠ .ret)
    (built : Instruction.rebuildAll stack instructions = some final) :
    stackCode final = stackCode stack ++ instructions := by
  induction instructions generalizing stack with
  | nil =>
    obtain rfl := Option.some.inj built
    rw [List.append_nil]
  | cons i rest ih =>
    obtain ⟨works, others⟩ := List.forall_mem_cons.mp work
    unfold Instruction.rebuildAll at built
    rw [List.foldlM_cons, Option.bind_eq_bind, Option.bind_eq_some_iff] at built
    obtain ⟨next, first, following⟩ := built
    rw [ih others following, stackCode_rebuild works first, List.append_assoc,
      List.singleton_append]

theorem code_inj {e f : Expr} (same : e.code = f.code) : e = f := by
  have built := rebuildAll_code e []
  rw [same, rebuildAll_code f []] at built
  exact (List.cons.inj (Option.some.inj built)).1.symm

theorem program_inj {e f : Expr} (same : e.program.code = f.program.code) : e = f :=
  code_inj (List.append_cancel_right (Stream.encode_inj same))

/-- Instructions that resolve to one kind are the code of an expression of that kind. -/
theorem exists_code_iff {instructions : List Instruction} {k : Kind} :
    (∃ e : Expr, instructions = e.code ∧ e.kind = k) ↔
      (∀ i ∈ instructions, i.opcode ≠ .nop ∧ i.opcode ≠ .ret) ∧
      Instruction.resolveAll [] instructions = some [k] := by
  constructor
  · rintro ⟨e, rfl, rfl⟩
    refine ⟨fun _ => opcode_of_mem_code, ?_⟩
    have resolved := Instruction.resolveAll_map_kind [] e.code
    rw [rebuildAll_code] at resolved
    exact resolved
  · rintro ⟨work, resolved⟩
    -- What resolves on kinds can be read back, to an expression of the kind that is left.
    have built := Instruction.resolveAll_map_kind [] instructions
    rw [List.map_nil, resolved, eq_comm, Option.map_eq_some_iff] at built
    obtain ⟨stack, built, kinds⟩ := built
    obtain ⟨e, rfl, kind⟩ := List.map_eq_singleton_iff.mp kinds
    have code := stackCode_rebuildAll work built
    refine ⟨e, ?_, kind⟩
    simpa [stackCode] using code.symm

/-- The code of an expression and a return are instructions that end in their only return, of which
none does nothing, and that resolve to one kind; and there are no others. -/
theorem exists_code_ret_iff {instructions : List Instruction} {k : Kind} :
    (∃ e : Expr, instructions = e.code ++ [.ret] ∧ e.kind = k) ↔
      (∃ body, instructions.map (·.opcode) = body ++ [.ret] ∧ .ret ∉ body) ∧
      .nop ∉ instructions.map (·.opcode) ∧
      Instruction.resolveAll [] instructions = some [k] := by
  constructor
  · rintro ⟨e, rfl, rfl⟩
    obtain ⟨work, resolved⟩ := exists_code_iff.mp ⟨e, rfl, rfl⟩
    have opcodes : ∀ op ∈ e.code.map (·.opcode), op ≠ .nop ∧ op ≠ .ret :=
      List.forall_mem_map.mpr work
    refine ⟨⟨_, List.map_append, fun member => (opcodes _ member).2 rfl⟩, ?_, ?_⟩
    · rw [List.map_append, List.mem_append]
      rintro (inside | last)
      · exact (opcodes _ inside).1 rfl
      · cases List.mem_singleton.mp last
    · rw [Instruction.resolveAll_append_ret, resolved]
  · rintro ⟨⟨body, opcodes, single⟩, idle, resolved⟩
    obtain ⟨front, last, rfl, rfl, final⟩ := List.map_eq_append_iff.mp opcodes
    obtain ⟨i, rfl, returns⟩ := List.map_eq_singleton_iff.mp final
    obtain rfl := Instruction.eq_of_opcode_eq (j := .ret) returns rfl
    rw [Instruction.resolveAll_append_ret] at resolved
    rw [List.map_append, List.mem_append, not_or] at idle
    have work : ∀ i ∈ front, i.opcode ≠ .nop ∧ i.opcode ≠ .ret := by
      intro i member
      have listed : i.opcode ∈ front.map (·.opcode) := List.mem_map_of_mem member
      exact ⟨fun nop => idle.1 (nop ▸ listed), fun ret => single (ret ▸ listed)⟩
    obtain ⟨e, rfl, kind⟩ := exists_code_iff.mpr ⟨work, resolved⟩
    exact ⟨e, rfl, kind⟩

end Expr

/-- The programs that trees are compiled to are those that decode without an error into records of
which the last is the only return and none does nothing, and that resolve to the one kind of the
result. Trees that are compiled to the same bytes return the same expression. -/
theorem Tree.compile_image :
    (∀ p : Program, (∃ t : Tree, t.compile = .ok p) ↔
      (Stream.decode p.code).failure = none ∧
      (∃ body, (Stream.decode p.code).records.map (·.opcode) = body ++ [.ret] ∧ .ret ∉ body) ∧
      .nop ∉ (Stream.decode p.code).records.map (·.opcode) ∧
      ∃ k, p.resultKind = some k ∧
        Instruction.resolveAll [] ((Stream.decode p.code).records.map (·.instruction)) =
          some [k]) ∧
    ∀ (t u : Tree) (p q : Program), t.compile = .ok p → u.compile = .ok q → p.code = q.code →
      ∃ e : Expr, t.Returns e ∧ u.Returns e := by
  constructor
  · intro p
    constructor
    · rintro ⟨t, accepted⟩
      obtain ⟨e, _, rfl⟩ := compile_ok_iff.mp accepted
      obtain ⟨ends, idle, resolved⟩ := Expr.exists_code_ret_iff.mp ⟨e, rfl, rfl⟩
      rw [e.decode_program, Stream.map_opcode_layout, Stream.map_instruction_layout]
      exact ⟨rfl, ends, idle, e.kind, rfl, resolved⟩
    · rintro ⟨clean, ends, idle, k, known, resolved⟩
      obtain ⟨instructions, whole⟩ := Stream.failure_eq_none_iff.mp clean
      rw [whole, Stream.decode_encode, Stream.map_opcode_layout] at ends idle
      rw [whole, Stream.decode_encode, Stream.map_instruction_layout] at resolved
      obtain ⟨e, rfl, rfl⟩ := Expr.exists_code_ret_iff.mpr ⟨ends, idle, resolved⟩
      refine ⟨ofExpr e.node, ?_⟩
      rw [compile_of_returns (returns_ofExpr e)]
      exact congrArg _ (Program.ext whole.symm known.symm)
  · intro t u p q first second same
    obtain ⟨e, returns, rfl⟩ := compile_ok_iff.mp first
    obtain ⟨f, returns', rfl⟩ := compile_ok_iff.mp second
    obtain rfl := Expr.program_inj same
    exact ⟨e, returns, returns'⟩

end Wordcode
