import Wordcode.Proofs.Compilation

/-!
# Drafts over any history of calls

A draft may be called with any nodes in any order, and used on after a call that failed.
`step_perform` says all that a call can do to it: it appends instructions without a return, or it
appends the one return. `WellFormed` is what every history keeps.
-/

namespace Wordcode

inductive Call where
  | stmt (node : Node)
  | block (nodes : List Node)
  | expr (node : Node)

namespace Draft

/-- The draft after a call, whether the call succeeded or not. -/
def perform (d : Draft) : Call → Draft
  | .stmt node => (d.addStmt node).1
  | .block nodes => (d.addBlock nodes).1
  | .expr node => (d.addExpr node).1

def performAll (d : Draft) (calls : List Call) : Draft := calls.foldl perform d

/-- The number of returns in the code. -/
def returns (d : Draft) : Nat := (Stream.decode d.code).records.countP (·.opcode = .ret)

/-- No expression among the calls appends anything. -/
def Quiet (d : Draft) (calls : List Call) : Prop :=
  ∀ before node after, calls = before ++ .expr node :: after →
    ((d.performAll before).perform (.expr node)).code = (d.performAll before).code

/-- What a call can do to a draft. -/
inductive Step : Draft → Draft → Prop where
  | residue (d : Draft) {instructions : List Instruction} (left : Residue instructions) :
      Step d ⟨d.code ++ Stream.encode instructions, d.resultKind⟩
  | returned (code : List UInt8) (e : Expr) :
      Step ⟨code, none⟩ ⟨code ++ Stream.encode (e.code ++ [.ret]), some e.kind⟩

theorem Step.refl (d : Draft) : Step d d := by
  have nothing := Step.residue d residue_nil
  rwa [Stream.encode_nil, List.append_nil] at nothing

theorem step_addExpr (d : Draft) (node : Node) : Step d (d.addExpr node).1 :=
  .residue d node.residue_lower

/-- A return that fails leaves a residue, and one that succeeds is the return of an expression. -/
theorem addReturn_cases (d : Draft) (node : Node) :
    (∃ err instructions, Residue instructions ∧
      d.addReturn node = (⟨d.code ++ Stream.encode instructions, d.resultKind⟩, .error err)) ∨
    ∃ e : Expr, d.resultKind = none ∧
      d.addReturn node = (⟨d.code ++ Stream.encode (e.code ++ [.ret]), some e.kind⟩, .ok ()) := by
  rcases d with ⟨code, known | known⟩
  · cases lowered : node.lower.outcome with
    | error err =>
      refine .inl ⟨err, node.lower.emitted, node.residue_lower, ?_⟩
      simp only [addReturn, addExpr, lowered]
    | ok k =>
      obtain ⟨e, rfl⟩ := Expr.exists_node_of_lower lowered
      exact .inr ⟨e, rfl, addReturn_node rfl e⟩
  · refine .inl ⟨.codeAfterReturn, [], residue_nil, ?_⟩
    rw [addReturn, Stream.encode_nil, List.append_nil]

theorem step_addBlock (d : Draft) (nodes : List Node) : Step d (d.addBlock nodes).1 := by
  rw [addBlock_eq_flat]
  have plain : ∀ stmt ∈ Node.flatList nodes, stmt.isFlat := fun _ => Node.isFlat_of_mem_flatList _
  -- The first flat statement decides: it is refused, fails, or is the return.
  generalize Node.flatList nodes = stmts at plain ⊢
  rcases stmts with _ | ⟨stmt, rest⟩
  · rw [addBlock]
    exact .refl d
  cases stmt with
  | literal | unary | binary =>
    rw [addBlock, addStmt]
    exact .refl d
  | compound | variableDecl | functionDecl => cases plain _ List.mem_cons_self
  | ret value =>
    rw [addBlock, addStmt]
    rcases d.addReturn_cases value with ⟨err, left, residue, failed⟩ | ⟨e, unreturned, done⟩
    · rw [failed]
      exact .residue d residue
    · rw [done]
      dsimp only
      rw [addBlock_of_returned rfl]
      rcases d with ⟨code, _⟩
      cases unreturned
      exact .returned code e

theorem step_perform (d : Draft) (call : Call) : Step d (d.perform call) := by
  cases call with
  | stmt node =>
    rw [perform, addStmt_eq_flat]
    exact d.step_addBlock _
  | block nodes => exact d.step_addBlock nodes
  | expr node => exact d.step_addExpr node

/-- What every history keeps: the code is a residue, or a residue with the one return in it, before
which the stack has risen. -/
inductive WellFormed : Draft → Prop where
  | unreturned {before : List Instruction} (left : Residue before) :
      WellFormed ⟨Stream.encode before, none⟩
  | returned {before after : List Instruction} {rise : Nat} (k : Kind) (left : Residue before)
      (raises : Instruction.Raises before (rise + 1)) (added : Residue after) :
      WellFormed ⟨Stream.encode (before ++ .ret :: after), some k⟩

theorem WellFormed.step {d next : Draft} (formed : WellFormed d) (stepped : Step d next) :
    WellFormed next := by
  cases formed with
  | unreturned left =>
    cases stepped with
    | residue _ added =>
      rw [← Stream.encode_append]
      exact .unreturned (left.append added)
    | returned _ e =>
      obtain ⟨rise, raises⟩ := left.2
      rw [← Stream.encode_append, ← List.append_assoc]
      exact .returned e.kind (left.append e.residue_code) (raises.append e.raises_code) residue_nil
  | returned k left raises added =>
    cases stepped with
    | residue _ more =>
      rw [← Stream.encode_append, List.append_assoc]
      exact .returned k left raises (added.append more)

theorem wellFormed_performAll (calls : List Call) : WellFormed (empty.performAll calls) := by
  have folded : ∀ d, WellFormed d → WellFormed (d.performAll calls) := by
    induction calls with
    | nil => exact fun _ formed => formed
    | cons call rest ih => exact fun d formed => ih _ (formed.step (d.step_perform call))
  exact folded empty (.unreturned residue_nil)

theorem returns_encode (instructions : List Instruction) (k : Option Kind) :
    returns ⟨Stream.encode instructions, k⟩ = instructions.countP (·.opcode = .ret) := by
  have listed := Stream.map_layout (·.opcode) 0 instructions
  have counted := congrArg (List.countP (· = .ret)) listed
  rw [List.countP_map, List.countP_map] at counted
  rw [returns, Stream.decode_encode]
  exact counted

theorem WellFormed.returns_eq {d : Draft} (formed : WellFormed d) :
    d.returns = if d.resultKind.isSome then 1 else 0 := by
  cases formed with
  | unreturned left =>
    rw [returns_encode, left.countP_ret]
    rfl
  | returned k left _ added =>
    rw [returns_encode, List.countP_append, List.countP_cons, left.countP_ret,
      added.countP_ret]
    rfl

theorem WellFormed.failure_eq_none {d : Draft} (formed : WellFormed d) :
    (Stream.decode d.code).failure = none := by
  cases formed <;> rw [Stream.decode_encode]

/-- A return succeeds exactly when it adds one to the code. -/
theorem WellFormed.addStmt_ret_ok_iff {d : Draft} (formed : WellFormed d) (node : Node) :
    (d.addStmt (.ret node)).2 = .ok () ↔
      (d.perform (.stmt (.ret node))).returns = d.returns + 1 := by
  have next := formed.step (d.step_perform (.stmt (.ret node)))
  rw [next.returns_eq, formed.returns_eq, perform, addStmt]
  rcases d.addReturn_cases node with ⟨err, left, -, failed⟩ | ⟨e, unreturned, done⟩
  · rw [failed]
    simp
  · rw [done, unreturned]
    simp

theorem perform_return {d : Draft} (unreturned : d.resultKind = none) (e : Expr) :
    d.perform (.stmt (.ret e.node)) =
      ⟨d.code ++ Stream.encode (e.code ++ [.ret]), some e.kind⟩ := by
  rw [perform, addStmt, addReturn_node unreturned]

/-- A well-formed draft that has returned runs without a fault of decoding or underflow. -/
theorem WellFormed.run_ne {d : Draft} (formed : WellFormed d) (returned : d.resultKind.isSome)
    (limit : Nat) :
    (∀ e, Machine.run limit d.code ≠ .error (.decode e)) ∧
      ∀ offset, Machine.run limit d.code ≠ .error (.stackUnderflow offset) := by
  cases formed with
  | unreturned => cases returned
  | returned k left raises added =>
    obtain ⟨more, onward⟩ := added.2
    have whole := raises.append (Instruction.raises_ret.append onward)
    exact Machine.run_of_raises whole (by omega) limit

theorem performAll_cons (d : Draft) (call : Call) (rest : List Call) :
    d.performAll (call :: rest) = (d.perform call).performAll rest := rfl

theorem performAll_append (d : Draft) (first second : List Call) :
    d.performAll (first ++ second) = (d.performAll first).performAll second := List.foldl_append

theorem Step.grows {d next : Draft} (stepped : Step d next) : d.code <+: next.code := by
  cases stepped with
  | residue => exact List.prefix_append _ _
  | returned => exact List.prefix_append _ _

theorem prefix_performAll (d : Draft) (calls : List Call) :
    d.code <+: (d.performAll calls).code := by
  induction calls generalizing d with
  | nil => exact List.prefix_rfl
  | cons call rest ih => exact (d.step_perform call).grows.trans (ih _)

/-! ### After the return -/

theorem Step.of_returned {d next : Draft} (returned : d.resultKind.isSome) (stepped : Step d next) :
    ∃ added, Residue added ∧ next = ⟨d.code ++ Stream.encode added, d.resultKind⟩ := by
  cases stepped with
  | residue _ residue => exact ⟨_, residue, rfl⟩
  | returned => cases returned

theorem performAll_of_returned {d : Draft} (returned : d.resultKind.isSome) (calls : List Call) :
    ∃ added, Residue added ∧
      d.performAll calls = ⟨d.code ++ Stream.encode added, d.resultKind⟩ := by
  induction calls generalizing d with
  | nil => exact ⟨[], residue_nil, by simp [performAll]⟩
  | cons call rest ih =>
    obtain ⟨first, left, stepped⟩ := (d.step_perform call).of_returned returned
    obtain ⟨second, right, final⟩ := ih (d := d.perform call) (by rw [stepped]; exact returned)
    refine ⟨first ++ second, left.append right, ?_⟩
    rw [performAll_cons, final, stepped, Stream.encode_append, List.append_assoc]

/-- Statements and blocks append nothing after the return. -/
theorem code_perform_of_returned {d : Draft} (returned : d.resultKind.isSome) :
    (∀ node, (d.perform (.stmt node)).code = d.code) ∧
      ∀ nodes, (d.perform (.block nodes)).code = d.code := by
  constructor
  · intro node
    rw [perform, addStmt_eq_flat, addBlock_of_returned returned]
  · intro nodes
    rw [perform, addBlock_of_returned returned]

/-- The calls are quiet exactly when they leave the code as it was. -/
theorem quiet_iff {d : Draft} (returned : d.resultKind.isSome) (calls : List Call) :
    d.Quiet calls ↔ (d.performAll calls).code = d.code := by
  constructor
  · intro quiet
    induction calls generalizing d with
    | nil => rfl
    | cons call rest ih =>
      have unchanged : (d.perform call).code = d.code := by
        cases call with
        | stmt node => exact (code_perform_of_returned returned).1 node
        | block nodes => exact (code_perform_of_returned returned).2 nodes
        | expr node => exact quiet [] node rest rfl
      obtain ⟨_, _, stepped⟩ := (d.step_perform call).of_returned returned
      rw [performAll_cons, ← unchanged]
      apply ih
      · rw [stepped]
        exact returned
      · intro before node after split
        exact quiet (call :: before) node after (by rw [split, List.cons_append])
  · intro same before node after split
    subst split
    rw [performAll_append, performAll_cons] at same
    have first := (d.prefix_performAll before).length_le
    have second := ((d.performAll before).step_perform (.expr node)).grows
    have third := (((d.performAll before).perform (.expr node)).prefix_performAll after).length_le
    rw [same] at third
    exact (second.eq_of_length_le (by omega)).symm

theorem exists_return {d : Draft} {calls : List Call} (unreturned : d.resultKind = none)
    (returned : (d.performAll calls).resultKind.isSome) :
    ∃ before call later, calls = before ++ call :: later ∧
      (d.performAll before).resultKind = none ∧
      (d.performAll (before ++ [call])).resultKind.isSome := by
  induction calls generalizing d with
  | nil =>
    rw [performAll, List.foldl_nil, unreturned] at returned
    cases returned
  | cons call rest ih =>
    cases known : (d.perform call).resultKind with
    | some k => exact ⟨[], call, rest, rfl, unreturned, Option.isSome_of_eq_some known⟩
    | none =>
      obtain ⟨before, found, later, rfl, first, second⟩ := ih known returned
      exact ⟨call :: before, found, later, rfl, first, second⟩

/-- The call that adds the return leaves it at the end of the code. -/
theorem WellFormed.step_return {d next : Draft} (formed : WellFormed d) (stepped : Step d next)
    (unreturned : d.resultKind = none) (returned : next.resultKind.isSome) :
    ∃ before, Residue before ∧ next.code = Stream.encode (before ++ [.ret]) := by
  cases stepped with
  | residue =>
    rw [unreturned] at returned
    cases returned
  | returned code e =>
    cases formed with
    | unreturned left =>
      refine ⟨_, left.append e.residue_code, ?_⟩
      rw [List.append_assoc]
      exact (Stream.encode_append _ _).symm

/-- Validation after any further calls: the return, with which the code ended, must still be its
end. -/
theorem validate_performAll {d : Draft} {before : List Instruction} (left : Residue before)
    (code : d.code = Stream.encode (before ++ [.ret])) (returned : d.resultKind.isSome)
    (later : List Call) (k : Option Kind) :
    ⟨d.code.length - 1, .ret⟩ ∈ (Stream.decode (d.performAll later).code).records ∧
    Program.validate ⟨(d.performAll later).code, k⟩ =
      if (d.performAll later).code = d.code then .ok ()
      else .error (.codeAfterReturn (d.code.length - 1)) := by
  obtain ⟨added, _, final⟩ := performAll_of_returned returned later
  have whole : (d.performAll later).code = Stream.encode (before ++ .ret :: added) := by
    rw [final, code, ← Stream.encode_append, List.append_assoc]
    rfl
  have place : d.code.length - 1 = (Stream.encode before).length := by
    rw [code, Stream.encode_append, List.length_append]
    rfl
  have same : (d.performAll later).code = d.code ↔ added = [] := by
    rw [final, List.append_right_eq_self, Stream.encode_eq_nil_iff]
  rw [place, if_congr same rfl rfl, whole]
  constructor
  · rw [Stream.decode_encode, Stream.layout_append, Nat.zero_add]
    exact List.mem_append_right _ List.mem_cons_self
  · exact Program.validate_encode_ret added k left.1

theorem finish_eq_ok {d : Draft} {p : Program} (finished : d.finish = .ok p) :
    d.resultKind.isSome ∧ p = ⟨d.code, d.resultKind⟩ := by
  unfold finish at finished
  split at finished
  · next k known =>
    cases finished
    exact ⟨Option.isSome_of_eq_some known, by rw [known]⟩
  · cases finished

/-- The calls of a history that has returned: up to the return, the one that adds it, and those
after it, on which the validity of the program depends. -/
theorem validate_history {calls : List Call}
    (returned : (empty.performAll calls).resultKind.isSome) (k : Option Kind) :
    ∃ before call later, calls = before ++ call :: later ∧
      (empty.performAll before).resultKind = none ∧
      let r := empty.performAll (before ++ [call])
      r.resultKind.isSome ∧
      ⟨r.code.length - 1, .ret⟩ ∈ (Stream.decode (empty.performAll calls).code).records ∧
      (Program.validate ⟨(empty.performAll calls).code, k⟩ = .ok () ↔ r.Quiet later) ∧
      (¬ r.Quiet later → Program.validate ⟨(empty.performAll calls).code, k⟩ =
        .error (.codeAfterReturn (r.code.length - 1))) := by
  obtain ⟨before, call, later, rfl, unreturned, found⟩ := exists_return rfl returned
  have stepped : Step (empty.performAll before) (empty.performAll (before ++ [call])) := by
    rw [performAll_append]
    exact step_perform _ call
  obtain ⟨code, left, same⟩ := (wellFormed_performAll before).step_return stepped unreturned found
  obtain ⟨place, valid⟩ := validate_performAll left same found later k
  have whole : empty.performAll (before ++ call :: later) =
      (empty.performAll (before ++ [call])).performAll later := by
    rw [← performAll_append, List.append_assoc]
    rfl
  refine ⟨before, call, later, rfl, unreturned, found, ?_⟩
  rw [whole, valid, quiet_iff found]
  refine ⟨place, ?_, ?_⟩
  · split
    · next quiet => exact iff_of_true rfl quiet
    · next loud => exact iff_of_false nofun loud
  · intro loud
    rw [if_neg loud]

/-- Over any history of calls, failed ones included, the code decodes into whole records, only
grows, and holds a return exactly when the result kind is known; there is never a second one. A
return statement succeeds exactly when it adds that one, and before it the return of any expression
does. After the return, statements and blocks append nothing. A finished program is valid exactly
when no later expression has appended anything, and it never fails to decode or underflows. -/
theorem performAll_history (calls : List Call) :
    let d := empty.performAll calls
    (Stream.decode d.code).failure = none ∧
    (∀ call, d.code <+: (d.perform call).code) ∧
    d.returns ≤ 1 ∧ (d.resultKind.isSome ↔ d.returns = 1) ∧
    (∀ node, (d.addStmt (.ret node)).2 = .ok () ↔
      (d.perform (.stmt (.ret node))).returns = d.returns + 1) ∧
    (d.resultKind = none → ∀ e : Expr, d.perform (.stmt (.ret e.node)) =
      ⟨d.code ++ Stream.encode (e.code ++ [.ret]), some e.kind⟩) ∧
    d.finish = (if d.returns = 1 then .ok ⟨d.code, d.resultKind⟩ else .error .missingReturn) ∧
    (d.resultKind.isSome → (∀ node, (d.perform (.stmt node)).code = d.code) ∧
      ∀ nodes, (d.perform (.block nodes)).code = d.code) ∧
    ∀ p, d.finish = .ok p →
      (∃ before call later, calls = before ++ call :: later ∧
        (empty.performAll before).resultKind = none ∧
        let r := empty.performAll (before ++ [call])
        r.resultKind.isSome ∧
        ⟨r.code.length - 1, .ret⟩ ∈ (Stream.decode p.code).records ∧
        (p.validate = .ok () ↔ r.Quiet later) ∧
        (¬ r.Quiet later → p.validate = .error (.codeAfterReturn (r.code.length - 1)))) ∧
      (∀ limit e, Machine.run limit p.code ≠ .error (.decode e)) ∧
      (∀ limit offset, Machine.run limit p.code ≠ .error (.stackUnderflow offset)) ∧
      (∀ (engine : Engine) e, engine.execute p ≠ .error (.fault (.decode e))) ∧
      ∀ (engine : Engine) offset, engine.execute p ≠ .error (.fault (.stackUnderflow offset)) := by
  intro d
  have formed : WellFormed d := wellFormed_performAll calls
  have count := formed.returns_eq
  refine ⟨formed.failure_eq_none, fun call => (d.step_perform call).grows, ?_, ?_,
    formed.addStmt_ret_ok_iff, perform_return, ?_, code_perform_of_returned, ?_⟩
  · rw [count]
    split <;> omega
  · rw [count]
    cases d.resultKind <;> simp
  · rw [count]
    unfold finish
    cases d.resultKind <;> rfl
  · intro p finished
    obtain ⟨returned, rfl⟩ := finish_eq_ok finished
    have decodes := fun limit => (formed.run_ne returned limit).1
    have filled := fun limit => (formed.run_ne returned limit).2
    refine ⟨validate_history returned _, decodes, filled, ?_, ?_⟩
    · intro engine e failed
      exact decodes _ e (Engine.run_of_execute failed)
    · intro engine offset failed
      exact filled _ offset (Engine.run_of_execute failed)

end Draft

end Wordcode
