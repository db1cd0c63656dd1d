import Wordcode.Engine
import Wordcode.Listing
import Wordcode.Proofs.Height
import Wordcode.Proofs.Reading
import Wordcode.Proofs.Statements

/-!
# The shape of compiled programs

An accepted tree is compiled to the records of the nodes of its expression in post-order and a
final return. The stream decodes, is valid, and therefore runs the same whether it is validated
before or not.
-/

namespace Wordcode

namespace Expr

theorem validate_program (e : Expr) : e.program.validate = .ok () :=
  Program.validate_encode_ret [] _ fun _ member => (opcode_of_mem_code member).2

theorem decode_program (e : Expr) :
    Stream.decode e.program.code = ⟨Stream.layout 0 (e.code ++ [.ret]), none⟩ :=
  Stream.decode_encode _

end Expr

namespace Engine

/-- A valid program is run, and the word that is left is read at its result kind. -/
theorem execute_of_valid {p : Program} (valid : p.validate = .ok ()) (engine : Engine) :
    engine.execute p =
      ((Machine.run engine.config.maxStackDepth p.code).mapError .fault).map
        (.ofWord (p.resultKind.getD .i64)) := by
  unfold execute
  rw [valid]
  cases engine.config.verifyPrograms <;>
    cases Machine.run engine.config.maxStackDepth p.code <;> rfl

theorem evaluate_of_returns {t : Tree} {e : Expr} (returns : t.Returns e) (engine : Engine) :
    engine.evaluate t =
      ((Machine.run engine.config.maxStackDepth e.program.code).mapError .fault).map
        (.ofWord e.kind) := by
  rw [evaluate, compile, Tree.compile_of_returns returns]
  exact execute_of_valid e.validate_program engine

/-- Only the machine raises faults. -/
theorem run_of_execute {engine : Engine} {p : Program} {f : Fault}
    (failed : engine.execute p = .error (.fault f)) :
    Machine.run engine.config.maxStackDepth p.code = .error f := by
  revert failed
  unfold execute
  cases engine.config.verifyPrograms <;> cases p.validate <;>
    cases Machine.run engine.config.maxStackDepth p.code <;> intro failed <;> cases failed <;> rfl

end Engine

/-- Whatever is accepted returns an expression. Its program decodes without an error into a record
for each node of the expression in post-order, and a return; each offset is the sum of the sizes
before it. So it is valid, it has a disassembly, and validation makes no difference to its
value. -/
theorem Tree.compile_records {t : Tree} {p : Program} (accepted : t.compile = .ok p) :
    ∃ e : Expr, t.Returns e ∧ p.resultKind = some e.kind ∧
      (Stream.decode p.code).failure = none ∧
      (Stream.decode p.code).records.map (fun r => (r.opcode, r.instruction.immediate)) =
        e.postorder.map (fun n => (n.opcode, n.immediate)) ++ [(.ret, 0)] ∧
      (∀ i r, (Stream.decode p.code).records[i]? = some r →
        r.offset = (((Stream.decode p.code).records.take i).map (·.instruction.size)).sum) ∧
      p.validate = .ok () ∧ (∃ text, p.disassemble = .ok text) ∧
      ∀ first second : Engine, first.config.maxStackDepth = second.config.maxStackDepth →
        first.evaluate t = second.evaluate t := by
  obtain ⟨e, returns, rfl⟩ := Tree.compile_ok_iff.mp accepted
  have decoded := e.decode_program
  refine ⟨e, returns, rfl, by rw [decoded], ?_, ?_, e.validate_program, ?_, ?_⟩
  · have pairs := Stream.map_layout (fun i => (i.opcode, i.immediate)) 0 (e.code ++ [.ret])
    rw [List.map_append, Expr.code, List.map_map] at pairs
    rw [decoded]
    exact pairs
  · intro i r found
    rw [decoded] at found ⊢
    rw [Stream.offset_layout found, Nat.zero_add]
  · rw [Program.disassemble, decoded]
    exact ⟨_, rfl⟩
  · intro first second same
    rw [Engine.evaluate_of_returns returns, Engine.evaluate_of_returns returns, same]

/-- A nested return of `-1 + 80`, whose last immediate is the byte of a return. -/
theorem Tree.compile_records_nested :
    let t : Tree := ⟨[.compound [.variableDecl "x" none none, .function "main" []
      [.ret (Expr.binary (.literal ⟨⟨.w8, true⟩, -1, by decide⟩) .add
        (.literal ⟨⟨.w8, false⟩, 80, by decide⟩)).node]]]⟩
    let p : Program := ⟨[0x01, 0xFF, 0x02, 0x50, 0x10, 0x50], some ⟨.w8, true⟩⟩
    t.compile = .ok p ∧ ∃ e : Expr, t.Returns e ∧
      (Stream.decode p.code).records.map (fun r => (r.opcode, r.instruction.immediate)) =
        e.postorder.map (fun n => (n.opcode, n.immediate)) ++ [(.ret, 0)] := by
  intro t p
  have accepted : t.compile = .ok p := by rfl
  obtain ⟨e, returns, _, _, records, _⟩ := Tree.compile_records accepted
  exact ⟨accepted, e, returns, records⟩

end Wordcode
