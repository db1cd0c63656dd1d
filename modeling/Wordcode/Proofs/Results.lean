import Wordcode.Proofs.Evaluation

/-!
# Typed and raw results

The machine leaves a word without a kind. A typed result is that word read at the result kind of the
program, a raw one the same word as a signed 64-bit integer. For a compiled program nothing is lost
by the typed reading: the word it leaves is already in normal form at its result kind
(`normalize_of_run`).
-/

namespace Wordcode

theorem Word.ofInt_signed (w : Word) : UInt64.ofInt w.signed = w := by
  rw [Word.signed, ← Word.toInt_toInt64, Word.ofInt_toInt, UInt64.toUInt64_toInt64]

theorem Value.word_ofWord (k : Kind) (w : Word) : (ofWord k w).word = k.normalize w :=
  (k.normalize_eq_ofInt w).symm

namespace Engine

/-- Until the word is read at it, the result kind plays no part. -/
theorem execute_cases (engine : Engine) (code : List UInt8) :
    (∃ err, ∀ k, engine.execute ⟨code, k⟩ = .error err) ∨
    ∃ w, Machine.run engine.config.maxStackDepth code = .ok w ∧
      ∀ k, engine.execute ⟨code, k⟩ = .ok (.ofWord (k.getD .i64) w) := by
  have kindless : ∀ k, Program.validate ⟨code, k⟩ = Program.validate ⟨code, none⟩ := fun _ => rfl
  simp only [execute, kindless]
  cases Machine.run engine.config.maxStackDepth code with
  | error f =>
    left
    cases engine.config.verifyPrograms <;> cases Program.validate ⟨code, none⟩ <;>
      exact ⟨_, fun _ => rfl⟩
  | ok w =>
    cases engine.config.verifyPrograms with
    | false => exact .inr ⟨w, rfl, fun _ => rfl⟩
    | true =>
      cases Program.validate ⟨code, none⟩ with
      | error e => exact .inl ⟨_, fun _ => rfl⟩
      | ok _ => exact .inr ⟨w, rfl, fun _ => rfl⟩

theorem executeBytes_of_ok {engine : Engine} {code : List UInt8} {w : Word}
    (ran : engine.execute ⟨code, none⟩ = .ok (.ofWord .i64 w)) :
    engine.executeBytes code = .ok w.signed := by
  have same : (Value.ofWord .i64 w).word = w := Word.ofInt_signed w
  rw [executeBytes, Program.ofBytes, ran, Except.map, same]

end Engine

/-- Whatever word the code of an expression leaves, it is in normal form at the expression's
kind. -/
theorem Expr.normalize_of_run {e : Expr} {limit : Nat} {w : Word}
    (ran : Machine.run limit e.program.code = .ok w) : e.kind.normalize w = w := by
  cases fault : e.firstFault limit 0 0 with
  | some f =>
    rw [(Machine.run_program e limit).1 f fault] at ran
    cases ran
  | none =>
    obtain ⟨n, denoted, left⟩ := (Machine.run_program e limit).2 fault
    rw [ran] at left
    cases left
    exact Kind.normalize_ofInt (Expr.inRange_denote denoted)

/-- Typed and raw execution of a stream fail with the same error, or the typed value is the raw word
in normal form at its kind. What a compiled program leaves is in normal form at its result kind
already, so there the raw word is the word of the typed value. -/
theorem Engine.typed_eq_raw (engine : Engine) :
    (∀ (code : List UInt8) (k : Kind),
      (∃ err, engine.execute ⟨code, some k⟩ = .error err ∧
        engine.executeBytes code = .error err) ∨
      ∃ v w, engine.execute ⟨code, some k⟩ = .ok v ∧
        Machine.run engine.config.maxStackDepth code = .ok w ∧
        engine.executeBytes code = .ok w.signed ∧
        v.kind = k ∧ v.word = k.normalize w) ∧
    ∀ (t : Tree) (p : Program), t.compile = .ok p →
      (∀ limit w, Machine.run limit p.code = .ok w →
        ∃ k, p.resultKind = some k ∧ k.normalize w = w) ∧
      ∀ v, engine.evaluate t = .ok v →
        p.resultKind = some v.kind ∧
        (Machine.run engine.config.maxStackDepth p.code).map Word.signed = .ok v.word.signed ∧
        engine.executeBytes p.code = .ok v.word.signed := by
  constructor
  · intro code k
    rcases engine.execute_cases code with ⟨err, failed⟩ | ⟨w, ran, read⟩
    · left
      refine ⟨err, failed _, ?_⟩
      rw [executeBytes, Program.ofBytes, failed]
      rfl
    · right
      exact ⟨_, w, read _, ran, executeBytes_of_ok (read none), rfl, Value.word_ofWord k w⟩
  · intro t p accepted
    obtain ⟨e, returns, rfl⟩ := Tree.compile_ok_iff.mp accepted
    refine ⟨fun _ w ran => ⟨e.kind, rfl, Expr.normalize_of_run ran⟩, ?_⟩
    intro v evaluated
    have executed : engine.execute e.program = .ok v := by
      rw [evaluate, compile, accepted] at evaluated
      exact evaluated
    rcases engine.execute_cases e.program.code with ⟨err, failed⟩ | ⟨w, ran, read⟩
    · rw [show engine.execute e.program = _ from failed _] at executed
      cases executed
    · rw [show engine.execute e.program = _ from read (some e.kind)] at executed
      cases executed
      have kept : (Value.ofWord e.kind w).word = w := by
        rw [Value.word_ofWord, Expr.normalize_of_run ran]
      refine ⟨rfl, ?_, ?_⟩
      · rw [ran, Option.getD_some, kept]
        rfl
      · rw [Option.getD_some, kept]
        exact executeBytes_of_ok (read none)

end Wordcode
