import Wordcode.Proofs.Compilation
import Wordcode.Proofs.Execution
import Wordcode.Proofs.Grammar

/-!
# The machine beside the list of records

The machine finds its own way through a stream: it keeps the offset at which it reads next.
`traceFrom` is this loop with a log of what it executes. It stays in step with decoding, also in
streams that cannot be decoded to their end: the log is the list of records up to the first fault
(`executed_of_ok`, `executed_of_error`), and the result is that of a run (`result_traceFrom`).
-/

namespace Wordcode

theorem Stream.next_of_decodeAt? {code : List UInt8} {offset : Nat} {r : Record}
    (read : decodeAt? code offset = some (.ok r)) : offset < code.length ∧ offset < r.next := by
  obtain ⟨rfl, there⟩ := decodeAt?_eq_ok_iff.mp read
  have fits := there.length_le
  rw [Instruction.length_encode, List.length_drop] at fits
  have positive : 0 < r.instruction.size := Nat.lt_add_right _ Nat.one_pos
  unfold Record.next
  omega

namespace Machine

/-- The records that a run executed, one that faulted included, and how the run ended. -/
structure Log where
  executed : List Record
  result : Except Fault Word

/-- The loop of the machine, from the offset `pc` on. -/
def traceFrom (limit : Nat) (code : List UInt8) (pc : Nat) (stack : Stack) : Log :=
  match _read : Stream.decodeAt? code pc with
  | none => ⟨[], finish pc stack⟩
  | some (.error e) => ⟨[], .error (.decode e)⟩
  | some (.ok r) =>
    match step limit stack r with
    | .error f => ⟨[r], .error f⟩
    | .ok next =>
      let log := traceFrom limit code r.next next
      ⟨r :: log.executed, log.result⟩
termination_by code.length - pc
decreasing_by
  have forward := Stream.next_of_decodeAt? _read
  omega

/-- The loop over a whole stream, from the empty stack. -/
def trace (limit : Nat) (code : List UInt8) : Log := traceFrom limit code 0 []

/-- A run from a place on: what stands there is executed, or ends the run. -/
theorem runFrom_drop (limit : Nat) (code : List UInt8) (pc : Nat) (stack : Stack) :
    runFrom limit pc (code.drop pc) stack =
      match Stream.decodeAt? code pc with
      | none => finish pc stack
      | some (.error e) => .error (.decode e)
      | some (.ok r) => (step limit stack r).bind (runFrom limit r.next (code.drop r.next)) := by
  unfold Stream.decodeAt?
  cases left : code.drop pc with
  | nil => rw [runFrom]
  | cons byte rest =>
    rw [runFrom]
    dsimp only
    cases Instruction.decode pc byte rest with
    | error e => rfl
    | ok i =>
      simp only [Except.map, Record.next, Stream.drop_next left]
      cases step limit stack ⟨pc, i⟩ <;> rfl

theorem result_traceFrom (limit : Nat) (code : List UInt8) (pc : Nat) (stack : Stack) :
    (traceFrom limit code pc stack).result = runFrom limit pc (code.drop pc) stack := by
  fun_induction traceFrom limit code pc stack with
  | case1 pc stack exhausted => rw [runFrom_drop, exhausted]
  | case2 pc stack e unread => rw [runFrom_drop, unread]
  | case3 pc stack r read f fault =>
    rw [runFrom_drop, read]
    dsimp only
    rw [fault]
    rfl
  | case4 pc stack r read next fine log ih =>
    rw [runFrom_drop, read]
    dsimp only
    rw [fine]
    exact ih

/-- Without a fault the machine executes every record that can be read. -/
theorem executed_of_ok {limit : Nat} {code : List UInt8} {pc : Nat} {stack final : Stack}
    (ran : exec limit stack (Stream.decodeFrom pc (code.drop pc)).records = .ok final) :
    (traceFrom limit code pc stack).executed =
      (Stream.decodeFrom pc (code.drop pc)).records := by
  fun_induction traceFrom limit code pc stack with
  | case1 pc stack exhausted => rw [Stream.decodeFrom_drop, exhausted]
  | case2 pc stack e unread => rw [Stream.decodeFrom_drop, unread]
  | case3 pc stack r read f fault =>
    rw [Stream.decodeFrom_drop, read] at ran
    dsimp only at ran
    rw [exec_cons, fault] at ran
    cases ran
  | case4 pc stack r read next fine log ih =>
    rw [Stream.decodeFrom_drop, read] at ran ⊢
    dsimp only at ran ⊢
    rw [exec_cons, fine] at ran
    rw [show log.executed = _ from ih ran]

/-- The record that faults is the last one that is executed. -/
theorem executed_of_error {limit : Nat} {code : List UInt8} {pc : Nat} {stack : Stack} {f : Fault}
    (failed : exec limit stack (Stream.decodeFrom pc (code.drop pc)).records = .error f) :
    ∃ before r after reached,
      (Stream.decodeFrom pc (code.drop pc)).records = before ++ r :: after ∧
      (traceFrom limit code pc stack).executed = before ++ [r] ∧
      exec limit stack before = .ok reached ∧ step limit reached r = .error f := by
  fun_induction traceFrom limit code pc stack with
  | case1 pc stack exhausted =>
    rw [Stream.decodeFrom_drop, exhausted] at failed
    cases failed
  | case2 pc stack e unread =>
    rw [Stream.decodeFrom_drop, unread] at failed
    cases failed
  | case3 pc stack r read g fault =>
    rw [Stream.decodeFrom_drop, read] at failed ⊢
    dsimp only at failed ⊢
    rw [exec_cons, fault] at failed
    cases failed
    exact ⟨[], r, _, stack, rfl, rfl, rfl, fault⟩
  | case4 pc stack r read next fine log ih =>
    rw [Stream.decodeFrom_drop, read] at failed ⊢
    dsimp only at failed ⊢
    rw [exec_cons, fine] at failed
    obtain ⟨before, last, after, reached, records, executed, ran, fault⟩ := ih failed
    refine ⟨r :: before, last, after, reached, ?_, ?_, ?_, fault⟩
    · rw [records, List.cons_append]
    · rw [show log.executed = _ from executed, List.cons_append]
    · rw [exec_cons, fine]
      exact ran

theorem run_eq_conclude (limit : Nat) (code : List UInt8) :
    run limit code = (exec limit [] (Stream.decode code).records).bind
      (conclude code.length (Stream.decode code).failure) := by
  rw [run, runFrom_eq_exec, Nat.zero_add]
  rfl

/-! ### Which faults come from where -/

theorem step_ne_decode (limit : Nat) (stack : Stack) (r : Record) (e : DecodeError) :
    step limit stack r ≠ .error (.decode e) := by
  unfold step push
  intro failed
  repeat' split at failed
  all_goals cases failed

theorem exec_ne_decode (limit : Nat) (stack : Stack) (records : List Record) (e : DecodeError) :
    exec limit stack records ≠ .error (.decode e) := by
  induction records generalizing stack with
  | nil => exact nofun
  | cons r rest ih =>
    rw [exec_cons]
    intro failed
    cases stepped : step limit stack r with
    | error f =>
      rw [stepped] at failed
      cases failed
      exact step_ne_decode limit stack r e stepped
    | ok next =>
      rw [stepped] at failed
      exact ih next failed

theorem finish_error_cases {offset : Nat} {stack : Stack} {f : Fault}
    (failed : finish offset stack = .error f) :
    f = .stackUnderflow offset ∨ f = .unbalancedStack stack.length := by
  match stack with
  | [] => exact .inl (Except.error.inj failed).symm
  | [w] => cases failed
  | _ :: _ :: _ => exact .inr (Except.error.inj failed).symm

theorem finish_ne_decode (offset : Nat) (stack : Stack) (e : DecodeError) :
    finish offset stack ≠ .error (.decode e) := by
  intro failed
  rcases finish_error_cases failed with same | same <;> cases same

theorem finish_eq_underflow_iff {offset place : Nat} {stack : Stack} :
    finish place stack = .error (.stackUnderflow offset) ↔ stack = [] ∧ offset = place := by
  constructor
  · intro failed
    match stack with
    | [] =>
      cases failed
      exact ⟨rfl, rfl⟩
    | [w] => cases failed
    | _ :: _ :: _ => cases failed
  · rintro ⟨rfl, rfl⟩
    rfl

/-- Only a place that cannot be read makes a fault of decoding, and only once it is reached. -/
theorem run_eq_decode_iff {limit : Nat} {code : List UInt8} {e : DecodeError} :
    run limit code = .error (.decode e) ↔
      (Stream.decode code).failure = some e ∧
        ∃ stack, exec limit [] (Stream.decode code).records = .ok stack := by
  rw [run_eq_conclude]
  cases ran : exec limit [] (Stream.decode code).records with
  | error f =>
    constructor
    · intro failed
      cases failed
      exact absurd ran (exec_ne_decode limit [] _ e)
    · rintro ⟨_, _, ⟨⟩⟩
  | ok stack =>
    cases (Stream.decode code).failure with
    | some met =>
      change Except.error (Fault.decode met) = _ ↔ _
      simp
    | none =>
      change finish code.length stack = _ ↔ _
      simp [finish_ne_decode]

/-- An underflow is that of a record, or the stack is empty at the end of the stream. -/
theorem run_eq_underflow_iff {limit offset : Nat} {code : List UInt8} :
    run limit code = .error (.stackUnderflow offset) ↔
      exec limit [] (Stream.decode code).records = .error (.stackUnderflow offset) ∨
      exec limit [] (Stream.decode code).records = .ok [] ∧
        (Stream.decode code).failure = none ∧ offset = code.length := by
  rw [run_eq_conclude]
  cases exec limit [] (Stream.decode code).records with
  | error f => simp [Except.bind]
  | ok stack =>
    cases (Stream.decode code).failure with
    | some met =>
      change Except.error (Fault.decode met) = _ ↔ _
      simp
    | none =>
      change finish code.length stack = _ ↔ _
      rw [finish_eq_underflow_iff]
      simp

end Machine

theorem Program.failure_of_validate {p : Program} (valid : p.validate = .ok ()) :
    (Stream.decode p.code).failure = none := by
  obtain ⟨before, _, whole⟩ := validate_eq_ok_iff.mp valid
  exact Stream.failure_eq_none_iff.mpr ⟨_, whole⟩

/-- A run is the effect of the decoded records in order and the check at the end of the stream. The
records that the machine executes on its way are the first of them, all unless one faults, and the
one that faults is the last. A fault of decoding is the error that decoding ends in, once all
records before it are executed; so a valid stream has none under any limit. The underflow of an
empty stack at the end names the length of the stream. -/
theorem Machine.run_eq_fold (limit : Nat) (code : List UInt8) :
    let d := Stream.decode code
    let fold := d.records.foldlM (step limit) []
    let log := trace limit code
    run limit code = fold.bind (fun stack =>
      match d.failure with
      | some e => .error (.decode e)
      | none => finish code.length stack) ∧
    log.result = run limit code ∧
    log.executed <+: d.records ∧
    (∀ stack, fold = .ok stack → log.executed = d.records) ∧
    (∀ f, fold = .error f → run limit code = .error f ∧
      ∃ before r stack, log.executed = before ++ [r] ∧
        before.foldlM (step limit) [] = .ok stack ∧ step limit stack r = .error f) ∧
    (∀ e, run limit code = .error (.decode e) ↔ d.failure = some e ∧ ∃ stack, fold = .ok stack) ∧
    (∀ offset, run limit code = .error (.stackUnderflow offset) ↔
      fold = .error (.stackUnderflow offset) ∨
      fold = .ok [] ∧ d.failure = none ∧ offset = code.length) ∧
    ∀ k, Program.validate ⟨code, k⟩ = .ok () →
      (∀ e, run limit code ≠ .error (.decode e)) ∧
      ∀ (engine : Engine) e, engine.execute ⟨code, k⟩ ≠ .error (.fault (.decode e)) := by
  intro d fold log
  have all : ∀ stack, fold = .ok stack → log.executed = d.records :=
    fun _ ran => executed_of_ok ran
  have upToFault : ∀ f, fold = .error f → ∃ before r after reached,
      d.records = before ++ r :: after ∧ log.executed = before ++ [r] ∧
        exec limit [] before = .ok reached ∧ step limit reached r = .error f :=
    fun _ failed => executed_of_error failed
  refine ⟨run_eq_conclude limit code, result_traceFrom limit code 0 [], ?_, all, ?_,
    fun _ => run_eq_decode_iff, fun _ => run_eq_underflow_iff, ?_⟩
  · cases ran : fold with
    | ok stack => exact (all stack ran) ▸ List.prefix_rfl
    | error f =>
      obtain ⟨before, r, after, _, records, executed, _⟩ := upToFault f ran
      rw [records, executed]
      exact ⟨after, by rw [List.append_assoc, List.singleton_append]⟩
  · intro f failed
    obtain ⟨before, r, _, reached, _, executed, ran, fault⟩ := upToFault f failed
    refine ⟨?_, before, r, reached, executed, ran, fault⟩
    rw [run_eq_conclude, show exec limit [] d.records = .error f from failed]
    rfl
  · intro k valid
    have clean : d.failure = none := Program.failure_of_validate valid
    have readable : ∀ limit e, run limit code ≠ .error (.decode e) := by
      intro limit e failed
      have met := (run_eq_decode_iff.mp failed).1
      rw [show (Stream.decode code).failure = none from clean] at met
      cases met
    exact ⟨readable limit, fun engine e failed => readable _ e (Engine.run_of_execute failed)⟩

end Wordcode
