import Wordcode.Proofs.Lockstep

/-!
# The limit on the stack's depth

A higher limit lets more runs through and changes nothing else: the machine looks at the limit only
when it is about to push. `step_of_le` is the step of two runs side by side. In every state that a
run reaches the stack is within its limit, so the result of an operation always finds the slot that
its operands left, and only a push can overflow the stack (`step_eq_overflow_iff`).
-/

namespace Wordcode.Machine

/-- The states of a run before each record and at its end: where it reads next, and the stack. -/
inductive Reaches (limit : Nat) (code : List UInt8) : Nat → Stack → Prop where
  | start : Reaches limit code 0 []
  | next {pc : Nat} {stack after : Stack} {r : Record} (reached : Reaches limit code pc stack)
      (read : Stream.decodeAt? code pc = some (.ok r)) (stepped : step limit stack r = .ok after) :
      Reaches limit code r.next after

theorem push_eq_ok_iff {limit : Nat} {stack after : Stack} {w : Word} :
    push limit stack w = .ok after ↔ stack.length < limit ∧ after = w :: stack := by
  unfold push
  split
  · next room => simp [room, eq_comm]
  · next full => simp [full]

theorem push_eq_overflow_iff {limit n : Nat} {stack : Stack} {w : Word} :
    push limit stack w = .error (.stackOverflow n) ↔ limit ≤ stack.length ∧ n = limit := by
  unfold push
  split
  · next room => simp [room]
  · next full => simp [Nat.not_lt.mp full, eq_comm]

/-- What a record does under any limit. The limit matters only where a word is pushed: by a push on
the whole stack, by an operation in the place of its operands. -/
theorem step_cases (stack : Stack) (r : Record) :
    (∃ k w, r.opcode = .push k ∧ ∀ limit, step limit stack r = push limit stack w) ∨
    (∀ k, r.opcode ≠ .push k) ∧
      ((∀ limit, step limit stack r = .ok stack) ∨
      (∃ rhs lhs below w, stack = rhs :: lhs :: below ∧
        ∀ limit, step limit stack r = push limit below w) ∨
      ∃ f, (f = .stackUnderflow r.offset ∨ f = .divisionByZero r.offset) ∧
        ∀ limit, step limit stack r = .error f) := by
  unfold step
  cases r.opcode with
  | nop | ret => exact .inr ⟨nofun, .inl fun _ => rfl⟩
  | push k => exact .inl ⟨k, _, rfl, fun _ => rfl⟩
  | arith op k =>
    refine .inr ⟨nofun, .inr ?_⟩
    match stack with
    | [] | [_] => exact .inr ⟨_, .inl rfl, fun _ => rfl⟩
    | rhs :: lhs :: below =>
      dsimp only
      cases op.apply k lhs rhs with
      | none => exact .inr ⟨_, .inr rfl, fun _ => rfl⟩
      | some w => exact .inl ⟨rhs, lhs, below, w, rfl, fun _ => rfl⟩

/-! ### Two runs under different limits -/

theorem push_of_le {small large : Nat} (le : small ≤ large) {stack : Stack} {w : Word}
    (calm : push small stack w ≠ .error (.stackOverflow small)) :
    push large stack w = push small stack w := by
  rcases push_cases small stack w with pushed | full
  · have room := (push_eq_ok_iff.mp pushed).1
    rw [pushed, push_eq_ok_iff]
    exact ⟨by omega, rfl⟩
  · exact absurd full calm

theorem step_of_le {small large : Nat} (le : small ≤ large) {stack : Stack} {r : Record}
    (calm : step small stack r ≠ .error (.stackOverflow small)) :
    step large stack r = step small stack r := by
  rcases step_cases stack r with
    ⟨k, w, -, does⟩ | ⟨-, does | ⟨_, _, below, w, -, does⟩ | ⟨f, -, does⟩⟩
  · rw [does] at calm
    rw [does, does, push_of_le le calm]
  · rw [does, does]
  · rw [does] at calm
    rw [does, does, push_of_le le calm]
  · rw [does, does]

theorem exec_of_le {small large : Nat} (le : small ≤ large) {stack : Stack} {records : List Record}
    (calm : exec small stack records ≠ .error (.stackOverflow small)) :
    exec large stack records = exec small stack records := by
  induction records generalizing stack with
  | nil => rfl
  | cons r rest ih =>
    rw [exec_cons] at calm ⊢
    rw [exec_cons]
    have first : step small stack r ≠ .error (.stackOverflow small) := by
      intro full
      rw [full] at calm
      exact calm rfl
    rw [step_of_le le first]
    cases stepped : step small stack r with
    | error f => rfl
    | ok after =>
      rw [stepped] at calm
      exact ih calm

theorem run_of_le {small large : Nat} (le : small ≤ large) {code : List UInt8}
    (calm : run small code ≠ .error (.stackOverflow small)) : run large code = run small code := by
  rw [run_eq_conclude] at calm
  have executed : exec small [] (Stream.decode code).records ≠ .error (.stackOverflow small) := by
    intro full
    rw [full] at calm
    exact calm rfl
  rw [run_eq_conclude, run_eq_conclude, exec_of_le le executed]

/-! ### The states of one run -/

theorem length_step_le {limit : Nat} {stack after : Stack} {r : Record}
    (within : stack.length ≤ limit) (stepped : step limit stack r = .ok after) :
    after.length ≤ limit := by
  rcases step_cases stack r with
    ⟨k, w, -, does⟩ | ⟨-, does | ⟨_, _, below, w, -, does⟩ | ⟨f, -, does⟩⟩
  · obtain ⟨room, rfl⟩ := push_eq_ok_iff.mp ((does limit).symm.trans stepped)
    exact room
  · cases (does limit).symm.trans stepped
    exact within
  · obtain ⟨room, rfl⟩ := push_eq_ok_iff.mp ((does limit).symm.trans stepped)
    exact room
  · cases (does limit).symm.trans stepped

theorem Reaches.length_le {limit pc : Nat} {code : List UInt8} {stack : Stack}
    (reached : Reaches limit code pc stack) : stack.length ≤ limit := by
  induction reached with
  | start => exact Nat.zero_le limit
  | next _ _ stepped ih => exact length_step_le ih stepped

/-- What is left to do in a state that a run reaches decides the run. -/
theorem Reaches.runFrom_eq {limit pc : Nat} {code : List UInt8} {stack : Stack}
    (reached : Reaches limit code pc stack) :
    runFrom limit pc (code.drop pc) stack = run limit code := by
  induction reached with
  | start => rfl
  | next _ read stepped ih =>
    rw [runFrom_drop, read] at ih
    dsimp only at ih
    rw [stepped] at ih
    exact ih

/-- With the stack within its limit, two operands make room for their result. -/
theorem step_eq_overflow_iff {limit n : Nat} {stack : Stack} {r : Record}
    (within : stack.length ≤ limit) :
    step limit stack r = .error (.stackOverflow n) ↔
      n = limit ∧ stack.length = limit ∧ ∃ k, r.opcode = .push k := by
  rcases step_cases stack r with
    ⟨k, w, pushes, does⟩ | ⟨other, does | ⟨_, _, below, w, rfl, does⟩ | ⟨f, fault, does⟩⟩
  · rw [does, push_eq_overflow_iff]
    constructor
    · rintro ⟨full, rfl⟩
      exact ⟨rfl, by omega, k, pushes⟩
    · rintro ⟨rfl, full, -⟩
      exact ⟨by omega, rfl⟩
  · simp [does, other]
  -- Two words were taken off a stack within the limit, so there is room for one.
  · simp only [List.length_cons] at within
    simp only [does, push_eq_overflow_iff, other, exists_false, and_false, iff_false]
    omega
  · rcases fault with rfl | rfl <;> simp [does, other]

/-- An overflow is that of a record, in some state on the way. -/
theorem Reaches.exists_overflow {limit pc n : Nat} {code : List UInt8} {stack : Stack}
    (reached : Reaches limit code pc stack)
    (failed : runFrom limit pc (code.drop pc) stack = .error (.stackOverflow n)) :
    ∃ place found r, Reaches limit code place found ∧
      Stream.decodeAt? code place = some (.ok r) ∧
      step limit found r = .error (.stackOverflow n) := by
  fun_induction traceFrom limit code pc stack with
  | case1 pc stack exhausted =>
    rw [runFrom_drop, exhausted] at failed
    rcases finish_error_cases failed with same | same <;> cases same
  | case2 pc stack e unread =>
    rw [runFrom_drop, unread] at failed
    cases failed
  | case3 pc stack r read f fault =>
    rw [runFrom_drop, read] at failed
    dsimp only at failed
    rw [fault] at failed
    cases failed
    exact ⟨pc, stack, r, reached, read, fault⟩
  | case4 pc stack r read after fine log ih =>
    rw [runFrom_drop, read] at failed
    dsimp only at failed
    rw [fine] at failed
    exact ih (reached.next read fine) failed

theorem run_eq_overflow_iff {limit n : Nat} {code : List UInt8} :
    run limit code = .error (.stackOverflow n) ↔
      n = limit ∧ ∃ pc stack r k, Reaches limit code pc stack ∧ stack.length = limit ∧
        Stream.decodeAt? code pc = some (.ok r) ∧ r.opcode = .push k := by
  constructor
  · intro failed
    obtain ⟨pc, stack, r, reached, read, fault⟩ := Reaches.start.exists_overflow failed
    obtain ⟨same, full, k, pushes⟩ := (step_eq_overflow_iff reached.length_le).mp fault
    exact ⟨same, pc, stack, r, k, reached, full, read, pushes⟩
  · rintro ⟨rfl, pc, stack, r, k, reached, full, read, pushes⟩
    have fault := (step_eq_overflow_iff reached.length_le).mpr ⟨rfl, full, k, pushes⟩
    rw [← reached.runFrom_eq, runFrom_drop, read]
    dsimp only
    rw [fault]
    rfl

/-- A run that does not overflow the stack ends the same under every higher limit, and one that does
overflows under every lower limit too. In each state that a run reaches, and goes on from to its
result, the stack is within the limit; a record overflows it there exactly when it is a push and the
stack is full. A run overflows exactly when it reaches such a record, and names its own limit. -/
theorem run_limit_mono {small large : Nat} (le : small ≤ large) (code : List UInt8) :
    ((∀ n, run small code ≠ .error (.stackOverflow n)) → run large code = run small code) ∧
    (∀ n, run large code = .error (.stackOverflow n) →
      n = large ∧ run small code = .error (.stackOverflow small)) ∧
    (∀ limit pc stack, Reaches limit code pc stack →
      stack.length ≤ limit ∧ runFrom limit pc (code.drop pc) stack = run limit code ∧
      ∀ r n, step limit stack r = .error (.stackOverflow n) ↔
        n = limit ∧ stack.length = limit ∧ ∃ k, r.opcode = .push k) ∧
    ∀ limit n, run limit code = .error (.stackOverflow n) ↔
      n = limit ∧ ∃ pc stack r k, Reaches limit code pc stack ∧ stack.length = limit ∧
        Stream.decodeAt? code pc = some (.ok r) ∧ r.opcode = .push k := by
  refine ⟨fun calm => run_of_le le (calm small), ?_, ?_, fun _ _ => run_eq_overflow_iff⟩
  · intro n failed
    refine ⟨(run_eq_overflow_iff.mp failed).1, ?_⟩
    by_contra calm
    have same := run_of_le le calm
    rw [failed] at same
    obtain ⟨rfl, -⟩ := run_eq_overflow_iff.mp same.symm
    exact calm same.symm
  · intro limit pc stack reached
    exact ⟨reached.length_le, reached.runFrom_eq,
      fun _ _ => step_eq_overflow_iff reached.length_le⟩

/-- A quotient of two pushed bytes overflows one slot; it is undefined under two as under nine. -/
theorem run_limit_mono_quotient :
    let code : List UInt8 := [0x02, 0x07, 0x02, 0x00, 0x41, 0x50]
    (1 ≤ 2 ∧ run 1 code = .error (.stackOverflow 1)) ∧
    2 ≤ 9 ∧ (∀ n, run 2 code ≠ .error (.stackOverflow n)) ∧
      run 9 code = .error (.divisionByZero 4) := by
  intro code
  have under : run 2 code = .error (.divisionByZero 4) := by decide +kernel
  have calm : ∀ n, run 2 code ≠ .error (.stackOverflow n) := by
    intro n
    rw [under]
    exact nofun
  refine ⟨⟨by decide, ?_⟩, by decide, calm, ?_⟩
  · decide +kernel
  · rw [(run_limit_mono (by decide : 2 ≤ 9) code).1 calm, under]

end Wordcode.Machine
