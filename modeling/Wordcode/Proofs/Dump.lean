import Wordcode.Proofs.Assembly
import Wordcode.Proofs.Headroom
import Wordcode.Proofs.Results

/-!
# Dumps are read back

`Listing.undump?` reads the bytes of a dump: the words between its blanks, each `0x` and two
upper-case digits. The lines of a dump are the pieces that `Listing.chunks` cuts its bytes into
(`lines_hexDump`). So the bytes that the command line prints for a tree run like the tree itself
(`executeBytes_of_compile`).
-/

namespace Wordcode

namespace Digits

def upperValue? (c : Char) : Option Nat :=
  if c.isDigit then some (c.toNat - 48)
  else if 'A' ≤ c ∧ c ≤ 'F' then some (c.toNat - 55)
  else none

theorem upperValue?_upperHex {n : Nat} (small : n < 16) : upperValue? (upperHex n) = some n := by
  have table : ∀ n : Fin 16, upperValue? (upperHex n) = some n.val := by decide
  exact table ⟨n, small⟩

theorem isWhitespace_upperHex {n : Nat} (small : n < 16) :
    (upperHex n).isWhitespace = false := by
  have table : ∀ n : Fin 16, (upperHex n).isWhitespace = false := by decide
  exact table ⟨n, small⟩

end Digits

namespace Listing

/-! ### Words -/

/-- The words of a text, which are separated by blanks. -/
def words (text : List Char) : List (List Char) :=
  (text.splitOnP Char.isWhitespace).filter (· ≠ [])

def byte? : List Char → Option UInt8
  | ['0', 'x', high, low] => do
    return UInt8.ofNat (16 * (← Digits.upperValue? high) + (← Digits.upperValue? low))
  | _ => none

/-- The bytes that a dump was made from, by its text alone. -/
def undump? (text : String) : Option (List UInt8) := (words text.toList).mapM byte?

def byteWord (b : UInt8) : List Char := '0' :: 'x' :: Digits.hexByte b

/-- A line of a dump without the character that ends it. -/
def dumpBody (bytes : List UInt8) : List Char := List.intercalate [' '] (bytes.map byteWord)

theorem dumpLine_eq_body (bytes : List UInt8) : dumpLine bytes = dumpBody bytes ++ ['\n'] := rfl

theorem byte?_byteWord (b : UInt8) : byte? (byteWord b) = some b := by
  have bound := b.toNat_lt
  have high := Digits.upperValue?_upperHex (show b.toNat / 16 < 16 by omega)
  have low := Digits.upperValue?_upperHex (show b.toNat % 16 < 16 by omega)
  have whole : 16 * (b.toNat / 16) + b.toNat % 16 = b.toNat := by omega
  simp only [byteWord, Digits.hexByte, byte?, high, low, Option.bind_eq_bind, Option.bind_some,
    whole, UInt8.ofNat_toNat]
  rfl

theorem isWhitespace_of_mem_byteWord {b : UInt8} {c : Char} (member : c ∈ byteWord b) :
    c.isWhitespace = false := by
  have bound := b.toNat_lt
  simp only [byteWord, Digits.hexByte, List.mem_cons, List.not_mem_nil, or_false] at member
  rcases member with rfl | rfl | rfl | rfl
  · rfl
  · rfl
  · exact Digits.isWhitespace_upperHex (by omega)
  · exact Digits.isWhitespace_upperHex (by omega)

theorem words_append (front : List Char) {blank : Char} (separates : blank.isWhitespace)
    (rest : List Char) : words (front ++ blank :: rest) = words front ++ words rest := by
  simp only [words, List.splitOnP_append_cons front rest separates, List.filter_append]

theorem words_byteWord (b : UInt8) : words (byteWord b) = [byteWord b] := by
  rw [words, List.splitOnP_eq_singleton fun _ => isWhitespace_of_mem_byteWord]
  rfl

theorem dumpBody_cons_cons (b c : UInt8) (others : List UInt8) :
    dumpBody (b :: c :: others) = byteWord b ++ ' ' :: dumpBody (c :: others) := by
  simp [dumpBody, List.intercalate_cons_cons]

theorem words_dumpBody (bytes : List UInt8) : words (dumpBody bytes) = bytes.map byteWord := by
  induction bytes with
  | nil => rfl
  | cons b others ih =>
    cases others with
    | nil => exact words_byteWord b
    | cons c others =>
      rw [dumpBody_cons_cons, words_append _ rfl, ih, words_byteWord]
      rfl

theorem words_flatMap (pieces : List (List UInt8)) :
    words (pieces.flatMap dumpLine) = pieces.flatten.map byteWord := by
  induction pieces with
  | nil => rfl
  | cons piece others ih =>
    rw [List.flatMap_cons, dumpLine_eq_body, List.append_assoc, List.singleton_append,
      words_append _ rfl, words_dumpBody, ih, List.flatten_cons, List.map_append]

theorem newline_not_mem_dumpBody (bytes : List UInt8) : '\n' ∉ dumpBody bytes := by
  have word : ∀ b, '\n' ∉ byteWord b := fun b member =>
    absurd (isWhitespace_of_mem_byteWord member) (by decide)
  induction bytes with
  | nil => exact List.not_mem_nil
  | cons b others ih =>
    cases others with
    | nil => exact word b
    | cons c others =>
      rw [dumpBody_cons_cons, List.mem_append, List.mem_cons]
      rintro (inWord | blank | later)
      · exact word b inWord
      · cases blank
      · exact ih later

/-! ### Pieces -/

section

variable {α : Type} (size : Nat)

theorem flatten_chunks (xs : List α) : (chunks size xs).flatten = xs := by
  fun_induction chunks size xs with
  | case1 => rfl
  | case2 a rest ih => rw [List.flatten_cons, ih, List.cons_append, List.take_append_drop]

theorem length_chunks (xs : List α) :
    (chunks size xs).length = (xs.length + size) / (size + 1) := by
  fun_induction chunks size xs with
  | case1 => simp [Nat.div_eq_of_lt]
  | case2 a rest ih =>
    rw [List.length_cons, ih, List.length_drop, List.length_cons,
      show rest.length + 1 + size = rest.length + (size + 1) by omega,
      Nat.add_div_right _ (Nat.succ_pos size)]
    by_cases short : rest.length < size
    · rw [Nat.div_eq_of_lt (by omega), Nat.div_eq_of_lt (by omega)]
    · rw [Nat.sub_add_cancel (by omega)]

/-- Only the end of the list cuts a piece short. -/
theorem length_of_chunks {xs piece : List α} {i : Nat} (found : (chunks size xs)[i]? = some piece) :
    piece.length = min (size + 1) (xs.length - (size + 1) * i) := by
  fun_induction chunks size xs generalizing i with
  | case1 => simp at found
  | case2 a rest ih =>
    cases i with
    | zero =>
      cases found
      simp
    | succ i =>
      rw [ih (by simpa using found), List.length_drop, List.length_cons, Nat.mul_succ]
      omega

end

end Listing

namespace Program

theorem lines_hexDump (p : Program) :
    Listing.lines p.hexDump.toList =
      (Listing.chunks (Listing.perLine - 1) p.code).map Listing.dumpBody := by
  rw [hexDump, String.toList_ofList]
  exact Listing.lines_flatMap_newline Listing.newline_not_mem_dumpBody _

theorem length_lines_hexDump (p : Program) :
    (Listing.lines p.hexDump.toList).length = (p.code.length + 9) / 10 := by
  rw [lines_hexDump, List.length_map, Listing.length_chunks]
  rfl

theorem hexDump_eq_flatMap_lines (p : Program) :
    p.hexDump.toList = (Listing.lines p.hexDump.toList).flatMap (· ++ ['\n']) := by
  rw [lines_hexDump, List.flatMap_map, hexDump, String.toList_ofList]
  rfl

/-- A line of a dump has ten words, or what is left for the last one. -/
theorem length_words_of_lines {p : Program} {i : Nat} {line : List Char}
    (found : (Listing.lines p.hexDump.toList)[i]? = some line) :
    (Listing.words line).length = min 10 (p.code.length - 10 * i) := by
  rw [lines_hexDump, List.getElem?_map, Option.map_eq_some_iff] at found
  obtain ⟨piece, found, rfl⟩ := found
  rw [Listing.words_dumpBody, List.length_map, Listing.length_of_chunks _ found]
  rfl

theorem undump?_hexDump (p : Program) : Listing.undump? p.hexDump = some p.code := by
  rw [Listing.undump?, hexDump, String.toList_ofList, Listing.words_flatMap,
    Listing.flatten_chunks, List.mapM_map,
    show Listing.byte? ∘ Listing.byteWord = some from funext Listing.byte?_byteWord]
  simpa using List.mapM_pure (m := Option) (l := p.code) (f := id)

example : hexDump ⟨List.replicate 11 0x5A, none⟩ =
    "0x5A 0x5A 0x5A 0x5A 0x5A 0x5A 0x5A 0x5A 0x5A 0x5A\n0x5A\n" := by cbv

-- Digits in lower case are refused.
example : Listing.undump? "0x5a\n" = none := by rfl

end Program

namespace Engine

/-- The bytes of a compiled tree run to the word of its value, or fail like the tree. -/
theorem executeBytes_of_compile {t : Tree} {p : Program} (accepted : t.compile = .ok p)
    (engine : Engine) :
    engine.executeBytes p.code = (engine.evaluate t).map (·.word.signed) := by
  obtain ⟨e, -, rfl⟩ := Tree.compile_ok_iff.mp accepted
  have evaluated : engine.evaluate t = engine.execute ⟨e.program.code, some e.kind⟩ := by
    rw [evaluate, compile, accepted]
    rfl
  rw [evaluated]
  rcases engine.execute_cases e.program.code with ⟨err, failed⟩ | ⟨w, ran, read⟩
  · rw [executeBytes, Program.ofBytes, failed, failed]
  · have kept : (Value.ofWord e.kind w).word = w := by
      rw [Value.word_ofWord, Expr.normalize_of_run ran]
    rw [executeBytes_of_ok (read none), read, Option.getD_some, Except.map, kept]

end Engine

namespace Invocation

theorem perform_compile {i : Invocation} {read : String → Except ReadError String}
    {engine : Engine} {t : Tree} (command : i.command = .compile false)
    (made : i.engine read = .ok engine) (found : i.readTree read = .ok t) :
    i.perform read = (t.compile.map (·.hexDump)).mapError fun e => .engine (.lowering e) := by
  unfold perform
  rw [made, found, command]
  change ((t.compile.mapError EngineError.lowering).mapError CommandError.engine).bind
    (fun p => .ok p.hexDump) = _
  cases t.compile <;> rfl

theorem perform_of_engine {i : Invocation} {read : String → Except ReadError String}
    {err : CommandError} (failed : i.engine read = .error err) : i.perform read = .error err := by
  rw [perform, failed]
  rfl

theorem perform_of_readTree {i : Invocation} {read : String → Except ReadError String}
    {engine : Engine} {err : CommandError} (made : i.engine read = .ok engine)
    (failed : i.readTree read = .error err) : i.perform read = .error err := by
  rw [perform, made, failed]
  rfl

/-- The dump that one command prints runs to the value that the other prints, or fails like it,
unless both fail alike before there is a program. -/
theorem perform_compile_run (config : Option String) (path : String)
    (read : String → Except ReadError String) :
    (∃ err, perform ⟨config, .compile false, path⟩ read = .error err ∧
      perform ⟨config, .run, path⟩ read = .error err) ∨
    ∃ e t text code, engine ⟨config, .run, path⟩ read = .ok e ∧
      readTree ⟨config, .run, path⟩ read = .ok t ∧
      perform ⟨config, .compile false, path⟩ read = .ok text ∧ Listing.undump? text = some code ∧
      ((∃ v, e.evaluate t = .ok v ∧ perform ⟨config, .run, path⟩ read = .ok (v.text ++ "\n") ∧
          e.executeBytes code = .ok v.word.signed) ∨
        ∃ err, e.evaluate t = .error err ∧
          perform ⟨config, .run, path⟩ read = .error (.engine err) ∧
          e.executeBytes code = .error err) := by
  -- The engine and the tree are the same for both commands.
  cases made : engine ⟨config, .run, path⟩ read with
  | error err => exact .inl ⟨err, perform_of_engine made, perform_of_engine made⟩
  | ok e =>
    cases found : readTree ⟨config, .run, path⟩ read with
    | error err =>
      exact .inl ⟨err, perform_of_readTree made found, perform_of_readTree made found⟩
    | ok t =>
      have printed := perform_compile (i := ⟨config, .compile false, path⟩) rfl made found
      have shown := perform_run (i := ⟨config, .run, path⟩) rfl made found
      cases accepted : t.compile with
      | error err =>
        refine .inl ⟨.engine (.lowering err), ?_, ?_⟩
        · rw [printed, accepted]
          rfl
        · rw [shown, Engine.evaluate, Engine.compile, accepted]
          rfl
      | ok p =>
        have bytes := Engine.executeBytes_of_compile accepted e
        refine .inr ⟨e, t, p.hexDump, p.code, rfl, rfl, ?_, p.undump?_hexDump, ?_⟩
        · rw [printed, accepted]
          rfl
        · cases evaluated : e.evaluate t with
          | ok v =>
            rw [evaluated] at shown bytes
            exact .inl ⟨v, rfl, shown, bytes⟩
          | error err =>
            rw [evaluated] at shown bytes
            exact .inr ⟨err, rfl, shown, bytes⟩

end Invocation

/-- A dump is lossless: its words are the bytes in order, ten on every line but the last. So the
bytes of a compiled tree, read back from the dump, run to the word of the value of the tree or fail
like the tree; and this is what the two commands print, unless both fail alike before there is a
program. -/
theorem Program.hexDump_lossless :
    (∀ p : Program,
      let lines := Listing.lines p.hexDump.toList
      Listing.undump? p.hexDump = some p.code ∧
      lines.length = (p.code.length + 9) / 10 ∧
      p.hexDump.toList = lines.flatMap (· ++ ['\n']) ∧
      (p.code = [] → p.hexDump = "") ∧
      ∀ i line, lines[i]? = some line →
        (i + 1 < lines.length → (Listing.words line).length = 10) ∧
        1 ≤ (Listing.words line).length ∧ (Listing.words line).length ≤ 10) ∧
    (∀ (engine : Engine) (t : Tree) (p : Program), t.compile = .ok p →
      ∃ code, Listing.undump? p.hexDump = some code ∧
        engine.executeBytes code = (engine.evaluate t).map (·.word.signed)) ∧
    ∀ (config : Option String) (path : String) (read : String → Except ReadError String),
      let compiled := Invocation.perform ⟨config, .compile false, path⟩ read
      let ran := Invocation.perform ⟨config, .run, path⟩ read
      (∃ err, compiled = .error err ∧ ran = .error err) ∨
      ∃ engine t text code,
        Invocation.engine ⟨config, .run, path⟩ read = .ok engine ∧
        Invocation.readTree ⟨config, .run, path⟩ read = .ok t ∧
        compiled = .ok text ∧ Listing.undump? text = some code ∧
        ((∃ v, engine.evaluate t = .ok v ∧ ran = .ok (v.text ++ "\n") ∧
            engine.executeBytes code = .ok v.word.signed) ∨
          ∃ err, engine.evaluate t = .error err ∧ ran = .error (.engine err) ∧
            engine.executeBytes code = .error err) := by
  refine ⟨?_, ?_, ?_⟩
  · intro p lines
    have count : lines.length = (p.code.length + 9) / 10 := p.length_lines_hexDump
    refine ⟨p.undump?_hexDump, count, p.hexDump_eq_flatMap_lines, ?_, ?_⟩
    · intro empty
      rw [hexDump, empty, Listing.chunks]
      rfl
    · intro i line found
      obtain ⟨inside, -⟩ := List.getElem?_eq_some_iff.mp found
      rw [length_words_of_lines found]
      omega
  · intro engine t p accepted
    exact ⟨p.code, p.undump?_hexDump, Engine.executeBytes_of_compile accepted engine⟩
  · exact Invocation.perform_compile_run

end Wordcode
