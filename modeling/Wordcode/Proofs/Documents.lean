import Wordcode.Json.Document
import Wordcode.Proofs.Lexing

/-!
# Documents and how deep they nest

A document whose numbers can be read again is read back from its text (`parse?_render`). Its
`levels`, the arrays and objects that it nests, are the most that are open at once in that text
(`nesting_render`), and they are all that strict reading asks for beyond the meaning of strings and
numbers (`admits_iff`).
-/

namespace Wordcode.Json

/-! ### From characters to tokens -/

/-- In front of `rest`, the text of the tokens is read as these tokens. -/
def Lexes (ts : List Token) (rest : List Char) : Prop :=
  lex (ts.flatMap Token.chars ++ rest) = (lex rest).map (ts ++ ·)

namespace Lexes

theorem token {t : Token} {rest : List Char} (legible : t.Legible)
    (stops : t.isNumber → Numeral.Stops rest) : Lexes [t] rest := by
  rw [Lexes, List.flatMap_singleton]
  exact lex_chars_append legible stops

theorem append {first second : List Token} {rest : List Char}
    (before : Lexes first (second.flatMap Token.chars ++ rest)) (after : Lexes second rest) :
    Lexes (first ++ second) rest := by
  unfold Lexes at *
  rw [List.flatMap_append, List.append_assoc, before, after, Option.map_map]
  simp only [Function.comp_def, List.append_assoc]

/-- A token that is no number is read whatever follows. -/
theorem cons {t : Token} {ts : List Token} {rest : List Char} (other : t.isNumber = false)
    (tail : Lexes ts rest) : Lexes (t :: ts) rest := by
  have legible : t.Legible := by
    cases t with
    | number n => cases other
    | _ => trivial
  have head : Lexes [t] (ts.flatMap Token.chars ++ rest) := token legible (by simp [other])
  exact append head tail

end Lexes

namespace Document

/-- All numbers of the document can be read again. -/
def Legible (d : Document) : Prop := ∀ t ∈ d.tokens, t.Legible

instance (d : Document) : Decidable d.Legible :=
  inferInstanceAs (Decidable (∀ t ∈ d.tokens, t.Legible))

theorem stops_moreItems (items : List Document) (rest : List Char) :
    Numeral.Stops ((moreItems items).flatMap Token.chars ++ rest) := by
  cases items <;> exact Numeral.stops_cons _ (by decide)

theorem stops_moreFields (fields : List (Option String × Document)) (rest : List Char) :
    Numeral.Stops ((moreFields fields).flatMap Token.chars ++ rest) := by
  rcases fields with _ | ⟨⟨k, v⟩, fields⟩ <;> exact Numeral.stops_cons _ (by decide)

mutual

theorem lexes_tokens : (d : Document) → d.Legible → ∀ {rest : List Char}, Numeral.Stops rest →
    Lexes d.tokens rest
  | null, _, _, _ | bool _, _, _, _ | text _, _, _, _ => .token trivial nofun
  | number n, legible, _, stops => .token (legible _ List.mem_cons_self) fun _ => stops
  | array [], _, _, _ | object [], _, _, _ => .cons rfl (.token trivial nofun)
  | array (v :: items), legible, rest, _ => by
    rw [Legible, tokens, List.forall_mem_cons, List.forall_mem_append] at legible
    exact .cons rfl
      (.append (lexes_tokens v legible.2.1 (stops_moreItems items rest))
        (lexes_moreItems items legible.2.2))
  | object ((k, v) :: fields), legible, rest, _ => by
    rw [Legible, tokens, List.forall_mem_cons, List.forall_mem_cons, List.forall_mem_cons,
      List.forall_mem_append] at legible
    obtain ⟨_, _, _, inside, after⟩ := legible
    exact .cons rfl (.cons rfl (.cons rfl
      (.append (lexes_tokens v inside (stops_moreFields fields rest))
        (lexes_moreFields fields after))))

theorem lexes_moreItems : (items : List Document) → (∀ t ∈ moreItems items, t.Legible) →
    ∀ {rest : List Char}, Lexes (moreItems items) rest
  | [], _, _ => .token trivial nofun
  | v :: items, legible, rest => by
    rw [moreItems, List.forall_mem_cons, List.forall_mem_append] at legible
    exact .cons rfl
      (.append (lexes_tokens v legible.2.1 (stops_moreItems items rest))
        (lexes_moreItems items legible.2.2))

theorem lexes_moreFields : (fields : List (Option String × Document)) →
    (∀ t ∈ moreFields fields, t.Legible) → ∀ {rest : List Char}, Lexes (moreFields fields) rest
  | [], _, _ => .token trivial nofun
  | (k, v) :: fields, legible, rest => by
    rw [moreFields, List.forall_mem_cons, List.forall_mem_cons, List.forall_mem_cons,
      List.forall_mem_append] at legible
    obtain ⟨_, _, _, inside, after⟩ := legible
    exact .cons rfl (.cons rfl (.cons rfl
      (.append (lexes_tokens v inside (stops_moreFields fields rest))
        (lexes_moreFields fields after))))

end

theorem lex_render {d : Document} (legible : d.Legible) : lex d.render.toList = some d.tokens := by
  have whole : Lexes d.tokens [] := lexes_tokens d legible nofun
  rw [Lexes, List.append_nil] at whole
  rw [render, String.toList_ofList, whole, lex, Option.map_some, List.append_nil]

/-! ### From tokens to documents -/

/-- The first token of a value closes no array. -/
theorem foldlM_firstItem (d : Document) (frames : List Frame) (rest : List Token) :
    (d.tokens ++ rest).foldlM step (.firstItem frames) =
      (d.tokens ++ rest).foldlM step (.value (.array [] :: frames)) := by
  rcases d with _ | _ | _ | _ | (_ | _) | (_ | _) <;> rfl

mutual

theorem foldlM_tokens : (d : Document) → (frames : List Frame) → (rest : List Token) →
    (d.tokens ++ rest).foldlM step (.value frames) = rest.foldlM step (.complete d frames)
  | null, _, _ | bool _, _, _ | number _, _, _ | text _, _, _ | array [], _, _
  | object [], _, _ => rfl
  | array (v :: items), frames, rest => by
    rw [tokens, List.cons_append, List.append_assoc, List.foldlM_cons]
    refine (foldlM_firstItem v frames _).trans ?_
    rw [foldlM_tokens v, foldlM_moreItems items]
    rfl
  | object ((k, v) :: fields), frames, rest => by
    rw [tokens, List.cons_append, List.cons_append, List.cons_append, List.append_assoc]
    refine (foldlM_tokens v (.object [] k :: frames) _).trans ?_
    rw [foldlM_moreFields fields]
    rfl

theorem foldlM_moreItems : (items : List Document) → (v : Document) → (before : List Document) →
    (frames : List Frame) → (rest : List Token) →
    (moreItems items ++ rest).foldlM step (.complete v (.array before :: frames)) =
      rest.foldlM step (.complete (array ((v :: before).reverse ++ items)) frames)
  | [], v, before, frames, rest => by rw [List.append_nil]; rfl
  | next :: items, v, before, frames, rest => by
    rw [moreItems, List.cons_append, List.append_assoc]
    refine (foldlM_tokens next (.array (v :: before) :: frames) _).trans ?_
    rw [foldlM_moreItems items, List.reverse_cons, List.append_assoc, List.singleton_append]

theorem foldlM_moreFields : (fields : List (Option String × Document)) → (k : Option String) →
    (v : Document) → (before : List (Option String × Document)) → (frames : List Frame) →
    (rest : List Token) →
    (moreFields fields ++ rest).foldlM step (.complete v (.object before k :: frames)) =
      rest.foldlM step (.complete (object (((k, v) :: before).reverse ++ fields)) frames)
  | [], k, v, before, frames, rest => by rw [List.append_nil]; rfl
  | (name, next) :: fields, k, v, before, frames, rest => by
    rw [moreFields, List.cons_append, List.cons_append, List.cons_append, List.append_assoc]
    refine (foldlM_tokens next (.object ((k, v) :: before) name :: frames) _).trans ?_
    rw [foldlM_moreFields fields, List.reverse_cons, List.append_assoc, List.singleton_append]

end

theorem ofTokens?_tokens (d : Document) : ofTokens? d.tokens = some d := by
  have whole := foldlM_tokens d [] []
  rw [List.append_nil] at whole
  rw [ofTokens?, whole]
  rfl

theorem parse?_render {d : Document} (legible : d.Legible) : parse? d.render = some d := by
  rw [parse?, lex_render legible, Option.bind_some, ofTokens?_tokens]

theorem parse?_of_render {d : Document} {s : String} (legible : d.Legible)
    (written : d.render = s) : parse? s = some d :=
  written ▸ parse?_render legible

/-! ### Nesting -/

mutual

/-- How many arrays and objects are nested in each other at most. -/
def levels : Document → Nat
  | null | bool _ | number _ | text _ => 0
  | array items => levelsOfItems items + 1
  | object fields => levelsOfFields fields + 1

def levelsOfItems : List Document → Nat
  | [] => 0
  | v :: items => max v.levels (levelsOfItems items)

def levelsOfFields : List (Option String × Document) → Nat
  | [] => 0
  | (_, v) :: fields => max v.levels (levelsOfFields fields)

end

theorem levelsOfItems_le_iff {items : List Document} {n : Nat} :
    levelsOfItems items ≤ n ↔ ∀ d ∈ items, d.levels ≤ n := by
  induction items with
  | nil => simp [levelsOfItems]
  | cons v items ih => rw [levelsOfItems, Nat.max_le, ih, List.forall_mem_cons]

theorem levels_le_of_mem {items : List Document} {d : Document} (member : d ∈ items) :
    d.levels ≤ levelsOfItems items :=
  levelsOfItems_le_iff.mp (Nat.le_refl _) d member

end Document

/-- The number of arrays and objects that are open after a token, if `depth` are open before. -/
def Token.depthAfter (depth : Nat) : Token → Nat
  | openArray | openObject => depth + 1
  | closeArray | closeObject => depth - 1
  | _ => depth

/-- The greatest number of arrays and objects that are open at once. -/
def peak (depth : Nat) : List Token → Nat
  | [] => depth
  | t :: ts => max depth (peak (t.depthAfter depth) ts)

/-- How many arrays and objects a text nests in each other. -/
def nesting (s : String) : Nat :=
  match lex s.toList with
  | some ts => peak 0 ts
  | none => 0

theorem le_peak (depth : Nat) (ts : List Token) : depth ≤ peak depth ts := by
  cases ts with
  | nil => exact Nat.le_refl _
  | cons t ts => exact Nat.le_max_left _ _

namespace Document

mutual

theorem peak_tokens : (d : Document) → (depth : Nat) → (rest : List Token) →
    peak depth (d.tokens ++ rest) = max (depth + d.levels) (peak depth rest)
  | null, depth, rest | bool _, depth, rest | number _, depth, rest | text _, depth, rest => by
    simp only [tokens, List.singleton_append, peak, Token.depthAfter, levels, Nat.add_zero]
  | array [], depth, rest | object [], depth, rest => by
    have deeper := le_peak depth rest
    simp only [tokens, List.cons_append, List.nil_append, peak, Token.depthAfter, levels,
      levelsOfItems, levelsOfFields, Nat.add_sub_cancel]
    omega
  | array (v :: items), depth, rest => by
    have deeper := le_peak depth rest
    rw [tokens, List.cons_append, List.append_assoc, peak]
    simp only [Token.depthAfter]
    rw [peak_tokens v, peak_moreItems items, levels, levelsOfItems]
    omega
  | object ((k, v) :: fields), depth, rest => by
    have deeper := le_peak depth rest
    rw [tokens, List.cons_append, List.cons_append, List.cons_append, List.append_assoc, peak, peak,
      peak]
    simp only [Token.depthAfter]
    rw [peak_tokens v, peak_moreFields fields, levels, levelsOfFields]
    omega

theorem peak_moreItems : (items : List Document) → (depth : Nat) → (rest : List Token) →
    peak (depth + 1) (moreItems items ++ rest) =
      max (depth + 1 + levelsOfItems items) (peak depth rest)
  | [], depth, rest => by
    simp only [moreItems, List.singleton_append, peak, Token.depthAfter, levelsOfItems,
      Nat.add_sub_cancel, Nat.add_zero]
  | v :: items, depth, rest => by
    rw [moreItems, List.cons_append, List.append_assoc, peak]
    simp only [Token.depthAfter]
    rw [peak_tokens v, peak_moreItems items, levelsOfItems]
    omega

theorem peak_moreFields : (fields : List (Option String × Document)) → (depth : Nat) →
    (rest : List Token) →
    peak (depth + 1) (moreFields fields ++ rest) =
      max (depth + 1 + levelsOfFields fields) (peak depth rest)
  | [], depth, rest => by
    simp only [moreFields, List.singleton_append, peak, Token.depthAfter, levelsOfFields,
      Nat.add_sub_cancel, Nat.add_zero]
  | (k, v) :: fields, depth, rest => by
    rw [moreFields, List.cons_append, List.cons_append, List.cons_append, List.append_assoc, peak,
      peak, peak]
    simp only [Token.depthAfter]
    rw [peak_tokens v, peak_moreFields fields, levelsOfFields]
    omega

end

theorem nesting_render {d : Document} (legible : d.Legible) : nesting d.render = d.levels := by
  have whole := peak_tokens d 0 []
  rw [List.append_nil] at whole
  rw [nesting, lex_render legible]
  simpa [peak] using whole

/-! ### Strict reading -/

mutual

/-- All strings have a text and all numbers are finite. -/
def meaningful : Document → Bool
  | null | bool _ => true
  | number n => n.isFinite
  | text s => s.isSome
  | array items => meaningfulItems items
  | object fields => meaningfulFields fields

def meaningfulItems : List Document → Bool
  | [] => true
  | v :: items => v.meaningful && meaningfulItems items

def meaningfulFields : List (Option String × Document) → Bool
  | [] => true
  | (k, v) :: fields => k.isSome && v.meaningful && meaningfulFields fields

end

mutual

theorem admits_iff : (d : Document) → {limit : Nat} →
    (d.admits limit ↔ d.levels ≤ limit ∧ d.meaningful)
  | null, limit | bool _, limit | number _, limit | text _, limit => by
    simp [admits, levels, meaningful]
  | array items, 0 | object fields, 0 => by simp [admits, levels]
  | array items, limit + 1 => by
    simp only [admits, levels, meaningful, admitsItems_iff items, Nat.add_le_add_iff_right]
  | object fields, limit + 1 => by
    simp only [admits, levels, meaningful, admitsFields_iff fields, Nat.add_le_add_iff_right]

theorem admitsItems_iff : (items : List Document) → {limit : Nat} →
    (admitsItems limit items ↔ levelsOfItems items ≤ limit ∧ meaningfulItems items)
  | [], limit => by simp [admitsItems, levelsOfItems, meaningfulItems]
  | v :: items, limit => by
    simp only [admitsItems, levelsOfItems, meaningfulItems, Bool.and_eq_true, admits_iff v,
      admitsItems_iff items, Nat.max_le]
    exact and_and_and_comm

theorem admitsFields_iff : (fields : List (Option String × Document)) → {limit : Nat} →
    (admitsFields limit fields ↔ levelsOfFields fields ≤ limit ∧ meaningfulFields fields)
  | [], limit => by simp [admitsFields, levelsOfFields, meaningfulFields]
  | (k, v) :: fields, limit => by
    simp only [admitsFields, levelsOfFields, meaningfulFields, Bool.and_eq_true, admits_iff v,
      admitsFields_iff fields, Nat.max_le]
    grind

end

end Document

end Wordcode.Json
