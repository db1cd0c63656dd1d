import Mathlib.Data.List.Nodup
import Wordcode.Tree.Document

/-!
# Objects are read field by field

The fields of an object are read in the order in which they are written. `read?_object` says that
the order does not count: each field of the shape is looked up by its name, must occur once at most,
and has its default if it does not occur; only the names of the other fields are looked at. All that
is made of one name is `sole?` of the fields that have it.
-/

namespace Wordcode

open Json (Document)

theorem mapM_eq_some_iff {α β : Type} {f : α → Option β} {xs : List α} {ys : List β} :
    xs.mapM f = some ys ↔ xs.map f = ys.map some := by
  induction xs generalizing ys with
  | nil => cases ys <;> simp
  | cons x xs ih =>
    rw [List.mapM_cons, List.map_cons]
    cases f x with
    | none => cases ys <;> simp
    | some y =>
      cases ys with
      | nil => cases xs.mapM f <;> simp
      | cons z ys =>
        rw [List.map_cons, List.cons.injEq, ← ih]
        cases xs.mapM f <;> simp

theorem exists_of_mem_mapM {α β : Type} {f : α → Option β} {xs : List α} {ys : List β}
    (whole : xs.mapM f = some ys) {y : β} (member : y ∈ ys) : ∃ x ∈ xs, f x = some y := by
  rw [mapM_eq_some_iff] at whole
  have found : some y ∈ xs.map f := whole ▸ List.mem_map_of_mem member
  exact List.mem_map.mp found

theorem mapM_congr {α β : Type} {f g : α → Option β} {xs : List α} (same : ∀ x ∈ xs, f x = g x) :
    xs.mapM f = xs.mapM g := by
  apply Option.ext
  intro ys
  rw [mapM_eq_some_iff, mapM_eq_some_iff, List.map_congr_left same]

/-- The fields of an object that have a given name. -/
def named (fields : List (Option String × Document)) (name : String) :
    List (Option String × Document) :=
  fields.filter (·.1 = some name)

theorem named_cons_self (d : Document) (fields : List (Option String × Document)) (name : String) :
    named ((some name, d) :: fields) name = (some name, d) :: named fields name := by
  simp [named]

theorem named_cons_of_ne {other name : String} (different : other ≠ name) (d : Document)
    (fields : List (Option String × Document)) :
    named ((some other, d) :: fields) name = named fields name := by
  simp [named, different]

theorem named_eq_nil {fields : List (Option String × Document)} {name : String}
    (absent : ∀ kd ∈ fields, kd.1 ≠ some name) : named fields name = [] := by
  apply List.filter_eq_nil_iff.mpr
  intro kd member
  simpa using absent kd member

theorem named_append (first second : List (Option String × Document)) (name : String) :
    named (first ++ second) name = named first name ++ named second name :=
  List.filter_append first second

theorem named_middle_of_ne {other name : String} (different : other ≠ name)
    (before after : List (Option String × Document)) (d : Document) :
    named (before ++ (some other, d) :: after) name = named (before ++ after) name := by
  rw [named_append, named_cons_of_ne different, named_append]

/-- What is made of the fields of one name, which must not be repeated. -/
def sole? {α : Type} (missing : Option α) (content? : Document → Option α) :
    List (Option String × Document) → Option α
  | [] => missing
  | [(_, d)] => content? d
  | _ => none

theorem unique?_eq_sole? (fields : List (Option String × Document)) (name : String) :
    unique? fields name = sole? none some (named fields name) := by
  rw [unique?, ← named]
  rcases named fields name with _ | ⟨_, _ | _⟩ <;> rfl

theorem atMostOne?_eq_sole? (fields : List (Option String × Document)) (name : String) :
    atMostOne? fields name = sole? (some .null) some (named fields name) := by
  rw [atMostOne?, ← named]
  rcases named fields name with _ | ⟨_, _ | _⟩ <;> rfl

/-- What an object has for a field of a shape. -/
def readField? (fields : List (Option String × Document)) (f : Field) : Option Part :=
  sole? f.role.missing? (read? false f.role) (named fields f.name)

section

variable {α : Type} {missing : Option α} {content? : Document → Option α}

theorem sole?_of_twice {found : List (Option String × Document)} (twice : 2 ≤ found.length) :
    sole? missing content? found = none := by
  rcases found with _ | ⟨_, _ | _⟩
  · cases twice
  · simp at twice
  · rfl

theorem sole?_middle (before after : List (Option String × Document)) (name : String)
    (d : Document) :
    sole? missing content? (named (before ++ (some name, d) :: after) name) =
      if named (before ++ after) name = [] then content? d else none := by
  rw [named_append, named_append, named_cons_self]
  rcases named before name with _ | ⟨_, _ | _⟩ <;> rcases named after name with _ | _ <;> rfl

end

section

variable {shape : List Field} (unique : (shape.map (·.name)).Nodup)

include unique

theorem eq_of_name_eq {f g : Field} (first : f ∈ shape) (second : g ∈ shape)
    (same : f.name = g.name) : f = g :=
  List.inj_on_of_nodup_map unique first second same

/-- Where reading succeeds every field of the shape occurs once at most, and what it holds has been
read. -/
theorem readFields?_some {fields : List (Option String × Document)} {parts : List (String × Part)}
    (read : readFields? shape fields = some parts) :
    fields.all (·.1.isSome) ∧ ∀ f ∈ shape,
      named fields f.name = [] ∧ parts.lookup f.name = none ∨
      ∃ k d p, named fields f.name = [(k, d)] ∧ read? false f.role d = some p ∧
        parts.lookup f.name = some p := by
  induction fields generalizing parts with
  | nil =>
    rw [readFields?] at read
    cases read
    exact ⟨rfl, fun f _ => .inl ⟨rfl, rfl⟩⟩
  | cons field fields ih =>
    obtain ⟨_ | name, d⟩ := field
    · rw [readFields?] at read
      cases read
    rw [readFields?] at read
    split at read
    · next unknown =>
      obtain ⟨all, found⟩ := ih read
      refine ⟨by simpa using all, ?_⟩
      intro f member
      have different : name ≠ f.name := by
        rintro rfl
        have absent := List.find?_eq_none.mp unknown f member
        simp at absent
      rw [named_cons_of_ne different]
      exact found f member
    · next g known =>
      have member := List.mem_of_find?_eq_some known
      have same : g.name = name := by simpa using List.find?_some known
      simp only [Option.bind_eq_bind, Option.bind_eq_some_iff] at read
      obtain ⟨p, content, rest, others, new⟩ := read
      split at new
      · cases new
      next fresh =>
      cases new
      obtain ⟨all, found⟩ := ih others
      refine ⟨by simpa using all, ?_⟩
      intro f inside
      by_cases here : f.name = name
      · -- The field itself: no other one of its name may follow.
        obtain rfl := eq_of_name_eq unique inside member (here.trans same.symm)
        rcases found f inside with ⟨none, _⟩ | ⟨_, _, q, _, _, later⟩
        · refine .inr ⟨some name, d, p, ?_, content, ?_⟩
          · rw [← here] at *
            rw [named_cons_self, none]
          · rw [here, List.lookup_cons_self]
        · rw [here] at later
          rw [later] at fresh
          exact absurd rfl fresh
      · have different : (f.name == name) = false := by simpa using here
        rw [named_cons_of_ne (Ne.symm here), List.lookup_cons, different]
        exact found f inside

/-- Where reading fails although all fields have a name, some field of the shape occurs twice or
cannot be read. -/
theorem readFields?_none {fields : List (Option String × Document)}
    (all : fields.all (·.1.isSome)) (failed : readFields? shape fields = none) :
    ∃ f ∈ shape, 2 ≤ (named fields f.name).length ∨
      ∃ kd ∈ named fields f.name, read? false f.role kd.2 = none := by
  induction fields with
  | nil =>
    rw [readFields?] at failed
    cases failed
  | cons field fields ih =>
    obtain ⟨_ | name, d⟩ := field
    · simp at all
    have others : fields.all (·.1.isSome) := by simpa using all
    -- What is wrong with the fields that follow stays wrong.
    have later : readFields? shape fields = none → ∃ f ∈ shape,
        2 ≤ (named ((some name, d) :: fields) f.name).length ∨
        ∃ kd ∈ named ((some name, d) :: fields) f.name, read? false f.role kd.2 = none := by
      intro rest
      obtain ⟨f, member, wrong⟩ := ih others rest
      have included : (named fields f.name).Sublist (named ((some name, d) :: fields) f.name) :=
        (List.sublist_cons_self _ _).filter _
      refine ⟨f, member, ?_⟩
      rcases wrong with twice | ⟨kd, inside, unread⟩
      · have longer := included.length_le
        exact .inl (by omega)
      · exact .inr ⟨kd, included.subset inside, unread⟩
    rw [readFields?] at failed
    split at failed
    · exact later failed
    · next g known =>
      have member := List.mem_of_find?_eq_some known
      obtain rfl : g.name = name := by simpa using List.find?_some known
      cases content : read? false g.role d with
      | none =>
        refine ⟨g, member, .inr ⟨(some g.name, d), ?_, content⟩⟩
        rw [named_cons_self]
        exact List.mem_cons_self
      | some p =>
        cases rest : readFields? shape fields with
        | none => exact later rest
        | some parts =>
          rw [content, rest] at failed
          simp only [Option.bind_eq_bind, Option.bind_some] at failed
          refine ⟨g, member, .inl ?_⟩
          rcases (readFields?_some unique rest).2 g member with ⟨_, absent⟩ | ⟨k, e, q, once, _⟩
          · rw [absent] at failed
            cases failed
          · rw [named_cons_self, once]
            exact Nat.le_refl 2

/-- Reading the fields of an object and putting them in the order of the shape is looking up each
field of the shape. -/
theorem arrange?_readFields? (fields : List (Option String × Document)) :
    (readFields? shape fields).bind (arrange? shape) =
      if fields.all (·.1.isSome) then shape.mapM (readField? fields) else none := by
  cases read : readFields? shape fields with
  | some parts =>
    obtain ⟨all, found⟩ := readFields?_some unique read
    rw [if_pos all, Option.bind_some, arrange?]
    apply mapM_congr
    intro f member
    rcases found f member with ⟨absent, missing⟩ | ⟨k, d, p, once, content, present⟩
    · rw [readField?, absent, missing, sole?]
    · rw [readField?, once, present, sole?, content]
  | none =>
    rw [Option.bind_none]
    split
    · next all =>
      obtain ⟨f, member, wrong⟩ := readFields?_none unique all read
      have unread : readField? fields f = none := by
        rw [readField?]
        generalize named fields f.name = found at wrong ⊢
        rcases found with _ | ⟨⟨k, d⟩, _ | _⟩
        · simp at wrong
        · simpa [sole?] using wrong
        · rfl
      cases whole : shape.mapM (readField? fields) with
      | none => rfl
      | some parts =>
        rw [mapM_eq_some_iff] at whole
        have impossible : readField? fields f ∈ parts.map some := by
          rw [← whole]
          exact List.mem_map_of_mem member
        rw [unread] at impossible
        simp at impossible
    · rfl

end

theorem NodeKind.nodup_shape (kind : NodeKind) : (kind.shape.map (·.name)).Nodup := by
  cases kind <;> decide

/-- An object is read as a node by its tag and its fields, each looked up by name. -/
theorem read?_object {role : Role} (holds : role.holdsNode) (outermost : Bool)
    (fields : List (Option String × Document)) :
    read? outermost role (.object fields) =
      if fields.all (·.1.isSome) then
        (NodeKind.ofFields? outermost fields).bind fun kind =>
          ((kind.shape.mapM (readField? fields)).bind kind.build?).bind role.ofNode?
      else none := by
  rw [read?, if_pos holds]
  simp only [Option.bind_eq_bind]
  cases NodeKind.ofFields? outermost fields with
  | none => simp
  | some kind =>
    have whole := arrange?_readFields? kind.nodup_shape fields
    rw [Option.bind_some, Option.bind_some]
    split at whole
    · next all =>
      rw [if_pos all, ← whole, Option.bind_assoc, Option.bind_assoc]
    · next anonymous =>
      rw [if_neg anonymous]
      rw [Option.bind_eq_none_iff] at whole
      rw [Option.bind_eq_none_iff]
      intro parts read
      rw [whole parts read]
      rfl

end Wordcode
