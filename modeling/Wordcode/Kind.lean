/-!
# Integer kinds

A kind is a width together with a signedness: it fixes how many low bits of a machine word
count and how they are read. `Kind.promote` resolves the kind of a binary operation from the
kinds of its operands. A literal may also be of a floating-point kind; `Scalar` covers both.
-/

namespace Wordcode

-- In the whole library a power is the one of the core library, whatever algebra is in scope.
attribute [scoped instance (2000)] instPowNat

inductive Width where
  | w8 | w16 | w32 | w64
  deriving DecidableEq

namespace Width

def bytes : Width → Nat
  | w8 => 1
  | w16 => 2
  | w32 => 4
  | w64 => 8

def bits (w : Width) : Nat := 8 * w.bytes

def index : Width → Nat
  | w8 => 0
  | w16 => 1
  | w32 => 2
  | w64 => 3

def all : List Width := [w8, w16, w32, w64]

def digits : Width → String
  | w8 => "8"
  | w16 => "16"
  | w32 => "32"
  | w64 => "64"

theorem bytes_pos (w : Width) : 0 < w.bytes := by cases w <;> decide

theorem bits_le (w : Width) : w.bits ≤ 64 := by cases w <;> decide

end Width

/-- An integer kind: a width, read with or without a sign. -/
structure Kind where
  width : Width
  signed : Bool
  deriving DecidableEq

namespace Kind

/-- The kind of an unsuffixed integer, and of a program whose result kind is unknown. -/
def i64 : Kind := ⟨.w64, true⟩

def bits (k : Kind) : Nat := k.width.bits

/-- Position of the kind inside an opcode family: by width, signed before unsigned. -/
def index (k : Kind) : Nat := 2 * k.width.index + if k.signed then 0 else 1

def all : List Kind := Width.all.flatMap fun w => [⟨w, true⟩, ⟨w, false⟩]

def ofIndex? (i : Nat) : Option Kind := all[i]?

def ofBits? (bits : Nat) (signed : Bool) : Option Kind :=
  (Width.all.find? (·.bits = bits)).map (⟨·, signed⟩)

def name (k : Kind) : String := (if k.signed then "i" else "u") ++ k.width.digits

/-- The kind of a binary operation: the wider operand decides, and at equal width the result is
unsigned only when both operands are. -/
def promote (a b : Kind) : Kind :=
  if b.width.bytes < a.width.bytes then a
  else if a.width.bytes < b.width.bytes then b
  else ⟨a.width, a.signed || b.signed⟩

theorem promote_cases (a b : Kind) :
    b.bits < a.bits ∧ a.promote b = a ∨ a.bits < b.bits ∧ a.promote b = b ∨
      a.bits = b.bits ∧ a.promote b = ⟨a.width, a.signed || b.signed⟩ := by
  unfold promote bits Width.bits
  split
  · exact .inl ⟨by omega, rfl⟩
  · split
    · exact .inr (.inl ⟨by omega, rfl⟩)
    · exact .inr (.inr ⟨by omega, rfl⟩)

@[simp] theorem ofIndex?_index (k : Kind) : ofIndex? k.index = some k := by
  rcases k with ⟨w, s⟩; cases w <;> cases s <;> rfl

theorem index_lt (k : Kind) : k.index < 8 := by
  rcases k with ⟨w, s⟩; cases w <;> cases s <;> decide

theorem index_of_ofIndex? {i : Nat} {k : Kind} (found : ofIndex? i = some k) : k.index = i := by
  match i with
  | 0 | 1 | 2 | 3 | 4 | 5 | 6 | 7 => cases found; rfl
  | n + 8 => simp [ofIndex?, all, Width.all] at found

end Kind

inductive FloatKind where
  | f32 | f64
  deriving DecidableEq

namespace FloatKind

def name : FloatKind → String
  | f32 => "f32"
  | f64 => "f64"

end FloatKind

inductive Scalar where
  | int (kind : Kind)
  | float (kind : FloatKind)
  deriving DecidableEq

namespace Scalar

def name : Scalar → String
  | int k => k.name
  | float k => k.name

def integer? : Scalar → Option Kind
  | int k => some k
  | float _ => none

def all : List Scalar := Kind.all.map int ++ [float .f32, float .f64]

/-- The scalar with a given name; case matters. -/
def ofName? (s : String) : Option Scalar := all.find? (·.name = s)

end Scalar

end Wordcode
