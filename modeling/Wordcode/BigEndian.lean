import Wordcode.Kind

/-!
# Big-endian numbers

Immediates are stored with the most significant byte first. `bytes` writes a number in a given
count of bytes and `number` reads it back.
-/

namespace Wordcode.BigEndian

/-- The low `count` bytes of a number, most significant first. -/
def bytes (n : Nat) : (count : Nat) → List UInt8
  | 0 => []
  | count + 1 => UInt8.ofNat (n / 256 ^ count) :: bytes n count

def number : List UInt8 → Nat
  | [] => 0
  | b :: rest => b.toNat * 256 ^ rest.length + number rest

@[simp] theorem length_bytes (n count : Nat) : (bytes n count).length = count := by
  induction count with
  | zero => rfl
  | succ count ih => simp [bytes, ih]

theorem number_lt (bs : List UInt8) : number bs < 256 ^ bs.length := by
  induction bs with
  | nil => simp [number]
  | cons b rest ih =>
    have digit : b.toNat < 256 := b.toNat_lt
    have step : b.toNat * 256 ^ rest.length ≤ 255 * 256 ^ rest.length :=
      Nat.mul_le_mul_right _ (by omega)
    simp only [number, List.length_cons, Nat.pow_succ]
    omega

end Wordcode.BigEndian
