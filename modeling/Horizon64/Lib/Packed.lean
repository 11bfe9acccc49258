import Mathlib.Data.Nat.Bitwise

/- Packed records as numbers.

   A packed record of the source, read little endian, is one number: its members one after
   the other, the first one in the lowest bits (`pack`). A reader that cuts the number
   elsewhere (`field`) finds the members below its cut passed over (`field_skip`), the
   member at its cut (`field_head`), and a cut over a boundary is two cuts (`field_split`, and
   `field_field` for a cut inside of one).
   A value that was stored in pieces comes back from its pieces (`join_mod`). -/
namespace Packed

/-- Members with their widths in bits, from the lowest bits on. -/
def pack : List (Nat × Nat) → Nat
  | [] => 0
  | (w, v) :: fs => v % 2 ^ w + 2 ^ w * pack fs

/-- The `w` bits from bit `lo` on. -/
def field (n lo w : Nat) : Nat := n / 2 ^ lo % 2 ^ w

theorem field_head (w v : Nat) (fs : List (Nat × Nat)) {k : Nat} (hk : k ≤ w) :
    field (pack ((w, v) :: fs)) 0 k = v % 2 ^ k := by
  rw [field, pack, Nat.pow_zero, Nat.div_one, Nat.add_mod,
    Nat.mod_eq_zero_of_dvd ((Nat.pow_dvd_pow 2 hk).mul_right (pack fs)), Nat.add_zero, Nat.mod_mod,
    Nat.mod_mod_of_dvd v (Nat.pow_dvd_pow 2 hk)]

/-- A cut behind the first member is one of the others. -/
theorem field_skip (w v : Nat) (fs : List (Nat × Nat)) (lo k : Nat) :
    field (pack ((w, v) :: fs)) (w + lo) k = field (pack fs) lo k := by
  rw [field, field, pack, Nat.pow_add, ← Nat.div_div_eq_div_mul,
    Nat.add_mul_div_left _ _ (Nat.two_pow_pos w),
    Nat.div_eq_of_lt (Nat.mod_lt v (Nat.two_pow_pos w)), Nat.zero_add]

theorem field_split (n lo a b : Nat) :
    field n lo (a + b) = field n lo a + 2 ^ a * field n (lo + a) b := by
  rw [field, field, field, Nat.pow_add, Nat.mod_mul, Nat.div_div_eq_div_mul, ← Nat.pow_add]

theorem field_field (n lo : Nat) {k i w : Nat} (h : i + w ≤ k) :
    field (field n lo k) i w = field n (lo + i) w := by
  have hk : 2 ^ k = 2 ^ i * 2 ^ (k - i) := by rw [← Nat.pow_add, Nat.add_sub_of_le (by omega)]
  rw [field, field, field, hk, Nat.mod_mul_right_div_self,
    Nat.mod_mod_of_dvd _ (Nat.pow_dvd_pow 2 (by omega)), Nat.div_div_eq_div_mul, ← Nat.pow_add]

/-- Two adjacent pieces of a value. -/
theorem join_mod (v a b : Nat) : v % 2 ^ a + 2 ^ a * (v / 2 ^ a % 2 ^ b) = v % 2 ^ (a + b) := by
  rw [Nat.pow_add, Nat.mod_mul]

end Packed
