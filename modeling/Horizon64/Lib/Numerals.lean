import Mathlib.Data.Nat.Digits.Lemmas

/- Numerals in a base: lists of digits, the most significant first.

   `numeral b n` has the value `n` and no leading zero (`numeral_canonical`); `low b w n`
   are the `w` digits of lowest order. A printer that stops after `w` digits gives the one
   or the other (`reverse_take_digits`). -/
namespace Numerals
variable {b n w : Nat} {ds : List Nat}

def numeral (b n : Nat) : List Nat := if n = 0 then [0] else (Nat.digits b n).reverse

def low (b w n : Nat) : List Nat := (List.range w).reverse.map fun i => n / b ^ i % b

/-- The digits stand for `n`, without a leading zero except for 0 itself. -/
structure Canonical (b : Nat) (ds : List Nat) (n : Nat) : Prop where
  digit : ∀ d ∈ ds, d < b
  value : Nat.ofDigits b ds.reverse = n
  nonempty : ds ≠ []
  lead : ds.head? = some 0 → ds = [0]

theorem numeral_of_ne_zero (h : n ≠ 0) : numeral b n = (Nat.digits b n).reverse := if_neg h

theorem numeral_canonical (hb : 1 < b) (n : Nat) : Canonical b (numeral b n) n := by
  by_cases hn : n = 0
  · subst hn
    refine ⟨fun d hd => ?_, by simp [numeral], by simp [numeral], fun _ => rfl⟩
    obtain rfl : d = 0 := by simpa [numeral] using hd
    exact Nat.lt_trans Nat.zero_lt_one hb
  · rw [numeral_of_ne_zero hn]
    have hne : Nat.digits b n ≠ [] := Nat.digits_ne_nil_iff_ne_zero.mpr hn
    refine ⟨fun d hd => Nat.digits_lt_base hb (List.mem_reverse.mp hd), ?_, by simpa using hne, ?_⟩
    · rw [List.reverse_reverse, Nat.ofDigits_digits]
    · intro hlead
      rw [List.head?_reverse, List.getLast?_eq_some_getLast hne, Option.some.injEq] at hlead
      exact absurd hlead (Nat.getLast_digit_ne_zero b hn)

theorem take_digits_of_lt (hb : 1 < b) (h : n < b ^ w) :
    (Nat.digits b n).take w = Nat.digits b n :=
  List.take_of_length_le ((Nat.digits_length_le_iff hb n).mpr h)

theorem take_digits_of_le (hb : 1 < b) (h : b ^ w ≤ n) :
    ((Nat.digits b n).take w).reverse = low b w n := by
  have hlen : w < (Nat.digits b n).length := (Nat.lt_digits_length_iff hb n).mpr h
  rw [low, List.map_reverse]
  congr 1
  apply List.ext_getElem
  · simp [Nat.le_of_lt hlen]
  · intro i hi _
    have hiw : i < w := by
      rw [List.length_take] at hi
      omega
    rw [List.getElem_take, List.getElem_map, List.getElem_range, ← Nat.getD_digits n i hb,
      List.getD_eq_getElem?_getD, List.getElem?_eq_getElem (Nat.lt_trans hiw hlen),
      Option.getD_some]

/-- The first `w` digits to come, of a number other than 0. -/
theorem reverse_take_digits (hb : 1 < b) (hn : n ≠ 0) (w : Nat) :
    ((Nat.digits b n).take w).reverse = if n < b ^ w then numeral b n else low b w n := by
  by_cases h : n < b ^ w
  · rw [if_pos h, take_digits_of_lt hb h, numeral_of_ne_zero hn]
  · rw [if_neg h, take_digits_of_le hb (Nat.le_of_not_lt h)]

end Numerals
