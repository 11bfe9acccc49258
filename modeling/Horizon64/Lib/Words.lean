import Mathlib.Data.Nat.Bitwise
import Mathlib.Tactic.Ring

/- 64-bit words: sums and products that do not wrap, clearing and setting the
   low bits of a word, and the counter of a C `for` loop.

   A loop `for (uint64_t i = start; i < bound; i += step)` is run through the
   list of values its counter takes (`loopValues`). Sums in the machine wrap, so
   a bound `start + n * step` that passes `2^64` lands below `start` and the loop
   runs zero times (`loopValues_empty`); otherwise the counter takes exactly the
   `n` values `start + k * step` (`loopValues_range`). -/
namespace Words

theorem toNat_add_of_lt {a b : UInt64} (h : a.toNat + b.toNat < 2 ^ 64) :
    (a + b).toNat = a.toNat + b.toNat := by
  rw [UInt64.toNat_add, Nat.mod_eq_of_lt h]

theorem toNat_mul_of_lt {a b : UInt64} (h : a.toNat * b.toNat < 2 ^ 64) :
    (a * b).toNat = a.toNat * b.toNat := by
  rw [UInt64.toNat_mul, Nat.mod_eq_of_lt h]

theorem toNat_ofNat_of_lt {n : Nat} (h : n < 2 ^ 64) : (UInt64.ofNat n).toNat = n := by
  rw [UInt64.toNat_ofNat', Nat.mod_eq_of_lt h]

theorem ofNat_add (m n : Nat) : UInt64.ofNat (m + n) = UInt64.ofNat m + UInt64.ofNat n := by
  apply UInt64.toNat_inj.mp
  simp [UInt64.toNat_add]

/-! Differences, which wrap. -/

theorem add_sub_left (a b : UInt64) : a + b - a = b := by
  rw [UInt64.add_comm, UInt64.add_sub_cancel]

theorem sub_add_eq (x a b : UInt64) : x - (a + b) = x - a - b := by
  rw [UInt64.sub_eq_iff_eq_add, UInt64.add_comm a, ← UInt64.add_assoc, UInt64.sub_add_cancel,
    UInt64.sub_add_cancel]

theorem add_sub_add (a b c : UInt64) : a + b - (a + c) = b - c := by
  rw [sub_add_eq, add_sub_left]

theorem add_sub_back (a x : UInt64) : a + (x - a) = x := by
  rw [UInt64.add_comm, UInt64.sub_add_cancel]

theorem sub_split (x a off : UInt64) : x - a = off + (x - (a + off)) := by
  rw [sub_add_eq, UInt64.add_comm, UInt64.sub_add_cancel]

/-! Low bits of a word. -/

theorem size_sub_low {k : Nat} (hk : k ≤ 64) :
    UInt64.size - 1 - (2 ^ k - 1) = (2 ^ (64 - k) - 1) * 2 ^ k := by
  have h : 2 ^ (64 - k) * 2 ^ k = 2 ^ 64 := by rw [← Nat.pow_add]; congr 1; omega
  have hpos : 0 < 2 ^ k := Nat.two_pow_pos k
  rw [Nat.sub_mul, h, Nat.one_mul]
  simp only [UInt64.size]
  omega

/-- Masking with `~(2^k - 1)` clears the low `k` bits. -/
theorem and_not_low_toNat (x : UInt64) {m : UInt64} {k : Nat} (hk : k ≤ 64)
    (hm : m.toNat = 2 ^ k - 1) : (x &&& ~~~m).toNat = x.toNat / 2 ^ k * 2 ^ k := by
  rw [UInt64.toNat_and, UInt64.toNat_not, hm, size_sub_low hk, ← Nat.shiftLeft_eq,
    ← Nat.shiftLeft_eq, ← Nat.shiftRight_eq_div_pow]
  apply Nat.eq_of_testBit_eq
  intro i
  simp only [Nat.testBit_and, Nat.testBit_shiftLeft, Nat.testBit_shiftRight]
  by_cases hi : k ≤ i
  · rw [show k + (i - k) = i by omega, Nat.testBit_two_pow_sub_one]
    by_cases h64 : i < 64
    · simp [hi, show i - k < 64 - k by omega]
    · have hx : x.toNat.testBit i = false :=
        Nat.testBit_lt_two_pow (Nat.lt_of_lt_of_le x.toNat_lt
          (Nat.pow_le_pow_right (by decide) (by omega)))
      simp [hx]
  · simp [hi]

/-- Setting low bits of a word whose low bits are clear adds them. -/
theorem or_low_toNat {x f : UInt64} {k : Nat} (hx : x.toNat % 2 ^ k = 0) (hf : f.toNat < 2 ^ k) :
    (x ||| f).toNat = x.toNat + f.toNat := by
  rw [UInt64.toNat_or, ← Nat.div_add_mod x.toNat (2 ^ k), hx, Nat.add_zero]
  exact (Nat.two_pow_add_eq_or_of_lt hf _).symm

/-! The counter of a `for` loop. -/

/-- The values `i` takes in `for (i = start; i < bound; i += step)`, for at most
    `fuel` rounds. -/
def loopValues (step : UInt64) : Nat → UInt64 → UInt64 → List UInt64
  | 0, _, _ => []
  | fuel + 1, i, bound => if i < bound then i :: loopValues step fuel (i + step) bound else []

theorem loopValues_empty (step : UInt64) (fuel : Nat) {start bound : UInt64} (h : bound ≤ start) :
    loopValues step fuel start bound = [] := by
  cases fuel with
  | zero => rfl
  | succ fuel => simp [loopValues, UInt64.not_lt.mpr h]

/-- A bound `n` steps past the start, with no wrap, gives the `n` values in order. -/
theorem loopValues_range {step : UInt64} (hs : 0 < step.toNat) :
    ∀ (n fuel : Nat) (start bound : UInt64), n ≤ fuel →
      bound.toNat = start.toNat + n * step.toNat →
      loopValues step fuel start bound =
        (List.range n).map (fun k => start + step * UInt64.ofNat k) := by
  intro n
  induction n with
  | zero =>
    intro fuel start bound _ hb
    rw [loopValues_empty]
    · rfl
    · rw [UInt64.le_iff_toNat_le]; omega
  | succ n ih =>
    intro fuel start bound hf hb
    obtain ⟨fuel, rfl⟩ : ∃ f, fuel = f + 1 := ⟨fuel - 1, by omega⟩
    have hexp : (n + 1) * step.toNat = step.toNat + n * step.toNat := by ring
    have hbound := bound.toNat_lt
    have hlt : start < bound := by rw [UInt64.lt_iff_toNat_lt]; omega
    have hnext : (start + step).toNat = start.toNat + step.toNat := toNat_add_of_lt (by omega)
    rw [loopValues, if_pos hlt, ih fuel (start + step) bound (by omega) (by omega),
      List.range_succ_eq_map, List.map_cons, List.map_map]
    congr 1
    · simp
    · apply List.map_congr_left
      intro k _
      simp only [Function.comp, Nat.succ_eq_add_one]
      rw [ofNat_add]
      grind

/-- The values of a loop counter are the first so many multiples of the step. -/
theorem loopValues_prefix (step : UInt64) (fuel : Nat) (start bound : UInt64) :
    ∃ m ≤ fuel, loopValues step fuel start bound =
      (List.range m).map fun j => start + step * UInt64.ofNat j := by
  induction fuel generalizing start with
  | zero => exact ⟨0, Nat.le_refl 0, rfl⟩
  | succ fuel ih =>
    rw [loopValues]
    split
    · obtain ⟨m, hm, hrest⟩ := ih (start + step)
      refine ⟨m + 1, Nat.succ_le_succ hm, ?_⟩
      rw [hrest, List.range_succ_eq_map, List.map_cons, List.map_map]
      congr 1
      · simp
      · apply List.map_congr_left
        intro j _
        calc start + step + step * UInt64.ofNat j
            = start + (step * UInt64.ofNat j + step) := by
              rw [UInt64.add_assoc, UInt64.add_comm step]
          _ = start + step * UInt64.ofNat (j + 1) := by
              rw [ofNat_add, UInt64.mul_add]
              simp
    · exact ⟨0, Nat.zero_le _, rfl⟩

theorem loopValues_lt {step : UInt64} {fuel : Nat} {start bound i : UInt64}
    (h : i ∈ loopValues step fuel start bound) : i < bound := by
  induction fuel generalizing start with
  | zero => simp [loopValues] at h
  | succ fuel ih =>
    rw [loopValues] at h
    split at h
    · next hlt =>
      rcases List.mem_cons.mp h with rfl | h
      · exact hlt
      · exact ih h
    · simp at h

theorem mem_loopValues {step : UInt64} {j fuel : Nat} {start bound : UInt64} (hf : j < fuel)
    (h : start.toNat + j * step.toNat < bound.toNat) :
    start + step * UInt64.ofNat j ∈ loopValues step fuel start bound := by
  induction j generalizing start fuel with
  | zero =>
    obtain ⟨fuel, rfl⟩ : ∃ f, fuel = f + 1 := ⟨fuel - 1, by omega⟩
    have hlt : start < bound := by
      rw [UInt64.lt_iff_toNat_lt]
      omega
    rw [loopValues, if_pos hlt]
    simp
  | succ j ih =>
    obtain ⟨fuel, rfl⟩ : ∃ f, fuel = f + 1 := ⟨fuel - 1, by omega⟩
    have hexp : (j + 1) * step.toNat = step.toNat + j * step.toNat := by ring
    have hbound := bound.toNat_lt
    have hlt : start < bound := by
      rw [UInt64.lt_iff_toNat_lt]
      omega
    have hnext : (start + step).toNat = start.toNat + step.toNat := toNat_add_of_lt (by omega)
    have hmem : start + step + step * UInt64.ofNat j ∈ loopValues step fuel (start + step) bound :=
      ih (by omega) (by omega)
    have hval : start + step * UInt64.ofNat (j + 1) = start + step + step * UInt64.ofNat j := by
      rw [ofNat_add]
      grind
    rw [loopValues, if_pos hlt, hval]
    exact List.mem_cons_of_mem _ hmem

/-- A counter that cannot pass `2^64` does not fall below its start. -/
theorem le_of_mem_loopValues {step : UInt64} {fuel : Nat} {start bound i : UInt64}
    (h : bound.toNat + step.toNat ≤ 2 ^ 64) (hi : i ∈ loopValues step fuel start bound) :
    start ≤ i := by
  induction fuel generalizing start with
  | zero => simp [loopValues] at hi
  | succ fuel ih =>
    rw [loopValues] at hi
    split at hi
    · next hlt =>
      rw [UInt64.lt_iff_toNat_lt] at hlt
      have hnext : (start + step).toNat = start.toNat + step.toNat := toNat_add_of_lt (by omega)
      rcases List.mem_cons.mp hi with rfl | hi
      · exact UInt64.le_refl i
      · have hle := ih hi
        rw [UInt64.le_iff_toNat_le, hnext] at hle
        rw [UInt64.le_iff_toNat_le]
        omega
    · simp at hi

/-- The counter keeps the residue of its start modulo a divisor of the step. -/
theorem loopValues_mod {step : UInt64} {d : Nat} (hd : d ∣ 2 ^ 64) (hs : d ∣ step.toNat)
    {fuel : Nat} {start bound i : UInt64} (h : i ∈ loopValues step fuel start bound) :
    i.toNat % d = start.toNat % d := by
  induction fuel generalizing start with
  | zero => simp [loopValues] at h
  | succ fuel ih =>
    rw [loopValues] at h
    split at h
    · rcases List.mem_cons.mp h with rfl | h
      · rfl
      · rw [ih h, UInt64.toNat_add, Nat.mod_mod_of_dvd _ hd, Nat.add_mod,
          Nat.mod_eq_zero_of_dvd hs, Nat.add_zero, Nat.mod_mod]
    · simp at h

end Words
