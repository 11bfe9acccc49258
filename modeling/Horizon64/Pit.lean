import Mathlib.Tactic.Ring
import Horizon64.Pic

/- The divisor that `pit_init` of `tick/pit.c` programs.

   The frequency `f` is divided into `PIT_MAX_FREQ` and the quotient `q` takes the place of
   `f` in the variable, so the test that rounds looks at the remainder by `q`, not by `f`:
   `divisor_up_iff` and `divisor_down_iff` say which of the two neighbours is nearest,
   `pitDivisor_nearest_iff` when the code takes it. The two bytes are the divisor modulo
   2^16, which loses the divisors above 65536; 18 Hz has one. -/
namespace Horizon64

def pitMinFreq : UInt32 := 18
def pitMaxFreq : UInt32 := 1193182
def pitDefaultFreq : UInt32 := 1000
def pitChannel0DataPort : UInt16 := 0x40
def modeCommandRegister : UInt16 := 0x43

def pitModeCommandSetChannel (x : UInt8) : UInt8 := x <<< 6
def pitModeCommandSetAccessMode (x : UInt8) : UInt8 := x <<< 4
def pitModeCommandSetOpMode (x : UInt8) : UInt8 := x <<< 1

def pitChannel0 : UInt8 := 0x0
def pitLoAndHigh : UInt8 := 0x3
def pitMode3 : UInt8 := 0x3
def pitBinaryMode : UInt8 := 0x0

/-- `pit_init`: the writes to the PIT in order, and the interrupt masks afterwards; `none` is
    a division by zero. -/
def pitInit (hertz : UInt32) (s : Pics) : Option (List (UInt16 × UInt8) × Pics) :=
  let hertz := if hertz < pitMinFreq ∨ hertz > pitMaxFreq then pitDefaultFreq else hertz
  if hertz = 0 then none
  else
    let hertz := pitMaxFreq / hertz
    if hertz = 0 then none
    else
      let hertz := if pitMaxFreq % hertz > hertz / 2 then hertz + 1 else hertz
      let mode := pitBinaryMode ||| pitModeCommandSetOpMode pitMode3 |||
        pitModeCommandSetAccessMode pitLoAndHigh ||| pitModeCommandSetChannel pitChannel0
      some ([(modeCommandRegister, mode),
        (pitChannel0DataPort, (hertz &&& 0x00FF).toUInt8),
        (pitChannel0DataPort, ((hertz &&& 0xFF00) >>> 8).toUInt8)], picUnmask s 0)

/-! What it is for. -/

/-- The frequency asked for, or the default. -/
def pitFreq (hertz : UInt32) : Nat :=
  if 18 ≤ hertz.toNat ∧ hertz.toNat ≤ 1193182 then hertz.toNat else 1000

/-- `n` is `m / f` rounded to the nearest integer; of two equally near, either. -/
def IsNearest (n m f : Nat) : Prop := 2 * (n * f) ≤ 2 * m + f ∧ 2 * m ≤ 2 * (n * f) + f

/-- The count channel 0 gets, low byte first. -/
def channel0Count (writes : List (UInt16 × UInt8)) : Option Nat :=
  match (writes.filter (·.1 = pitChannel0DataPort)).map (·.2) with
  | [lo, hi] => some (lo.toNat + 2 ^ 8 * hi.toNat)
  | _ => none

/-- No division by zero, and the count is the nearest divisor, where 65536 is written as 0. -/
def PitRight (hertz : UInt32) (s : Pics) : Prop :=
  ∃ writes s', pitInit hertz s = some (writes, s') ∧
    ∃ n ≤ 2 ^ 16, IsNearest n 1193182 (pitFreq hertz) ∧
      channel0Count writes = some (n % 2 ^ 16)

/-! The two neighbours of a quotient. -/

section Rounding
variable {m f : Nat}

theorem divisor_down_iff : IsNearest (m / f) m f ↔ 2 * (m % f) ≤ f := by
  have hsplit : f * (m / f) + m % f = m := Nat.div_add_mod m f
  rw [IsNearest, Nat.mul_comm (m / f) f]
  refine ⟨?_, ?_⟩
  · intro h
    omega
  · intro h
    exact ⟨by omega, by omega⟩

theorem divisor_up_iff (hf : 0 < f) : IsNearest (m / f + 1) m f ↔ f ≤ 2 * (m % f) := by
  have hsplit : f * (m / f) + m % f = m := Nat.div_add_mod m f
  have hmod : m % f < f := Nat.mod_lt m hf
  have hnext : (m / f + 1) * f = f * (m / f) + f := by ring
  rw [IsNearest, hnext]
  refine ⟨?_, ?_⟩
  · intro h
    omega
  · intro h
    exact ⟨by omega, by omega⟩

theorem IsNearest.neighbour (hf : 0 < f) {n : Nat} (h : IsNearest n m f) :
    n = m / f ∨ n = m / f + 1 := by
  obtain ⟨hle, hge⟩ := h
  have hlow : m / f ≤ n := by
    have hlt : m < (n + 1) * f :=
      calc m < n * f + f := by omega
        _ = (n + 1) * f := by ring
    exact Nat.le_of_lt_succ ((Nat.div_lt_iff_lt_mul hf).mpr hlt)
  have hhigh : n ≤ m / f + 1 := by
    rcases Nat.eq_zero_or_pos n with rfl | hn
    · exact Nat.zero_le _
    · have hprev : (n - 1) * f ≤ m := by
        have hexp : n * f = (n - 1) * f + f := by
          rw [Nat.sub_mul, Nat.one_mul]
          exact (Nat.sub_add_cancel (Nat.le_mul_of_pos_left f hn)).symm
        omega
      exact Nat.sub_le_iff_le_add.mp ((Nat.le_div_iff_mul_le hf).mpr hprev)
  omega

end Rounding

/-! What the code computes. -/

/-- The divisor with the rounding of the code, by the remainder of the quotient. -/
def pitDivisor (f : Nat) : Nat :=
  if 1193182 % (1193182 / f) > 1193182 / f / 2 then 1193182 / f + 1 else 1193182 / f

theorem pitFreq_bounds (hertz : UInt32) : 18 ≤ pitFreq hertz ∧ pitFreq hertz ≤ 1193182 := by
  rw [pitFreq]
  split
  · next h => exact h
  · decide

theorem bytes_count (n : UInt32) :
    (n &&& 0x00FF).toUInt8.toNat + 2 ^ 8 * ((n &&& 0xFF00) >>> 8).toUInt8.toNat =
      n.toNat % 2 ^ 16 := by
  have hlow : (n &&& 0x00FF).toUInt8.toNat = n.toNat % 2 ^ 8 := by
    rw [UInt32.toNat_toUInt8, UInt32.toNat_and]
    exact (congrArg (· % 2 ^ 8) (Nat.and_two_pow_sub_one_eq_mod n.toNat 8)).trans (Nat.mod_mod _ _)
  have hhigh : ((n &&& 0xFF00) >>> 8).toUInt8.toNat = n.toNat / 2 ^ 8 % 2 ^ 8 := by
    rw [UInt32.toNat_toUInt8, UInt32.toNat_shiftRight, UInt32.toNat_and]
    change ((n.toNat &&& 0xFF00) >>> 8) % 2 ^ 8 = _
    rw [Nat.shiftRight_and_distrib, Nat.shiftRight_eq_div_pow]
    exact (congrArg (· % 2 ^ 8) (Nat.and_two_pow_sub_one_eq_mod _ 8)).trans (Nat.mod_mod _ _)
  rw [hlow, hhigh]
  omega

/-- `pit_init` divides by no zero, and its bytes are those of `pitDivisor`. -/
theorem pitInit_spec (hertz : UInt32) (s : Pics) : ∃ writes,
    pitInit hertz s = some (writes, picUnmask s 0) ∧
    channel0Count writes = some (pitDivisor (pitFreq hertz) % 2 ^ 16) := by
  obtain ⟨f, hf⟩ : ∃ f, f =
    if hertz < pitMinFreq ∨ hertz > pitMaxFreq then pitDefaultFreq else hertz := ⟨_, rfl⟩
  have hfreq : f.toNat = pitFreq hertz := by
    rw [hf, pitFreq]
    by_cases hrange : hertz < pitMinFreq ∨ hertz > pitMaxFreq
    · rw [if_pos hrange, if_neg]
      · rfl
      · intro h
        rcases hrange with hlow | hhigh
        · exact Nat.not_lt.mpr h.1 (UInt32.lt_iff_toNat_lt.mp hlow)
        · exact Nat.not_lt.mpr h.2 (UInt32.lt_iff_toNat_lt.mp hhigh)
    · rw [if_neg hrange, if_pos]
      obtain ⟨hlow, hhigh⟩ := not_or.mp hrange
      exact ⟨UInt32.le_iff_toNat_le.mp (UInt32.not_lt.mp hlow),
        UInt32.le_iff_toNat_le.mp (UInt32.not_lt.mp hhigh)⟩
  obtain ⟨hlow, hhigh⟩ := pitFreq_bounds hertz
  have hfne : f ≠ 0 := by
    rintro rfl
    have hzero : (0 : UInt32).toNat = 0 := rfl
    omega
  have hquot : (pitMaxFreq / f).toNat = 1193182 / pitFreq hertz := by
    rw [UInt32.toNat_div, hfreq]
    rfl
  have hquotpos : 0 < 1193182 / pitFreq hertz := Nat.div_pos hhigh (by omega)
  have hqne : pitMaxFreq / f ≠ 0 := by
    intro h
    rw [h] at hquot
    exact Nat.ne_of_gt hquotpos hquot.symm
  have htest : pitMaxFreq % (pitMaxFreq / f) > pitMaxFreq / f / 2 ↔
      1193182 % (1193182 / pitFreq hertz) > 1193182 / pitFreq hertz / 2 := by
    rw [gt_iff_lt, UInt32.lt_iff_toNat_lt, UInt32.toNat_div, UInt32.toNat_mod, hquot]
    rfl
  have hdivisor : (if pitMaxFreq % (pitMaxFreq / f) > pitMaxFreq / f / 2 then pitMaxFreq / f + 1
      else pitMaxFreq / f).toNat = pitDivisor (pitFreq hertz) := by
    rw [pitDivisor]
    simp only [htest]
    split
    · have hsmall : 1193182 / pitFreq hertz ≤ 1193182 := Nat.div_le_self _ _
      have hone : (1 : UInt32).toNat = 1 := rfl
      rw [UInt32.toNat_add, hquot, hone]
      omega
    · exact hquot
  rw [pitInit]
  simp only [← hf, if_neg hfne, if_neg hqne]
  refine ⟨_, rfl, ?_⟩
  rw [← hdivisor]
  exact congrArg some (bytes_count _)

theorem pitDivisor_nearest_iff {f : Nat} (hf : 0 < f) :
    IsNearest (pitDivisor f) 1193182 f ↔
      if 1193182 % (1193182 / f) > 1193182 / f / 2 then f ≤ 2 * (1193182 % f)
      else 2 * (1193182 % f) ≤ f := by
  rw [pitDivisor]
  split
  · exact divisor_up_iff hf
  · exact divisor_down_iff

/-- The PIT gets the nearest divisor exactly when the frequency is not 18 Hz, whose divisor
    has 17 bits, and the test of the code rounds the way the remainder by the frequency says. -/
theorem pit_nearest_divisor_iff (hertz : UInt32) (s : Pics) :
    PitRight hertz s ↔ pitFreq hertz ≠ 18 ∧
      if 1193182 % (1193182 / pitFreq hertz) > 1193182 / pitFreq hertz / 2
      then pitFreq hertz ≤ 2 * (1193182 % pitFreq hertz)
      else 2 * (1193182 % pitFreq hertz) ≤ pitFreq hertz := by
  obtain ⟨hlow, hhigh⟩ := pitFreq_bounds hertz
  have hpos : 0 < pitFreq hertz := by omega
  obtain ⟨writes, hinit, hcount⟩ := pitInit_spec hertz s
  rw [← pitDivisor_nearest_iff hpos]
  have hcode : pitDivisor (pitFreq hertz) = 1193182 / pitFreq hertz ∨
      pitDivisor (pitFreq hertz) = 1193182 / pitFreq hertz + 1 := by
    rw [pitDivisor]
    split
    · exact Or.inr rfl
    · exact Or.inl rfl
  refine ⟨?_, ?_⟩
  · rintro ⟨writes', s', hrun, n, hn, hnear, hcount'⟩
    rw [hinit, Option.some.injEq, Prod.mk.injEq] at hrun
    obtain ⟨rfl, _⟩ := hrun
    rw [hcount, Option.some.injEq] at hcount'
    have hneighbour := hnear.neighbour hpos
    -- 1193182 / 18 is above 65536, and no bytes give a divisor that is
    have hne : pitFreq hertz ≠ 18 := by
      intro h18
      rw [h18] at hneighbour
      omega
    have hsmall : 1193182 / pitFreq hertz ≤ 1193182 / 19 :=
      Nat.div_le_div_left (by omega) (by decide)
    -- two neighbours below 65537 with the same bytes are one
    have hsame : pitDivisor (pitFreq hertz) = n := by omega
    rw [hsame]
    exact ⟨hne, hnear⟩
  · rintro ⟨hne, hnear⟩
    have hsmall : 1193182 / pitFreq hertz ≤ 1193182 / 19 :=
      Nat.div_le_div_left (by omega) (by decide)
    exact ⟨writes, picUnmask s 0, hinit, pitDivisor (pitFreq hertz), by omega, hnear, hcount⟩

/-- 100 Hz: 1193182 / 100 is 11931.82, and the divisor written is 11931. -/
theorem pit_hundred_hertz : ¬ ∀ hertz s, PitRight hertz s := by
  intro h
  obtain ⟨writes, s', hinit, n, hn, hnear, hcount⟩ := h 100 ⟨⟨0xFF, .mask⟩, ⟨0xFF, .mask⟩, 0xFFFF⟩
  have hfreq : pitFreq 100 = 100 := by decide
  have hwrites : (pitInit 100 ⟨⟨0xFF, .mask⟩, ⟨0xFF, .mask⟩, 0xFFFF⟩).bind
      (fun r => channel0Count r.1) = some 11931 := by decide
  rw [hinit, Option.bind_some, hcount, Option.some.injEq] at hwrites
  rw [hfreq] at hnear
  obtain ⟨hle, hge⟩ := hnear
  omega

/-- The default frequency is rounded down, rightly. -/
example : pitFreq 17 = 1000 ∧ pitDivisor 1000 = 1193 := by decide

end Horizon64
