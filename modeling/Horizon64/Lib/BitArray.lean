import Mathlib.Data.Finset.Card
import Mathlib.Order.Interval.Finset.Nat

/- Bits packed eight to a byte: bit `p` is bit `p % 8` of byte `p / 8`.

   Setting, clearing and testing a bit through a byte mask act on that one bit
   (`get_set`, `get_clear`, `test_mask`), the bits determine the bytes (`ext_get`),
   and `count N` counts the set bits among the first `N`. -/
namespace BitArray

/-- Bit `p` of the array. -/
def get (b : Nat → UInt8) (p : Nat) : Bool := (b (p / 8)).toBitVec.getLsbD (p % 8)

/-- The mask of bit `p` in its byte. -/
def mask (p : Nat) : UInt8 := 1 <<< UInt8.ofNat (p % 8)

/-- `b[p / 8] |= mask`. -/
def set (b : Nat → UInt8) (p : Nat) : Nat → UInt8 :=
  Function.update b (p / 8) (b (p / 8) ||| mask p)

/-- `b[p / 8] &= ~mask`. -/
def clear (b : Nat → UInt8) (p : Nat) : Nat → UInt8 :=
  Function.update b (p / 8) (b (p / 8) &&& ~~~mask p)

theorem mask_bit (p j : Nat) (hj : j < 8) : (mask p).toBitVec.getLsbD j = decide (j = p % 8) := by
  have hp : p % 8 < 8 := Nat.mod_lt _ (by decide)
  have hk : ∀ k < 8, ∀ j < 8,
      ((1 : UInt8) <<< UInt8.ofNat k).toBitVec.getLsbD j = decide (j = k) := by decide
  exact hk _ hp _ hj

/-- A byte and a one-bit mask have a common bit exactly when the bit is set. -/
theorem test_mask (b : Nat → UInt8) (p : Nat) : b (p / 8) &&& mask p ≠ 0 ↔ get b p = true := by
  have hp : p % 8 < 8 := Nat.mod_lt _ (by decide)
  constructor
  · intro h
    by_contra hget
    apply h
    apply UInt8.toBitVec_inj.mp
    apply BitVec.eq_of_getLsbD_eq
    intro j hj
    rw [UInt8.toBitVec_and, BitVec.getLsbD_and, mask_bit p j hj]
    by_cases hjp : j = p % 8
    · subst hjp
      simp only [get, Bool.not_eq_true] at hget
      simp [hget]
    · simp [hjp]
  · intro hget h
    have hbit := congrArg (fun x : UInt8 => x.toBitVec.getLsbD (p % 8)) h
    simp only [UInt8.toBitVec_and, BitVec.getLsbD_and, mask_bit p _ hp] at hbit
    simp only [get] at hget
    simp [hget] at hbit

theorem get_set (b : Nat → UInt8) (p q : Nat) : get (set b p) q = (get b q || decide (q = p)) := by
  have hq : q % 8 < 8 := Nat.mod_lt _ (by decide)
  unfold get set
  by_cases hpq : q / 8 = p / 8
  · rw [hpq, Function.update_self, UInt8.toBitVec_or, BitVec.getLsbD_or, mask_bit p _ hq]
    congr 1
    apply decide_eq_decide.mpr
    omega
  · have hne : q ≠ p := fun h => hpq (by rw [h])
    rw [Function.update_of_ne hpq]
    simp [hne]

theorem get_clear (b : Nat → UInt8) (p q : Nat) :
    get (clear b p) q = (get b q && !decide (q = p)) := by
  have hq : q % 8 < 8 := Nat.mod_lt _ (by decide)
  unfold get clear
  by_cases hpq : q / 8 = p / 8
  · rw [hpq, Function.update_self, UInt8.toBitVec_and, BitVec.getLsbD_and, UInt8.toBitVec_not,
      BitVec.getLsbD_not, mask_bit p _ hq]
    have hiff : decide (q % 8 = p % 8) = decide (q = p) := by
      apply decide_eq_decide.mpr
      omega
    simp [hq, hiff]
  · have hne : q ≠ p := fun h => hpq (by rw [h])
    rw [Function.update_of_ne hpq]
    simp [hne]

theorem byte_eq {b b' : Nat → UInt8} {i : Nat} (h : ∀ p, p / 8 = i → get b p = get b' p) :
    b i = b' i := by
  apply UInt8.toBitVec_inj.mp
  apply BitVec.eq_of_getLsbD_eq
  intro j hj
  have hbit := h (8 * i + j) (by omega)
  rw [get, get, show (8 * i + j) / 8 = i by omega, show (8 * i + j) % 8 = j by omega] at hbit
  exact hbit

theorem ext_get {b b' : Nat → UInt8} (h : ∀ p, get b p = get b' p) : b = b' :=
  funext fun _ => byte_eq fun p _ => h p

/-- The number of set bits among the first `N`. -/
def count (b : Nat → UInt8) (N : Nat) : Nat := ((Finset.range N).filter (fun p => get b p = true)).card

theorem count_le (b : Nat → UInt8) (N : Nat) : count b N ≤ N := by
  simpa [count] using Finset.card_filter_le (Finset.range N) (fun p => get b p = true)

/-- Setting a clear bit below the bound counts one more. -/
theorem count_set {b : Nat → UInt8} {p N : Nat} (hp : p < N) (hclear : get b p = false) :
    count (set b p) N = count b N + 1 := by
  have hnot : p ∉ (Finset.range N).filter (fun q => get b q = true) := by simp [hclear]
  rw [count, count, ← Finset.card_insert_of_notMem hnot]
  congr 1
  ext q
  simp only [Finset.mem_filter, Finset.mem_range, Finset.mem_insert, get_set, Bool.or_eq_true,
    decide_eq_true_eq]
  constructor
  · rintro ⟨hq, h | rfl⟩
    · exact Or.inr ⟨hq, h⟩
    · exact Or.inl rfl
  · rintro (rfl | ⟨hq, h⟩)
    · exact ⟨hp, Or.inr rfl⟩
    · exact ⟨hq, Or.inl h⟩

theorem set_of_get {b : Nat → UInt8} {p : Nat} (h : get b p = true) : set b p = b := by
  apply ext_get
  intro q
  rw [get_set]
  by_cases hq : q = p <;> simp [hq, h]

/-- Clearing a run of set bits below the bound counts that many fewer. -/
theorem count_clear_run {b b' : Nat → UInt8} {P n N : Nat} (hN : P + n ≤ N)
    (hset : ∀ p, P ≤ p → p < P + n → get b p = true)
    (hb' : ∀ p, get b' p = (get b p && !decide (P ≤ p ∧ p < P + n))) :
    count b' N + n = count b N := by
  have hrun : (Finset.Ico P (P + n)).card = n := by simp
  have hdis : Disjoint ((Finset.range N).filter (fun p => get b' p = true)) (Finset.Ico P (P + n)) := by
    rw [Finset.disjoint_left]
    intro p hp hrun
    simp only [Finset.mem_filter, hb', Finset.mem_Ico] at hp hrun
    simp [hrun] at hp
  have hunion := Finset.card_union_of_disjoint hdis
  rw [hrun] at hunion
  rw [count, count, ← hunion]
  congr 1
  ext p
  simp only [Finset.mem_union, Finset.mem_filter, Finset.mem_range, Finset.mem_Ico, hb',
    Bool.and_eq_true, Bool.not_eq_true', decide_eq_false_iff_not]
  constructor
  · rintro (⟨hp, h, _⟩ | ⟨hlo, hhi⟩)
    · exact ⟨hp, h⟩
    · exact ⟨by omega, hset p hlo hhi⟩
  · rintro ⟨hp, h⟩
    by_cases hin : P ≤ p ∧ p < P + n
    · exact Or.inr hin
    · exact Or.inl ⟨hp, h, hin⟩

end BitArray
