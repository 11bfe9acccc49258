import Horizon64.Vector

/- Where the vector macros read and write.

   The accesses are ranges of bytes: the element that `vector_append` stores, the
   elements that `vector_erase_value` compares, and the source and the destination of
   the `memcpy` of `vector_erase`. Its length subtracts `index + 1` bytes, not elements,
   so the last accesses are past the elements by an amount that grows with the index
   (`vector_stays_inside_iff`). -/
namespace Horizon64
open Words Bytes

structure ByteRange where
  start : UInt64
  len : UInt64

/-- The byte at `x` is in the range. -/
def ByteRange.Has (r : ByteRange) (x : UInt64) : Prop := x - r.start < r.len

def ByteRange.Within (r r' : ByteRange) : Prop := ∀ x, r.Has x → r'.Has x

theorem within_iff {data len cap : UInt64} {off : Nat} (h : off + len.toNat ≤ 2 ^ 63) :
    (ByteRange.mk (data + UInt64.ofNat off) len).Within ⟨data, cap⟩ ↔
      len.toNat = 0 ∨ off + len.toNat ≤ cap.toNat := by
  have hof : (UInt64.ofNat off).toNat = off := toNat_ofNat_of_lt (by omega)
  constructor
  · intro hin
    by_cases hzero : len.toNat = 0
    · exact Or.inl hzero
    · -- the last byte of the range
      have hlast : (UInt64.ofNat (len.toNat - 1)).toNat = len.toNat - 1 :=
        toNat_ofNat_of_lt (by omega)
      have hhas := hin (data + UInt64.ofNat off + UInt64.ofNat (len.toNat - 1)) ?_
      · have hsub : data + UInt64.ofNat off + UInt64.ofNat (len.toNat - 1) - data =
            UInt64.ofNat off + UInt64.ofNat (len.toNat - 1) := by grind
        rw [ByteRange.Has, UInt64.lt_iff_toNat_lt, hsub,
          toNat_add_of_lt (by rw [hof, hlast]; omega), hof, hlast] at hhas
        dsimp only at hhas
        omega
      · rw [ByteRange.Has, UInt64.lt_iff_toNat_lt, UInt64.add_comm, UInt64.add_sub_cancel, hlast]
        dsimp only
        omega
  · intro hfit x hx
    rw [ByteRange.Has, UInt64.lt_iff_toNat_lt] at hx ⊢
    dsimp only at hx ⊢
    have hsplit : x - data = UInt64.ofNat off + (x - (data + UInt64.ofNat off)) := sub_split _ _ _
    rw [hsplit, toNat_add_of_lt (by omega), hof]
    omega

/-! The accesses. -/

/-- One of the three macros. -/
inductive VecOp where
  | append (x : List UInt8) (func : Nat → UInt8) (line : UInt64)
  | erase (i : UInt64)
  | eraseValue (x : List UInt8)

section Accesses
variable (size : UInt64)

/-- `[data, data + capacity)`. -/
def Vec.buffer (v : Vec) : ByteRange := ⟨v.data, v.capacity⟩

/-- `[data, data + length * size)`. -/
def Vec.elementBytes (v : Vec) : ByteRange := ⟨v.data, v.length * size⟩

/-- Element `i`. -/
def Vec.element (v : Vec) (i : UInt64) : ByteRange := ⟨v.addr size i, size⟩

/-- What `vector_erase` reads. -/
def Vec.eraseReads (v : Vec) (i : UInt64) : ByteRange := ⟨v.addr size (i + 1), eraseLength size v i⟩

/-- What `vector_erase` writes. -/
def Vec.eraseWrites (v : Vec) (i : UInt64) : ByteRange := ⟨v.addr size i, eraseLength size v i⟩

/-- `vector_erase` stays in the buffer, and writes below the end of the elements. -/
def EraseInside (v : Vec) (i : UInt64) : Prop :=
  (v.eraseReads size i).Within v.buffer ∧ (v.eraseWrites size i).Within v.buffer ∧
    (v.eraseWrites size i).Within (v.elementBytes size)

/-- The loop of `vector_erase_value` looks at element `j`. -/
def Compares (m : Memory) (v : Vec) (x : List UInt8) (j : Nat) : Prop :=
  j < v.length.toNat ∧ ∀ k < j, vectorAt size m v (UInt64.ofNat k) ≠ x

/-- The next call touches no byte outside the buffer, which for `vector_append` is the
    one it stores into. -/
def StaysInside (s : Machine) (v : Vec) : VecOp → Prop
  | .append _ func line => ∀ s' v', vectorGrow size s v func line = some (s', v') →
      (v'.element size (v'.length - 1)).Within v'.buffer
  | .erase i => EraseInside size v i
  | .eraseValue x =>
      (∀ j, Compares size s.mem v x j → (v.element size (UInt64.ofNat j)).Within v.buffer) ∧
      ∀ i, vectorFind size s.mem v x v.length.toNat 0 = some i → EraseInside size v i

/-- The call is one a caller may make: an index below the length, an element of the
    size of the others in a buffer that does not wrap. -/
def VecOp.Valid (v : Vec) : VecOp → Prop
  | .append x _ _ => x.length = size.toNat ∧ (v.length.toNat + 1) * size.toNat * 4 ≤ 2 ^ 62
  | .erase i => i < v.length
  | .eraseValue _ => True

/-- Where `vector_erase` stays inside: one byte short of an element for each index up
    to `i`, and an element at most. -/
def EraseFits (v : Vec) (i : Nat) : Prop :=
  v.length.toNat * size.toNat + (i + 1) * (size.toNat - 1) ≤ v.capacity.toNat ∧
    i * (size.toNat - 1) ≤ 1

def VecOp.Fits (m : Memory) (v : Vec) : VecOp → Prop
  | .append _ _ _ => True
  | .erase i => EraseFits size v i.toNat
  | .eraseValue x => x ∈ elements size m v → EraseFits size v ((elements size m v).idxOf x)

end Accesses

variable {size : UInt64} {s : Machine} {v : Vec}

/-- The numbers of a vector: the capacity covers the elements, and neither wraps. -/
structure VecNumbers (size : UInt64) (v : Vec) : Prop where
  room : v.length.toNat * size.toNat ≤ v.capacity.toNat
  small : v.length.toNat * size.toNat * 4 ≤ 2 ^ 62

/-- Growing keeps the numbers right, whatever `krealloc` does. -/
theorem vectorGrow_numbers {s' : Machine} {v' : Vec} {func : Nat → UInt8} {line : UInt64}
    (hsize : 1 ≤ size.toNat) (hfit : (v.length.toNat + 1) * size.toNat * 4 ≤ 2 ^ 62)
    (h : vectorGrow size s v func line = some (s', v')) :
    v'.length = v.length + 1 ∧ VecNumbers size v' := by
  obtain ⟨hlen, hmul, hcap⟩ := grow_numbers hsize hfit
  rw [vectorGrow] at h
  dsimp only at h
  split at h
  · obtain ⟨⟨ptr, t⟩, _, heq⟩ := Option.map_eq_some_iff.mp h
    obtain ⟨_, rfl⟩ := Prod.mk.inj heq
    refine ⟨rfl, ?_, ?_⟩
    · dsimp only
      rw [hlen, hcap]
      omega
    · dsimp only
      rw [hlen]
      exact hfit
  · next hbig =>
    obtain ⟨_, rfl⟩ := Prod.mk.inj (Option.some.inj h)
    have hle := UInt64.le_iff_toNat_le.mp (UInt64.not_lt.mp hbig)
    rw [hmul] at hle
    refine ⟨rfl, ?_, ?_⟩
    · dsimp only
      rw [hlen]
      exact hle
    · dsimp only
      rw [hlen]
      exact hfit

theorem vectorErase_numbers (h : VecNumbers size v) {m : Memory} {i : UInt64} (hi : i < v.length) :
    VecNumbers size (vectorErase size m v i).2 := by
  have hi' := UInt64.lt_iff_toNat_lt.mp hi
  have h1 : (1 : UInt64).toNat = 1 := rfl
  have hlen : (vectorErase size m v i).2.length.toNat = v.length.toNat - 1 := by
    rw [vectorErase, UInt64.toNat_sub_of_le _ _ (UInt64.le_iff_toNat_le.mpr (by omega)), h1]
  have hless : (v.length.toNat - 1) * size.toNat ≤ v.length.toNat * size.toNat :=
    Nat.mul_le_mul_right _ (Nat.sub_le _ _)
  obtain ⟨hroom, hsmall⟩ := h
  refine ⟨?_, ?_⟩
  · rw [hlen]
    exact Nat.le_trans hless hroom
  · rw [hlen]
    omega

theorem vecNumbers_step (hsize : 1 ≤ size.toNat) {r r' : Machine × Vec × List (List UInt8)}
    (h : VecNumbers size r.2.1) (hstep : VecStep size r r') : VecNumbers size r'.2.1 := by
  cases hstep with
  | append x func line hx hfit happ =>
    obtain ⟨⟨t, w⟩, hgrow, heq⟩ := Option.map_eq_some_iff.mp happ
    obtain ⟨_, rfl⟩ := Prod.mk.inj heq
    exact (vectorGrow_numbers hsize hfit hgrow).2
  | @erase s v xs i hi => exact @vectorErase_numbers size v h s.mem i hi
  | @eraseValue s v xs x =>
    have hkeep : VecNumbers size (vectorEraseValue size s.mem v x).2 := by
      rw [vectorEraseValue]
      rcases vectorEraseValue_cases size s.mem v x with ⟨hnone, _⟩ | ⟨i, hsome, hi, _⟩
      · rw [hnone]
        exact h
      · rw [hsome]
        exact vectorErase_numbers h hi
    exact hkeep

theorem run_vecNumbers {k₀ : KernelMemInfo} {m : Memory} (hsize : 1 ≤ size.toNat)
    {r : Machine × Vec × List (List UInt8)}
    (hrun : Relation.ReflTransGen (VecStep size) (⟨k₀, m⟩, vectorNew, []) r) :
    VecNumbers size r.2.1 := by
  refine Ledger.run_preserves (fun r => VecNumbers size r.2.1)
    (fun _ _ => vecNumbers_step hsize) ⟨?_, ?_⟩ hrun
  · exact Nat.le_of_eq (Nat.zero_mul _)
  · rw [show vectorNew.length.toNat = 0 from rfl, Nat.zero_mul]
    exact Nat.zero_le _

/-! When a call stays inside. -/

theorem element_within (h : VecNumbers size v) {j : Nat} (hj : j < v.length.toNat) :
    (v.element size (UInt64.ofNat j)).Within v.buffer := by
  obtain ⟨hroom, hsmall⟩ := h
  have hle : j * size.toNat + size.toNat ≤ v.length.toNat * size.toNat := by
    rw [← Nat.succ_mul]
    exact Nat.mul_le_mul_right _ hj
  have hat : v.addr size (UInt64.ofNat j) = v.data + UInt64.ofNat (j * size.toNat) := by
    rw [Vec.addr, UInt64.ofNat_mul, UInt64.ofNat_toNat]
  rw [Vec.element, Vec.buffer, hat, within_iff (by omega)]
  exact Or.inr (by omega)

theorem eraseInside_iff (hsize : 1 ≤ size.toNat) (h : VecNumbers size v) {i : UInt64}
    (hi : i.toNat < v.length.toNat) : EraseInside size v i ↔ EraseFits size v i.toNat := by
  obtain ⟨hroom, hsmall⟩ := h
  obtain ⟨hlast, hone, _, _⟩ := erase_bounds hsize hi
  have hself : i.toNat ≤ i.toNat * size.toNat := Nat.le_mul_of_pos_right _ hsize
  have hn := eraseLength_toNat hsize hi (by omega)
  have hmul : (v.length * size).toNat = v.length.toNat * size.toNat :=
    toNat_mul_of_lt (by omega)
  have hdst : v.addr size i = v.data + UInt64.ofNat (i.toNat * size.toNat) := by
    rw [Vec.addr, UInt64.ofNat_mul, UInt64.ofNat_toNat, UInt64.ofNat_toNat]
  have hsrc : v.addr size (i + 1) =
      v.data + UInt64.ofNat (i.toNat * size.toNat + size.toNat) := by
    rw [Vec.addr, Words.ofNat_add, UInt64.ofNat_mul, UInt64.ofNat_toNat, UInt64.ofNat_toNat,
      UInt64.add_mul, UInt64.one_mul]
  have hshort : i.toNat * (size.toNat - 1) = i.toNat * size.toNat - i.toNat :=
    Nat.mul_sub_one _ _
  have hshort' : (i.toNat + 1) * (size.toNat - 1) =
      i.toNat * size.toNat + size.toNat - i.toNat - 1 := by
    rw [Nat.mul_sub_one, Nat.succ_mul]
    omega
  rw [EraseInside, EraseFits, Vec.eraseReads, Vec.eraseWrites, Vec.buffer, Vec.elementBytes,
    hdst, hsrc, within_iff (by omega), within_iff (by omega), within_iff (by omega), hn, hmul,
    hshort, hshort']
  omega

/-- After every run the next call stays inside the buffer exactly when, where it erases,
    the bytes that are copied too many fit behind the elements. -/
theorem vector_stays_inside_iff {k₀ : KernelMemInfo} {m : Memory} (hsize : 1 ≤ size.toNat)
    {xs : List (List UInt8)}
    (hrun : Relation.ReflTransGen (VecStep size) (⟨k₀, m⟩, vectorNew, []) (s, v, xs))
    {op : VecOp} (hop : op.Valid size v) :
    StaysInside size s v op ↔ op.Fits size s.mem v := by
  have hnum : VecNumbers size v := run_vecNumbers hsize hrun
  cases op with
  | append x func line =>
    simp only [StaysInside, VecOp.Fits, iff_true]
    intro s' v' hgrow
    obtain ⟨hlen, hnum'⟩ := vectorGrow_numbers hsize hop.2 hgrow
    have hlast : v'.length - 1 = UInt64.ofNat v.length.toNat := by
      rw [hlen, UInt64.ofNat_toNat, UInt64.add_sub_cancel]
    rw [hlast]
    apply element_within hnum'
    rw [hlen, (grow_numbers hsize hop.2).1]
    exact Nat.lt_succ_self _
  | erase i => exact eraseInside_iff hsize hnum (UInt64.lt_iff_toNat_lt.mp hop)
  | eraseValue x =>
    have hcompared : ∀ j, Compares size s.mem v x j →
        (v.element size (UInt64.ofNat j)).Within v.buffer := fun j hj => element_within hnum hj.1
    simp only [StaysInside, VecOp.Fits]
    rw [and_iff_right hcompared]
    rcases vectorEraseValue_cases size s.mem v x with ⟨hnone, hmem⟩ | ⟨i, hsome, hi, hmem, hidx⟩
    · simp [hnone, hmem]
    · have hfits := eraseInside_iff hsize hnum (UInt64.lt_iff_toNat_lt.mp hi)
      simp [hsome, hmem, hidx, hfits]

theorem vector_stays_inside_two :
    ∃ s : Machine, StaysInside 8 s ⟨2, 32, physToVirt 0 + pageSize⟩ (.erase 0) ↔
      (VecOp.erase 0).Fits 8 s.mem ⟨2, 32, physToVirt 0 + pageSize⟩ := by
  obtain ⟨s, hrun⟩ := two_appends (List.replicate 8 1) (List.replicate 8 2) rfl rfl
  exact ⟨s, vector_stays_inside_iff (by decide) hrun (show (0 : UInt64) < 2 by decide)⟩

/-- Erasing the last of two elements of 8 bytes writes past both. -/
theorem vector_erase_last :
    ∃ s, Relation.ReflTransGen (VecStep 8) (⟨eightPages, fun _ => 0⟩, vectorNew, [])
        (s, ⟨2, 32, physToVirt 0 + pageSize⟩, [List.replicate 8 1, List.replicate 8 2]) ∧
      (VecOp.erase 1).Valid 8 ⟨2, 32, physToVirt 0 + pageSize⟩ ∧
      ¬ StaysInside 8 s ⟨2, 32, physToVirt 0 + pageSize⟩ (.erase 1) := by
  obtain ⟨s, hrun⟩ := two_appends (List.replicate 8 1) (List.replicate 8 2) rfl rfl
  refine ⟨s, hrun, show (1 : UInt64) < 2 by decide, fun h => ?_⟩
  have hinside : EraseInside 8 ⟨2, 32, physToVirt 0 + pageSize⟩ 1 := h
  rw [eraseInside_iff (by decide) (run_vecNumbers (by decide) hrun)
    (show (1 : UInt64).toNat < (2 : UInt64).toNat by decide)] at hinside
  have hlast := hinside.2
  revert hlast
  decide

end Horizon64
