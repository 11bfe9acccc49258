import Horizon64.HeapRuns
import Horizon64.Memory

/- The growable array of `common/vector.h`.

   The macros are functions of the element size, and an element is the list of its
   bytes. `capacity` counts bytes and `length` elements; growth goes through `krealloc`,
   and `vector_erase` is a `memcpy` of overlapping regions whose length is
   `size * length - index - 1` bytes.

   1. The macros.
   2. The elements as a list, and what each macro does to it.
   3. Runs: the elements are the abstract list, and `capacity` covers them. -/
namespace Horizon64
open Words Bytes

/-- `RESIZE`. -/
def resize : UInt64 := 4

/-- `vector_struct`. -/
structure Vec where
  length : UInt64
  capacity : UInt64
  data : UInt64
  deriving DecidableEq

/-- `vector_new`. -/
def vectorNew : Vec := { length := 0, capacity := 0, data := 0 }

section Macros
variable (size : UInt64)

/-- `&data[i]`. -/
def Vec.addr (v : Vec) (i : UInt64) : UInt64 := v.data + i * size

/-- `vector_at`. -/
def vectorAt (m : Memory) (v : Vec) (i : UInt64) : List UInt8 :=
  loadBytes m (v.addr size i) size.toNat

/-- The first part of `vector_append`: the length, and the buffer when it is too short. -/
def vectorGrow (s : Machine) (v : Vec) (func : Nat → UInt8) (line : UInt64) :
    Option (Machine × Vec) :=
  let v := { v with length := v.length + 1 }
  if v.capacity < v.length * size then
    let v := { v with capacity := v.length * size * resize }
    (kreallocImpl s v.data v.capacity func line).map fun (data, s) => (s, { v with data := data })
  else some (s, v)

/-- `vector_append`. -/
def vectorAppend (s : Machine) (v : Vec) (elem : List UInt8) (func : Nat → UInt8)
    (line : UInt64) : Option (Machine × Vec) :=
  (vectorGrow size s v func line).map fun (s, v) =>
    (⟨s.kmem, storeBytes s.mem (v.addr size (v.length - 1)) elem⟩, v)

/-- The bytes that `vector_erase` copies. -/
def eraseLength (v : Vec) (index : UInt64) : UInt64 := size * v.length - index - 1

/-- `vector_erase`. -/
def vectorErase (m : Memory) (v : Vec) (index : UInt64) : Memory × Vec :=
  (memcpy m (v.addr size index) (v.addr size (index + 1)) (eraseLength size v index),
    { v with length := v.length - 1 })

/-- The loop of `vector_erase_value`, with `todo` elements left from index `i` on. -/
def vectorFind (m : Memory) (v : Vec) (val : List UInt8) : Nat → UInt64 → Option UInt64
  | 0, _ => none
  | todo + 1, i =>
    if vectorAt size m v i = val then some i else vectorFind m v val todo (i + 1)

/-- `vector_erase_value`. -/
def vectorEraseValue (m : Memory) (v : Vec) (val : List UInt8) : Memory × Vec :=
  match vectorFind size m v val v.length.toNat 0 with
  | none => (m, v)
  | some i => vectorErase size m v i

/-- The elements `data[0..length-1]`. -/
def elements (m : Memory) (v : Vec) : List (List UInt8) :=
  (List.range v.length.toNat).map fun j => vectorAt size m v (UInt64.ofNat j)

end Macros

variable {size : UInt64}

/-! The elements. -/

theorem elements_length (m : Memory) (v : Vec) : (elements size m v).length = v.length.toNat := by
  rw [elements, List.length_map, List.length_range]

theorem addr_byte (v : Vec) (j k : Nat) :
    v.addr size (UInt64.ofNat j) + UInt64.ofNat k =
      v.data + UInt64.ofNat (j * size.toNat + k) := by
  rw [Vec.addr, Words.ofNat_add, UInt64.ofNat_mul, UInt64.ofNat_toNat, UInt64.add_assoc]

theorem addr_succ (v : Vec) (i : UInt64) : v.addr size (i + 1) = v.addr size i + size := by
  rw [Vec.addr, Vec.addr, UInt64.add_mul, UInt64.one_mul, UInt64.add_assoc]

theorem elem_byte_lt {S j k n : Nat} (hj : j < n) (hk : k < S) : j * S + k < n * S := by
  calc j * S + k < j * S + S := Nat.add_lt_add_left hk _
    _ = (j + 1) * S := (Nat.succ_mul j S).symm
    _ ≤ n * S := Nat.mul_le_mul_right S hj

/-- The first `n` elements. -/
def firstElements (size : UInt64) (m : Memory) (v : Vec) (n : Nat) : List (List UInt8) :=
  (List.range n).map fun j => vectorAt size m v (UInt64.ofNat j)

theorem firstElements_congr {m m' : Memory} {v v' : Vec} {n : Nat}
    (h : ∀ o < n * size.toNat,
      m' (v'.data + UInt64.ofNat o) = m (v.data + UInt64.ofNat o)) :
    firstElements size m' v' n = firstElements size m v n := by
  apply List.map_congr_left
  intro j hj
  apply loadBytes_congr
  intro k hk
  rw [addr_byte, addr_byte]
  exact h _ (elem_byte_lt (List.mem_range.mp hj) hk)

theorem elements_store {m : Memory} {v : Vec} {elem : List UInt8} {n : Nat}
    (helem : elem.length = size.toNat) (hlen : v.length.toNat = n + 1)
    (hroom : (n + 1) * size.toNat < 2 ^ 64) :
    elements size (storeBytes m (v.addr size (v.length - 1)) elem) v =
      firstElements size m v n ++ [elem] := by
  have hsize := size.toNat_lt
  have hlast : v.length - 1 = UInt64.ofNat n := by
    rw [← UInt64.ofNat_toNat (x := v.length), hlen, Words.ofNat_add]
    exact UInt64.add_sub_cancel _ _
  have hat : v.addr size (UInt64.ofNat n) = v.data + UInt64.ofNat (n * size.toNat) := by
    rw [Vec.addr, UInt64.ofNat_mul, UInt64.ofNat_toNat]
  rw [elements, hlen, List.range_succ, List.map_append, List.map_singleton, hlast]
  congr 1
  · apply firstElements_congr
    intro o ho
    apply storeBytes_off
    -- a byte below the new element is far above it, counted from there
    have hle : o ≤ n * size.toNat := Nat.le_of_lt ho
    have hsub : v.data + UInt64.ofNat o - (v.data + UInt64.ofNat (n * size.toNat)) =
        UInt64.ofNat o - UInt64.ofNat (n * size.toNat) := by
      grind
    rw [Nat.succ_mul] at hroom
    rw [hat, hsub, helem, UInt64.toNat_sub, toNat_ofNat_of_lt (by omega),
      toNat_ofNat_of_lt (by omega)]
    omega
  · rw [vectorAt, ← helem, loadBytes_storeBytes]
    rw [helem]
    exact hsize

/-- The `memcpy` of an erase is a `memmove`: it moves down, so the overlap does not matter. -/
theorem erase_memmove (m : Memory) (v : Vec) (index : UInt64)
    (hroom : (v.addr size index).toNat + size.toNat + (eraseLength size v index).toNat < 2 ^ 64) :
    (vectorErase size m v index).1 = (memmove m (v.addr size index) (v.addr size (index + 1))
      (eraseLength size v index)).1 := by
  have hsrc : (v.addr size (index + 1)).toNat = (v.addr size index).toNat + size.toNat := by
    rw [addr_succ, toNat_add_of_lt (by omega)]
  have hle : v.addr size index ≤ v.addr size (index + 1) := by
    rw [UInt64.le_iff_toNat_le, hsrc]
    exact Nat.le_add_right _ _
  have hsame := Ranges.memmove_eq_memcpy ⟨v.addr size index, v.addr size (index + 1),
    eraseLength size v index, by omega, by omega⟩ m (Or.inr hle)
  exact (congrArg Prod.fst hsame).symm

theorem erase_bounds {v : Vec} {index : UInt64} (hsize : 1 ≤ size.toNat)
    (hindex : index.toNat < v.length.toNat) :
    index.toNat * size.toNat + size.toNat ≤ v.length.toNat * size.toNat ∧
    index.toNat + 1 ≤ index.toNat * size.toNat + size.toNat ∧
    v.length.toNat ≤ v.length.toNat * size.toNat ∧
    (v.length.toNat - 1) * size.toNat = v.length.toNat * size.toNat - size.toNat := by
  have hsucc := Nat.succ_mul index.toNat size.toNat
  refine ⟨?_, ?_, Nat.le_mul_of_pos_right _ hsize, Nat.sub_one_mul _ _⟩
  · rw [← hsucc]
    exact Nat.mul_le_mul_right _ hindex
  · rw [← hsucc]
    exact Nat.le_mul_of_pos_right _ hsize

section Erase
variable {m : Memory} {v : Vec} {index : UInt64} (hsize : 1 ≤ size.toNat)
  (hindex : index.toNat < v.length.toNat) (hroom : v.length.toNat * size.toNat < 2 ^ 62)
include hsize hindex hroom

theorem eraseLength_toNat :
    (eraseLength size v index).toNat = v.length.toNat * size.toNat - index.toNat - 1 := by
  obtain ⟨hlast, hone, hlen, _⟩ := erase_bounds hsize hindex
  have hmul : (size * v.length).toNat = v.length.toNat * size.toNat := by
    rw [toNat_mul_of_lt (by rw [Nat.mul_comm]; omega), Nat.mul_comm]
  have h1 : (1 : UInt64).toNat = 1 := rfl
  have hsub : (size * v.length - index).toNat = v.length.toNat * size.toNat - index.toNat := by
    rw [UInt64.toNat_sub_of_le _ _ (UInt64.le_iff_toNat_le.mpr (by omega)), hmul]
  rw [eraseLength, UInt64.toNat_sub_of_le _ _ (UInt64.le_iff_toNat_le.mpr (by omega)), hsub, h1]

/-- The bytes below the erased element stay, those above it move down by its size. -/
theorem erase_byte {o : Nat} (ho : o < (v.length.toNat - 1) * size.toNat) :
    (vectorErase size m v index).1 (v.data + UInt64.ofNat o) =
      if o < index.toNat * size.toNat then m (v.data + UInt64.ofNat o)
      else m (v.data + UInt64.ofNat (o + size.toNat)) := by
  obtain ⟨hlast, hone, hlen, hpred⟩ := erase_bounds hsize hindex
  rw [hpred] at ho
  have hn := eraseLength_toNat hsize hindex hroom
  have hstep : v.addr size (index + 1) - v.addr size index = size := by
    rw [addr_succ, add_sub_left]
  have hdst : v.addr size index = v.data + UInt64.ofNat (index.toNat * size.toNat) := by
    rw [Vec.addr, UInt64.ofNat_mul, UInt64.ofNat_toNat, UInt64.ofNat_toNat]
  have hoff : v.data + UInt64.ofNat o - v.addr size index =
      UInt64.ofNat o - UInt64.ofNat (index.toNat * size.toNat) := by
    rw [hdst]
    grind
  have hcopy : (vectorErase size m v index).1 = memcpy m (v.addr size index)
      (v.addr size (index + 1)) (eraseLength size v index) := rfl
  rw [hcopy, memcpy_down _ (by rw [hstep, hn]; omega), hoff]
  by_cases hlow : o < index.toNat * size.toNat
  · have hfar : ¬ UInt64.ofNat o - UInt64.ofNat (index.toNat * size.toNat) <
        eraseLength size v index := by
      rw [UInt64.lt_iff_toNat_lt, UInt64.toNat_sub, toNat_ofNat_of_lt (by omega),
        toNat_ofNat_of_lt (by omega), hn]
      omega
    rw [if_neg hfar, if_pos hlow]
  · have hle : UInt64.ofNat (index.toNat * size.toNat) ≤ UInt64.ofNat o := by
      rw [UInt64.le_iff_toNat_le, toNat_ofNat_of_lt (by omega), toNat_ofNat_of_lt (by omega)]
      omega
    have hnear : UInt64.ofNat o - UInt64.ofNat (index.toNat * size.toNat) <
        eraseLength size v index := by
      rw [UInt64.lt_iff_toNat_lt, UInt64.toNat_sub_of_le _ _ hle, toNat_ofNat_of_lt (by omega),
        toNat_ofNat_of_lt (by omega), hn]
      omega
    have hsrc : v.addr size (index + 1) +
        (UInt64.ofNat o - UInt64.ofNat (index.toNat * size.toNat)) =
        v.data + UInt64.ofNat (o + size.toNat) := by
      have hnext : v.addr size (index + 1) = v.addr size index + size := by grind
      rw [hnext, hdst, Words.ofNat_add, UInt64.ofNat_toNat]
      grind
    rw [if_pos hnear, if_neg hlow, hsrc]

theorem elements_erase :
    elements size (vectorErase size m v index).1 (vectorErase size m v index).2 =
      (elements size m v).eraseIdx index.toNat := by
  have h1 : (1 : UInt64).toNat = 1 := rfl
  have hlen : (vectorErase size m v index).2.length.toNat = v.length.toNat - 1 := by
    rw [vectorErase, UInt64.toNat_sub_of_le _ _ (UInt64.le_iff_toNat_le.mpr (by omega)), h1]
  apply List.ext_getElem
  · rw [elements_length, hlen, List.length_eraseIdx_of_lt, elements_length]
    rw [elements_length]
    exact hindex
  · intro j hj _
    rw [elements_length, hlen] at hj
    have hbyte : ∀ k < size.toNat, j * size.toNat + k < (v.length.toNat - 1) * size.toNat :=
      fun k hk => elem_byte_lt hj hk
    rw [List.getElem_eraseIdx]
    simp only [elements, List.getElem_map, List.getElem_range]
    split
    · rename_i hlow
      apply loadBytes_congr
      intro k hk
      rw [addr_byte, addr_byte]
      exact (erase_byte hsize hindex hroom (hbyte k hk)).trans (if_pos (elem_byte_lt hlow hk))
    · rename_i hhigh
      apply loadBytes_congr
      intro k hk
      have hge : index.toNat * size.toNat ≤ j * size.toNat :=
        Nat.mul_le_mul_right _ (Nat.not_lt.mp hhigh)
      have hmoved : (j + 1) * size.toNat + k = j * size.toNat + k + size.toNat := by
        rw [Nat.succ_mul, Nat.add_right_comm]
      rw [addr_byte, addr_byte, hmoved]
      exact (erase_byte hsize hindex hroom (hbyte k hk)).trans (if_neg (by omega))

end Erase

/-- The loop finds the first element that is equal to the value. -/
theorem vectorFind_eq (m : Memory) (v : Vec) (val : List UInt8) (todo j : Nat) :
    vectorFind size m v val todo (UInt64.ofNat j) =
      (((List.range' j todo).map fun j => vectorAt size m v (UInt64.ofNat j)).idxOf? val).map
        fun k => UInt64.ofNat (j + k) := by
  induction todo generalizing j with
  | zero => rfl
  | succ todo ih =>
    have hnext : UInt64.ofNat j + 1 = UInt64.ofNat (j + 1) := (Words.ofNat_add j 1).symm
    rw [vectorFind, List.range'_succ, List.map_cons, List.idxOf?_cons, hnext, ih]
    by_cases heq : vectorAt size m v (UInt64.ofNat j) = val
    · rw [if_pos heq, if_pos (beq_iff_eq.mpr heq)]
      rfl
    · rw [if_neg heq, if_neg (by simpa using heq), Option.map_map]
      congr 1
      funext k
      exact congrArg UInt64.ofNat (Nat.add_right_comm j 1 k)

/-- `vector_erase_value` is `vector_erase` at the first element equal to the value, if
    there is one. -/
theorem vectorEraseValue_cases (size : UInt64) (m : Memory) (v : Vec) (val : List UInt8) :
    (vectorFind size m v val v.length.toNat 0 = none ∧ val ∉ elements size m v) ∨
      ∃ i, vectorFind size m v val v.length.toNat 0 = some i ∧ i < v.length ∧
        val ∈ elements size m v ∧ (elements size m v).idxOf val = i.toNat := by
  have hfind := @vectorFind_eq size m v val v.length.toNat 0
  rw [← List.range_eq_range', ← elements] at hfind
  rw [show (0 : UInt64) = UInt64.ofNat 0 from rfl, hfind]
  cases hidx : (elements size m v).idxOf? val with
  | none => exact Or.inl ⟨rfl, List.idxOf?_eq_none_iff.mp hidx⟩
  | some k =>
    obtain ⟨hk, heq, _⟩ := List.idxOf?_eq_some_iff.mp hidx
    have hmem : val ∈ elements size m v := heq ▸ List.getElem_mem hk
    rw [elements_length] at hk
    have hlt := v.length.toNat_lt
    have hof : (UInt64.ofNat k).toNat = k := toNat_ofNat_of_lt (by omega)
    refine Or.inr ⟨UInt64.ofNat k, ?_, ?_, hmem, ?_⟩
    · rw [Option.map_some, Nat.zero_add]
    · rw [UInt64.lt_iff_toNat_lt, hof]
      exact hk
    · rw [hof, List.idxOf_eq_getD_idxOf?, hidx, Option.getD_some]

/-! The buffer. -/

/-- The buffer is the data area of the one live block of the heap. -/
structure VecBlock (k₀ : KernelMemInfo) (s : Machine) (v : Vec) (b : HeapBlock) : Prop where
  heap : HeapInv k₀ ⟨s, [b]⟩
  data : b.ptr = v.data
  capacity : b.size = v.capacity
  nonnull : v.data ≠ 0

/-- No buffer yet, or one. -/
def VecBuffer (k₀ : KernelMemInfo) (s : Machine) (v : Vec) : Prop :=
  (v.data = 0 ∧ v.capacity = 0 ∧ HeapInv k₀ ⟨s, []⟩) ∨ ∃ b, VecBlock k₀ s v b

/-- While physical memory ends below `2^47`, a pointer of `kmalloc` is not null. -/
theorem kmallocImpl_nonnull {s s' : Machine} {n line ptr : UInt64} {func : Nat → UInt8}
    (hlim : s.kmem.physicalLimit.toNat + 4096 ≤ 2 ^ 47)
    (h : kmallocImpl s n func line = some (ptr, s')) : ptr ≠ 0 := by
  rw [kmallocImpl] at h
  split at h
  · cases h
  · next p k hget =>
    obtain ⟨hlt, _⟩ := pmGet_spec hget
    obtain ⟨rfl, _⟩ := Prod.mk.inj (Option.some.inj h)
    have hp := UInt64.lt_iff_toNat_lt.mp hlt
    have hoff : memVirtOffset.toNat = 2 ^ 64 - 2 ^ 47 := rfl
    have hsum : (physToVirt p + pageSize).toNat = p.toNat + (2 ^ 64 - 2 ^ 47) + 4096 := by
      rw [physToVirt, toNat_add_of_lt, toNat_add_of_lt, hoff, pageSize_toNat]
      · omega
      · rw [toNat_add_of_lt (by omega), pageSize_toNat]
        omega
    intro hnull
    rw [hnull, UInt64.toNat_zero] at hsum
    omega

theorem kreallocImpl_nonnull {s s' : Machine} {a n line ptr : UInt64} {func : Nat → UInt8}
    (hlim : s.kmem.physicalLimit.toNat + 4096 ≤ 2 ^ 47)
    (h : kreallocImpl s a n func line = some (ptr, s')) : ptr ≠ 0 := by
  rw [kreallocImpl] at h
  split at h
  · exact kmallocImpl_nonnull hlim h
  · rename_i hnull
    dsimp only at h
    split at h
    · obtain ⟨rfl, _⟩ := Prod.mk.inj (Option.some.inj h)
      exact hnull
    · split at h
      · cases h
      · next newBase t hk =>
        obtain ⟨rfl, _⟩ := Prod.mk.inj (Option.some.inj h)
        exact kmallocImpl_nonnull hlim hk

/-- With memory below 2^47 every size up to 2^62 fits. -/
theorem fits_of_limit {k₀ : KernelMemInfo} {s : Machine} {n : UInt64}
    (hsame : s.kmem.physicalLimit = k₀.physicalLimit)
    (hlim : k₀.physicalLimit.toNat + 4096 ≤ 2 ^ 47) (hn : n.toNat ≤ 2 ^ 62) : Fits s n := by
  rw [Fits, hsame]
  omega

theorem VecBuffer.krealloc {k₀ : KernelMemInfo} {s s' : Machine} {v : Vec} {n line ptr : UInt64}
    {func : Nat → UInt8} (h : VecBuffer k₀ s v) (hlim : k₀.physicalLimit.toNat + 4096 ≤ 2 ^ 47)
    (hn : n.toNat ≤ 2 ^ 62) (hre : kreallocImpl s v.data n func line = some (ptr, s'))
    (length : UInt64) :
    (∃ b, VecBlock k₀ s' { length := length, capacity := n, data := ptr } b) ∧
      ∀ o, o < v.capacity → o < n → s'.mem (ptr + o) = s.mem (v.data + o) := by
  rcases h with ⟨hdata, hcap, hinv⟩ | ⟨b, hinv, hptr, hsize, hnull⟩
  · have hsame : s.kmem.physicalLimit = k₀.physicalLimit := hinv.reserved.limit
    have hnonnull := kreallocImpl_nonnull (hsame ▸ hlim) hre
    have hfit := fits_of_limit hsame hlim hn
    rw [hdata, kreallocImpl, if_pos rfl] at hre
    refine ⟨⟨newBlock ptr n, heapInv_kmalloc hinv hfit hre, newBlock_ptr ptr n, rfl, hnonnull⟩, ?_⟩
    intro o ho
    rw [hcap] at ho
    exact absurd ho UInt64.not_lt_zero
  · have hsame : s.kmem.physicalLimit = k₀.physicalLimit := hinv.reserved.limit
    have hnonnull := kreallocImpl_nonnull (hsame ▸ hlim) hre
    have hfit := fits_of_limit hsame hlim hn
    have hb : b ∈ [b] := List.mem_cons_self
    rw [← hptr] at hre hnull
    rw [← hptr, ← hsize]
    by_cases hpages : numPages b.size = numPages n
    · obtain ⟨rfl, hinv', hbytes⟩ := heapInv_inPlace hinv hb hnull hfit hpages hre
      rw [List.erase_cons_head] at hinv'
      exact ⟨⟨⟨b.block, n⟩, hinv', rfl, rfl, hnonnull⟩, fun o ho _ => hbytes o ho⟩
    · obtain ⟨_, hinv', hbytes⟩ := heapInv_moved hinv hb hnull hfit hpages hre
      rw [List.erase_cons_head] at hinv'
      exact ⟨⟨newBlock ptr n, hinv', newBlock_ptr ptr n, rfl, hnonnull⟩, hbytes⟩

section Grow
variable {k₀ : KernelMemInfo} {s s' : Machine} {v v' : Vec} {line : UInt64} {func : Nat → UInt8}

theorem grow_numbers (hsize : 1 ≤ size.toNat)
    (hfit : (v.length.toNat + 1) * size.toNat * 4 ≤ 2 ^ 62) :
    (v.length + 1).toNat = v.length.toNat + 1 ∧
      ((v.length + 1) * size).toNat = (v.length.toNat + 1) * size.toNat ∧
      ((v.length + 1) * size * resize).toNat = (v.length.toNat + 1) * size.toNat * 4 := by
  have hle : v.length.toNat + 1 ≤ (v.length.toNat + 1) * size.toNat :=
    Nat.le_mul_of_pos_right _ hsize
  have h1 : (1 : UInt64).toNat = 1 := rfl
  have h4 : resize.toNat = 4 := rfl
  have hlen : (v.length + 1).toNat = v.length.toNat + 1 := by
    rw [toNat_add_of_lt (by omega), h1]
  have hmul : ((v.length + 1) * size).toNat = (v.length.toNat + 1) * size.toNat := by
    rw [toNat_mul_of_lt (by rw [hlen]; omega), hlen]
  refine ⟨hlen, hmul, ?_⟩
  rw [toNat_mul_of_lt (by rw [hmul, h4]; omega), hmul, h4]

/-- Growing makes room for one more element and keeps the bytes of the others. -/
theorem vectorGrow_spec (h : VecBuffer k₀ s v) (hlim : k₀.physicalLimit.toNat + 4096 ≤ 2 ^ 47)
    (hsize : 1 ≤ size.toNat) (hroom : v.length.toNat * size.toNat ≤ v.capacity.toNat)
    (hfit : (v.length.toNat + 1) * size.toNat * 4 ≤ 2 ^ 62)
    (hgrow : vectorGrow size s v func line = some (s', v')) :
    v'.length = v.length + 1 ∧ (v.length.toNat + 1) * size.toNat ≤ v'.capacity.toNat ∧
      (∃ b, VecBlock k₀ s' v' b) ∧ ∀ o < v.length.toNat * size.toNat,
        s'.mem (v'.data + UInt64.ofNat o) = s.mem (v.data + UInt64.ofNat o) := by
  obtain ⟨hlen, hmul, hcap⟩ := grow_numbers hsize hfit
  have hpos : 1 ≤ (v.length.toNat + 1) * size.toNat := by
    rw [Nat.succ_mul]
    omega
  have hstep : (v.length.toNat + 1) * size.toNat = v.length.toNat * size.toNat + size.toNat :=
    Nat.succ_mul _ _
  rw [vectorGrow] at hgrow
  dsimp only at hgrow
  split at hgrow
  · obtain ⟨⟨ptr, t⟩, hre, heq⟩ := Option.map_eq_some_iff.mp hgrow
    obtain ⟨rfl, rfl⟩ := Prod.mk.inj heq
    obtain ⟨hblock, hbytes⟩ := h.krealloc hlim (by rw [hcap]; exact hfit) hre (v.length + 1)
    refine ⟨rfl, ?_, hblock, fun o ho => hbytes _ ?_ ?_⟩
    · dsimp only
      rw [hcap]
      omega
    · rw [UInt64.lt_iff_toNat_lt, toNat_ofNat_of_lt (by omega)]
      omega
    · rw [UInt64.lt_iff_toNat_lt, toNat_ofNat_of_lt (by omega), hcap]
      omega
  · next hbig =>
    obtain ⟨rfl, rfl⟩ := Prod.mk.inj (Option.some.inj hgrow)
    have hle := UInt64.le_iff_toNat_le.mp (UInt64.not_lt.mp hbig)
    rw [hmul] at hle
    refine ⟨rfl, hle, ?_, fun _ _ => rfl⟩
    rcases h with ⟨_, hzero, _⟩ | ⟨b, hinv, hptr, hcapacity, hnull⟩
    · rw [hzero, UInt64.toNat_zero] at hle
      omega
    · exact ⟨b, hinv, hptr, hcapacity, hnull⟩

end Grow

/-! Runs. -/

/-- The vector shows the list `xs`, and its buffer covers the elements. -/
structure VecInv (size : UInt64) (k₀ : KernelMemInfo) (s : Machine) (v : Vec)
    (xs : List (List UInt8)) : Prop where
  elems : elements size s.mem v = xs
  room : v.length.toNat * size.toNat ≤ v.capacity.toNat
  small : v.length.toNat * size.toNat * 4 ≤ 2 ^ 62
  buffer : VecBuffer k₀ s v

/-- One call on a vector, with what it is for on the list of the elements. -/
inductive VecStep (size : UInt64) :
    Machine × Vec × List (List UInt8) → Machine × Vec × List (List UInt8) → Prop where
  | append {s s' : Machine} {v v' : Vec} {xs : List (List UInt8)} (x : List UInt8)
      (func : Nat → UInt8) (line : UInt64) (hx : x.length = size.toNat)
      (hfit : (v.length.toNat + 1) * size.toNat * 4 ≤ 2 ^ 62)
      (h : vectorAppend size s v x func line = some (s', v')) :
      VecStep size (s, v, xs) (s', v', xs ++ [x])
  | erase {s : Machine} {v : Vec} {xs : List (List UInt8)} (i : UInt64) (hi : i < v.length) :
      VecStep size (s, v, xs)
        (⟨s.kmem, (vectorErase size s.mem v i).1⟩, (vectorErase size s.mem v i).2,
          xs.eraseIdx i.toNat)
  | eraseValue {s : Machine} {v : Vec} {xs : List (List UInt8)} (x : List UInt8) :
      VecStep size (s, v, xs)
        (⟨s.kmem, (vectorEraseValue size s.mem v x).1⟩, (vectorEraseValue size s.mem v x).2,
          xs.erase x)

section Steps
variable {k₀ : KernelMemInfo} {s s' : Machine} {v v' : Vec} {xs : List (List UInt8)}

/-- Writes to less than `2^63` bytes from the data on leave the header alone. -/
theorem VecBlock.of_mem {b : HeapBlock} (h : VecBlock k₀ s v b) {m : Memory}
    (hmem : ∀ x, ¬ (x - v.data).toNat < 2 ^ 63 → m x = s.mem x) (hdata : v'.data = v.data)
    (hcap : v'.capacity = v.capacity) : VecBlock k₀ ⟨s.kmem, m⟩ v' b := by
  obtain ⟨hinv, hptr, hsize, hnull⟩ := h
  refine ⟨⟨hinv.reserved, fun c hc => ?_⟩, hptr.trans hdata.symm, hsize.trans hcap.symm,
    hdata ▸ hnull⟩
  obtain rfl := List.mem_singleton.mp hc
  apply (hinv.headers c List.mem_cons_self).congr
  intro x hx
  apply hmem
  have hx' := UInt64.lt_iff_toNat_lt.mp hx
  have hsplit : x - v.data = (x - c.block.base) - pageSize := by
    rw [← hptr, HeapBlock.ptr]
    grind
  have h32 : (32 : UInt64).toNat = 32 := rfl
  rw [hsplit, UInt64.toNat_sub, pageSize_toNat]
  omega

theorem off_region {x data : UInt64} {off len : Nat} (h : (x - (data + UInt64.ofNat off)).toNat < len)
    (hbound : off + len ≤ 2 ^ 63) : (x - data).toNat < 2 ^ 63 := by
  have hof : (UInt64.ofNat off).toNat = off := toNat_ofNat_of_lt (by omega)
  have hsplit : x - data = UInt64.ofNat off + (x - (data + UInt64.ofNat off)) := sub_split _ _ _
  rw [hsplit, toNat_add_of_lt (by omega), hof]
  omega

theorem VecInv.block (h : VecInv size k₀ s v xs) (hsize : 1 ≤ size.toNat)
    (hpos : 0 < v.length.toNat) : ∃ b, VecBlock k₀ s v b := by
  rcases h.buffer with ⟨_, hcap, _⟩ | hblock
  · have hroom := h.room
    have hle : v.length.toNat ≤ v.length.toNat * size.toNat := Nat.le_mul_of_pos_right _ hsize
    rw [hcap, UInt64.toNat_zero] at hroom
    omega
  · exact hblock

variable (hlim : k₀.physicalLimit.toNat + 4096 ≤ 2 ^ 47) (hsize : 1 ≤ size.toNat)
  (hinv : VecInv size k₀ s v xs)
include hsize hinv

include hlim in
theorem vecInv_append {x : List UInt8} {func : Nat → UInt8} {line : UInt64}
    (hx : x.length = size.toNat) (hfit : (v.length.toNat + 1) * size.toNat * 4 ≤ 2 ^ 62)
    (h : vectorAppend size s v x func line = some (s', v')) :
    VecInv size k₀ s' v' (xs ++ [x]) := by
  obtain ⟨⟨t, w⟩, hgrow, heq⟩ := Option.map_eq_some_iff.mp h
  obtain ⟨rfl, rfl⟩ := Prod.mk.inj heq
  obtain ⟨hlen, hroom, ⟨b, hblock⟩, hbytes⟩ :=
    vectorGrow_spec hinv.buffer hlim hsize hinv.room hfit hgrow
  have hlen' : w.length.toNat = v.length.toNat + 1 := by
    rw [hlen, (grow_numbers hsize hfit).1]
  have hold : firstElements size t.mem w v.length.toNat = xs :=
    (firstElements_congr hbytes).trans hinv.elems
  refine ⟨?_, by rw [hlen']; exact hroom, by rw [hlen']; exact hfit, Or.inr ⟨b, ?_⟩⟩
  · have hstore := elements_store (m := t.mem) hx hlen' (by omega)
    rw [hold] at hstore
    exact hstore
  · refine hblock.of_mem (fun y hy => storeBytes_off fun hin => hy ?_) rfl rfl
    have hlast : w.addr size (w.length - 1) =
        w.data + UInt64.ofNat (v.length.toNat * size.toNat) := by
      rw [Vec.addr, hlen, UInt64.ofNat_mul, UInt64.ofNat_toNat, UInt64.ofNat_toNat,
        UInt64.add_sub_cancel]
    rw [hlast, hx] at hin
    apply off_region hin
    rw [← Nat.succ_mul]
    exact Nat.le_trans (Nat.le_mul_of_pos_right _ (by decide)) (Nat.le_trans hfit (by decide))

theorem vecInv_erase {i : UInt64} (hi : i < v.length) :
    VecInv size k₀ ⟨s.kmem, (vectorErase size s.mem v i).1⟩ (vectorErase size s.mem v i).2
      (xs.eraseIdx i.toNat) := by
  have hi' := UInt64.lt_iff_toNat_lt.mp hi
  have hsmall := hinv.small
  have hroom : v.length.toNat * size.toNat < 2 ^ 62 := by omega
  have h1 : (1 : UInt64).toNat = 1 := rfl
  have hlen : (vectorErase size s.mem v i).2.length.toNat = v.length.toNat - 1 := by
    rw [vectorErase, UInt64.toNat_sub_of_le _ _ (UInt64.le_iff_toNat_le.mpr (by omega)), h1]
  have hless : (v.length.toNat - 1) * size.toNat ≤ v.length.toNat * size.toNat :=
    Nat.mul_le_mul_right _ (Nat.sub_le _ _)
  obtain ⟨b, hblock⟩ := hinv.block hsize (Nat.zero_lt_of_lt hi')
  refine ⟨?_, ?_, by rw [hlen]; omega, Or.inr ⟨b, ?_⟩⟩
  · rw [← hinv.elems]
    exact elements_erase hsize hi' hroom
  · rw [hlen]
    exact Nat.le_trans hless hinv.room
  · obtain ⟨hlast, _⟩ := erase_bounds (v := v) hsize hi'
    have hn := eraseLength_toNat hsize hi' hroom
    refine hblock.of_mem (fun x hx => memcpy_off _ fun hin => hx ?_) rfl rfl
    have hat : v.addr size i = v.data + UInt64.ofNat (i.toNat * size.toNat) := by
      rw [Vec.addr, UInt64.ofNat_mul, UInt64.ofNat_toNat, UInt64.ofNat_toNat]
    rw [hat] at hin
    apply off_region (UInt64.lt_iff_toNat_lt.mp hin)
    rw [hn]
    omega

theorem vecInv_eraseValue (x : List UInt8) :
    VecInv size k₀ ⟨s.kmem, (vectorEraseValue size s.mem v x).1⟩
      (vectorEraseValue size s.mem v x).2 (xs.erase x) := by
  have hcases := vectorEraseValue_cases size s.mem v x
  rw [hinv.elems] at hcases
  rw [vectorEraseValue]
  rcases hcases with ⟨hnone, hmem⟩ | ⟨i, hsome, hi, _, hidx⟩
  · rw [hnone, List.erase_of_not_mem hmem]
    exact hinv
  · rw [hsome, List.erase_eq_eraseIdx_of_idxOf hidx]
    exact vecInv_erase hsize hinv hi

end Steps

theorem vecInv_step {k₀ : KernelMemInfo} (hlim : k₀.physicalLimit.toNat + 4096 ≤ 2 ^ 47)
    (hsize : 1 ≤ size.toNat) {r r' : Machine × Vec × List (List UInt8)}
    (hinv : VecInv size k₀ r.1 r.2.1 r.2.2) (hstep : VecStep size r r') :
    VecInv size k₀ r'.1 r'.2.1 r'.2.2 := by
  cases hstep with
  | append x func line hx hfit h => exact vecInv_append hlim hsize hinv hx hfit h
  | erase i hi => exact vecInv_erase hsize hinv hi
  | eraseValue x => exact vecInv_eraseValue hsize hinv x

theorem vecInv_new (k₀ : KernelMemInfo) (m : Memory) : VecInv size k₀ ⟨k₀, m⟩ vectorNew [] := by
  refine ⟨rfl, ?_, ?_, Or.inl ⟨rfl, rfl, Reserved.nil k₀, ?_⟩⟩
  · exact Nat.le_of_eq (Nat.zero_mul _)
  · have hzero : vectorNew.length.toNat * size.toNat * 4 = 0 := by
      rw [show vectorNew.length.toNat = 0 from rfl, Nat.zero_mul]
    rw [hzero]
    exact Nat.zero_le _
  · intro b hb
    cases hb

theorem run_vecInv {k₀ : KernelMemInfo} {m : Memory}
    (hlim : k₀.physicalLimit.toNat + 4096 ≤ 2 ^ 47) (hsize : 1 ≤ size.toNat)
    {r : Machine × Vec × List (List UInt8)}
    (hrun : Relation.ReflTransGen (VecStep size) (⟨k₀, m⟩, vectorNew, []) r) :
    VecInv size k₀ r.1 r.2.1 r.2.2 :=
  Ledger.run_preserves (fun r => VecInv size k₀ r.1 r.2.1 r.2.2)
    (fun _ _ => vecInv_step hlim hsize) (vecInv_new k₀ m) hrun

/-- The vector refines a list: after every run its elements are the abstract list, and
    its capacity covers them and is covered by the block it points to. -/
theorem vector_refines_list {k₀ : KernelMemInfo} {m : Memory}
    (hlim : k₀.physicalLimit.toNat + 4096 ≤ 2 ^ 47) (hsize : 1 ≤ size.toNat)
    {s : Machine} {v : Vec} {xs : List (List UInt8)}
    (hrun : Relation.ReflTransGen (VecStep size) (⟨k₀, m⟩, vectorNew, []) (s, v, xs)) :
    elements size s.mem v = xs ∧ v.length.toNat * size.toNat ≤ v.capacity.toNat ∧
      (v.capacity = 0 ∨ ∃ b : Block, v.data = b.base + pageSize ∧
        (∀ p, b.Page p → s.kmem.Used p) ∧ v.capacity.toNat + 4096 ≤ b.n.toNat * 4096) := by
  have hinv : VecInv size k₀ s v xs := run_vecInv hlim hsize hrun
  refine ⟨hinv.elems, hinv.room, ?_⟩
  rcases hinv.buffer with ⟨_, hcap, _⟩ | ⟨b, hheap, hdata, hcap, _⟩
  · exact Or.inl hcap
  · have hb : b ∈ [b] := List.mem_cons_self
    obtain ⟨_, _, hroom⟩ := hheap.reserved.shape b hb
    rw [hcap] at hroom
    exact Or.inr ⟨b.block, hdata.symm, hheap.reserved.books.owned.used b hb, hroom⟩

/-- An allocator with 8 pages, all free. -/
def eightPages : KernelMemInfo :=
  { physicalLimit := 0x8000, totalSize := 0x8000, freeSize := 0x8000, bitmap := 0
    bytes := fun _ => 0xFF }

theorem vectorAppend_first {s : Machine} {n : UInt64} {p : UInt64} {k : KernelMemInfo}
    (hn : 0 < size) (hcap : size * resize = n) (h : pmGet s.kmem (numPages n + 1) 0 = some (p, k))
    (x : List UInt8) (func : Nat → UInt8) (line : UInt64) :
    ∃ m, vectorAppend size s vectorNew x func line =
      some (⟨k, m⟩, { length := 1, capacity := n, data := physToVirt p + pageSize }) := by
  have hone : vectorNew.length + 1 = 1 := rfl
  have hzero : vectorNew.capacity = 0 := rfl
  obtain ⟨m, hm⟩ := @kmallocImpl_get s n line p func k h
  have hre : kreallocImpl s vectorNew.data n func line =
      some (physToVirt p + pageSize, ⟨k, m⟩) := by
    rw [kreallocImpl, if_pos (show vectorNew.data = 0 from rfl), hm]
  refine ⟨_, Option.map_eq_some_iff.mpr ⟨(⟨k, m⟩, ⟨1, n, physToVirt p + pageSize⟩), ?_, rfl⟩⟩
  simp only [vectorGrow, hone, hzero, UInt64.one_mul, hn, if_true, hcap, hre, Option.map_some]

theorem two_appends (x y : List UInt8) (hx : x.length = 8) (hy : y.length = 8) :
    ∃ s, Relation.ReflTransGen (VecStep 8) (⟨eightPages, fun _ => 0⟩, vectorNew, [])
      (s, ⟨2, 32, physToVirt 0 + pageSize⟩, [x, y]) := by
  obtain ⟨k, hk⟩ : ∃ k, pmGet eightPages (numPages 32 + 1) 0 = some (0, k) := by
    have hget : (pmGet eightPages (numPages 32 + 1) 0).map Prod.fst = some 0 := by decide +kernel
    obtain ⟨⟨i, k⟩, hik, hi⟩ := Option.map_eq_some_iff.mp hget
    exact ⟨k, hik.trans (by rw [show i = 0 from hi])⟩
  have hgrow : (8 : UInt64) * resize = 32 := rfl
  obtain ⟨m, hm⟩ := @vectorAppend_first 8 ⟨eightPages, fun _ => 0⟩ 32 0 k (by decide) hgrow hk x
    (fun _ => 0) 1
  -- the second append finds room
  have hroom : vectorAppend 8 ⟨k, m⟩ ⟨1, 32, physToVirt 0 + pageSize⟩ y (fun _ => 0) 2 =
      some (⟨k, storeBytes m (Vec.addr 8 ⟨2, 32, physToVirt 0 + pageSize⟩ 1) y⟩,
        ⟨2, 32, physToVirt 0 + pageSize⟩) := rfl
  exact ⟨_, .tail (.single (.append x (fun _ => 0) 1 hx (by decide) hm))
    (.append y (fun _ => 0) 2 hy (by decide) hroom)⟩

/-- Two elements are in the vector after two appends. -/
theorem vector_two_elements :
    ∃ s : Machine, elements 8 s.mem ⟨2, 32, physToVirt 0 + pageSize⟩ =
        [List.replicate 8 1, List.replicate 8 2] ∧
      (2 : UInt64).toNat * (8 : UInt64).toNat ≤ (32 : UInt64).toNat ∧
      ((32 : UInt64) = 0 ∨ ∃ b : Block, physToVirt 0 + pageSize = b.base + pageSize ∧
        (∀ p, b.Page p → s.kmem.Used p) ∧ (32 : UInt64).toNat + 4096 ≤ b.n.toNat * 4096) := by
  obtain ⟨s, hrun⟩ := two_appends (List.replicate 8 1) (List.replicate 8 2) rfl rfl
  exact ⟨s, vector_refines_list (by decide) (by decide) hrun⟩

/-- With elements of `2^62` bytes the new capacity is `2^64`, which is 0. -/
theorem vector_capacity_wraps :
    ∃ (x : List UInt8) (s : Machine) (v : Vec), x.length = (0x4000000000000000 : UInt64).toNat ∧
      vectorAppend 0x4000000000000000 ⟨eightPages, fun _ => 0⟩ vectorNew x (fun _ => 0) 1 =
        some (s, v) ∧
      ¬ v.length.toNat * (0x4000000000000000 : UInt64).toNat ≤ v.capacity.toNat := by
  obtain ⟨k, hk⟩ : ∃ k, pmGet eightPages (numPages 0 + 1) 0 = some (0, k) := by
    have hget : (pmGet eightPages (numPages 0 + 1) 0).map Prod.fst = some 0 := by decide +kernel
    obtain ⟨⟨i, k⟩, hik, hi⟩ := Option.map_eq_some_iff.mp hget
    exact ⟨k, hik.trans (by rw [show i = 0 from hi])⟩
  obtain ⟨x, hx⟩ : ∃ x : List UInt8, x.length = (0x4000000000000000 : UInt64).toNat :=
    ⟨List.replicate _ 0, List.length_replicate⟩
  have hwrap : (0x4000000000000000 : UInt64) * resize = 0 := by decide
  obtain ⟨m, hm⟩ := @vectorAppend_first _ ⟨eightPages, fun _ => 0⟩ 0 0 k (by decide) hwrap hk x
    (fun _ => 0) 1
  exact ⟨x, _, _, hx, hm, by decide⟩

end Horizon64
