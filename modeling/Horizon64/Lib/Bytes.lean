import Horizon64.Lib.Folds
import Horizon64.Lib.Paint
import Horizon64.Lib.Words

/- A byte-addressed memory with 64-bit addresses.

   Addresses wrap, so a region of `n` bytes at `p` is the set of `x` with
   `x - p < n` in machine arithmetic: no side condition says that the region
   does not run off the end of the address space. A word is stored little
   endian. `memset` and `memcpy` are byte loops with an ascending index;
   `memset_apply` and `memcpy_apply` give their effect byte by byte. A byte loop in any
   order copies its source when it reads no byte that it has written (`copy_apply`). -/
namespace Bytes

/-- The contents of memory. -/
abbrev Memory := UInt64 → UInt8

/-- Store one byte. -/
def write (m : Memory) (p : UInt64) (b : UInt8) : Memory := fun x => if x = p then b else m x

/-- The byte `k` of a little-endian word. -/
def byteOf (v : UInt64) (k : Nat) : UInt8 := UInt8.ofNat (v.toNat / 2 ^ (8 * k))

/-- `*(uint64_t *) p`. -/
def load64 (m : Memory) (p : UInt64) : UInt64 :=
  UInt64.ofNat ((m p).toNat + (m (p + 1)).toNat * 2 ^ 8 + (m (p + 2)).toNat * 2 ^ 16 +
    (m (p + 3)).toNat * 2 ^ 24 + (m (p + 4)).toNat * 2 ^ 32 + (m (p + 5)).toNat * 2 ^ 40 +
    (m (p + 6)).toNat * 2 ^ 48 + (m (p + 7)).toNat * 2 ^ 56)

/-- `*(uint32_t *) p`. -/
def load32 (m : Memory) (p : UInt64) : UInt32 :=
  UInt32.ofNat ((m p).toNat + (m (p + 1)).toNat * 2 ^ 8 + (m (p + 2)).toNat * 2 ^ 16 +
    (m (p + 3)).toNat * 2 ^ 24)

/-- `*(uint64_t *) p = v`. -/
def store64 (m : Memory) (p v : UInt64) : Memory :=
  fun x => if x - p < 8 then byteOf v (x - p).toNat else m x

/-- `*(uint32_t *) p = v`. -/
def store32 (m : Memory) (p : UInt64) (v : UInt32) : Memory :=
  fun x => if x - p < 4 then byteOf v.toUInt64 (x - p).toNat else m x

/-- `for (i = 0; i < num; i++) ptr[i] = value`. -/
def memset (m : Memory) (ptr : UInt64) (value : UInt8) (num : UInt64) : Memory :=
  Nat.fold num.toNat (fun i _ m => write m (ptr + UInt64.ofNat i) value) m

/-- `for (i = 0; i < num; i++) dst[i] = src[i]`. -/
def memcpy (m : Memory) (dst src num : UInt64) : Memory :=
  Nat.fold num.toNat
    (fun i _ m => write m (dst + UInt64.ofNat i) (m (src + UInt64.ofNat i))) m

/-! Words. -/

theorem load64_congr {m m' : Memory} {p : UInt64} (h : ∀ x, x - p < 8 → m' x = m x) :
    load64 m' p = load64 m p := by
  have hd : ∀ k : UInt64, k < 8 → p + k - p < 8 := fun k hk => (Words.add_sub_left p k).symm ▸ hk
  have h0 := h p (by rw [UInt64.sub_self]; decide)
  have h1 := h (p + 1) (hd 1 (by decide))
  have h2 := h (p + 2) (hd 2 (by decide))
  have h3 := h (p + 3) (hd 3 (by decide))
  have h4 := h (p + 4) (hd 4 (by decide))
  have h5 := h (p + 5) (hd 5 (by decide))
  have h6 := h (p + 6) (hd 6 (by decide))
  have h7 := h (p + 7) (hd 7 (by decide))
  simp only [load64, h0, h1, h2, h3, h4, h5, h6, h7]

theorem load64_store64_self (m : Memory) (p v : UInt64) : load64 (store64 m p v) p = v := by
  have hd : ∀ k : UInt64, (p + k) - p = k := Words.add_sub_left p
  have h0 : (p : UInt64) - p = 0 := UInt64.sub_self p
  simp only [load64, store64, hd, h0]
  apply UInt64.toNat_inj.mp
  have hv := v.toNat_lt
  simp [byteOf]
  omega

/-- The eight bytes of a word, and the word of these bytes. -/
def wordBytes (v : UInt64) : List UInt8 := (List.range 8).map (byteOf v)

def bytesWord (l : List UInt8) : UInt64 := load64 (fun x => l.getD x.toNat 0) 0

theorem wordBytes_length (v : UInt64) : (wordBytes v).length = 8 := rfl

/-- More bytes behind the word do not matter. -/
theorem bytesWord_append (v : UInt64) (l : List UInt8) : bytesWord (wordBytes v ++ l) = v := by
  refine Eq.trans (load64_congr fun x hx => ?_) (load64_store64_self (fun _ => 0) 0 v)
  rw [UInt64.sub_zero] at hx
  have hin : x.toNat < (wordBytes v).length := UInt64.lt_iff_toNat_lt.mp hx
  rw [store64, UInt64.sub_zero, if_pos hx, List.getD_append _ _ _ _ hin,
    List.getD_eq_getElem _ _ hin]
  simp only [wordBytes, List.getElem_map, List.getElem_range]

theorem bytesWord_wordBytes (v : UInt64) : bytesWord (wordBytes v) = v := by
  have h := bytesWord_append v []
  rw [List.append_nil] at h
  exact h

theorem load64_store64_disjoint (m : Memory) {p q : UInt64} (v : UInt64) (h : 8 ≤ q - p)
    (h' : 8 ≤ p - q) : load64 (store64 m p v) q = load64 m q := by
  apply load64_congr
  intro x hx
  have hout : ¬ x - p < 8 := by grind
  simp [store64, hout]

theorem load64_field (m : Memory) (p v : UInt64) {off off' : UInt64} (h : 8 ≤ off - off')
    (h' : 8 ≤ off' - off) :
    load64 (store64 m (p + off) v) (p + off') = load64 m (p + off') := by
  apply load64_store64_disjoint
  · rw [Words.add_sub_add]
    exact h'
  · rw [Words.add_sub_add]
    exact h

theorem load64_zero {m : Memory} {p : UInt64} (h : ∀ x, x - p < 8 → m x = 0) :
    load64 m p = 0 := by
  rw [load64_congr (m := fun _ => 0) h]
  simp [load64]

theorem store64_off {m : Memory} {p v x : UInt64} (h : ¬ x - p < 8) : store64 m p v x = m x := by
  simp [store64, h]

theorem load32_congr {m m' : Memory} {p : UInt64} (h : ∀ x, x - p < 4 → m' x = m x) :
    load32 m' p = load32 m p := by
  have hd : ∀ k : UInt64, k < 4 → p + k - p < 4 := fun k hk => (Words.add_sub_left p k).symm ▸ hk
  have h0 := h p (by rw [UInt64.sub_self]; decide)
  have h1 := h (p + 1) (hd 1 (by decide))
  have h2 := h (p + 2) (hd 2 (by decide))
  have h3 := h (p + 3) (hd 3 (by decide))
  simp only [load32, h0, h1, h2, h3]

theorem load32_store32_self (m : Memory) (p : UInt64) (v : UInt32) :
    load32 (store32 m p v) p = v := by
  have hd : ∀ k : UInt64, (p + k) - p = k := Words.add_sub_left p
  have h0 : (p : UInt64) - p = 0 := UInt64.sub_self p
  simp only [load32, store32, hd, h0]
  apply UInt32.toNat_inj.mp
  have hv := v.toNat_lt
  simp [byteOf]
  omega

theorem store32_off {m : Memory} {p x : UInt64} {v : UInt32} (h : ¬ x - p < 4) :
    store32 m p v x = m x := by
  simp [store32, h]

theorem load32_store32_disjoint (m : Memory) {p q : UInt64} (v : UInt32) (h : 4 ≤ q - p)
    (h' : 4 ≤ p - q) : load32 (store32 m p v) q = load32 m q := by
  apply load32_congr
  intro x hx
  have hout : ¬ x - p < 4 := by grind
  exact store32_off hout

/-! Regions. -/

theorem sub_toNat_lt_succ {x p : UInt64} {n : Nat} (hn : n < 2 ^ 64) :
    (x - p).toNat < n + 1 ↔ (x - p).toNat < n ∨ x = p + UInt64.ofNat n := by
  have hpx : p + (x - p) = x := Words.add_sub_back p x
  constructor
  · intro h
    rcases Nat.lt_succ_iff_lt_or_eq.mp h with h | h
    · exact Or.inl h
    · refine Or.inr ?_
      rw [← h, UInt64.ofNat_toNat, hpx]
  · rintro (h | h)
    · omega
    · subst h
      have : p + UInt64.ofNat n - p = UInt64.ofNat n := Words.add_sub_left _ _
      rw [this, Words.toNat_ofNat_of_lt hn]
      omega

theorem memset_fold_apply (m : Memory) (p : UInt64) (v : UInt8) (x : UInt64) :
    ∀ n : Nat, n ≤ 2 ^ 64 →
      Nat.fold n (fun i _ m => write m (p + UInt64.ofNat i) v) m x =
        if (x - p).toNat < n then v else m x := by
  intro n
  induction n with
  | zero => intro _; simp
  | succ n ih =>
    intro hn
    rw [Nat.fold_succ]
    simp only [write, ih (by omega), sub_toNat_lt_succ (show n < 2 ^ 64 by omega)]
    by_cases hx : x = p + UInt64.ofNat n <;> simp [hx]

theorem memset_apply (m : Memory) (p : UInt64) (v : UInt8) (n x : UInt64) :
    memset m p v n x = if x - p < n then v else m x := by
  rw [memset, memset_fold_apply m p v x _ (Nat.le_of_lt n.toNat_lt)]
  simp only [UInt64.lt_iff_toNat_lt]

/-! Copies. -/

/-- A loop that copies the bytes in the order of `ks` reads none that it has written. -/
def CopyOrder (dst src : UInt64) (ks : List Nat) : Prop :=
  ks.Pairwise fun j k => src + UInt64.ofNat k ≠ dst + UInt64.ofNat j

/-- A byte loop that reads no byte after it has written it copies its source. -/
theorem copy_apply (m : Memory) {dst src : UInt64} {n : Nat} {ks : List Nat} (hn : n ≤ 2 ^ 64)
    (hks : ∀ k, k ∈ ks ↔ k < n) (horder : CopyOrder dst src ks) (x : UInt64) :
    ks.foldl (fun m k => write m (dst + UInt64.ofNat k) (m (src + UInt64.ofNat k))) m x =
      if (x - dst).toNat < n then m (src + (x - dst)) else m x := by
  -- the loop paints the addresses of the destination, each from its own place in the source
  have hpaint : ks.foldl (fun m k => write m (dst + UInt64.ofNat k) (m (src + UInt64.ofNat k))) m =
      Paint.paint (fun m a => m (src + (a - dst))) (ks.map fun k => dst + UInt64.ofNat k) m := by
    rw [Paint.paint, List.foldl_map]
    apply List.foldl_ext
    intro m k _
    funext a
    rw [write, Function.update_apply, Words.add_sub_left]
  have hmem : x ∈ ks.map (fun k => dst + UInt64.ofNat k) ↔ (x - dst).toNat < n := by
    rw [List.mem_map]
    refine ⟨?_, ?_⟩
    · rintro ⟨k, hk, rfl⟩
      have hlt := (hks k).mp hk
      rw [Words.add_sub_left, Words.toNat_ofNat_of_lt (by omega)]
      exact hlt
    · intro h
      refine ⟨(x - dst).toNat, (hks _).mpr h, ?_⟩
      rw [UInt64.ofNat_toNat, Words.add_sub_back]
  have hinorder : Paint.InOrder (fun (m : Memory) a => m (src + (a - dst)))
      (ks.map fun k => dst + UInt64.ofNat k) := by
    apply horder.map
    intro j k hne m b
    dsimp only
    rw [Words.add_sub_left]
    exact Function.update_of_ne hne b m
  rw [hpaint, Paint.paint_apply hinorder]
  simp only [hmem]

theorem memcpy_copies (m : Memory) {dst src n : UInt64}
    (horder : CopyOrder dst src (List.range n.toNat)) (x : UInt64) :
    memcpy m dst src n x = if x - dst < n then m (src + (x - dst)) else m x := by
  rw [memcpy, Folds.fold_range n.toNat fun m k =>
    write m (dst + UInt64.ofNat k) (m (src + UInt64.ofNat k)),
    copy_apply m (Nat.le_of_lt n.toNat_lt) (fun _ => List.mem_range) horder]
  simp only [UInt64.lt_iff_toNat_lt]

/-- `memcpy` between disjoint regions copies its source, byte by byte. -/
theorem memcpy_apply (m : Memory) {dst src n : UInt64}
    (hdis : ∀ i j : UInt64, i < n → j < n → src + i ≠ dst + j) (x : UInt64) :
    memcpy m dst src n x = if x - dst < n then m (src + (x - dst)) else m x := by
  have hidx : ∀ k < n.toNat, UInt64.ofNat k < n := by
    intro k hk
    have hlt := n.toNat_lt
    rw [UInt64.lt_iff_toNat_lt, Words.toNat_ofNat_of_lt (by omega)]
    exact hk
  apply memcpy_copies
  apply List.pairwise_of_forall_mem_list
  intro j hj k hk
  exact hdis _ _ (hidx k (List.mem_range.mp hk)) (hidx j (List.mem_range.mp hj))

/-- `memcpy` to a lower address copies its source too, though the regions may overlap. -/
theorem memcpy_down (m : Memory) {dst src n : UInt64}
    (hroom : (src - dst).toNat + n.toNat ≤ 2 ^ 64) (x : UInt64) :
    memcpy m dst src n x = if x - dst < n then m (src + (x - dst)) else m x := by
  apply memcpy_copies
  have hlt := n.toNat_lt
  -- a byte is read before any above it is written
  refine List.pairwise_lt_range.imp_of_mem fun {j k} _ hk hjk heq => ?_
  rw [List.mem_range] at hk
  have hj : (UInt64.ofNat j).toNat = j := Words.toNat_ofNat_of_lt (by omega)
  have hk' : (UInt64.ofNat k).toNat = k := Words.toNat_ofNat_of_lt (by omega)
  have hsplit : (src - dst) + UInt64.ofNat k = UInt64.ofNat j := by grind
  have hnum := congrArg UInt64.toNat hsplit
  rw [Words.toNat_add_of_lt (by omega), hj, hk'] at hnum
  omega

/-- `memcpy` writes nothing outside its destination, whatever the overlap. -/
theorem memcpy_off (m : Memory) {dst src n x : UInt64} (h : ¬ x - dst < n) :
    memcpy m dst src n x = m x := by
  have hfold : ∀ k, k ≤ n.toNat →
      Nat.fold k (fun i _ m => write m (dst + UInt64.ofNat i) (m (src + UInt64.ofNat i))) m x =
        m x := by
    intro k
    induction k with
    | zero => intro _; rfl
    | succ k ih =>
      intro hk
      have hlt := n.toNat_lt
      have hx : x ≠ dst + UInt64.ofNat k := by
        rintro rfl
        apply h
        rw [show dst + UInt64.ofNat k - dst = UInt64.ofNat k from Words.add_sub_left _ _,
          UInt64.lt_iff_toNat_lt, Words.toNat_ofNat_of_lt (by omega)]
        omega
      rw [Nat.fold_succ, write, if_neg hx]
      exact ih (by omega)
  exact hfold n.toNat (Nat.le_refl _)

/-! Values of any size. -/

/-- The value of `size` bytes at `p`. -/
def loadBytes (m : Memory) (p : UInt64) (size : Nat) : List UInt8 :=
  (List.range size).map fun k => m (p + UInt64.ofNat k)

/-- `*p = x`. -/
def storeBytes (m : Memory) (p : UInt64) (x : List UInt8) : Memory := fun a =>
  if (a - p).toNat < x.length then x.getD (a - p).toNat 0 else m a

theorem loadBytes_congr {m m' : Memory} {p p' : UInt64} {size : Nat}
    (h : ∀ k < size, m' (p' + UInt64.ofNat k) = m (p + UInt64.ofNat k)) :
    loadBytes m' p' size = loadBytes m p size := by
  apply List.map_congr_left
  intro k hk
  exact h k (List.mem_range.mp hk)

theorem loadBytes_storeBytes (m : Memory) (p : UInt64) {x : List UInt8} (h : x.length < 2 ^ 64) :
    loadBytes (storeBytes m p x) p x.length = x := by
  apply List.ext_getElem
  · rw [loadBytes, List.length_map, List.length_range]
  · intro k h₁ h₂
    have hk : (p + UInt64.ofNat k - p).toNat = k := by
      rw [UInt64.add_comm, UInt64.add_sub_cancel, Words.toNat_ofNat_of_lt (by omega)]
    simp only [loadBytes, List.getElem_map, List.getElem_range, storeBytes, hk, if_pos h₂]
    exact List.getD_eq_getElem x 0 h₂

theorem storeBytes_off {m : Memory} {p a : UInt64} {x : List UInt8}
    (h : ¬ (a - p).toNat < x.length) : storeBytes m p x a = m a := if_neg h

end Bytes
