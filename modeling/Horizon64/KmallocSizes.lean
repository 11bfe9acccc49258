import Horizon64.Ram

/- The size arithmetic of the heap.

   `kmalloc(size)` asks for `NUM_PAGES(size) + 1` pages. Four sums and products of
   64 bits are behind that: `size + 4095`, the number of pages plus one, the pages
   times `PAGE_SIZE`, and the block's address plus its length. When one of them
   wraps, a loop over the pages runs a few times or not at all, and that reads as
   success.

   The bitmap is in memory, and the header that goes into the first page may fall on the
   bits of the block's own pages. Then it frees them again, unless it has zero bits there
   (`HeaderKeeps`).

   1. `BigEnough`: what a block for `size` bytes has to be, in exact arithmetic.
   2. It is, exactly when the block with its header page ends below `2^64` and its pages
      are used (`inSpace_of_bigEnough`, `bigEnough_of_inSpace`).
   3. The bits of the block after its header is written.
   4. `heap_sizes_iff`: when that holds of every block the two functions return. -/
namespace Horizon64
open Words Bytes

/-- The pages `bitmap_set(a, n)` goes over: the ones reserved for a block. -/
def reservedPages (a n : UInt64) : List Nat := (pages a (a + n * pageSize)).map pageOf

/-- `n` pages were asked for at `a`; in exact arithmetic the pages reserved are as many
    as `size` bytes and a header take, all of them are marked used, and the
    `size + PAGE_SIZE` bytes that `kmalloc` clears lie in them. -/
structure BigEnough (k : KernelMemInfo) (a n size : UInt64) : Prop where
  count : (size.toNat + 4095) / 4096 + 1 ≤ (reservedPages a n).toFinset.card
  used : ∀ p ∈ reservedPages a n, k.Used p
  cleared : ∀ x, a.toNat ≤ x → x < a.toNat + (size.toNat + 4096) → x / 4096 ∈ reservedPages a n

theorem mem_reservedPages {a n : UInt64} (h : a.toNat + n.toNat * 4096 < 2 ^ 64) (p : Nat) :
    p ∈ reservedPages a n ↔ InRun a n p := by
  rw [reservedPages, List.mem_map]
  exact mem_run_pages h p

theorem reservedPages_card {a n : UInt64} (h : a.toNat + n.toNat * 4096 < 2 ^ 64) :
    (reservedPages a n).toFinset.card = n.toNat := by
  rw [reservedPages, List.toFinset_card_of_nodup (run_nodup h), List.length_map, pages_run h]
  simp

/-- A run that reaches `2^64` is no run at all for the loops. -/
theorem reservedPages_wrap {a n : UInt64} (hn : n.toNat * 4096 ≤ 2 ^ 64)
    (h : 2 ^ 64 ≤ a.toNat + n.toNat * 4096) : reservedPages a n = [] := by
  have ha := a.toNat_lt
  have hbound : (a + n * pageSize).toNat ≤ a.toNat := by
    rw [UInt64.toNat_add, UInt64.toNat_mul, pageSize_toNat]
    omega
  rw [reservedPages, pages_wrap hbound, List.map_nil]

theorem numPages_succ (size : UInt64) : (numPages size + 1).toNat = (numPages size).toNat + 1 := by
  have h := numPages_lt size
  rw [toNat_add_of_lt (by rw [UInt64.toNat_one]; omega), UInt64.toNat_one]

theorem numPages_wrapped {size : UInt64} (h : 2 ^ 64 < size.toNat + 4096) : numPages size = 0 := by
  have hlt := size.toNat_lt
  have hsum : (size + pageSize - 1).toNat = size.toNat + 4096 - 2 ^ 64 - 1 := by
    have hadd : (size + pageSize).toNat = size.toNat + 4096 - 2 ^ 64 := by
      rw [UInt64.toNat_add, pageSize_toNat]
      omega
    rw [UInt64.toNat_sub_of_le, hadd, UInt64.toNat_one]
    rw [UInt64.le_iff_toNat_le, hadd, UInt64.toNat_one]
    omega
  apply UInt64.toNat_inj.mp
  rw [numPages, UInt64.toNat_div, hsum, pageSize_toNat, UInt64.toNat_zero]
  omega

/-! When a block is big enough. -/

theorem inSpace_of_bigEnough {k : KernelMemInfo} {a size : UInt64}
    (h : BigEnough k a (numPages size + 1) size) : InSpace a size := by
  have hcount := h.count
  by_contra hout
  rw [InSpace, Nat.not_lt] at hout
  by_cases hsize : 2 ^ 64 < size.toNat + 4096
  · -- the number of pages is computed as 1, and the block needs more
    have hone : (numPages size + 1).toNat = 1 := by rw [numPages_wrapped hsize]; rfl
    by_cases hroom : a.toNat + 4096 < 2 ^ 64
    · rw [reservedPages_card (by rw [hone]; omega), hone] at hcount
      omega
    · have hwrap : 2 ^ 64 ≤ a.toNat + (numPages size + 1).toNat * 4096 := by
        rw [hone]
        exact Nat.not_lt.mp hroom
      rw [reservedPages_wrap (by rw [hone]; decide) hwrap] at hcount
      simp at hcount
  · have hpages : (numPages size).toNat = (size.toNat + 4095) / 4096 := numPages_toNat (by omega)
    have hn : (numPages size + 1).toNat = (size.toNat + 4095) / 4096 + 1 := by
      rw [numPages_succ, hpages]
    have hlt := numPages_lt size
    have hwrap : 2 ^ 64 ≤ a.toNat + (numPages size + 1).toNat * 4096 := by rwa [hn]
    rw [reservedPages_wrap (by omega) hwrap] at hcount
    simp at hcount

theorem bigEnough_of_inSpace {k : KernelMemInfo} {a size : UInt64} (hal : a.toNat % 4096 = 0)
    (h : InSpace a size) (hused : ∀ p, InRun a (numPages size + 1) p → k.Used p) :
    BigEnough k a (numPages size + 1) size := by
  obtain ⟨_, hn, hroom⟩ := h.run
  refine ⟨?_, fun p hp => hused p ((mem_reservedPages hroom p).mp hp), fun x hlow hhigh => ?_⟩
  · rw [reservedPages_card hroom, hn]
  · rw [mem_reservedPages hroom, InRun, pageOf, hn]
    omega

/-! The bits under a header. -/

/-- The header of a block at `i` has no bit set where the bitmap has the bits of the block's
    own pages. -/
def HeaderKeeps (bitmap i size : UInt64) (func : Nat → UInt8) (line : UInt64) : Prop :=
  ∀ p, InRun i (numPages size + 1) p →
    kmallocHeader (physToVirt i) size func line (fun _ => 0) (bitmap + UInt64.ofNat (p / 8)) &&&
      BitArray.mask p = 0

theorem used_iff_mask (k : KernelMemInfo) (p : Nat) :
    k.Used p ↔ k.bytes (p / 8) &&& BitArray.mask p = 0 := by
  have h := BitArray.test_mask k.bytes p
  rw [KernelMemInfo.Used, KernelMemInfo.isFree, ← Bool.not_eq_true, ← h, not_not]

theorem strncpyFrom_byte {dest x : UInt64} (src : Nat → UInt8) {num : Nat} (hn : num < 2 ^ 64) :
    ∀ (todo i : Nat) (m m' : Memory), i + todo = num →
      (i ≤ (x - dest).toNat ∧ (x - dest).toNat < num ∨ m x = m' x) →
      strncpyFrom dest src todo i m x = strncpyFrom dest src todo i m' x
  | 0, i, m, m', hsum, h => h.resolve_left (by omega)
  | todo + 1, i, m, m', hsum, h => by
    have hi : (UInt64.ofNat i).toNat = i := toNat_ofNat_of_lt (by omega)
    rw [strncpyFrom, strncpyFrom]
    by_cases hsrc : src i ≠ 0
    · rw [if_pos hsrc, if_pos hsrc]
      apply strncpyFrom_byte src hn todo (i + 1) _ _ (by omega)
      by_cases hx : x = dest + UInt64.ofNat i
      · exact Or.inr (by rw [write, write, if_pos hx, if_pos hx])
      · have hne : (x - dest).toNat ≠ i := by
          rw [← hi]
          intro heq
          exact hx (by rw [← UInt64.toNat_inj.mp heq, add_sub_back])
        rw [write, write, if_neg hx, if_neg hx]
        exact h.imp_left fun hin => ⟨by omega, hin.2⟩
    · rw [if_neg hsrc, if_neg hsrc, memset_apply, memset_apply]
      by_cases hx : x - (dest + UInt64.ofNat i) < UInt64.ofNat (todo + 1)
      · rw [if_pos hx, if_pos hx]
      · rw [if_neg hx, if_neg hx]
        refine h.resolve_left fun hin => hx ?_
        rw [UInt64.lt_iff_toNat_lt, toNat_ofNat_of_lt (by omega), sub_add_eq,
          UInt64.toNat_sub_of_le _ _ (by rw [UInt64.le_iff_toNat_le, hi]; exact hin.1), hi]
        omega

theorem strncpy_byte (dest x : UInt64) (src : Nat → UInt8) (num : Nat) (hn : num < 2 ^ 64) :
    (∀ m m', strncpy m dest src num x = strncpy m' dest src num x) ∨
      ∀ m, strncpy m dest src num x = m x := by
  by_cases hdest : dest = 0
  · exact Or.inr fun m => by rw [strncpy, if_pos hdest]
  · by_cases hx : (x - dest).toNat < num
    · refine Or.inl fun m m' => ?_
      rw [strncpy, strncpy, if_neg hdest, if_neg hdest]
      exact strncpyFrom_byte src hn num 0 m m' (by omega) (Or.inl ⟨Nat.zero_le _, hx⟩)
    · exact Or.inr fun m => strncpy_off hn (Nat.not_lt.mp hx)

/-- `krealloc` rewrites a header with the bytes of a new one, and leaves the others alone. -/
theorem kreallocHeader_byte (base size line x : UInt64) (func : Nat → UInt8) (m : Memory) :
    kreallocHeader base size func line m x = kmallocHeader base size func line (fun _ => 0) x ∨
      kreallocHeader base size func line m x = m x ∧
        kmallocHeader base size func line (fun _ => 0) x = 0 := by
  rcases strncpy_byte (base + fileNameOff) x func fileNameLen (by decide) with hname | hname
  · exact Or.inl (hname _ _)
  have hapart : ∀ {a b : UInt64}, 8 ≤ a - b → 8 ≤ b - a → x - (base + a) < 8 →
      ¬ x - (base + b) < 8 := by
    grind
  simp only [kreallocHeader, kmallocHeader, hname, store64]
  by_cases hline : x - (base + linenoOff) < 8
  · exact Or.inl (by rw [if_pos hline, if_pos hline])
  rw [if_neg hline, if_neg hline]
  by_cases hsize : x - (base + sizeOff) < 8
  · rw [if_neg (hapart (by decide) (by decide) hsize : ¬ x - (base + magicOff) < 8),
      if_neg (hapart (by decide) (by decide) hsize : ¬ x - (base + numPagesOff) < 8), if_pos hsize,
      if_pos hsize]
    exact Or.inl rfl
  rw [if_neg hsize, if_neg hsize]
  by_cases hpages : x - (base + numPagesOff) < 8
  · rw [if_neg (hapart (by decide) (by decide) hpages : ¬ x - (base + magicOff) < 8), if_pos hpages,
      if_pos hpages]
    exact Or.inl rfl
  rw [if_neg hpages, if_neg hpages]
  by_cases hmagic : x - (base + magicOff) < 8
  · rw [if_pos hmagic, if_neg (hapart (by decide) (by decide) hmagic :
      ¬ x - (base + checknoOff) < 8), if_pos hmagic]
    exact Or.inl rfl
  rw [if_neg hmagic, if_neg hmagic]
  have hcheckno : ∀ k < 8, byteOf kmallocCheckno k = 0 := by decide
  refine Or.inr ⟨rfl, ?_⟩
  split
  · next hin => exact hcheckno _ (UInt64.lt_iff_toNat_lt.mp hin)
  · rfl

/-! The blocks that are returned. -/

/-- The block that a call returns is big enough for `size` bytes. -/
def AlwaysBigEnough (call : Option (UInt64 × Ram)) (size : UInt64) : Prop :=
  ∀ ptr c', call = some (ptr, c') →
    BigEnough c'.load (virtToPhys (ptr - pageSize)) (numPages size + 1) size

/-- A start address at which the pages of the request read as free is good, or comes after
    one that is. -/
def Servable (k : KernelMemInfo) (size : UInt64) (good : UInt64 → Prop) : Prop :=
  ∀ i ∈ pages 0 k.physicalLimit, bitmapFree k i (numPages size + 1) = .free →
    good i ∨ ∃ j ∈ pages 0 k.physicalLimit, j < i ∧
      bitmapFree k j (numPages size + 1) = .free ∧ good j

theorem servable_iff (k : KernelMemInfo) (size : UInt64) (good : UInt64 → Prop) :
    (∀ p k', pmGet k (numPages size + 1) 0 = some (p, k') → good p) ↔ Servable k size good := by
  rw [pmGet_good_iff k (numPages size + 1) 0 good]
  simp only [UInt64.sub_zero, Servable]

theorem ptr_block (p : UInt64) : virtToPhys (physToVirt p + pageSize - pageSize) = p := by
  rw [UInt64.add_sub_cancel, virtToPhys_physToVirt]

/-- The room below `2^64`, and a header that leaves the block's bits alone. -/
def KmallocGood (c : Ram) (size : UInt64) (func : Nat → UInt8) (line i : UInt64) : Prop :=
  InSpace i size ∧ HeaderKeeps c.kmem.bitmap i size func line

/-- A page of the new block is used exactly when the header has no bit set on its bit. -/
theorem kmalloc_used_iff {b : Block} (hw : b.Whole) {size : UInt64}
    (hroom : size.toNat + 4096 ≤ b.n.toNat * 4096) {k : KernelMemInfo} {p : Nat} (hp : p < 2 ^ 64)
    (hused : k.Used p) (func : Nat → UInt8) (line : UInt64) :
    (Ram.mk k.store.kmem (kmallocHeader b.base size func line
      (memset k.store.mem b.base 0 (size + pageSize)))).load.Used p ↔
    kmallocHeader b.base size func line (fun _ => 0) (k.bitmap + UInt64.ofNat (p / 8)) &&&
      BitArray.mask p = 0 := by
  obtain ⟨x, hx⟩ : ∃ x, x = k.bitmap + UInt64.ofNat (p / 8) := ⟨_, rfl⟩
  have hkmem : k.store.kmem.bitmap + UInt64.ofNat (p / 8) = x := hx.symm
  rw [used_iff_mask, load_bytes, hkmem, ← hx]
  dsimp only
  have hend := hw.2
  have hsum : (size + pageSize).toNat = size.toNat + 4096 :=
    toNat_add_of_lt (by rw [pageSize_toNat]; omega)
  have hhdr := hw.header (show 1 ≤ b.n.toNat by omega)
  have hacts : Splice.Acts b.header.Holds (kmallocHeader b.base size func line) :=
    acts_kmallocHeader hhdr (Nat.le_refl 1) size line func
  by_cases hin : b.header.Holds x
  · -- the header page was cleared
    have hsame := hacts.congr (memset k.store.mem b.base 0 (size + pageSize)) (fun _ => 0)
      (fun y hy => by
        have hlt : (y - b.base).toNat < 1 * 4096 := (holds_iff hhdr y).mp hy
        rw [memset_apply, if_pos]
        rw [UInt64.lt_iff_toNat_lt, hsum]
        omega) x hin
    rw [hsame]
  · rw [hacts.off _ x hin, hacts.off _ x hin, memset_apply]
    have hzero : (0 : UInt8) &&& BitArray.mask p = 0 := UInt8.zero_and
    refine iff_of_true ?_ hzero
    split
    · exact hzero
    · have hbyte := load_store k (j := p / 8) (by omega)
      rw [load_bytes, hkmem] at hbyte
      rw [hbyte]
      exact (used_iff_mask k p).mp hused

section Kmalloc
variable {c : Ram} {size line p : UInt64} {func : Nat → UInt8} {k : KernelMemInfo}
  (hget : pmGet c.load (numPages size + 1) 0 = some (p, k))
include hget

theorem kmalloc_returns : c.kmallocImpl size func line = some (physToVirt p + pageSize,
    ⟨k.store.kmem, kmallocHeader (physToVirt p) size func line
      (memset k.store.mem (physToVirt p) 0 (size + pageSize))⟩) := by
  rw [Ram.kmallocImpl, Ram.pmGet, hget]
  rfl

theorem kmalloc_big_iff : BigEnough (Ram.mk k.store.kmem (kmallocHeader (physToVirt p) size func line
      (memset k.store.mem (physToVirt p) 0 (size + pageSize)))).load p (numPages size + 1) size ↔
    KmallocGood c size func line p := by
  have hpages : InSpace p size → ((∀ q, InRun p (numPages size + 1) q →
      (Ram.mk k.store.kmem (kmallocHeader (physToVirt p) size func line
        (memset k.store.mem (physToVirt p) 0 (size + pageSize)))).load.Used q) ↔
      HeaderKeeps c.kmem.bitmap p size func line) := by
    intro hspace
    obtain ⟨-, hn, hend⟩ := hspace.run
    obtain ⟨-, hmod, -, -, hbits, -, -, hbitmap⟩ := pmGet_whole hget hend
    refine forall₂_congr fun q hq => ?_
    have hq' : q < 2 ^ 64 := by
      rw [InRun, pageOf] at hq
      omega
    have hroom : size.toNat + 4096 ≤ (numPages size + 1).toNat * 4096 := by
      rw [hn]
      omega
    rw [show c.kmem.bitmap = k.bitmap from hbitmap.symm]
    exact @kmalloc_used_iff ⟨p, numPages size + 1⟩ ⟨hmod, hend⟩ size hroom k q hq'
      ((used_taken hbits q).mpr (Or.inr hq)) func line
  constructor
  · intro hbig
    have hspace := inSpace_of_bigEnough hbig
    exact ⟨hspace, (hpages hspace).mp fun q hq =>
      hbig.used q ((mem_reservedPages hspace.run.2.2 q).mpr hq)⟩
  · rintro ⟨hspace, hkeeps⟩
    have hmod := (pmGet_spec hget).2.1
    exact bigEnough_of_inSpace hmod hspace ((hpages hspace).mpr hkeeps)

end Kmalloc

theorem kmalloc_sizes_iff (c : Ram) (size : UInt64) (func : Nat → UInt8) (line : UInt64) :
    AlwaysBigEnough (c.kmallocImpl size func line) size ↔
      Servable c.load size (KmallocGood c size func line) := by
  rw [← servable_iff]
  constructor
  · intro h p k hget
    have hbig := h _ _ (kmalloc_returns hget)
    rw [ptr_block] at hbig
    exact (kmalloc_big_iff hget).mp hbig
  · intro h ptr c' hk
    cases hget : pmGet c.load (numPages size + 1) 0 with
    | none =>
      rw [Ram.kmallocImpl, Ram.pmGet, hget] at hk
      cases hk
    | some r =>
      rw [kmalloc_returns hget, Option.some.injEq, Prod.mk.injEq] at hk
      obtain ⟨rfl, rfl⟩ := hk
      rw [ptr_block]
      exact (kmalloc_big_iff hget).mpr (h r.1 r.2 hget)

/-- The block `b` is held by a caller who asked for `old` bytes last. -/
structure Held (c : Ram) (b : Block) (old : UInt64) : Prop where
  whole : b.Whole
  pages : b.n = numPages old + 1
  header : Header c.mem b.base b.n old
  used : ∀ p, b.Page p → c.load.Used p
  nonnull : b.base + pageSize ≠ 0

theorem Held.one {c : Ram} {b : Block} {old : UInt64} (h : Held c b old) : 1 ≤ b.n.toNat := by
  rw [h.pages, numPages_succ]
  omega

theorem store_byte {c : Ram} {k : KernelMemInfo} {a n x : UInt64}
    (hbits : ∀ p, k.isFree p = (c.load.isFree p && !decide (InRun a n p)))
    (hbitmap : k.bitmap = c.kmem.bitmap)
    (hx : ∀ q, InRun a n q → x ≠ c.kmem.bitmap + UInt64.ofNat (q / 8)) :
    k.store.mem x = c.mem x := by
  rw [← c.load_byte, KernelMemInfo.store, hbitmap]
  apply UInt8.toBitVec_inj.mp
  apply BitVec.eq_of_getLsbD_eq
  intro r hr
  have hout : ¬ InRun a n (8 * (x - c.kmem.bitmap).toNat + r) := by
    intro hin
    apply hx _ hin
    rw [show (8 * (x - c.kmem.bitmap).toNat + r) / 8 = (x - c.kmem.bitmap).toNat by omega,
      UInt64.ofNat_toNat, add_sub_back]
  have hbit := hbits (8 * (x - c.kmem.bitmap).toNat + r)
  rw [decide_eq_false hout, Bool.not_false, Bool.and_true, KernelMemInfo.isFree,
    KernelMemInfo.isFree, BitArray.get, BitArray.get,
    show (8 * (x - c.kmem.bitmap).toNat + r) / 8 = (x - c.kmem.bitmap).toNat by omega,
    show (8 * (x - c.kmem.bitmap).toNat + r) % 8 = r by omega] at hbit
  exact hbit

/-- A new block whose bits are neither in itself nor in the old block. -/
def MoveGood (c : Ram) (b : Block) (size i : UInt64) : Prop :=
  InSpace i size ∧ ∀ q, InRun i (numPages size + 1) q →
    ¬ (Block.mk i (numPages size + 1)).Holds (c.kmem.bitmap + UInt64.ofNat (q / 8)) ∧
    ¬ b.Holds (c.kmem.bitmap + UInt64.ofNat (q / 8))

section Krealloc
variable {c : Ram} {b : Block} {old size line : UInt64} {func : Nat → UInt8} (h : Held c b old)
include h

/-- In place: the block keeps its pages, and they are enough unless `NUM_PAGES` wrapped. -/
theorem krealloc_inPlace_iff (heq : numPages old = numPages size) :
    AlwaysBigEnough (c.kreallocImpl (b.base + pageSize) size func line) size ↔
      size.toNat + 4096 ≤ 2 ^ 64 ∧ HeaderKeeps c.kmem.bitmap b.address size func line := by
  have hn : b.n = numPages size + 1 := by rw [h.pages, heq]
  have hmem : b.base + pageSize - pageSize = b.base := UInt64.add_sub_cancel _ _
  have hret : c.kreallocImpl (b.base + pageSize) size func line =
      some (b.base + pageSize, ⟨c.kmem, kreallocHeader b.base size func line c.mem⟩) := by
    rw [Ram.kreallocImpl, if_neg h.nonnull]
    simp only [hmem, h.header.size, heq, if_true]
  -- a bit of the block's own pages, after the header is rewritten
  have hbit : ∀ q, b.Page q →
      ((Ram.mk c.kmem (kreallocHeader b.base size func line c.mem)).load.Used q ↔
        kmallocHeader b.base size func line (fun _ => 0) (c.kmem.bitmap + UInt64.ofNat (q / 8)) &&&
          BitArray.mask q = 0) := by
    intro q hq
    have hused := (used_iff_mask c.load q).mp (h.used q hq)
    rw [load_bytes] at hused
    rw [used_iff_mask, load_bytes]
    rcases kreallocHeader_byte b.base size line (c.kmem.bitmap + UInt64.ofNat (q / 8)) func c.mem
      with hnew | ⟨hold, hzero⟩
    · rw [← hnew]
    · rw [hzero]
      dsimp only
      rw [hold]
      exact iff_of_true hused UInt8.zero_and
  have hend := h.whole.2
  rw [hn] at hend
  constructor
  · intro hall
    have hbig := hall _ _ hret
    rw [Block.base, ptr_block] at hbig
    have hspace := inSpace_of_bigEnough hbig
    have hroom := hspace.run.1
    refine ⟨by omega, fun q hq => (hbit q ?_).mp (hbig.used q ((mem_reservedPages hend q).mpr hq))⟩
    rw [Block.Page, hn]
    exact hq
  · rintro ⟨hsize, hkeeps⟩ ptr c' hre
    rw [hret, Option.some.injEq, Prod.mk.injEq] at hre
    obtain ⟨rfl, rfl⟩ := hre
    rw [Block.base, ptr_block]
    have hpages : (numPages size).toNat = (size.toNat + 4095) / 4096 := numPages_toNat (by omega)
    have hspace : InSpace b.address size := by
      rw [numPages_succ, hpages] at hend
      exact hend
    refine bigEnough_of_inSpace h.whole.1 hspace fun q hq => ?_
    refine (hbit q ?_).mpr (hkeeps q hq)
    rw [Block.Page, hn]
    exact hq

/-- Moving: what the new block needs, and what it is enough that it has. -/
theorem krealloc_moved (hne : numPages old ≠ numPages size) :
    (AlwaysBigEnough (c.kreallocImpl (b.base + pageSize) size func line) size →
      Servable c.load size (InSpace · size)) ∧
    (Servable c.load size (MoveGood c b size) →
      AlwaysBigEnough (c.kreallocImpl (b.base + pageSize) size func line) size) := by
  have hmem : b.base + pageSize - pageSize = b.base := UInt64.add_sub_cancel _ _
  rw [← servable_iff, ← servable_iff]
  constructor
  · intro hall p k hget
    obtain ⟨c', hre⟩ : ∃ c', c.kreallocImpl (b.base + pageSize) size func line =
        some (physToVirt p + pageSize, c') := by
      rw [Ram.kreallocImpl, if_neg h.nonnull]
      simp only [hmem, h.header.size, if_neg hne, kmalloc_returns hget]
      exact ⟨_, rfl⟩
    have hbig := hall _ _ hre
    rw [ptr_block] at hbig
    exact inSpace_of_bigEnough hbig
  · intro hgood ptr c' hre
    rw [Ram.kreallocImpl, if_neg h.nonnull] at hre
    simp only [hmem, h.header.size, if_neg hne] at hre
    split at hre
    · cases hre
    · next newBase c₁ hk =>
      obtain ⟨a, k, hget, haw, han, haroom, rfl, hkmem, honly, -⟩ :=
        Ram.kmallocImpl_spec hk fun p k hget => (hgood p k hget).1
      rw [han] at hget
      obtain ⟨hspace, hoff⟩ := hgood _ _ hget
      obtain ⟨-, -, -, hfree, hbits, -, hlimit, hbitmap⟩ := pmGet_whole hget hspace.run.2.2
      rw [← han] at hfree hbits hoff
      have hapart : Ledger.Apart Block.Page a b :=
        fun p hp hb => not_used_of_free (hfree p hp) (h.used p hb)
      -- the old header is still there when it is read again and when the block is freed
      have hold : Header k.store.mem b.base b.n old := by
        refine h.header.congr fun x hx => store_byte hbits hbitmap fun q hq hxq => (hoff q hq).2 ?_
        rw [← hxq, holds_iff h.whole]
        have hlt : (x - b.base).toNat < 32 := UInt64.lt_iff_toNat_lt.mp hx
        have hone := h.one
        omega
      have hkeep : ∀ {m : Memory}, Only a k.store.mem m → Header m b.base b.n old :=
        fun honly => Header.keep h.whole h.one hapart honly hold
      have hset : Only a k.store.mem (memset c₁.mem (a.base + pageSize) 0 size) :=
        honly.trans (only_memset haw c₁.mem 0 (by rw [pageSize_toNat]; omega))
      obtain ⟨n, hn, hnold, hnnew, -⟩ :=
        memcpy_min (a.base + pageSize) (b.base + pageSize) old size
      obtain ⟨m, hm⟩ : ∃ m, m = memcpy (memset c₁.mem (a.base + pageSize) 0 size)
        (a.base + pageSize) (b.base + pageSize) n := ⟨_, rfl⟩
      have honlym : Only a k.store.mem m :=
        hm ▸ hset.trans (only_memcpy haw _ _ (by rw [pageSize_toNat]; omega))
      have hheadm := hkeep honlym
      simp only [(hkeep hset).size, hn, ← hm, Option.some.injEq, Prod.mk.injEq] at hre
      obtain ⟨rfl, rfl⟩ := hre
      have hphys : virtToPhys b.base = b.address := virtToPhys_physToVirt _
      simp only [Ram.kfreeImpl, hmem, hheadm.magic, hheadm.pages, if_true, hphys]
      have hptr : virtToPhys (a.base + pageSize - pageSize) = a.address := ptr_block a.address
      rw [hptr]
      refine bigEnough_of_inSpace haw.1 hspace fun q hq => ?_
      rw [← han] at hq
      have hq' : q < 2 ^ 64 := by
        have hend := haw.2
        rw [InRun, pageOf] at hq
        omega
      -- the bit after the copy, and after the old block is freed
      have hcopied : (Ram.mk c₁.kmem m).load.isFree q = false := by
        rw [isFree_off (c := ⟨c₁.kmem, m⟩) hkmem honlym hq' (by rw [hbitmap]; exact (hoff q hq).1)]
        exact (used_taken hbits q).mpr (Or.inr hq)
      obtain ⟨hfreed, -, hsame⟩ := pmFree_run (k := (Ram.mk c₁.kmem m).load) h.whole.2
      obtain ⟨kf, hkf⟩ : ∃ kf, kf = (pmFree (Ram.mk c₁.kmem m).load b.address b.n).2 := ⟨_, rfl⟩
      rw [← hkf] at hfreed hsame
      have hbitmap' : kf.bitmap = c.kmem.bitmap := by
        rw [hsame]
        exact (congrArg Kmem.bitmap hkmem).trans hbitmap
      have hlast : Only b kf.store.mem (store64 kf.store.mem (b.base + magicOff) 0) :=
        only_store64 h.whole _ 0 (show 0 + 8 ≤ _ by have hone := h.one; omega)
      have hused := isFree_off (c := ⟨kf.store.kmem, store64 kf.store.mem (b.base + magicOff) 0⟩) rfl
        hlast hq' (by rw [hbitmap']; exact (hoff q hq).2)
      rw [hfreed, hcopied, Bool.false_or, decide_eq_false (hapart q hq), hkf] at hused
      exact hused

end Krealloc

/-- When the blocks that `kmalloc(size)` and `krealloc(_, size)` return are big enough.
    `kmalloc`: exactly when the first run `pm_get` takes for free leaves room below `2^64` and
    the header leaves its bits alone. `krealloc` in place: exactly when the sum in `NUM_PAGES`
    does not wrap and the header leaves them alone. `krealloc` that moves needs the room, and
    has enough with bits that lie in neither block. -/
theorem heap_sizes_iff (c : Ram) (size : UInt64) (func : Nat → UInt8) (line : UInt64) :
    (AlwaysBigEnough (c.kmallocImpl size func line) size ↔
      Servable c.load size (KmallocGood c size func line)) ∧
    (AlwaysBigEnough (c.kreallocImpl 0 size func line) size ↔
      Servable c.load size (KmallocGood c size func line)) ∧
    ∀ b old, Held c b old →
      (numPages old = numPages size →
        (AlwaysBigEnough (c.kreallocImpl (b.base + pageSize) size func line) size ↔
          size.toNat + 4096 ≤ 2 ^ 64 ∧ HeaderKeeps c.kmem.bitmap b.address size func line)) ∧
      (numPages old ≠ numPages size →
        (AlwaysBigEnough (c.kreallocImpl (b.base + pageSize) size func line) size →
          Servable c.load size (InSpace · size)) ∧
        (Servable c.load size (MoveGood c b size) →
          AlwaysBigEnough (c.kreallocImpl (b.base + pageSize) size func line) size)) := by
  refine ⟨kmalloc_sizes_iff c size func line, ?_, fun b old h =>
    ⟨krealloc_inPlace_iff h, krealloc_moved h⟩⟩
  have hnull : c.kreallocImpl 0 size func line = c.kmallocImpl size func line := by
    rw [Ram.kreallocImpl, if_pos rfl]
  rw [hnull]
  exact kmalloc_sizes_iff c size func line

/-- Eight pages, of which pages 1 to 7 are free, and the bitmap in page 0. -/
def sevenFree : Ram :=
  ⟨⟨0x8000, 0x8000, 0x7000, physToVirt 0⟩, fun x => if x = physToVirt 0 then 0xFE else 0⟩

theorem heap_sizes_seven_free :
    AlwaysBigEnough (sevenFree.kmallocImpl 5000 (fun _ => 0) 1) 5000 := by
  apply (heap_sizes_iff sevenFree 5000 (fun _ => 0) 1).1.mpr
  intro i hi hfree
  have hlim : sevenFree.load.physicalLimit.toNat = 32768 := rfl
  obtain ⟨-, hlt, hmod⟩ := (mem_pages_iff rfl (by rw [hlim]; decide)).mp hi
  rw [UInt64.lt_iff_toNat_lt, hlim] at hlt
  have hn : (numPages 5000 + 1).toNat = 3 := by decide
  have hsize : (5000 : UInt64).toNat = 5000 := rfl
  rw [bitmapFree_run (by rw [hn]; omega)] at hfree
  -- page 0 is used, so the block begins behind the page of the bitmap
  have hpos : 1 ≤ pageOf i := by
    by_contra hzero
    have hfree₀ := hfree 0 ⟨by omega, by rw [hn]; omega⟩
    exact absurd hfree₀ (by decide)
  refine Or.inl ⟨by rw [InSpace, hsize]; omega, fun q hq => ?_⟩
  rw [InRun, hn, pageOf] at hq
  have hone : (1 : UInt64).toNat = 1 := UInt64.toNat_one
  have hw : (Block.mk i 1).Whole := ⟨hmod, by dsimp only; rw [hone]; omega⟩
  have hacts := acts_kmallocHeader hw (Nat.le_refl 1) 5000 1 fun _ => 0
  have hbyte := hacts.off (fun _ => 0) (physToVirt 0 + UInt64.ofNat (q / 8)) (by
    have hphys : virtToPhys (physToVirt 0 + UInt64.ofNat (q / 8)) = UInt64.ofNat (q / 8) := by
      simp only [virtToPhys, physToVirt]
      grind
    have hpage : pageOf (UInt64.ofNat (q / 8)) = 0 := by
      rw [pageOf, toNat_ofNat_of_lt (by omega)]
      omega
    rw [Block.Holds, hphys, Block.Page, InRun, hpage]
    dsimp only
    omega)
  show kmallocHeader (Block.mk i 1).base 5000 (fun _ => 0) 1 (fun _ => 0)
    (physToVirt 0 + UInt64.ofNat (q / 8)) &&& BitArray.mask q = 0
  rw [hbyte]
  exact UInt8.zero_and

/-- `kmalloc(2^64 - 1)` returns a block of one page. -/
theorem kmalloc_wrapped_size :
    ∃ ptr c', sevenFree.kmallocImpl 0xFFFFFFFFFFFFFFFF (fun _ => 0) 1 = some (ptr, c') ∧
      ¬ BigEnough c'.load (virtToPhys (ptr - pageSize)) (numPages 0xFFFFFFFFFFFFFFFF + 1)
        0xFFFFFFFFFFFFFFFF := by
  obtain ⟨⟨p, k⟩, hget⟩ := Option.isSome_iff_exists.mp
    (show (pmGet sevenFree.load (numPages 0xFFFFFFFFFFFFFFFF + 1) 0).isSome = true by
      decide +kernel)
  refine ⟨_, _, kmalloc_returns hget, fun hbig => ?_⟩
  have hroom := (inSpace_of_bigEnough hbig).run.1
  rw [show (0xFFFFFFFFFFFFFFFF : UInt64).toNat = 2 ^ 64 - 1 from rfl] at hroom
  omega

end Horizon64
