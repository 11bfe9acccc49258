import Horizon64.Lib.BitArray
import Horizon64.Lib.Bytes

/- The physical page allocator of `sys/mmu.c`.

   One bit of `kmem.bitmap` stands for one 4 KiB page, set when the page is
   free. `bytes j` is the byte `kmem.bitmap[j]`, for every `j`: what lies in
   memory past the last byte of the bitmap is part of it, and the allocator
   reads there as the code does. Here these bytes are kept apart from the rest
   of memory. They are not apart in the code: its last bit can lie in a page
   that is handed out. `Ram` puts them back into memory, and `Ram.Guarded` says
   when that makes no difference.

   A `for` loop over pages is a fold over the values its counter takes. `halt()`
   does not return: a function that may reach it returns an `Option`. -/
namespace Horizon64
open Words Bytes

/-! Constants and macros of `sys/mmu.h`. -/

def pageSize : UInt64 := 4096
def pagesPerByte : UInt64 := 8
def defaultPages : UInt64 := 8
def memVirtOffset : UInt64 := 0xFFFF800000000000

@[simp] theorem pageSize_toNat : pageSize.toNat = 4096 := rfl
@[simp] theorem pagesPerByte_toNat : pagesPerByte.toNat = 8 := rfl
@[simp] theorem defaultPages_toNat : defaultPages.toNat = 8 := rfl

/-- `NUM_PAGES(addr)`. -/
def numPages (addr : UInt64) : UInt64 := (addr + pageSize - 1) / pageSize

/-- However many bytes are asked for, the number of pages computed is below `2^52`. -/
theorem numPages_lt (addr : UInt64) : (numPages addr).toNat < 2 ^ 52 := by
  have h := (addr + pageSize - 1).toNat_lt
  rw [numPages, UInt64.toNat_div, pageSize_toNat]
  omega

def physToVirt (addr : UInt64) : UInt64 := addr + memVirtOffset
def virtToPhys (addr : UInt64) : UInt64 := addr - memVirtOffset

@[simp] theorem virtToPhys_physToVirt (a : UInt64) : virtToPhys (physToVirt a) = a := by
  simp only [virtToPhys, physToVirt]; grind

@[simp] theorem physToVirt_virtToPhys (a : UInt64) : physToVirt (virtToPhys a) = a := by
  simp only [virtToPhys, physToVirt]; grind

inductive BitmapStatus where
  | allocated
  | free
  deriving DecidableEq, Repr

inductive Status where
  | sysErr
  | sysOk
  deriving DecidableEq, Repr

/-- `KERNEL_MEM_INFO`, with the bytes `kmem.bitmap` points to. -/
structure KernelMemInfo where
  physicalLimit : UInt64
  totalSize : UInt64
  freeSize : UInt64
  bitmap : UInt64
  bytes : Nat → UInt8

/-- The values of `i` in `for (uint64_t i = start; i < bound; i += PAGE_SIZE)`.
    A loop that is still running after `2^52` rounds has taken every value it can. -/
def pages (start bound : UInt64) : List UInt64 := loopValues pageSize (2 ^ 52) start bound

/-! The bitmap. -/

/-- The index in `kmem.bitmap[i / (PAGE_SIZE * PAGES_PER_BYTE)]`. -/
def byteIndex (i : UInt64) : Nat := (i / (pageSize * pagesPerByte)).toNat

/-- `1 << ((i / PAGE_SIZE) % PAGES_PER_BYTE)`. -/
def bitMask (i : UInt64) : UInt8 := 1 <<< (i / pageSize % pagesPerByte).toUInt8

def bitmapSet (k : KernelMemInfo) (address n : UInt64) : KernelMemInfo :=
  (pages address (address + n * pageSize)).foldl
    (fun k i => { k with
      bytes := Function.update k.bytes (byteIndex i) (k.bytes (byteIndex i) &&& ~~~bitMask i) }) k

def bitmapFree (k : KernelMemInfo) (address n : UInt64) : BitmapStatus :=
  if (pages address (address + n * pageSize)).all
      (fun i => k.bytes (byteIndex i) &&& bitMask i != 0) then .free
  else .allocated

/-- One round of the loop of `pm_free`. -/
def pmFreePage (r : Status × KernelMemInfo) (i : UInt64) : Status × KernelMemInfo :=
  let (ret, k) := match bitmapFree r.2 i 1 with
    | .allocated => (r.1, { r.2 with freeSize := r.2.freeSize + pageSize })
    | .free => (.sysErr, r.2)
  (ret, { k with
    bytes := Function.update k.bytes (byteIndex i) (k.bytes (byteIndex i) ||| bitMask i) })

def pmFree (k : KernelMemInfo) (address n : UInt64) : Status × KernelMemInfo :=
  (pages address (address + n * pageSize)).foldl pmFreePage (.sysOk, k)

def pmAllocate (k : KernelMemInfo) (address n : UInt64) : Status × KernelMemInfo :=
  match bitmapFree k address n with
  | .allocated => (.sysErr, k)
  | .free =>
    let k := bitmapSet k address n
    (.sysOk, { k with freeSize := k.freeSize - n * pageSize })

/-- The search of `pm_get` over the candidate start addresses. -/
def pmGetLoop (n : UInt64) : List UInt64 → KernelMemInfo → Option (UInt64 × KernelMemInfo)
  | [], _ => none
  | i :: rest, k =>
    match pmAllocate k i n with
    | (.sysOk, k) => some (i, k)
    | (.sysErr, k) => pmGetLoop n rest k

/-- `pm_get`: the block's address, or `none` where it halts (or, with a limit in
    the last page of the address space, where its search never ends). -/
def pmGet (k : KernelMemInfo) (n address : UInt64) : Option (UInt64 × KernelMemInfo) :=
  pmGetLoop n (pages address k.physicalLimit) k

/-! Page numbers. -/

/-- The page an address lies in. -/
def pageOf (a : UInt64) : Nat := a.toNat / 4096

/-- Page `p` is one of the `n` pages from the page of `a` on. -/
abbrev InRun (a n : UInt64) (p : Nat) : Prop := pageOf a ≤ p ∧ p < pageOf a + n.toNat

/-- The bit of page `p`. -/
def KernelMemInfo.isFree (k : KernelMemInfo) (p : Nat) : Bool := BitArray.get k.bytes p

theorem byteIndex_eq (i : UInt64) : byteIndex i = pageOf i / 8 := by
  have h : (pageSize * pagesPerByte).toNat = 32768 := rfl
  rw [byteIndex, UInt64.toNat_div, h, pageOf]
  omega

theorem bitMask_eq (i : UInt64) : bitMask i = BitArray.mask (pageOf i) := by
  have h : (i / pageSize % pagesPerByte).toUInt8 = UInt8.ofNat (pageOf i % 8) := by
    apply UInt8.toNat_inj.mp
    simp [pageOf]
  rw [bitMask, BitArray.mask, h]

theorem clear_byte (b : Nat → UInt8) (i : UInt64) :
    Function.update b (byteIndex i) (b (byteIndex i) &&& ~~~bitMask i) =
      BitArray.clear b (pageOf i) := by
  rw [byteIndex_eq, bitMask_eq, BitArray.clear]

theorem set_byte (b : Nat → UInt8) (i : UInt64) :
    Function.update b (byteIndex i) (b (byteIndex i) ||| bitMask i) =
      BitArray.set b (pageOf i) := by
  rw [byteIndex_eq, bitMask_eq, BitArray.set]

theorem test_byte (k : KernelMemInfo) (i : UInt64) :
    (k.bytes (byteIndex i) &&& bitMask i != 0) = k.isFree (pageOf i) := by
  rw [byteIndex_eq, bitMask_eq]
  have h := BitArray.test_mask k.bytes (pageOf i)
  cases hf : k.isFree (pageOf i)
  · simp only [KernelMemInfo.isFree] at hf
    rw [hf] at h
    simpa using h
  · simpa using h.mpr hf

/-! The pages a run of `n` pages from `a` touches. -/

theorem pages_run {a n : UInt64} (h : a.toNat + n.toNat * 4096 < 2 ^ 64) :
    pages a (a + n * pageSize) =
      (List.range n.toNat).map (fun j => a + pageSize * UInt64.ofNat j) := by
  have hmul : (n * pageSize).toNat = n.toNat * 4096 := toNat_mul_of_lt (by simp; omega)
  apply loopValues_range
  · simp
  · omega
  · rw [toNat_add_of_lt (by omega), hmul, pageSize_toNat]

/-- With a bound that wraps, the loops over a run do nothing. -/
theorem pages_wrap {a n : UInt64} (h : (a + n * pageSize).toNat ≤ a.toNat) :
    pages a (a + n * pageSize) = [] :=
  loopValues_empty _ _ (UInt64.le_iff_toNat_le.mpr h)

theorem page_toNat {j : Nat} (hj : j < 2 ^ 52) : (pageSize * UInt64.ofNat j).toNat = 4096 * j := by
  have hof : (UInt64.ofNat j).toNat = j := toNat_ofNat_of_lt (by omega)
  rw [toNat_mul_of_lt (by rw [hof, pageSize_toNat]; omega), hof, pageSize_toNat]

theorem run_toNat {a n : UInt64} (h : a.toNat + n.toNat * 4096 < 2 ^ 64) {j : Nat}
    (hj : j < n.toNat) : (a + pageSize * UInt64.ofNat j).toNat = a.toNat + 4096 * j := by
  have hmul := page_toNat (j := j) (by omega)
  rw [toNat_add_of_lt (by omega), hmul]

theorem run_pageOf {a n : UInt64} (h : a.toNat + n.toNat * 4096 < 2 ^ 64) {j : Nat}
    (hj : j < n.toNat) : pageOf (a + pageSize * UInt64.ofNat j) = pageOf a + j := by
  rw [pageOf, run_toNat h hj, pageOf]
  omega

theorem mem_run_pages {a n : UInt64} (h : a.toNat + n.toNat * 4096 < 2 ^ 64) (p : Nat) :
    (∃ i ∈ pages a (a + n * pageSize), pageOf i = p) ↔ InRun a n p := by
  rw [pages_run h]
  simp only [List.mem_map, List.mem_range]
  constructor
  · rintro ⟨i, ⟨j, hj, rfl⟩, rfl⟩
    rw [run_pageOf h hj]
    omega
  · rintro ⟨hlo, hhi⟩
    exact ⟨_, ⟨p - pageOf a, by omega, rfl⟩, by rw [run_pageOf h (by omega)]; omega⟩

/-! What each function does to the bits. -/

theorem bitmapFree_iff (k : KernelMemInfo) (a n : UInt64) :
    bitmapFree k a n = .free ↔ ∀ i ∈ pages a (a + n * pageSize), k.isFree (pageOf i) = true := by
  unfold bitmapFree
  simp only [test_byte]
  split
  · next h => simpa using List.all_eq_true.mp h
  · next h =>
    constructor
    · intro h'; cases h'
    · intro h'; exact absurd (List.all_eq_true.mpr h') h

theorem bitmapFree_run {k : KernelMemInfo} {a n : UInt64}
    (h : a.toNat + n.toNat * 4096 < 2 ^ 64) :
    bitmapFree k a n = .free ↔ ∀ p, InRun a n p → k.isFree p = true := by
  rw [bitmapFree_iff]
  constructor
  · intro hall p hp
    obtain ⟨i, hi, rfl⟩ := (mem_run_pages h p).mpr hp
    exact hall i hi
  · intro hall i hi
    exact hall _ ((mem_run_pages h _).mp ⟨i, hi, rfl⟩)

theorem bitmapFree_ne_free {k : KernelMemInfo} {a n : UInt64} :
    bitmapFree k a n = .allocated ↔ bitmapFree k a n ≠ .free := by
  cases bitmapFree k a n <;> simp

theorem bitmapFree_one {k : KernelMemInfo} {i : UInt64} (h : i.toNat + 4096 < 2 ^ 64) :
    bitmapFree k i 1 = .free ↔ k.isFree (pageOf i) = true := by
  rw [bitmapFree_run (by simpa using h)]
  constructor
  · intro hall
    exact hall _ (by simp [InRun])
  · intro hfree p hp
    have hpi : p = pageOf i := by
      simp [InRun] at hp
      omega
    rw [hpi]
    exact hfree

theorem bitmapSet_fold (l : List UInt64) (k : KernelMemInfo) :
    ∃ b, l.foldl (fun k i => { k with
        bytes := Function.update k.bytes (byteIndex i) (k.bytes (byteIndex i) &&& ~~~bitMask i) }) k =
      { k with bytes := b } ∧
    ∀ p, BitArray.get b p = (k.isFree p && !decide (∃ i ∈ l, pageOf i = p)) := by
  induction l generalizing k with
  | nil => exact ⟨k.bytes, rfl, fun p => by simp [KernelMemInfo.isFree]⟩
  | cons i l ih =>
    simp only [List.foldl_cons, clear_byte]
    obtain ⟨b, hb, hbit⟩ := ih { k with bytes := BitArray.clear k.bytes (pageOf i) }
    simp only [clear_byte] at hb
    refine ⟨b, hb, fun p => ?_⟩
    rw [hbit]
    simp only [KernelMemInfo.isFree, BitArray.get_clear, List.mem_cons, exists_eq_or_imp,
      Bool.decide_or, Bool.not_or, Bool.and_assoc, eq_comm (a := p)]

theorem bitmapSet_run {k : KernelMemInfo} {a n : UInt64} (h : a.toNat + n.toNat * 4096 < 2 ^ 64) :
    ∃ b, bitmapSet k a n = { k with bytes := b } ∧
      ∀ p, BitArray.get b p = (k.isFree p && !decide (InRun a n p)) := by
  obtain ⟨b, hb, hbit⟩ := bitmapSet_fold (pages a (a + n * pageSize)) k
  refine ⟨b, hb, fun p => ?_⟩
  rw [hbit]
  simp only [mem_run_pages h]

/-- `pm_allocate`: all of the run or nothing. -/
theorem pmAllocate_cases {k : KernelMemInfo} {a n : UInt64}
    (h : a.toNat + n.toNat * 4096 < 2 ^ 64) :
    (∃ b, pmAllocate k a n =
        (.sysOk, { k with bytes := b, freeSize := k.freeSize - n * pageSize }) ∧
      (∀ p, InRun a n p → k.isFree p = true) ∧
      ∀ p, BitArray.get b p = (k.isFree p && !decide (InRun a n p))) ∨
    (pmAllocate k a n = (.sysErr, k) ∧ ∃ p, InRun a n p ∧ k.isFree p = false) := by
  unfold pmAllocate
  cases hf : bitmapFree k a n with
  | free =>
    obtain ⟨b, hb, hbit⟩ := bitmapSet_run (k := k) h
    exact Or.inl ⟨b, by simp [hb], (bitmapFree_run h).mp hf, hbit⟩
  | allocated =>
    refine Or.inr ⟨rfl, ?_⟩
    by_contra hno
    push Not at hno
    rw [(bitmapFree_run h).mpr (fun p hp => by simpa using hno p hp)] at hf
    cases hf

theorem pmAllocate_fixed (k : KernelMemInfo) (a n : UInt64) :
    (pmAllocate k a n).2.physicalLimit = k.physicalLimit ∧
    (pmAllocate k a n).2.totalSize = k.totalSize ∧
    (pmAllocate k a n).2.bitmap = k.bitmap := by
  unfold pmAllocate
  cases bitmapFree k a n with
  | free =>
    obtain ⟨b, hb, _⟩ := bitmapSet_fold (pages a (a + n * pageSize)) k
    simp only [bitmapSet, hb, and_self]
  | allocated => simp

theorem pmAllocate_err {k k' : KernelMemInfo} {a n : UInt64}
    (h : pmAllocate k a n = (.sysErr, k')) : k' = k := by
  unfold pmAllocate at h
  cases hf : bitmapFree k a n <;> simp only [hf, Prod.mk.injEq] at h
  · exact h.2.symm
  · simp at h

/-- The search hands out the block of the first candidate that can be allocated,
    and the attempts before it change nothing. -/
theorem pmGetLoop_spec {n i : UInt64} {l : List UInt64} {k k' : KernelMemInfo}
    (h : pmGetLoop n l k = some (i, k')) : i ∈ l ∧ pmAllocate k i n = (.sysOk, k') := by
  induction l with
  | nil => simp [pmGetLoop] at h
  | cons j rest ih =>
    rw [pmGetLoop] at h
    split at h
    · next k'' heq =>
      simp only [Option.some.injEq, Prod.mk.injEq] at h
      obtain ⟨rfl, rfl⟩ := h
      exact ⟨List.mem_cons_self, heq⟩
    · next k'' heq =>
      rw [pmAllocate_err heq] at h
      obtain ⟨hmem, halloc⟩ := ih h
      exact ⟨List.mem_cons_of_mem _ hmem, halloc⟩

theorem pmGet_spec {k k' : KernelMemInfo} {n address i : UInt64}
    (h : pmGet k n address = some (i, k')) :
    i < k.physicalLimit ∧ i.toNat % 4096 = address.toNat % 4096 ∧
      pmAllocate k i n = (.sysOk, k') := by
  obtain ⟨hmem, halloc⟩ := pmGetLoop_spec h
  exact ⟨loopValues_lt hmem, loopValues_mod (by decide) (by simp) hmem, halloc⟩

/-- The block `pm_get` hands out, when its run does not wrap: a run of free pages, all
    marked used afterwards and nothing else changed. -/
theorem pmGet_whole {k k' : KernelMemInfo} {n address i : UInt64}
    (h : pmGet k n address = some (i, k')) (hwrap : i.toNat + n.toNat * 4096 < 2 ^ 64) :
    i < k.physicalLimit ∧ i.toNat % 4096 = address.toNat % 4096 ∧
    i.toNat + n.toNat * 4096 < 2 ^ 64 ∧
    (∀ p, InRun i n p → k.isFree p = true) ∧
    (∀ p, k'.isFree p = (k.isFree p && !decide (InRun i n p))) ∧
    k'.freeSize = k.freeSize - n * pageSize ∧
    k'.physicalLimit = k.physicalLimit ∧ k'.bitmap = k.bitmap := by
  obtain ⟨hlt, hmod, halloc⟩ := pmGet_spec h
  refine ⟨hlt, hmod, hwrap, ?_⟩
  rcases pmAllocate_cases (k := k) hwrap with ⟨b, hok, hfree, hbit⟩ | ⟨herr, _⟩
  · rw [hok] at halloc
    simp only [Prod.mk.injEq, true_and] at halloc
    subst halloc
    exact ⟨hfree, hbit, rfl, rfl, rfl⟩
  · rw [herr] at halloc
    simp at halloc

theorem pmGet_block {k k' : KernelMemInfo} {n address i : UInt64}
    (h : pmGet k n address = some (i, k'))
    (hlim : k.physicalLimit.toNat + n.toNat * 4096 ≤ 2 ^ 64) :
    i < k.physicalLimit ∧ i.toNat % 4096 = address.toNat % 4096 ∧
    i.toNat + n.toNat * 4096 < 2 ^ 64 ∧
    (∀ p, InRun i n p → k.isFree p = true) ∧
    (∀ p, k'.isFree p = (k.isFree p && !decide (InRun i n p))) ∧
    k'.freeSize = k.freeSize - n * pageSize ∧
    k'.physicalLimit = k.physicalLimit ∧ k'.bitmap = k.bitmap := by
  have hlt := (pmGet_spec h).1
  rw [UInt64.lt_iff_toNat_lt] at hlt
  exact pmGet_whole h (by omega)

/-! `pm_free`. -/

theorem pmFreePage_allocated {r : Status × KernelMemInfo} {i : UInt64}
    (h : bitmapFree r.2 i 1 = .allocated) : pmFreePage r i = (r.1, { r.2 with
      freeSize := r.2.freeSize + pageSize
      bytes := BitArray.set r.2.bytes (pageOf i) }) := by
  rw [pmFreePage, h, ← set_byte]

theorem pmFreePage_again {r : Status × KernelMemInfo} {i : UInt64}
    (h : bitmapFree r.2 i 1 = .free) : pmFreePage r i =
      (.sysErr, { r.2 with bytes := BitArray.set r.2.bytes (pageOf i) }) := by
  rw [pmFreePage, h, ← set_byte]

theorem pmFreePage_fields (r : Status × KernelMemInfo) (i : UInt64) :
    (pmFreePage r i).2.bytes = BitArray.set r.2.bytes (pageOf i) ∧
    (pmFreePage r i).2.physicalLimit = r.2.physicalLimit ∧
    (pmFreePage r i).2.bitmap = r.2.bitmap := by
  cases hb : bitmapFree r.2 i 1 with
  | free => simp [pmFreePage_again hb]
  | allocated => simp [pmFreePage_allocated hb]

theorem pmFree_total (k : KernelMemInfo) (a n : UInt64) :
    (pmFree k a n).2.totalSize = k.totalSize := by
  have hfold (l : List UInt64) (r : Status × KernelMemInfo) :
      (l.foldl pmFreePage r).2.totalSize = r.2.totalSize := by
    induction l generalizing r with
    | nil => rfl
    | cons i l ih =>
      rw [List.foldl_cons, ih]
      cases hb : bitmapFree r.2 i 1 with
      | free => rw [pmFreePage_again hb]
      | allocated => rw [pmFreePage_allocated hb]
  rw [pmFree]
  exact hfold _ _

theorem pmFreePage_used {r : Status × KernelMemInfo} {i : UInt64} (h : i.toNat + 4096 < 2 ^ 64)
    (hused : r.2.isFree (pageOf i) = false) :
    (pmFreePage r i).1 = r.1 ∧ (pmFreePage r i).2.freeSize = r.2.freeSize + pageSize := by
  have hb : bitmapFree r.2 i 1 = .allocated := by
    rw [bitmapFree_ne_free, Ne, bitmapFree_one h, hused]; simp
  rw [pmFreePage_allocated hb]
  exact ⟨rfl, rfl⟩

theorem pmFreePage_free {r : Status × KernelMemInfo} {i : UInt64} (h : i.toNat + 4096 < 2 ^ 64)
    (hfree : r.2.isFree (pageOf i) = true) : pmFreePage r i = (.sysErr, r.2) := by
  have hb : bitmapFree r.2 i 1 = .free := (bitmapFree_one h).mpr hfree
  rw [pmFreePage_again hb, BitArray.set_of_get hfree]

theorem pmFree_fold (l : List UInt64) (r : Status × KernelMemInfo) :
    (∀ p, (l.foldl pmFreePage r).2.isFree p = (r.2.isFree p || decide (∃ i ∈ l, pageOf i = p))) ∧
    (l.foldl pmFreePage r).2.physicalLimit = r.2.physicalLimit ∧
    (l.foldl pmFreePage r).2.bitmap = r.2.bitmap := by
  induction l generalizing r with
  | nil => simp
  | cons i l ih =>
    obtain ⟨hbytes, hlim, hmap⟩ := pmFreePage_fields r i
    obtain ⟨hbit, hlim', hmap'⟩ := ih (pmFreePage r i)
    rw [List.foldl_cons]
    refine ⟨fun p => ?_, hlim'.trans hlim, hmap'.trans hmap⟩
    rw [hbit]
    simp only [KernelMemInfo.isFree, hbytes, BitArray.get_set, List.mem_cons, exists_eq_or_imp,
      Bool.decide_or, Bool.or_assoc, eq_comm (a := p)]

/-- `pm_free` frees its run and touches no other page, whatever was free before. -/
theorem pmFree_run {k : KernelMemInfo} {a n : UInt64} (h : a.toNat + n.toNat * 4096 < 2 ^ 64) :
    (∀ p, (pmFree k a n).2.isFree p = (k.isFree p || decide (InRun a n p))) ∧
    (pmFree k a n).2.physicalLimit = k.physicalLimit ∧ (pmFree k a n).2.bitmap = k.bitmap := by
  obtain ⟨hbit, hlim, hmap⟩ := pmFree_fold (pages a (a + n * pageSize)) (.sysOk, k)
  refine ⟨fun p => ?_, hlim, hmap⟩
  rw [pmFree, hbit]
  simp only [mem_run_pages h]

/-- Freeing distinct used pages succeeds and counts every one of them. -/
theorem pmFree_fold_used {l : List UInt64} {r : Status × KernelMemInfo}
    (hw : ∀ i ∈ l, i.toNat + 4096 < 2 ^ 64) (hnd : (l.map pageOf).Nodup)
    (hused : ∀ i ∈ l, r.2.isFree (pageOf i) = false) :
    (l.foldl pmFreePage r).1 = r.1 ∧
    (l.foldl pmFreePage r).2.freeSize = r.2.freeSize + UInt64.ofNat l.length * pageSize := by
  induction l generalizing r with
  | nil => simp
  | cons i l ih =>
    rw [List.map_cons, List.nodup_cons] at hnd
    obtain ⟨hst, hsize⟩ := pmFreePage_used (hw i List.mem_cons_self) (hused i List.mem_cons_self)
    have hused' : ∀ j ∈ l, (pmFreePage r i).2.isFree (pageOf j) = false := by
      intro j hj
      have hne : pageOf j ≠ pageOf i := fun he => hnd.1 (he ▸ List.mem_map_of_mem hj)
      have hj' := hused j (List.mem_cons_of_mem _ hj)
      rw [KernelMemInfo.isFree] at hj' ⊢
      rw [(pmFreePage_fields r i).1, BitArray.get_set]
      simp [hne, hj']
    obtain ⟨hst', hsize'⟩ := ih (fun j hj => hw j (List.mem_cons_of_mem _ hj)) hnd.2 hused'
    rw [List.foldl_cons]
    refine ⟨hst'.trans hst, ?_⟩
    rw [hsize', hsize, List.length_cons, ofNat_add]
    grind

theorem run_room {a n : UInt64} (h : a.toNat + n.toNat * 4096 < 2 ^ 64) :
    ∀ i ∈ pages a (a + n * pageSize), i.toNat + 4096 < 2 ^ 64 := by
  intro i hi
  rw [pages_run h] at hi
  obtain ⟨j, hj, rfl⟩ := List.mem_map.mp hi
  rw [List.mem_range] at hj
  rw [run_toNat h hj]
  omega

theorem run_nodup {a n : UInt64} (h : a.toNat + n.toNat * 4096 < 2 ^ 64) :
    ((pages a (a + n * pageSize)).map pageOf).Nodup := by
  rw [pages_run h, List.map_map]
  have hmap : (List.range n.toNat).map (pageOf ∘ fun j => a + pageSize * UInt64.ofNat j) =
      (List.range n.toNat).map (fun j => pageOf a + j) := by
    apply List.map_congr_left
    intro j hj
    exact run_pageOf h (List.mem_range.mp hj)
  rw [hmap]
  exact List.nodup_range.map (fun _ _ h => Nat.add_left_cancel h)

/-- `pm_free` of a run whose pages are all used returns `SYS_OK`. -/
theorem pmFree_used {k : KernelMemInfo} {a n : UInt64} (h : a.toNat + n.toNat * 4096 < 2 ^ 64)
    (hused : ∀ p, InRun a n p → k.isFree p = false) :
    (pmFree k a n).1 = .sysOk ∧ (pmFree k a n).2.freeSize = k.freeSize + n * pageSize := by
  obtain ⟨hst, hsize⟩ := pmFree_fold_used (r := (.sysOk, k)) (run_room h) (run_nodup h)
    (fun i hi => hused _ ((mem_run_pages h _).mp ⟨i, hi, rfl⟩))
  refine ⟨hst, ?_⟩
  rw [pmFree, hsize, pages_run h, List.length_map, List.length_range, UInt64.ofNat_toNat]

/-! What `pm_free` reports. -/

theorem pmFreePage_status {r : Status × KernelMemInfo} {i : UInt64} (h : i.toNat + 4096 < 2 ^ 64) :
    (pmFreePage r i).1 = .sysErr ↔ r.1 = .sysErr ∨ r.2.isFree (pageOf i) = true := by
  cases hfree : r.2.isFree (pageOf i) with
  | true => simp [pmFreePage_free h hfree]
  | false => simp [(pmFreePage_used h hfree).1]

/-- Over distinct pages, `SYS_ERR` is left exactly when one of them was free before. -/
theorem pmFree_fold_status {l : List UInt64} {r : Status × KernelMemInfo}
    (hw : ∀ i ∈ l, i.toNat + 4096 < 2 ^ 64) (hnd : (l.map pageOf).Nodup) :
    (l.foldl pmFreePage r).1 = .sysErr ↔
      r.1 = .sysErr ∨ ∃ i ∈ l, r.2.isFree (pageOf i) = true := by
  induction l generalizing r with
  | nil => simp
  | cons i l ih =>
    rw [List.map_cons, List.nodup_cons] at hnd
    -- freeing the page of `i` changes what none of the later rounds reads
    have hkeep : ∀ j ∈ l, (pmFreePage r i).2.isFree (pageOf j) = r.2.isFree (pageOf j) := by
      intro j hj
      have hne : pageOf j ≠ pageOf i := fun he => hnd.1 (he ▸ List.mem_map_of_mem hj)
      rw [KernelMemInfo.isFree, (pmFreePage_fields r i).1, BitArray.get_set]
      simp [hne, KernelMemInfo.isFree]
    have hrest : (∃ j ∈ l, (pmFreePage r i).2.isFree (pageOf j) = true) ↔
        ∃ j ∈ l, r.2.isFree (pageOf j) = true := by
      apply exists_congr
      intro j
      exact and_congr_right fun hj => by rw [hkeep j hj]
    rw [List.foldl_cons, ih (fun j hj => hw j (List.mem_cons_of_mem _ hj)) hnd.2,
      pmFreePage_status (hw i List.mem_cons_self), hrest, or_assoc, List.exists_mem_cons_iff]

/-- `pm_free` reports an error exactly when some page of its run was already free. -/
theorem pmFree_status {k : KernelMemInfo} {a n : UInt64} (h : a.toNat + n.toNat * 4096 < 2 ^ 64) :
    (pmFree k a n).1 = .sysErr ↔ ∃ p, InRun a n p ∧ k.isFree p = true := by
  rw [pmFree, pmFree_fold_status (run_room h) (run_nodup h)]
  constructor
  · rintro (herr | ⟨i, hi, hfree⟩)
    · cases herr
    · exact ⟨pageOf i, (mem_run_pages h _).mp ⟨i, hi, rfl⟩, hfree⟩
  · rintro ⟨p, hp, hfree⟩
    obtain ⟨i, hi, rfl⟩ := (mem_run_pages h p).mpr hp
    exact Or.inr ⟨i, hi, hfree⟩

end Horizon64
