import Horizon64.HeapRuns
import Horizon64.PmGet
import Horizon64.Lib.Splice

/- The machine with its bitmap in memory.

   `kmem.bitmap` is a pointer, and the bytes it points to are bytes of memory like any
   other: the functions here read and write them there, with the bodies of `Phys` and
   `Kmalloc`. `Machine` keeps the bitmap apart. `Machine.ram` is the memory that a `Machine`
   stands for: its bitmap laid over the rest.

   `pm_init` clears `physical_limit / 32 KiB` bytes and reserves the pages of these. The
   bits of the pages up to the limit may take one byte more (`bitmapSpan`), which lies in a
   page nobody reserved when the limit is less than 32 KiB past a multiple of 128 MiB. As
   long as the pages that hold these bytes, and those from the limit on, read as used
   (`Fenced`), no block has one of them, and every function does on `s.ram` what it does on
   `s`.

   1. The functions.
   2. `Machine.ram`, and the pages that no block may have (`Kept`).
   3. `pm_get` and `pm_free`, bit by bit.
   4. Writes to a block, and the heap. -/
namespace Horizon64
open Words Bytes

/-- `KERNEL_MEM_INFO`. -/
structure Kmem where
  physicalLimit : UInt64
  totalSize : UInt64
  freeSize : UInt64
  bitmap : UInt64

/-- `kmem` and memory, with the bitmap in it. -/
structure Ram where
  kmem : Kmem
  mem : Memory

namespace Ram

/-- What the allocator reads: `kmem.bitmap[j]` is the byte at `kmem.bitmap + j`. -/
def load (c : Ram) : KernelMemInfo :=
  ⟨c.kmem.physicalLimit, c.kmem.totalSize, c.kmem.freeSize, c.kmem.bitmap,
    fun j => c.mem (c.kmem.bitmap + UInt64.ofNat j)⟩

end Ram

/-- The same bytes, back at their addresses. -/
def KernelMemInfo.store (k : KernelMemInfo) : Ram :=
  ⟨⟨k.physicalLimit, k.totalSize, k.freeSize, k.bitmap⟩, fun x => k.bytes (x - k.bitmap).toNat⟩

theorem Ram.load_byte (c : Ram) (x : UInt64) :
    c.load.bytes (x - c.kmem.bitmap).toNat = c.mem x := by
  show c.mem (c.kmem.bitmap + UInt64.ofNat (x - c.kmem.bitmap).toNat) = c.mem x
  rw [UInt64.ofNat_toNat, add_sub_back]

theorem Ram.store_load (c : Ram) : c.load.store = c :=
  congrArg (Ram.mk c.kmem) (funext c.load_byte)

theorem load_bytes (c : Ram) (j : Nat) :
    c.load.bytes j = c.mem (c.kmem.bitmap + UInt64.ofNat j) := rfl

theorem load_store (k : KernelMemInfo) {j : Nat} (hj : j < 2 ^ 64) :
    k.store.load.bytes j = k.bytes j := by
  rw [load_bytes]
  show k.bytes (k.bitmap + UInt64.ofNat j - k.bitmap).toNat = k.bytes j
  rw [add_sub_left, toNat_ofNat_of_lt hj]

theorem load_store_isFree (k : KernelMemInfo) {p : Nat} (hp : p < 2 ^ 64) :
    k.store.load.isFree p = k.isFree p := by
  rw [KernelMemInfo.isFree, KernelMemInfo.isFree, BitArray.get, BitArray.get,
    load_store k (by omega)]

namespace Ram

def pmInit (c : Ram) (res : Option (List LimineMemmapEntry)) : Option Ram :=
  (Horizon64.pmInit c.load c.mem res).map KernelMemInfo.store

def pmGet (c : Ram) (n address : UInt64) : Option (UInt64 × Ram) :=
  (Horizon64.pmGet c.load n address).map fun r => (r.1, r.2.store)

def pmFree (c : Ram) (address n : UInt64) : Status × Ram :=
  ((Horizon64.pmFree c.load address n).1, (Horizon64.pmFree c.load address n).2.store)

end Ram

/-- The header that `kmalloc` writes at `mem`. -/
def kmallocHeader (mem size : UInt64) (func : Nat → UInt8) (line : UInt64) (m : Memory) : Memory :=
  let m := store64 m (mem + magicOff) kmemMagicNumber
  let m := store64 m (mem + checknoOff) kmallocCheckno
  let m := store64 m (mem + numPagesOff) (numPages size)
  let m := store64 m (mem + sizeOff) size
  let m := store64 m (mem + linenoOff) line
  strncpy m (mem + fileNameOff) func fileNameLen

/-- The header that `krealloc` rewrites in place. -/
def kreallocHeader (mem size : UInt64) (func : Nat → UInt8) (line : UInt64) (m : Memory) : Memory :=
  let m := store64 m (mem + sizeOff) size
  let m := store64 m (mem + numPagesOff) (numPages size)
  let m := store64 m (mem + magicOff) kmemMagicNumber
  let m := store64 m (mem + linenoOff) line
  strncpy m (mem + fileNameOff) func fileNameLen

namespace Ram

def kmallocImpl (c : Ram) (size : UInt64) (func : Nat → UInt8) (line : UInt64) :
    Option (UInt64 × Ram) :=
  match c.pmGet (numPages size + 1) 0 with
  | none => none
  | some (p, c) =>
    let mem := physToVirt p
    let m := memset c.mem mem 0 (size + pageSize)
    some (mem + pageSize, ⟨c.kmem, kmallocHeader mem size func line m⟩)

def kfreeImpl (c : Ram) (address : UInt64) : Ram :=
  let mem := address - pageSize
  if load64 c.mem (mem + magicOff) = kmemMagicNumber then
    let c := (c.pmFree (virtToPhys mem) (load64 c.mem (mem + numPagesOff) + 1)).2
    ⟨c.kmem, store64 c.mem (mem + magicOff) 0⟩
  else c

def kreallocImpl (c : Ram) (address newSize : UInt64) (func : Nat → UInt8) (line : UInt64) :
    Option (UInt64 × Ram) :=
  if address = 0 then c.kmallocImpl newSize func line
  else
    let mem := address - pageSize
    if numPages (load64 c.mem (mem + sizeOff)) = numPages newSize then
      some (address, ⟨c.kmem, kreallocHeader mem newSize func line c.mem⟩)
    else
      match c.kmallocImpl newSize func line with
      | none => none
      | some (newBase, c) =>
        let m := memset c.mem newBase 0 newSize
        let size := load64 m (mem + sizeOff)
        let m := if size > newSize then memcpy m newBase address newSize
          else memcpy m newBase address size
        some (newBase, Ram.kfreeImpl ⟨c.kmem, m⟩ address)

end Ram

/-! The memory that a machine stands for. -/

/-- The bytes that hold the bits of the pages up to the first that is not below the limit. -/
def spanOf (limit : UInt64) : Nat := (limit.toNat + 4095) / 4096 / 8 + 1

namespace KernelMemInfo
variable (k : KernelMemInfo)

abbrev bitmapSpan : Nat := spanOf k.physicalLimit

/-- The address of one of these bytes. -/
abbrev InBitmap (x : UInt64) : Prop := (x - k.bitmap).toNat < k.bitmapSpan

/-- The pages that no block may have: those from the limit on, and those of the bitmap. -/
def Kept (p : Nat) : Prop :=
  k.physicalLimit.toNat ≤ 4096 * p ∨ ∃ x, k.InBitmap x ∧ pageOf (virtToPhys x) = p

/-- They are used. -/
def Fenced : Prop := ∀ p, k.Kept p → k.Used p

variable {k}

theorem kept_congr {k' : KernelMemInfo} (hlimit : k'.physicalLimit = k.physicalLimit)
    (hbitmap : k'.bitmap = k.bitmap) (p : Nat) : k'.Kept p ↔ k.Kept p := by
  simp only [Kept, InBitmap, bitmapSpan, hlimit, hbitmap]

theorem inside_of_not_kept {p : Nat} (h : ¬ k.Kept p) : p < 8 * k.bitmapSpan := by
  have hlt : ¬ k.physicalLimit.toNat ≤ 4096 * p := fun hle => h (Or.inl hle)
  rw [bitmapSpan, spanOf]
  omega

end KernelMemInfo

/-- The bitmap laid over the rest of memory. -/
def Machine.ram (s : Machine) : Ram :=
  ⟨⟨s.kmem.physicalLimit, s.kmem.totalSize, s.kmem.freeSize, s.kmem.bitmap⟩,
    Splice.splice s.kmem.InBitmap (fun x => s.kmem.bytes (x - s.kmem.bitmap).toNat) s.mem⟩

theorem Machine.ram_bitmap (s : Machine) {x : UInt64} (h : s.kmem.InBitmap x) :
    s.ram.mem x = s.kmem.bytes (x - s.kmem.bitmap).toNat := if_pos h

theorem Machine.ram_mem (s : Machine) {x : UInt64} (h : ¬ s.kmem.InBitmap x) :
    s.ram.mem x = s.mem x := if_neg h

/-- The machine that memory is taken apart into. What lies behind the bitmap stands for no
    page. -/
def Ram.apart (c : Ram) : Machine :=
  ⟨{ c.load with bytes := fun j => if j < c.load.bitmapSpan then c.load.bytes j else 0 }, c.mem⟩

theorem Ram.ram_apart (c : Ram) : c.apart.ram = c := by
  have hmem : Splice.splice c.load.InBitmap (fun x =>
      if (x - c.kmem.bitmap).toNat < c.load.bitmapSpan then c.load.bytes (x - c.kmem.bitmap).toNat
      else 0) c.mem = c.mem := by
    funext x
    rw [Splice.splice]
    split
    · next h =>
      have hin : (x - c.kmem.bitmap).toNat < c.load.bitmapSpan := h
      rw [if_pos hin, c.load_byte]
    · rfl
  exact congrArg (Ram.mk c.kmem) hmem

/-! The allocator. -/

theorem bitmapSpan_le (k : KernelMemInfo) : k.bitmapSpan ≤ 2 ^ 50 := by
  have h := k.physicalLimit.toNat_lt
  rw [KernelMemInfo.bitmapSpan, spanOf]
  omega

/-- The allocator reads in `k` what is in `k'` as far as the bitmap goes, and memory behind
    it. -/
structure Over (m : Memory) (k k' : KernelMemInfo) : Prop where
  limit : k.physicalLimit = k'.physicalLimit
  total : k.totalSize = k'.totalSize
  freeSize : k.freeSize = k'.freeSize
  bitmap : k.bitmap = k'.bitmap
  inside : ∀ j < k'.bitmapSpan, k.bytes j = k'.bytes j
  behind : ∀ j, k'.bitmapSpan ≤ j → j < 2 ^ 64 → k.bytes j = m (k'.bitmap + UInt64.ofNat j)

theorem over_load (s : Machine) : Over s.mem s.ram.load s.kmem := by
  have hoff : ∀ j < 2 ^ 64, (s.kmem.bitmap + UInt64.ofNat j - s.kmem.bitmap).toNat = j := by
    intro j hj
    rw [add_sub_left, toNat_ofNat_of_lt hj]
  have hspan := bitmapSpan_le s.kmem
  refine ⟨rfl, rfl, rfl, rfl, fun j hj => ?_, fun j hj hj' => ?_⟩
  · have hat := hoff j (by omega)
    have hin : s.kmem.InBitmap (s.kmem.bitmap + UInt64.ofNat j) := hat.trans_lt hj
    exact (s.ram_bitmap hin).trans (by rw [hat])
  · exact s.ram_mem fun hin => absurd ((hoff j hj').symm.trans_lt hin) (Nat.not_lt.mpr hj)

/-- The pages of a run that reads as free are below the limit. -/
theorem run_inside {k' : KernelMemInfo} (hf : k'.Fenced) {i n : UInt64} (hi : i < k'.physicalLimit)
    (hfree : bitmapFree k' i n = .free) :
    ∀ x ∈ pages i (i + n * pageSize), pageOf x < 8 * k'.bitmapSpan := by
  rw [UInt64.lt_iff_toNat_lt] at hi
  intro x hx
  by_contra hout
  rw [Nat.not_lt, KernelMemInfo.bitmapSpan, spanOf] at hout
  obtain ⟨hend, -, hlt⟩ := (mem_visits i n (pageOf x)).mp ⟨x, hx, rfl⟩
  -- the run comes to the first page that is not below the limit
  obtain ⟨y, hy, hpage⟩ := (mem_visits i n ((k'.physicalLimit.toNat + 4095) / 4096)).mpr
    ⟨hend, by rw [pageOf]; omega, by omega⟩
  have hused := hf (pageOf y) (Or.inl (by omega))
  rw [KernelMemInfo.Used, (bitmapFree_iff k' i n).mp hfree y hy] at hused
  cases hused

section Over
variable {m : Memory} {k k' : KernelMemInfo} (h : Over m k k')
include h

theorem Over.store : k.store = (⟨k', m⟩ : Machine).ram := by
  have hmem : ∀ x, k.bytes (x - k'.bitmap).toNat =
      Splice.splice k'.InBitmap (fun x => k'.bytes (x - k'.bitmap).toNat) m x := by
    intro x
    rw [Splice.splice]
    split
    · next hx => exact h.inside _ hx
    · next hx =>
      rw [h.behind _ (Nat.not_lt.mp hx) (UInt64.toNat_lt _), UInt64.ofNat_toNat, add_sub_back]
  rw [KernelMemInfo.store, Machine.ram, h.limit, h.total, h.freeSize, h.bitmap, funext hmem]

theorem Over.isFree {p : Nat} (hp : p < 8 * k'.bitmapSpan) : k.isFree p = k'.isFree p := by
  rw [KernelMemInfo.isFree, KernelMemInfo.isFree, BitArray.get, BitArray.get,
    h.inside _ (by omega)]

omit h in
theorem ram_used (s : Machine) {p : Nat} (hp : p < 8 * s.kmem.bitmapSpan) :
    s.ram.load.Used p ↔ s.kmem.Used p := by
  rw [KernelMemInfo.Used, (over_load s).isFree hp]

theorem Over.update {j : Nat} (hj : j < k'.bitmapSpan) (f : UInt8 → UInt8) :
    Over m { k with bytes := Function.update k.bytes j (f (k.bytes j)) }
      { k' with bytes := Function.update k'.bytes j (f (k'.bytes j)) } := by
  refine ⟨h.limit, h.total, h.freeSize, h.bitmap, fun i hi => ?_, fun i hi hi' => ?_⟩
  · dsimp only
    rw [Function.update_apply, Function.update_apply, h.inside j hj, h.inside i hi]
  · have hne : i ≠ j := by
      rintro rfl
      exact absurd hj (Nat.not_lt.mpr hi)
    dsimp only
    rw [Function.update_of_ne hne]
    exact h.behind i hi hi'

theorem Over.free_inside {i n : UInt64}
    (hin : ∀ x ∈ pages i (i + n * pageSize), pageOf x < 8 * k'.bitmapSpan) :
    bitmapFree k i n = bitmapFree k' i n := by
  have hall : bitmapFree k i n = .free ↔ bitmapFree k' i n = .free := by
    rw [bitmapFree_iff, bitmapFree_iff]
    refine forall₂_congr fun x hx => ?_
    rw [h.isFree (hin x hx)]
  cases hk : bitmapFree k i n with
  | free => exact (hall.mp hk).symm
  | allocated => exact (bitmapFree_ne_free.mpr fun hk' => by rw [hall.mpr hk'] at hk; cases hk).symm

/-- A run from below the limit has its bits in the bitmap, or it comes to the first page that
    is not below the limit, which is used. -/
theorem Over.free_eq (hf : k'.Fenced) {i n : UInt64} (hi : i < k'.physicalLimit) :
    bitmapFree k i n = bitmapFree k' i n := by
  rw [UInt64.lt_iff_toNat_lt] at hi
  obtain ⟨top, htop⟩ : ∃ top, top = (k'.physicalLimit.toNat + 4095) / 4096 := ⟨_, rfl⟩
  have hspan : k'.bitmapSpan = top / 8 + 1 := by rw [KernelMemInfo.bitmapSpan, spanOf, htop]
  have hused : k'.isFree top = false := hf top (Or.inl (by omega))
  by_cases hpast : i.toNat + n.toNat % 2 ^ 52 * 4096 < 2 ^ 64 ∧
      top < pageOf i + n.toNat % 2 ^ 52
  · have hin : ∃ x ∈ pages i (i + n * pageSize), pageOf x = top := by
      rw [mem_visits]
      refine ⟨hpast.1, ?_, hpast.2⟩
      rw [pageOf]
      omega
    obtain ⟨x, hx, hpage⟩ := hin
    have hnot : bitmapFree k i n ≠ .free := by
      rw [Ne, bitmapFree_iff]
      intro hall
      have hfree := hall x hx
      rw [hpage, h.isFree (by omega), hused] at hfree
      cases hfree
    have hnot' : bitmapFree k' i n ≠ .free := by
      rw [Ne, bitmapFree_iff]
      intro hall
      have hfree := hall x hx
      rw [hpage, hused] at hfree
      cases hfree
    rw [bitmapFree_ne_free.mpr hnot, bitmapFree_ne_free.mpr hnot']
  · apply h.free_inside
    intro x hx
    obtain ⟨hend, -, hlt⟩ := (mem_visits i n (pageOf x)).mp ⟨x, hx, rfl⟩
    omega

theorem Over.set_run {i n : UInt64}
    (hin : ∀ x ∈ pages i (i + n * pageSize), pageOf x < 8 * k'.bitmapSpan) :
    Over m (bitmapSet k i n) (bitmapSet k' i n) := by
  have hloop := List.foldl_rel (r := fun a b => Over m a b ∧ b.bitmapSpan = k'.bitmapSpan) ⟨h, rfl⟩
    (f := fun k i => { k with
      bytes := Function.update k.bytes (byteIndex i) (k.bytes (byteIndex i) &&& ~~~bitMask i) })
    (g := fun k i => { k with
      bytes := Function.update k.bytes (byteIndex i) (k.bytes (byteIndex i) &&& ~~~bitMask i) })
    fun i hi a b hab => by
      have hbyte : byteIndex i < b.bitmapSpan := by
        have hpage := hin i hi
        rw [hab.2, byteIndex_eq]
        omega
      exact ⟨hab.1.update hbyte (· &&& ~~~bitMask i), hab.2⟩
  exact hloop.1

theorem Over.search (hf : k'.Fenced) (n : UInt64) : ∀ l : List UInt64,
    (∀ i ∈ l, i < k'.physicalLimit) →
    (pmGetLoop n l k).map (fun r => (r.1, r.2.store)) =
      (pmGetLoop n l k').map fun r => (r.1, (⟨r.2, m⟩ : Machine).ram)
  | [], _ => rfl
  | i :: l, hl => by
    have hi := hl i List.mem_cons_self
    rw [pmGetLoop, pmGetLoop, pmAllocate, pmAllocate, h.free_eq hf hi]
    cases hfree : bitmapFree k' i n with
    | allocated => exact Over.search hf n l fun j hj => hl j (List.mem_cons_of_mem i hj)
    | free =>
      obtain ⟨hlimit, htotal, hsize, hbitmap, hinside, hbehind⟩ := h.set_run (run_inside hf hi hfree)
      have hover : Over m
          { bitmapSet k i n with freeSize := (bitmapSet k i n).freeSize - n * pageSize }
          { bitmapSet k' i n with freeSize := (bitmapSet k' i n).freeSize - n * pageSize } :=
        ⟨hlimit, htotal, congrArg (· - n * pageSize) hsize, hbitmap, hinside, hbehind⟩
      simp only [Option.map_some, hover.store]

theorem Over.free_page (st : Status) {i : UInt64} (hi : pageOf i < 8 * k'.bitmapSpan) :
    (pmFreePage (st, k) i).1 = (pmFreePage (st, k') i).1 ∧
      Over m (pmFreePage (st, k) i).2 (pmFreePage (st, k') i).2 := by
  have hone : ∀ x ∈ pages i (i + 1 * pageSize), pageOf x < 8 * k'.bitmapSpan := by
    intro x hx
    obtain ⟨-, hlow, hhigh⟩ := (mem_visits i 1 (pageOf x)).mp ⟨x, hx, rfl⟩
    rw [UInt64.toNat_one] at hhigh
    omega
  have hbyte : byteIndex i < k'.bitmapSpan := by
    rw [byteIndex_eq]
    omega
  obtain ⟨hlimit, htotal, hsize, hbitmap, hinside, hbehind⟩ := h.update hbyte (· ||| bitMask i)
  rw [pmFreePage, pmFreePage, h.free_inside hone]
  cases bitmapFree k' i 1 with
  | allocated =>
    dsimp only
    refine ⟨rfl, hlimit, htotal, ?_, hbitmap, hinside, hbehind⟩
    rw [h.freeSize]
  | free =>
    dsimp only
    exact ⟨rfl, hlimit, htotal, hsize, hbitmap, hinside, hbehind⟩

end Over

/-- `pm_get` on memory is `pm_get` on the bitmap. -/
theorem ram_pmGet {s : Machine} (hf : s.kmem.Fenced) (n address : UInt64) :
    s.ram.pmGet n address =
      (pmGet s.kmem n address).map fun r => (r.1, (⟨r.2, s.mem⟩ : Machine).ram) :=
  (over_load s).search hf n _ fun _ hi => loopValues_lt hi

/-- So is `pm_free`, of pages with bits in the bitmap. -/
theorem ram_pmFree (s : Machine) {address n : UInt64}
    (hin : ∀ x ∈ pages address (address + n * pageSize), pageOf x < 8 * s.kmem.bitmapSpan) :
    s.ram.pmFree address n = ((pmFree s.kmem address n).1,
      (⟨(pmFree s.kmem address n).2, s.mem⟩ : Machine).ram) := by
  have hloop := List.foldl_rel (f := pmFreePage) (g := pmFreePage)
    (r := fun a b => a.1 = b.1 ∧ Over s.mem a.2 b.2 ∧ b.2.bitmapSpan = s.kmem.bitmapSpan)
    (a := (.sysOk, s.ram.load)) (b := (.sysOk, s.kmem)) ⟨rfl, over_load s, rfl⟩
    fun i hi a b hab => by
      obtain ⟨⟨st, k⟩, st', k'⟩ := a, b
      obtain ⟨rfl, hover, hspan⟩ : st = st' ∧ Over s.mem k k' ∧ _ := hab
      obtain ⟨hst, hover'⟩ := hover.free_page st (i := i) (by rw [hspan]; exact hin i hi)
      refine ⟨hst, hover', ?_⟩
      rw [KernelMemInfo.bitmapSpan, (pmFreePage_fields _ i).2.1]
      exact hspan
  rw [Ram.pmFree, Prod.mk.injEq]
  exact ⟨hloop.1, hloop.2.1.store⟩

/-! Writes to blocks. -/

/-- The block has none of the pages that no block may have. -/
def Block.Clear (k : KernelMemInfo) (b : Block) : Prop := ∀ p, b.Page p → ¬ k.Kept p

theorem clear_of_free {k : KernelMemInfo} (hf : k.Fenced) {b : Block}
    (hfree : ∀ p, b.Page p → k.isFree p = true) : b.Clear k :=
  fun p hp hkept => not_used_of_free (hfree p hp) (hf p hkept)

theorem Block.Clear.off {k : KernelMemInfo} {b : Block} (h : b.Clear k) {x : UInt64}
    (hx : b.Holds x) : ¬ k.InBitmap x := fun hin => h _ hx (Or.inr ⟨x, hin, rfl⟩)

theorem Block.Clear.inside {k : KernelMemInfo} {b : Block} (h : b.Clear k) {p : Nat}
    (hp : b.Page p) : p < 8 * k.bitmapSpan := KernelMemInfo.inside_of_not_kept (h p hp)

theorem KernelMemInfo.Fenced.keep {k k' : KernelMemInfo} (h : k.Fenced)
    (hlimit : k'.physicalLimit = k.physicalLimit) (hbitmap : k'.bitmap = k.bitmap)
    (hused : ∀ p, k.Kept p → k.Used p → k'.Used p) : k'.Fenced := by
  intro p hp
  have hkept := (KernelMemInfo.kept_congr hlimit hbitmap p).mp hp
  exact hused p hkept (h p hkept)

/-- What writes outside the bitmap does the same to memory with the bitmap in it. -/
theorem ram_acts {S : UInt64 → Prop} {F : Memory → Memory} (hF : Splice.Acts S F) (s : Machine)
    (hS : ∀ x, S x → ¬ s.kmem.InBitmap x) :
    (⟨s.kmem, F s.mem⟩ : Machine).ram = ⟨s.ram.kmem, F s.ram.mem⟩ :=
  congrArg (Ram.mk s.ram.kmem) (hF.splice hS _ _).symm

theorem acts_strncpyFrom {S : UInt64 → Prop} {dest : UInt64} {num : Nat} (hn : num < 2 ^ 64)
    (h : ∀ x, (x - dest).toNat < num → S x) (src : Nat → UInt8) :
    ∀ todo i, i + todo = num → Splice.Acts S (strncpyFrom dest src todo i)
  | 0, _, _ => Splice.Acts.id
  | todo + 1, i, hsum => by
    have hi : (UInt64.ofNat i).toNat = i := toNat_ofNat_of_lt (by omega)
    have hat : ∀ x, x - (dest + UInt64.ofNat i) < UInt64.ofNat (todo + 1) → S x := by
      intro x hx
      rw [UInt64.lt_iff_toNat_lt, toNat_ofNat_of_lt (by omega)] at hx
      apply h
      rw [sub_split x dest (UInt64.ofNat i), toNat_add_of_lt (by omega), hi]
      omega
    have hfun : strncpyFrom dest src (todo + 1) i = fun m => if src i ≠ 0 then
        strncpyFrom dest src todo (i + 1) (write m (dest + UInt64.ofNat i) (src i))
        else memset m (dest + UInt64.ofNat i) 0 (UInt64.ofNat (todo + 1)) := rfl
    rw [hfun]
    by_cases hsrc : src i ≠ 0
    · simp only [if_pos hsrc]
      refine (acts_strncpyFrom hn h src todo (i + 1) (by omega)).comp (Splice.acts_write (h _ ?_) _)
      rw [add_sub_left, hi]
      omega
    · simp only [if_neg hsrc]
      exact Splice.acts_memset hat 0

section Block
variable {b : Block} (hb : b.Whole)
include hb

theorem acts_off {off : UInt64} (h : off.toNat + 8 ≤ b.n.toNat * 4096) (v : UInt64) :
    Splice.Acts b.Holds (store64 · (b.base + off) v) :=
  Splice.acts_store64 (fun _ hx => holds_off hb h (UInt64.lt_iff_toNat_lt.mp hx)) v

theorem acts_clear {off len : UInt64} (h : off.toNat + len.toNat ≤ b.n.toNat * 4096) (v : UInt8) :
    Splice.Acts b.Holds (memset · (b.base + off) v len) :=
  Splice.acts_memset (fun _ hx => holds_off hb h (UInt64.lt_iff_toNat_lt.mp hx)) v

theorem acts_strncpy {off : UInt64} {num : Nat} (hn : num < 2 ^ 64)
    (h : off.toNat + num ≤ b.n.toNat * 4096) (src : Nat → UInt8) :
    Splice.Acts b.Holds (strncpy · (b.base + off) src num) := by
  by_cases hdest : b.base + off = 0
  · simp only [strncpy, if_pos hdest]
    exact Splice.Acts.id
  · simp only [strncpy, if_neg hdest]
    exact acts_strncpyFrom hn (fun x hx => holds_off hb h hx) src num 0 (by omega)

variable (hone : 1 ≤ b.n.toNat) (size line : UInt64) (func : Nat → UInt8)
include hone

omit size line func in
theorem acts_field {off : UInt64} (v : UInt64) (hoff : off ≤ linenoOff) :
    Splice.Acts b.Holds (store64 · (b.base + off) v) := by
  have hle : off.toNat ≤ 544 := UInt64.le_iff_toNat_le.mp hoff
  exact acts_off hb (by omega) v

omit size line in
theorem acts_fileName : Splice.Acts b.Holds (strncpy · (b.base + fileNameOff) func fileNameLen) := by
  have hval : fileNameOff.toNat + fileNameLen = 543 := rfl
  exact acts_strncpy hb (by decide) (by omega) func

theorem acts_kmallocHeader : Splice.Acts b.Holds (kmallocHeader b.base size func line) :=
  (acts_fileName hb hone func).comp ((acts_field hb hone line (by decide)).comp
    ((acts_field hb hone size (by decide)).comp ((acts_field hb hone _ (by decide)).comp
      ((acts_field hb hone _ (by decide)).comp (acts_field hb hone _ (by decide))))))

theorem acts_kreallocHeader : Splice.Acts b.Holds (kreallocHeader b.base size func line) :=
  (acts_fileName hb hone func).comp ((acts_field hb hone line (by decide)).comp
    ((acts_field hb hone _ (by decide)).comp ((acts_field hb hone _ (by decide)).comp
      (acts_field hb hone size (by decide)))))

end Block

/-! The heap. -/

section Heap
variable {s : Machine} (hf : s.kmem.Fenced) {size line : UInt64} {func : Nat → UInt8}

theorem acts_kmalloc {b : Block} (hw : b.Whole) (hn : b.n = numPages size + 1)
    (hfit : InSpace b.address size) (func : Nat → UInt8) (line : UInt64) :
    Splice.Acts b.Holds fun m => kmallocHeader b.base size func line
      (memset m b.base 0 (size + pageSize)) := by
  obtain ⟨hsize, hpages, -⟩ := hfit.run
  rw [← hn] at hpages
  have hsum : (size + pageSize).toNat = size.toNat + 4096 :=
    toNat_add_of_lt (by rw [pageSize_toNat]; omega)
  have hroom : size.toNat + 4096 ≤ b.n.toNat * 4096 := by omega
  have hlen : (0 : UInt64).toNat + (size + pageSize).toNat ≤ b.n.toNat * 4096 := by
    rw [hsum, UInt64.toNat_zero, Nat.zero_add]
    exact hroom
  have hclear := acts_clear hw hlen 0
  rw [UInt64.add_zero] at hclear
  have hone : 1 ≤ b.n.toNat := by omega
  exact (acts_kmallocHeader hw hone size line func).comp hclear

include hf in
theorem ram_kmalloc (hfit : ∀ p k, pmGet s.kmem (numPages size + 1) 0 = some (p, k) →
    InSpace p size) :
    s.ram.kmallocImpl size func line =
      (kmallocImpl s size func line).map fun r => (r.1, r.2.ram) := by
  rw [Ram.kmallocImpl, kmallocImpl, ram_pmGet hf]
  cases hget : pmGet s.kmem (numPages size + 1) 0 with
  | none => rfl
  | some r =>
    obtain ⟨p, k⟩ := r
    have hspace := hfit p k hget
    obtain ⟨-, hmod, hend, hfree, hbits, -, hlimit, hbitmap⟩ := pmGet_whole hget hspace.run.2.2
    obtain ⟨b, rfl, hn⟩ : ∃ b : Block, b.address = p ∧ b.n = numPages size + 1 := ⟨⟨p, _⟩, rfl, rfl⟩
    rw [← hn] at hend hfree hbits
    have hfence : k.Fenced := hf.keep hlimit hbitmap fun p _ hp => (used_taken hbits p).mpr (Or.inl hp)
    have hclear : b.Clear k := fun p hp hkept =>
      clear_of_free hf hfree p hp ((KernelMemInfo.kept_congr hlimit hbitmap p).mp hkept)
    have hram := ram_acts (acts_kmalloc ⟨hmod, hend⟩ hn hspace func line) ⟨k, s.mem⟩
      fun x hx => hclear.off hx
    simp only [Option.map_some]
    exact congrArg (fun c => some (b.base + pageSize, c)) hram.symm

section Held
variable {b : Block} (hw : b.Whole) (hone : 1 ≤ b.n.toNat) (hclear : b.Clear s.kmem) {old : UInt64}
  (h : Header s.mem b.base b.n old)
include hw hone hclear

theorem ram_field {off : UInt64} (hoff : off ≤ linenoOff) :
    load64 s.ram.mem (b.base + off) = load64 s.mem (b.base + off) := by
  have hle : off.toNat ≤ 544 := UInt64.le_iff_toNat_le.mp hoff
  apply load64_congr
  intro x hx
  apply s.ram_mem
  have hend : off.toNat + 8 ≤ b.n.toNat * 4096 := by omega
  exact hclear.off (holds_off hw hend (UInt64.lt_iff_toNat_lt.mp hx))

include h

theorem ram_kfree : s.ram.kfreeImpl (b.base + pageSize) = (kfreeImpl s (b.base + pageSize)).ram := by
  have hmem : b.base + pageSize - pageSize = b.base := UInt64.add_sub_cancel _ _
  have hphys : virtToPhys b.base = b.address := virtToPhys_physToVirt _
  have hin : ∀ x ∈ pages b.address (b.address + b.n * pageSize),
      pageOf x < 8 * s.kmem.bitmapSpan :=
    fun x hx => hclear.inside ((mem_run_pages hw.2 (pageOf x)).mp ⟨x, hx, rfl⟩)
  have hfree := ram_pmFree s hin
  rw [kfreeImpl_spec h]
  simp only [Ram.kfreeImpl, hmem, ram_field hw hone hclear (by decide : magicOff ≤ linenoOff),
    ram_field hw hone hclear (by decide : numPagesOff ≤ linenoOff), h.magic, h.pages, if_true,
    hphys, hfree]
  obtain ⟨-, hlimit, hbitmap⟩ := pmFree_run (k := s.kmem) hw.2
  symm
  refine ram_acts (acts_field hw hone 0 (by decide : magicOff ≤ linenoOff))
    ⟨(pmFree s.kmem b.address b.n).2, s.mem⟩ fun x hx hin => ?_
  exact hclear _ hx ((KernelMemInfo.kept_congr hlimit hbitmap _).mp (Or.inr ⟨x, hin, rfl⟩))

theorem ram_krealloc (hf : s.kmem.Fenced) (hused : ∀ p, b.Page p → s.kmem.Used p)
    (hroom : old.toNat + 4096 ≤ b.n.toNat * 4096) (hptr : b.base + pageSize ≠ 0)
    (hfit : ∀ p k, pmGet s.kmem (numPages size + 1) 0 = some (p, k) → InSpace p size) :
    s.ram.kreallocImpl (b.base + pageSize) size func line =
      (kreallocImpl s (b.base + pageSize) size func line).map fun r => (r.1, r.2.ram) := by
  have hmem : b.base + pageSize - pageSize = b.base := UInt64.add_sub_cancel _ _
  have hsize := (ram_field hw hone hclear (by decide : sizeOff ≤ linenoOff)).trans h.size
  rw [Ram.kreallocImpl, kreallocImpl, if_neg hptr, if_neg hptr]
  simp only [hmem, hsize, h.size]
  by_cases heq : numPages old = numPages size
  · have hram := ram_acts (acts_kreallocHeader hw hone size line func) s fun x hx => hclear.off hx
    rw [if_pos heq, if_pos heq, Option.map_some]
    exact congrArg (fun c => some (b.base + pageSize, c)) hram.symm
  rw [if_neg heq, if_neg heq, ram_kmalloc hf hfit]
  cases hk : kmallocImpl s size func line with
  | none => rfl
  | some r =>
    obtain ⟨ptr, s₁⟩ := r
    obtain ⟨c, hget, hcw, -, hcroom, rfl, honly, -⟩ := kmallocImpl_spec hk hfit
    obtain ⟨-, -, -, hfree, hbits, -, hlimit, hbitmap⟩ := pmGet_whole hget hcw.2
    have hapart : Ledger.Apart Block.Page c b :=
      fun p hc hb => not_used_of_free (hfree p hc) (hused p hb)
    have hkept := KernelMemInfo.kept_congr hlimit hbitmap
    have hcclear : c.Clear s₁.kmem := fun p hp hin =>
      clear_of_free hf hfree p hp ((hkept p).mp hin)
    have hbclear : b.Clear s₁.kmem := fun p hp hin => hclear p hp ((hkept p).mp hin)
    -- after the `memset`
    obtain ⟨s₂, hs₂⟩ : ∃ t : Machine, t = ⟨s₁.kmem, memset s₁.mem (c.base + pageSize) 0 size⟩ :=
      ⟨_, rfl⟩
    have hlen : pageSize.toNat + size.toNat ≤ c.n.toNat * 4096 := by rw [pageSize_toNat]; omega
    have hram₂ : s₂.ram = ⟨s₁.ram.kmem, memset s₁.ram.mem (c.base + pageSize) 0 size⟩ :=
      hs₂ ▸ ram_acts (acts_clear hcw hlen 0) s₁ fun x hx => hcclear.off hx
    have hold₂ : Header s₂.mem b.base b.n old :=
      Header.keep hw hone hapart (hs₂ ▸ only_memset hcw s₁.mem 0 hlen)
        (Header.keep hw hone hapart honly h)
    have hk₂ : s₂.kmem = s₁.kmem := by rw [hs₂]
    have hsize₂ : load64 s₂.ram.mem (b.base + sizeOff) = old :=
      (ram_field hw hone (hk₂ ▸ hbclear) (by decide : sizeOff ≤ linenoOff)).trans hold₂.size
    rw [hram₂] at hsize₂
    have hsize₂' : load64 (memset s₁.mem (c.base + pageSize) 0 size) (b.base + sizeOff) = old := by
      rw [← hold₂.size, hs₂]
    simp only [Option.map_some, hsize₂, hsize₂']
    -- the copy stays in the two blocks
    obtain ⟨n, hn, hnold, hnnew, -⟩ := memcpy_min (c.base + pageSize) (b.base + pageSize) old size
    simp only [hn]
    obtain ⟨s₃, hs₃⟩ : ∃ t : Machine, t =
        ⟨s₁.kmem, memcpy s₂.mem (c.base + pageSize) (b.base + pageSize) n⟩ := ⟨_, rfl⟩
    have hdst : ∀ x, x - (c.base + pageSize) < n → c.Holds x ∨ b.Holds x := fun x hx =>
      Or.inl (data_off_header hcw (by omega) hx).1
    have hsrc : ∀ x, x - (b.base + pageSize) < n → c.Holds x ∨ b.Holds x := fun x hx =>
      Or.inr (data_off_header hw (by omega) hx).1
    have hram₃ := ram_acts (Splice.acts_memcpy hdst hsrc) s₂ fun x hx => by
      rw [hk₂]
      exact hx.elim (fun hx => hcclear.off hx) fun hx => hbclear.off hx
    rw [hk₂, ← hs₃, hram₂] at hram₃
    have hold₃ : Header s₃.mem b.base b.n old := by
      refine Header.keep hw hone hapart ?_ hold₂
      rw [hs₃]
      exact only_memcpy hcw s₂.mem _ (by rw [pageSize_toNat]; omega)
    have hk₃ : s₃.kmem = s₁.kmem := by rw [hs₃]
    have hfreed := ram_kfree hw hone (hk₃ ▸ hbclear) hold₃
    rw [hram₃, hs₃, hs₂] at hfreed
    exact congrArg (fun c' => some (c.base + pageSize, c')) hfreed

end Held

end Heap

/-- `kmalloc` in any state: what `pm_get` takes, and then the block that it clears. -/
theorem Ram.kmallocImpl_get {c : Ram} {size p : UInt64} (line : UInt64) (func : Nat → UInt8)
    {k : KernelMemInfo} (h : Horizon64.pmGet c.load (numPages size + 1) 0 = some (p, k)) :
    ∃ m, Horizon64.kmallocImpl ⟨c.load, k.store.mem⟩ size func line =
        some (physToVirt p + pageSize, ⟨k, m⟩) ∧
      c.kmallocImpl size func line = some (physToVirt p + pageSize, ⟨k.store.kmem, m⟩) := by
  rw [Horizon64.kmallocImpl, h, Ram.kmallocImpl, Ram.pmGet, h]
  exact ⟨_, rfl, rfl⟩

theorem Ram.kmallocImpl_spec {c c' : Ram} {size line ptr : UInt64} {func : Nat → UInt8}
    (h : c.kmallocImpl size func line = some (ptr, c'))
    (hfit : ∀ p k, Horizon64.pmGet c.load (numPages size + 1) 0 = some (p, k) → InSpace p size) :
    ∃ (b : Block) (k : KernelMemInfo), Horizon64.pmGet c.load b.n 0 = some (b.address, k) ∧
      b.Whole ∧ b.n = numPages size + 1 ∧ size.toNat + 4096 ≤ b.n.toNat * 4096 ∧
      ptr = b.base + pageSize ∧ c'.kmem = k.store.kmem ∧ Only b k.store.mem c'.mem ∧
      Header c'.mem b.base b.n size := by
  cases hget : Horizon64.pmGet c.load (numPages size + 1) 0 with
  | none =>
    rw [Ram.kmallocImpl, Ram.pmGet, hget] at h
    cases h
  | some r =>
    obtain ⟨p, k⟩ := r
    obtain ⟨m, hm, hm'⟩ := Ram.kmallocImpl_get line func hget
    rw [hm', Option.some.injEq, Prod.mk.injEq] at h
    obtain ⟨rfl, rfl⟩ := h
    obtain ⟨b, hb, hw, hn, hroom, hptr, honly, hhead, -⟩ := Horizon64.kmallocImpl_spec hm hfit
    exact ⟨b, k, hb, hw, hn, hroom, hptr, rfl, honly, hhead⟩

theorem isFree_same {k : KernelMemInfo} {c : Ram} (hkmem : c.kmem = k.store.kmem) {p : Nat}
    (hp : p < 2 ^ 64) (hbyte : c.mem (k.bitmap + UInt64.ofNat (p / 8)) =
      k.store.mem (k.bitmap + UInt64.ofNat (p / 8))) : c.load.isFree p = k.isFree p := by
  rw [← load_store_isFree k hp, KernelMemInfo.isFree, KernelMemInfo.isFree, BitArray.get,
    BitArray.get]
  have hload : c.mem (c.kmem.bitmap + UInt64.ofNat (p / 8)) =
      k.store.mem (k.bitmap + UInt64.ofNat (p / 8)) := by
    rw [hkmem]
    exact hbyte
  exact congrArg (fun v : UInt8 => v.toBitVec.getLsbD (p % 8)) hload

theorem isFree_off {b : Block} {k : KernelMemInfo} {c : Ram} (hkmem : c.kmem = k.store.kmem)
    (honly : Only b k.store.mem c.mem) {p : Nat} (hp : p < 2 ^ 64)
    (hout : ¬ b.Holds (k.bitmap + UInt64.ofNat (p / 8))) : c.load.isFree p = k.isFree p :=
  isFree_same hkmem hp (honly _ hout)

/-! Memory taken apart. -/

/-- The pages that no block may have read as used, as far as the bitmap goes. -/
def Ram.Guarded (c : Ram) : Prop :=
  ∀ p < 8 * c.load.bitmapSpan, c.load.Kept p → c.load.Used p

theorem Ram.apart_isFree (c : Ram) {p : Nat} (hp : p < 8 * c.load.bitmapSpan) :
    c.apart.kmem.isFree p = c.load.isFree p := by
  have hbyte : c.apart.kmem.bytes (p / 8) = c.load.bytes (p / 8) := if_pos (by omega)
  rw [KernelMemInfo.isFree, KernelMemInfo.isFree, BitArray.get, BitArray.get, hbyte]

theorem Ram.Guarded.fenced {c : Ram} (h : c.Guarded) : c.apart.kmem.Fenced := by
  intro p hp
  rw [KernelMemInfo.Used]
  by_cases hin : p < 8 * c.load.bitmapSpan
  · rw [c.apart_isFree hin]
    exact h p hin hp
  · have hbyte : c.apart.kmem.bytes (p / 8) = 0 := if_neg (by omega)
    rw [KernelMemInfo.isFree, BitArray.get, hbyte]
    simp

end Horizon64
