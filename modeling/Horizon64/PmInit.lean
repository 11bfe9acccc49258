import Horizon64.FreeSize

/- `pm_init`: the free map the allocator starts from.

   Three passes over the Limine memory map: the limit and the total size, the
   place of the bitmap, and the pages that are free. The passes filter the
   entries differently; the bitmap then allocates its own pages, and the status
   of that call is ignored.

   1. The passes as folds over the entries (`scanEntry`, `placeBitmap`,
      `populateEntry`), and `pmInit`.
   2. What each pass leaves behind.
   3. `pmInit_spec`: the bits of the map after `pm_init`, whatever lies in memory
      past the bitmap.
   4. `pm_init_free_map`: the exact set of free pages, their number, the limit
      and the total, when the limit is a multiple of 32 KiB. -/
namespace Horizon64
open Words Bytes

inductive MemmapType where
  | usable
  | reserved
  | acpiReclaimable
  | acpiNvs
  | badMemory
  | bootloaderReclaimable
  | kernelAndModules
  | framebuffer
  deriving DecidableEq, Repr

/-- `struct limine_memmap_entry`. -/
structure LimineMemmapEntry where
  base : UInt64
  length : UInt64
  type : MemmapType
  deriving DecidableEq, Repr

/-- `ENTRY_TYPE_CHECK(entry)`. -/
def entryTypeCheck (e : LimineMemmapEntry) : Bool :=
  e.type = .usable || e.type = .bootloaderReclaimable || e.type = .kernelAndModules ||
    e.type = .acpiReclaimable

/-- The first pass: the sum of the lengths and the highest end. -/
def scanEntry (k : KernelMemInfo) (e : LimineMemmapEntry) : KernelMemInfo :=
  if entryTypeCheck e then
    let k := { k with totalSize := k.totalSize + e.length }
    let newLimit := e.base + e.length
    if newLimit > k.physicalLimit then { k with physicalLimit := newLimit } else k
  else k

/-- The second pass: the first usable entry above 1 MiB that is long enough. The
    pointer stays as it was when there is none. -/
def placeBitmap (bitmapSize bitmap : UInt64) : List LimineMemmapEntry → UInt64
  | [] => bitmap
  | e :: rest =>
    if e.base + e.length ≤ 0x100000 then placeBitmap bitmapSize bitmap rest
    else if e.length ≥ bitmapSize ∧ e.type = .usable then physToVirt e.base
    else placeBitmap bitmapSize bitmap rest

/-- The third pass: free the usable entries above 1 MiB. -/
def populateEntry (k : KernelMemInfo) (e : LimineMemmapEntry) : KernelMemInfo :=
  if e.base + e.length ≤ 0x100000 then k
  else if e.type = .usable then (pmFree k e.base (numPages e.length)).2
  else k

/-- `bitmap_size`. -/
def KernelMemInfo.bitmapSize (k : KernelMemInfo) : UInt64 :=
  k.physicalLimit / (pageSize * pagesPerByte)

/-- `memset(kmem.bitmap, 0, bitmap_size)`, over the bytes that memory holds at
    `kmem.bitmap`. -/
def clearBitmap (k : KernelMemInfo) (mem : Memory) : KernelMemInfo :=
  { k with bytes := fun j =>
      if j < k.bitmapSize.toNat then 0 else mem (k.bitmap + UInt64.ofNat j) }

/-- `pm_init`, from the value of `kmem`, the contents of memory and the response
    (its entries, or `none` for a null one); `none` where it halts. -/
def pmInit (k : KernelMemInfo) (mem : Memory) (res : Option (List LimineMemmapEntry)) :
    Option KernelMemInfo :=
  match res with
  | none => none
  | some [] => none
  | some entries =>
    let k := { k with freeSize := 0, physicalLimit := 0, totalSize := 0 }
    let k := entries.foldl scanEntry k
    let k := { k with bitmap := placeBitmap k.bitmapSize k.bitmap entries }
    let k := clearBitmap k mem
    let k := entries.foldl populateEntry k
    some (pmAllocate k (virtToPhys k.bitmap) (numPages k.bitmapSize)).2

/-! The memory map. -/

/-- The address an entry ends at. -/
def LimineMemmapEntry.endAddr (e : LimineMemmapEntry) : Nat := e.base.toNat + e.length.toNat

/-- Page `p` lies in entry `e`. -/
abbrev InEntry (e : LimineMemmapEntry) (p : Nat) : Prop :=
  e.base.toNat ≤ 4096 * p ∧ 4096 * p + 4096 ≤ e.endAddr

/-- A usable entry that ends above 1 MiB. -/
abbrev HighUsable (e : LimineMemmapEntry) : Prop := e.type = .usable ∧ 0x100000 < e.endAddr

/-- The highest address of the entries that pass `ENTRY_TYPE_CHECK`. -/
def highestAddress (entries : List LimineMemmapEntry) : Nat :=
  ((entries.filter entryTypeCheck).map LimineMemmapEntry.endAddr).foldr max 0

/-- What Limine guarantees of usable entries: whole 4 KiB pages of the address
    space. -/
def UsableAligned (entries : List LimineMemmapEntry) : Prop :=
  ∀ e ∈ entries, e.type = .usable →
    e.base.toNat % 4096 = 0 ∧ e.length.toNat % 4096 = 0 ∧ e.endAddr < 2 ^ 64

/-- Some usable entry above 1 MiB has room for a bitmap of `size` bytes. -/
def RoomFor (entries : List LimineMemmapEntry) (size : Nat) : Prop :=
  ∃ e ∈ entries, HighUsable e ∧ size ≤ e.length.toNat

theorem RoomFor.ne_nil {entries : List LimineMemmapEntry} {size : Nat} (h : RoomFor entries size) :
    entries ≠ [] := by
  rintro rfl
  obtain ⟨e, he, _⟩ := h
  simp at he

theorem endAddr_le_highest {entries : List LimineMemmapEntry} {e : LimineMemmapEntry}
    (he : e ∈ entries) (hc : entryTypeCheck e = true) : e.endAddr ≤ highestAddress entries := by
  induction entries with
  | nil => simp at he
  | cons f rest ih =>
    unfold highestAddress at ih ⊢
    rcases List.mem_cons.mp he with rfl | he
    · simp [hc]
    · cases hf : entryTypeCheck f
      · simpa [hf] using ih he
      · simp only [List.filter_cons, hf, if_true, List.map_cons, List.foldr_cons]
        exact Nat.le_trans (ih he) (Nat.le_max_right _ _)

theorem usable_check {e : LimineMemmapEntry} (h : e.type = .usable) : entryTypeCheck e = true := by
  simp [entryTypeCheck, h]

theorem add_toNat_of_end {e : LimineMemmapEntry} (h : e.endAddr < 2 ^ 64) :
    (e.base + e.length).toNat = e.endAddr := toNat_add_of_lt h

theorem numPages_toNat {x : UInt64} (h : x.toNat + 4096 ≤ 2 ^ 64) :
    (numPages x).toNat = (x.toNat + 4095) / 4096 := by
  have hsum : (x + pageSize - 1).toNat = x.toNat + 4095 := by
    have heq : x + pageSize - 1 = x + 4095 := by simp only [pageSize]; grind
    rw [heq, toNat_add_of_lt]
    · rfl
    · show x.toNat + 4095 < 2 ^ 64
      omega
  rw [numPages, UInt64.toNat_div, hsum, pageSize_toNat]

/-! The first pass. -/

theorem scanEntry_same (k : KernelMemInfo) (e : LimineMemmapEntry) :
    (scanEntry k e).freeSize = k.freeSize ∧ (scanEntry k e).bitmap = k.bitmap := by
  unfold scanEntry
  split
  · simp only
    split <;> exact ⟨rfl, rfl⟩
  · exact ⟨rfl, rfl⟩

theorem scan_same (entries : List LimineMemmapEntry) (k : KernelMemInfo) :
    (entries.foldl scanEntry k).freeSize = k.freeSize ∧
    (entries.foldl scanEntry k).bitmap = k.bitmap := by
  induction entries generalizing k with
  | nil => exact ⟨rfl, rfl⟩
  | cons e rest ih =>
    obtain ⟨hf, hb⟩ := ih (scanEntry k e)
    obtain ⟨hf', hb'⟩ := scanEntry_same k e
    exact ⟨hf.trans hf', hb.trans hb'⟩

theorem scanEntry_limit {k : KernelMemInfo} {e : LimineMemmapEntry}
    (hfit : entryTypeCheck e = true → e.endAddr < 2 ^ 64) :
    (scanEntry k e).physicalLimit.toNat =
      if entryTypeCheck e then max e.endAddr k.physicalLimit.toNat
      else k.physicalLimit.toNat := by
  unfold scanEntry
  split
  · next hc =>
    have hend := add_toNat_of_end (hfit hc)
    simp only
    split
    · next hgt =>
      have hgt' := UInt64.lt_iff_toNat_lt.mp hgt
      simp only
      omega
    · next hle =>
      have hle' := UInt64.le_iff_toNat_le.mp (UInt64.not_lt.mp hle)
      simp only
      omega
  · rfl

/-- The limit is the highest end. -/
theorem scan_limit {entries : List LimineMemmapEntry}
    (hfit : ∀ e ∈ entries, entryTypeCheck e = true → e.endAddr < 2 ^ 64) (k : KernelMemInfo) :
    (entries.foldl scanEntry k).physicalLimit.toNat =
      max (highestAddress entries) k.physicalLimit.toNat := by
  induction entries generalizing k with
  | nil => simp [highestAddress]
  | cons e rest ih =>
    rw [List.foldl_cons, ih (fun f hf => hfit f (List.mem_cons_of_mem _ hf)),
      scanEntry_limit (hfit e List.mem_cons_self)]
    cases hc : entryTypeCheck e
    · simp [highestAddress, hc]
    · simp only [highestAddress, List.filter_cons, hc, if_true, List.map_cons, List.foldr_cons]
      omega

/-- The sum of the lengths of the entries that pass `ENTRY_TYPE_CHECK`. -/
def totalLength (entries : List LimineMemmapEntry) : Nat :=
  ((entries.filter entryTypeCheck).map (fun e => e.length.toNat)).sum

theorem scan_total (entries : List LimineMemmapEntry) (k : KernelMemInfo) :
    (entries.foldl scanEntry k).totalSize.toNat =
      (k.totalSize.toNat + totalLength entries) % 2 ^ 64 := by
  induction entries generalizing k with
  | nil => simp [totalLength, Nat.mod_eq_of_lt k.totalSize.toNat_lt]
  | cons e rest ih =>
    have hstep : (scanEntry k e).totalSize.toNat =
        (k.totalSize.toNat + if entryTypeCheck e then e.length.toNat else 0) % 2 ^ 64 := by
      unfold scanEntry
      split
      · simp only
        split <;> exact UInt64.toNat_add _ _
      · simp [Nat.mod_eq_of_lt k.totalSize.toNat_lt]
    rw [List.foldl_cons, ih, hstep]
    cases hc : entryTypeCheck e
    · simp [totalLength, hc]
    · simp only [totalLength, List.filter_cons, hc, if_true, List.map_cons, List.sum_cons]
      omega

/-! The second pass. -/

/-- With room for the bitmap, it is placed at the base of such an entry. -/
theorem placeBitmap_spec {entries : List LimineMemmapEntry} {size : UInt64} (bitmap : UInt64)
    (hal : UsableAligned entries) (hroom : RoomFor entries size.toNat) :
    ∃ e ∈ entries, HighUsable e ∧ size.toNat ≤ e.length.toNat ∧
      placeBitmap size bitmap entries = physToVirt e.base := by
  induction entries with
  | nil => obtain ⟨e, he, _⟩ := hroom; simp at he
  | cons f rest ih =>
    have skip (hf : ¬ (HighUsable f ∧ size.toNat ≤ f.length.toNat)) :
        ∃ e ∈ f :: rest, HighUsable e ∧ size.toNat ≤ e.length.toNat ∧
          placeBitmap size bitmap rest = physToVirt e.base := by
      obtain ⟨e, he, hhigh, hlen⟩ := hroom
      rcases List.mem_cons.mp he with rfl | he
      · exact absurd ⟨hhigh, hlen⟩ hf
      · obtain ⟨g, hg, hrest⟩ := ih (fun e he => hal e (List.mem_cons_of_mem _ he))
          ⟨e, he, hhigh, hlen⟩
        exact ⟨g, List.mem_cons_of_mem _ hg, hrest⟩
    rw [placeBitmap]
    split
    · next hlow =>
      apply skip
      rintro ⟨⟨hu, hhigh⟩, _⟩
      have hend := add_toNat_of_end (hal f List.mem_cons_self hu).2.2
      have hle := UInt64.le_iff_toNat_le.mp hlow
      have hmib : (0x100000 : UInt64).toNat = 0x100000 := rfl
      omega
    · next hhigh =>
      split
      · next hfit =>
        have hend := add_toNat_of_end (hal f List.mem_cons_self hfit.2).2.2
        have hlt := UInt64.lt_iff_toNat_lt.mp (UInt64.not_le.mp hhigh)
        have hmib : (0x100000 : UInt64).toNat = 0x100000 := rfl
        exact ⟨f, List.mem_cons_self, ⟨hfit.2, by omega⟩, UInt64.le_iff_toNat_le.mp hfit.1, rfl⟩
      · next hno =>
        apply skip
        rintro ⟨⟨hu, _⟩, hlen⟩
        exact hno ⟨UInt64.le_iff_toNat_le.mpr hlen, hu⟩

/-! The third pass. -/

theorem usable_run {e : LimineMemmapEntry}
    (hal : e.base.toNat % 4096 = 0 ∧ e.length.toNat % 4096 = 0 ∧ e.endAddr < 2 ^ 64) :
    e.base.toNat + (numPages e.length).toNat * 4096 = e.endAddr ∧
    ∀ p, InRun e.base (numPages e.length) p ↔ InEntry e p := by
  obtain ⟨hbase, hlen, hend⟩ := hal
  rw [LimineMemmapEntry.endAddr] at hend
  have hn : (numPages e.length).toNat = e.length.toNat / 4096 := by
    rw [numPages_toNat (by omega)]
    omega
  refine ⟨by rw [LimineMemmapEntry.endAddr]; omega, fun p => ?_⟩
  simp only [InRun, InEntry, pageOf, LimineMemmapEntry.endAddr]
  omega

theorem populateEntry_spec {e : LimineMemmapEntry} (k : KernelMemInfo)
    (hal : e.type = .usable →
      e.base.toNat % 4096 = 0 ∧ e.length.toNat % 4096 = 0 ∧ e.endAddr < 2 ^ 64) :
    (∀ p, (populateEntry k e).isFree p = true ↔
      k.isFree p = true ∨ (HighUsable e ∧ InEntry e p)) ∧
    (populateEntry k e).physicalLimit = k.physicalLimit ∧
    (populateEntry k e).bitmap = k.bitmap := by
  have hmib : (0x100000 : UInt64).toNat = 0x100000 := rfl
  unfold populateEntry
  by_cases hu : e.type = .usable
  · obtain ⟨hend, hrun⟩ := usable_run (hal hu)
    have hadd := add_toNat_of_end (hal hu).2.2
    split
    · next hlow =>
      have hle := UInt64.le_iff_toNat_le.mp hlow
      have hnot : ¬ HighUsable e := fun h => by have := h.2; omega
      simp [hnot]
    · next hhigh =>
      have hlt := UInt64.lt_iff_toNat_lt.mp (UInt64.not_le.mp hhigh)
      have hhigh' : HighUsable e := ⟨hu, by omega⟩
      obtain ⟨hbit, hlim, hmap⟩ := pmFree_run (k := k) (a := e.base) (n := numPages e.length)
        (by rw [hend]; exact (hal hu).2.2)
      refine ⟨fun p => ?_, hlim, hmap⟩
      rw [hbit, Bool.or_eq_true, decide_eq_true_eq, hrun]
      exact or_congr_right (and_iff_right hhigh').symm
  · simp [hu]

theorem populate_spec {entries : List LimineMemmapEntry} (hal : UsableAligned entries)
    (k : KernelMemInfo) :
    (∀ p, (entries.foldl populateEntry k).isFree p = true ↔
      k.isFree p = true ∨ ∃ e ∈ entries, HighUsable e ∧ InEntry e p) ∧
    (entries.foldl populateEntry k).physicalLimit = k.physicalLimit ∧
    (entries.foldl populateEntry k).bitmap = k.bitmap := by
  induction entries generalizing k with
  | nil => simp
  | cons e rest ih =>
    obtain ⟨hbit, hlim, hmap⟩ := populateEntry_spec k (hal e List.mem_cons_self)
    obtain ⟨hbit', hlim', hmap'⟩ := ih (fun f hf => hal f (List.mem_cons_of_mem _ hf))
      (populateEntry k e)
    rw [List.foldl_cons]
    refine ⟨fun p => ?_, hlim'.trans hlim, hmap'.trans hmap⟩
    simp only [hbit', hbit, List.mem_cons, exists_eq_or_imp, or_assoc]

/-- The third pass keeps the account of the pages below its entries. -/
theorem populate_accounted {entries : List LimineMemmapEntry} {N : Nat} (hN : N < 2 ^ 52)
    (hal : UsableAligned entries)
    (hcov : ∀ e ∈ entries, e.type = .usable → e.endAddr ≤ N * 4096) {k : KernelMemInfo}
    (h : Accounted k N) : Accounted (entries.foldl populateEntry k) N := by
  induction entries generalizing k with
  | nil => exact h
  | cons e rest ih =>
    rw [List.foldl_cons]
    apply ih (fun f hf => hal f (List.mem_cons_of_mem _ hf))
      (fun f hf => hcov f (List.mem_cons_of_mem _ hf))
    unfold populateEntry
    split
    · exact h
    · split
      · next hu =>
        apply pmFree_accounted hN h
        rw [(usable_run (hal e List.mem_cons_self hu)).1]
        exact hcov e List.mem_cons_self hu
      · exact h

/-! The whole of `pm_init`. -/

/-- The pages of the bitmap itself. -/
abbrev KernelMemInfo.BitmapPage (k : KernelMemInfo) (p : Nat) : Prop :=
  InRun (virtToPhys k.bitmap) (numPages k.bitmapSize) p

theorem bitmapSize_toNat (k : KernelMemInfo) : k.bitmapSize.toNat = k.physicalLimit.toNat / 32768 := by
  have h : (pageSize * pagesPerByte).toNat = 32768 := rfl
  rw [KernelMemInfo.bitmapSize, UInt64.toNat_div, h]

theorem bitmapSize_congr {k k' : KernelMemInfo} (h : k'.physicalLimit = k.physicalLimit) :
    k'.bitmapSize = k.bitmapSize := by rw [KernelMemInfo.bitmapSize, h, KernelMemInfo.bitmapSize]

theorem clearBitmap_isFree {k : KernelMemInfo} {mem : Memory} {p : Nat}
    (hp : p < k.bitmapPages) : (clearBitmap k mem).isFree p = false := by
  have hlt : p / 8 < k.bitmapSize.toNat := by
    rw [KernelMemInfo.bitmapPages, ← KernelMemInfo.bitmapSize] at hp
    omega
  simp [KernelMemInfo.isFree, BitArray.get, clearBitmap, hlt]

/-- The state after the first two passes and the `memset`, before a bit is set. -/
def placed (k : KernelMemInfo) (mem : Memory) (entries : List LimineMemmapEntry) : KernelMemInfo :=
  let k := entries.foldl scanEntry { k with freeSize := 0, physicalLimit := 0, totalSize := 0 }
  clearBitmap { k with bitmap := placeBitmap k.bitmapSize k.bitmap entries } mem

theorem placed_isFree {k : KernelMemInfo} {mem : Memory} {entries : List LimineMemmapEntry}
    {p : Nat} (hp : p < (placed k mem entries).bitmapPages) :
    (placed k mem entries).isFree p = false := by
  unfold placed at hp ⊢
  exact clearBitmap_isFree hp

/-- The state the third pass leaves. -/
def populated (k : KernelMemInfo) (mem : Memory) (entries : List LimineMemmapEntry) :
    KernelMemInfo :=
  entries.foldl populateEntry (placed k mem entries)

theorem pmInit_eq (k : KernelMemInfo) (mem : Memory) {entries : List LimineMemmapEntry}
    (h : entries ≠ []) :
    pmInit k mem (some entries) =
      some (pmAllocate (populated k mem entries) (virtToPhys (populated k mem entries).bitmap)
        (numPages (populated k mem entries).bitmapSize)).2 := by
  cases entries with
  | nil => exact absurd rfl h
  | cons e rest => rfl

theorem pmInit_scanned {k k' : KernelMemInfo} {mem : Memory} {entries : List LimineMemmapEntry}
    (h : pmInit k mem (some entries) = some k') :
    k'.physicalLimit = (placed k mem entries).physicalLimit ∧
    k'.totalSize = (placed k mem entries).totalSize := by
  have hpop (k : KernelMemInfo) : (entries.foldl populateEntry k).physicalLimit = k.physicalLimit ∧
      (entries.foldl populateEntry k).totalSize = k.totalSize := by
    clear h
    induction entries generalizing k with
    | nil => exact ⟨rfl, rfl⟩
    | cons e rest ih =>
      have hstep : (populateEntry k e).physicalLimit = k.physicalLimit ∧
          (populateEntry k e).totalSize = k.totalSize := by
        unfold populateEntry
        split
        · exact ⟨rfl, rfl⟩
        · split
          · exact ⟨(pmFree_fold _ _).2.1, pmFree_total _ _ _⟩
          · exact ⟨rfl, rfl⟩
      obtain ⟨hlim, htot⟩ := ih (populateEntry k e)
      exact ⟨hlim.trans hstep.1, htot.trans hstep.2⟩
  have hne : entries ≠ [] := by
    rintro rfl
    simp [pmInit] at h
  rw [pmInit_eq k mem hne, Option.some.injEq] at h
  obtain ⟨hlim, htot, _⟩ := pmAllocate_fixed (populated k mem entries)
    (virtToPhys (populated k mem entries).bitmap) (numPages (populated k mem entries).bitmapSize)
  rw [h] at hlim htot
  obtain ⟨hlim', htot'⟩ := hpop (placed k mem entries)
  exact ⟨hlim.trans hlim', htot.trans htot'⟩

theorem pmInit_bitmap {k k' : KernelMemInfo} {mem : Memory} {entries : List LimineMemmapEntry}
    (hal : UsableAligned entries) (h : pmInit k mem (some entries) = some k') :
    k'.bitmap = (placed k mem entries).bitmap := by
  have hne : entries ≠ [] := by
    rintro rfl
    simp [pmInit] at h
  rw [pmInit_eq k mem hne, Option.some.injEq] at h
  have hbitmap := (pmAllocate_fixed (populated k mem entries)
    (virtToPhys (populated k mem entries).bitmap) (numPages (populated k mem entries).bitmapSize)).2.2
  rw [h] at hbitmap
  exact hbitmap.trans (populate_spec hal (placed k mem entries)).2.2

section Spec
variable {entries : List LimineMemmapEntry} (hal : UsableAligned entries) {k : KernelMemInfo}
  {mem : Memory} (hroom : RoomFor entries (placed k mem entries).bitmapSize.toNat)
include hal hroom

theorem populated_bitmap :
    ∃ e ∈ entries, HighUsable e ∧ (populated k mem entries).bitmap = physToVirt e.base ∧
      (∀ p, InRun e.base (numPages (populated k mem entries).bitmapSize) p → InEntry e p) ∧
      e.base.toNat + (numPages (populated k mem entries).bitmapSize).toNat * 4096 ≤ e.endAddr := by
  obtain ⟨_, hlim, hmap⟩ := populate_spec hal (placed k mem entries)
  obtain ⟨e, he, hhigh, hlen, hplace⟩ := placeBitmap_spec
    (entries.foldl scanEntry { k with freeSize := 0, physicalLimit := 0, totalSize := 0 }).bitmap
    hal hroom
  have hpop : (populated k mem entries).bitmapSize = (placed k mem entries).bitmapSize :=
    bitmapSize_congr hlim
  obtain ⟨hbase, hwhole, hend⟩ := hal e he hhigh.1
  have hpages := numPages_toNat (x := (placed k mem entries).bitmapSize) (by
    have hlt := (placed k mem entries).physicalLimit.toNat_lt
    rw [bitmapSize_toNat]
    omega)
  rw [LimineMemmapEntry.endAddr] at hend
  refine ⟨e, he, hhigh, hmap.trans hplace, ?_, ?_⟩ <;> rw [hpop]
  · intro p hp
    simp only [InRun, InEntry, pageOf, LimineMemmapEntry.endAddr] at hp ⊢
    omega
  · rw [LimineMemmapEntry.endAddr]
    omega

/-- The state `pm_init` leaves: the place of the bitmap, and every bit. The bits
    past the bitmap are those memory held there. -/
theorem pmInit_spec :
    ∃ k', pmInit k mem (some entries) = some k' ∧
      (∃ e ∈ entries, HighUsable e ∧ k'.bitmap = physToVirt e.base ∧
        ∀ p, k'.BitmapPage p → InEntry e p) ∧
      (∀ p, k'.isFree p = true ↔
        ((placed k mem entries).isFree p = true ∨ ∃ e ∈ entries, HighUsable e ∧ InEntry e p) ∧
        ¬ k'.BitmapPage p) := by
  obtain ⟨hbits, hlim, _⟩ := populate_spec hal (placed k mem entries)
  obtain ⟨e, he, hhigh, hmap, hin, hroom'⟩ := populated_bitmap hal hroom
  obtain ⟨hl, _, hb⟩ := pmAllocate_fixed (populated k mem entries) e.base
    (numPages (populated k mem entries).bitmapSize)
  have hfits := (hal e he hhigh.1).2.2
  rcases pmAllocate_cases (k := populated k mem entries) (a := e.base)
      (n := numPages (populated k mem entries).bitmapSize) (by omega) with
    ⟨b, hok, _, hbit⟩ | ⟨_, p, hp, hused⟩
  · refine ⟨_, pmInit_eq k mem hroom.ne_nil, ?_⟩
    rw [hmap, virtToPhys_physToVirt]
    have hpage : ∀ p, (pmAllocate (populated k mem entries) e.base
        (numPages (populated k mem entries).bitmapSize)).2.BitmapPage p ↔
        InRun e.base (numPages (populated k mem entries).bitmapSize) p := by
      intro p
      rw [KernelMemInfo.BitmapPage, bitmapSize_congr hl, hb, hmap, virtToPhys_physToVirt]
    refine ⟨⟨e, he, hhigh, hb.trans hmap, fun p hp => hin p ((hpage p).mp hp)⟩, fun p => ?_⟩
    rw [hpage, hok, KernelMemInfo.isFree, hbit, Bool.and_eq_true, populated, hbits,
      Bool.not_eq_true', decide_eq_false_iff_not]
  · have hfree := (hbits p).mpr (Or.inr ⟨e, he, hhigh, hin p hp⟩)
    rw [← populated, hused] at hfree
    cases hfree

end Spec

/-! With no wrapping end, and the limit at a multiple of 32 KiB. -/

theorem placed_limit {entries : List LimineMemmapEntry}
    (hfit : ∀ e ∈ entries, entryTypeCheck e = true → e.endAddr < 2 ^ 64) (k : KernelMemInfo)
    (mem : Memory) : (placed k mem entries).physicalLimit.toNat = highestAddress entries := by
  show (entries.foldl scanEntry _).physicalLimit.toNat = _
  rw [scan_limit hfit]
  simp

section FreeMap
variable {entries : List LimineMemmapEntry} (hal : UsableAligned entries)
  (hfit : ∀ e ∈ entries, entryTypeCheck e = true → e.endAddr < 2 ^ 64)
  (hroom : RoomFor entries (highestAddress entries / 32768))

include hfit hroom in
theorem room_placed (k : KernelMemInfo) (mem : Memory) :
    RoomFor entries (placed k mem entries).bitmapSize.toNat := by
  rw [bitmapSize_toNat, placed_limit hfit]
  exact hroom

include hal hfit hroom

/-- `free_size` counts the free pages below the limit, when the bitmap reaches
    exactly that far. -/
theorem pmInit_accounted (hlim32 : highestAddress entries % 32768 = 0) {k k' : KernelMemInfo}
    {mem : Memory} (h : pmInit k mem (some entries) = some k') :
    Accounted k' (highestAddress entries / 4096) := by
  have hlimit := placed_limit hfit k mem
  have hlt := (placed k mem entries).physicalLimit.toNat_lt
  have hN : highestAddress entries / 4096 < 2 ^ 52 := by omega
  have hpages : (placed k mem entries).bitmapPages = highestAddress entries / 4096 := by
    rw [KernelMemInfo.bitmapPages, ← KernelMemInfo.bitmapSize, bitmapSize_toNat, hlimit]
    omega
  have hcov : ∀ e ∈ entries, e.type = .usable →
      e.endAddr ≤ highestAddress entries / 4096 * 4096 := by
    intro e he hu
    have := endAddr_le_highest he (usable_check hu)
    omega
  have hzero : Accounted (placed k mem entries) (highestAddress entries / 4096) := by
    have hsize : (placed k mem entries).freeSize = 0 := (scan_same _ _).1
    rw [Accounted, hsize, BitArray.count, Finset.card_eq_zero.mpr, UInt64.toNat_zero]
    rw [Finset.filter_eq_empty_iff]
    intro p hp
    rw [Finset.mem_range, ← hpages] at hp
    rw [Bool.not_eq_true]
    exact placed_isFree hp
  obtain ⟨e, he, hhigh, hmap, _, hend⟩ := populated_bitmap hal (room_placed hfit hroom k mem)
  rw [pmInit_eq k mem hroom.ne_nil, Option.some.injEq, hmap, virtToPhys_physToVirt] at h
  rw [← h]
  exact (pmAllocate_accounted hN (populate_accounted hN hal hcov hzero)
    (Nat.le_trans hend (hcov e he hhigh.1))).1

/-- With the limit at a multiple of 32 KiB and no wrapping end, `pm_init` leaves
    exactly the pages of the high usable entries free, less those of the bitmap;
    `free_size`, the limit and the total agree with the map. -/
theorem pm_init_free_map (hlim32 : highestAddress entries % 32768 = 0) (k : KernelMemInfo)
    (mem : Memory) :
    ∃ k', pmInit k mem (some entries) = some k' ∧
      (∀ p < highestAddress entries / 4096, k'.isFree p = true ↔
        (∃ e ∈ entries, HighUsable e ∧ InEntry e p) ∧ ¬ k'.BitmapPage p) ∧
      k'.freeSize.toNat = 4096 * ((Finset.range (highestAddress entries / 4096)).filter (fun p =>
        (∃ e ∈ entries, HighUsable e ∧ InEntry e p) ∧ ¬ k'.BitmapPage p)).card ∧
      (∃ e ∈ entries, HighUsable e ∧ k'.bitmap = physToVirt e.base ∧
        ∀ p, k'.BitmapPage p → InEntry e p) ∧
      k'.physicalLimit.toNat = highestAddress entries ∧
      k'.totalSize.toNat = totalLength entries % 2 ^ 64 := by
  obtain ⟨k', hk', hmap, hbits⟩ := pmInit_spec hal (room_placed hfit hroom k mem)
  have hacc := pmInit_accounted hal hfit hroom hlim32 hk'
  have htot := scan_total entries { k with freeSize := 0, physicalLimit := 0, totalSize := 0 }
  have hfree : ∀ p < highestAddress entries / 4096, k'.isFree p = true ↔
      (∃ e ∈ entries, HighUsable e ∧ InEntry e p) ∧ ¬ k'.BitmapPage p := by
    intro p hp
    have hclear : (placed k mem entries).isFree p = false := by
      apply placed_isFree
      rw [KernelMemInfo.bitmapPages, ← KernelMemInfo.bitmapSize, bitmapSize_toNat,
        placed_limit hfit]
      omega
    rw [hbits, hclear]
    simp
  refine ⟨k', hk', hfree, ?_, hmap, ?_, ?_⟩
  · rw [Accounted] at hacc
    rw [hacc, BitArray.count]
    congr 2
    exact Finset.filter_congr (fun p hp => hfree p (Finset.mem_range.mp hp))
  · rw [(pmInit_scanned hk').1, placed_limit hfit]
  · rw [(pmInit_scanned hk').2]
    rw [UInt64.toNat_zero, Nat.zero_add] at htot
    exact htot

end FreeMap

/-- `static KERNEL_MEM_INFO kmem = {0}`. -/
def kmemZero : KernelMemInfo :=
  { physicalLimit := 0, totalSize := 0, freeSize := 0, bitmap := 0, bytes := fun _ => 0 }

/-- A map of one usable entry: 32 KiB at 1 MiB. -/
def smallMap : List LimineMemmapEntry := [⟨0x100000, 0x8000, .usable⟩]

theorem pm_init_small_map :
    ∃ k', pmInit kmemZero (fun _ => 0) (some smallMap) = some k' ∧
      (∀ p < 264, k'.isFree p = true ↔
        (∃ e ∈ smallMap, HighUsable e ∧ InEntry e p) ∧ ¬ k'.BitmapPage p) ∧
      k'.physicalLimit.toNat = 0x108000 ∧ k'.totalSize.toNat = 0x8000 := by
  obtain ⟨k', hk', hfree, _, _, hlim, htot⟩ := pm_init_free_map
    (show UsableAligned smallMap by unfold UsableAligned; decide) (by decide)
    ⟨⟨0x100000, 0x8000, .usable⟩, by decide, by decide, by decide⟩ (by decide) kmemZero
    (fun _ => 0)
  exact ⟨k', hk', hfree, hlim, htot⟩

/-- A map whose last entry ends at `2^64`: the end the first pass computes is 0. -/
def wrapMap : List LimineMemmapEntry :=
  [⟨0x100000, 0x2000000000000, .usable⟩, ⟨0xFFFFFFFFFFFFF000, 0x1000, .bootloaderReclaimable⟩]

/-- Aligned, disjoint entries with room for the bitmap do not suffice: the limit
    misses an end that wraps. -/
theorem pm_init_limit_wraps :
    UsableAligned wrapMap ∧
    wrapMap.Pairwise (fun e f => e.endAddr ≤ f.base.toNat) ∧
    highestAddress wrapMap % 32768 = 0 ∧
    RoomFor wrapMap (highestAddress wrapMap / 32768) ∧
    ∃ k', pmInit kmemZero (fun _ => 0) (some wrapMap) = some k' ∧
      k'.physicalLimit.toNat ≠ highestAddress wrapMap := by
  refine ⟨by unfold UsableAligned; decide, by decide, by decide,
    ⟨⟨0x100000, 0x2000000000000, .usable⟩, by decide, by decide, by decide⟩,
    _, pmInit_eq kmemZero (fun _ => 0) (by decide), ?_⟩
  rw [(pmInit_scanned (pmInit_eq kmemZero (fun _ => 0) (by decide))).1]
  decide

end Horizon64
