import Horizon64.Lib.Folds
import Horizon64.PmInit

/- The bitmap bytes that `pm_init` reads and writes.

   `kmem.bitmap[j]` is touched by the `memset` (`j < bitmap_size`), by `pm_free` of
   every usable entry above 1 MiB, and by the `pm_allocate` of the bitmap's own pages.
   `bitmap_size` rounds the limit down to 32 KiB, and the loop that places the bitmap
   may end without having chosen an entry.

   1. The touched bytes, function by function.
   2. Which bytes they are, for aligned entries.
   3. `pm_init_bytes_iff`: when `pm_init` stays inside the entry it chose. -/
namespace Horizon64
open Words Bytes

/-! Touched bytes. -/

/-- The bytes `bitmap_free` reads: those up to the first page that is used. -/
def readBytes (k : KernelMemInfo) : List UInt64 → List Nat
  | [] => []
  | i :: rest =>
    byteIndex i :: if k.bytes (byteIndex i) &&& bitMask i != 0 then readBytes k rest else []

def bitmapFreeBytes (k : KernelMemInfo) (address n : UInt64) : List Nat :=
  readBytes k (pages address (address + n * pageSize))

def bitmapSetBytes (address n : UInt64) : List Nat :=
  (pages address (address + n * pageSize)).map byteIndex

/-- One round of `pm_free`: the test, and the byte that is written. -/
def pmFreePageBytes (r : Status × KernelMemInfo) (i : UInt64) : List Nat :=
  bitmapFreeBytes r.2 i 1 ++ [byteIndex i]

def pmFreeBytes (k : KernelMemInfo) (address n : UInt64) : List Nat :=
  Folds.trace pmFreePage pmFreePageBytes (.sysOk, k) (pages address (address + n * pageSize))

def pmAllocateBytes (k : KernelMemInfo) (address n : UInt64) : List Nat :=
  bitmapFreeBytes k address n ++
    if bitmapFree k address n = .free then bitmapSetBytes address n else []

def populateBytes (k : KernelMemInfo) (e : LimineMemmapEntry) : List Nat :=
  if e.base + e.length ≤ 0x100000 then []
  else if e.type = .usable then pmFreeBytes k e.base (numPages e.length)
  else []

/-- The indices of the bitmap bytes that `pm_init` touches, in order. -/
def pmInitBytes (k : KernelMemInfo) (mem : Memory) (res : Option (List LimineMemmapEntry)) :
    List Nat :=
  match res with
  | none => []
  | some [] => []
  | some entries =>
    let start := placed k mem entries
    let filled := populated k mem entries
    List.range start.bitmapSize.toNat ++ Folds.trace populateEntry populateBytes start entries ++
      pmAllocateBytes filled (virtToPhys filled.bitmap) (numPages filled.bitmapSize)

/-- The entry that the second pass chooses for the bitmap. -/
def chosenEntry (size : UInt64) (entries : List LimineMemmapEntry) : Option LimineMemmapEntry :=
  entries.find? fun e => ¬ e.base + e.length ≤ 0x100000 ∧ e.length ≥ size ∧ e.type = .usable

theorem placeBitmap_chosen (size bitmap : UInt64) (entries : List LimineMemmapEntry) :
    placeBitmap size bitmap entries =
      match chosenEntry size entries with
      | none => bitmap
      | some e => physToVirt e.base := by
  induction entries with
  | nil => rfl
  | cons e rest ih =>
    rw [placeBitmap, chosenEntry]
    by_cases hlow : e.base + e.length ≤ 0x100000
    · rw [if_pos hlow, List.find?_cons_of_neg (by simp [hlow])]
      exact ih
    · by_cases hfit : e.length ≥ size ∧ e.type = .usable
      · rw [if_neg hlow, if_pos hfit, List.find?_cons_of_pos (by simp [hlow, hfit])]
      · rw [if_neg hlow, if_neg hfit, List.find?_cons_of_neg (by simp [hlow, hfit])]
        exact ih

/-! Which bytes they are. -/

theorem readBytes_sub {k : KernelMemInfo} {l : List UInt64} {j : Nat} (h : j ∈ readBytes k l) :
    ∃ i ∈ l, byteIndex i = j := by
  induction l with
  | nil => simp [readBytes] at h
  | cons i l ih =>
    rw [readBytes, List.mem_cons] at h
    rcases h with rfl | h
    · exact ⟨i, List.mem_cons_self, rfl⟩
    · split at h
      · obtain ⟨i', hi', hj⟩ := ih h
        exact ⟨i', List.mem_cons_of_mem i hi', hj⟩
      · simp at h

theorem pages_one {i j : UInt64} (h : j ∈ pages i (i + 1 * pageSize)) : j = i := by
  have hone : (1 : UInt64).toNat = 1 := rfl
  by_cases hroom : i.toNat + (1 : UInt64).toNat * 4096 < 2 ^ 64
  · rw [pages_run hroom, hone] at h
    simpa using h
  · rw [pages_wrap] at h
    · simp at h
    · have hmul : (1 * pageSize : UInt64).toNat = 4096 := rfl
      have hlt := i.toNat_lt
      rw [UInt64.toNat_add, hmul]
      omega

theorem pmFreePageBytes_iff (r : Status × KernelMemInfo) (i : UInt64) (j : Nat) :
    j ∈ pmFreePageBytes r i ↔ byteIndex i = j := by
  rw [pmFreePageBytes, List.mem_append, List.mem_singleton]
  constructor
  · intro h
    rcases h with h | h
    · obtain ⟨i', hi', hj⟩ := readBytes_sub h
      rw [← pages_one hi']
      exact hj
    · exact h.symm
  · exact fun h => Or.inr h.symm

theorem pmFreeBytes_iff (k : KernelMemInfo) (a n : UInt64) (j : Nat) :
    j ∈ pmFreeBytes k a n ↔ ∃ i ∈ pages a (a + n * pageSize), byteIndex i = j :=
  Folds.mem_trace (fun r i _ j => pmFreePageBytes_iff r i j) _ j

theorem pmAllocateBytes_sub {k : KernelMemInfo} {a n : UInt64} {j : Nat}
    (h : j ∈ pmAllocateBytes k a n) : ∃ i ∈ pages a (a + n * pageSize), byteIndex i = j := by
  rw [pmAllocateBytes, List.mem_append] at h
  rcases h with h | h
  · exact readBytes_sub h
  · split at h
    · exact List.mem_map.mp h
    · simp at h

/-- What Limine says of usable entries: whole pages of the 64-bit address space. -/
def WholePages (entries : List LimineMemmapEntry) : Prop :=
  ∀ e ∈ entries, e.type = .usable →
    e.base.toNat % 4096 = 0 ∧ e.length.toNat % 4096 = 0 ∧ e.endAddr ≤ 2 ^ 64

/-- The entries that the second and the third pass look at. -/
def Considered (e : LimineMemmapEntry) : Prop := HighUsable e ∧ e.endAddr < 2 ^ 64

theorem considered_iff {e : LimineMemmapEntry} (h : e.endAddr ≤ 2 ^ 64) :
    ¬ e.base + e.length ≤ 0x100000 ∧ e.type = .usable ↔ Considered e := by
  have hmib : (0x100000 : UInt64).toNat = 0x100000 := rfl
  have hsum : (e.base + e.length).toNat = (e.base.toNat + e.length.toNat) % 2 ^ 64 :=
    UInt64.toNat_add _ _
  have hend : e.endAddr = e.base.toNat + e.length.toNat := rfl
  rw [Considered, HighUsable, UInt64.le_iff_toNat_le, hmib, hsum]
  constructor
  · intro h
    obtain ⟨hhigh, hu⟩ := h
    exact ⟨⟨hu, by omega⟩, by omega⟩
  · intro h
    obtain ⟨⟨hu, hhigh⟩, hlt⟩ := h
    exact ⟨by omega, hu⟩

theorem populateBytes_iff {e : LimineMemmapEntry}
    (hal : e.type = .usable →
      e.base.toNat % 4096 = 0 ∧ e.length.toNat % 4096 = 0 ∧ e.endAddr ≤ 2 ^ 64)
    (k : KernelMemInfo) (j : Nat) :
    j ∈ populateBytes k e ↔ Considered e ∧ ∃ p, InEntry e p ∧ p / 8 = j := by
  by_cases hu : e.type = .usable
  · obtain ⟨hbase, hlen, hend⟩ := hal hu
    have hiff := considered_iff hend
    by_cases hlow : e.base + e.length ≤ 0x100000
    · have hno : ¬ Considered e := fun h => (hiff.mpr h).1 hlow
      simp [populateBytes, hlow, hno]
    · have hcons : Considered e := hiff.mp ⟨hlow, hu⟩
      obtain ⟨hsum, hrun⟩ := usable_run ⟨hbase, hlen, hcons.2⟩
      have hroom : e.base.toNat + (numPages e.length).toNat * 4096 < 2 ^ 64 := by
        rw [hsum]
        exact hcons.2
      rw [populateBytes, if_neg hlow, if_pos hu, pmFreeBytes_iff, and_iff_right hcons]
      constructor
      · intro h
        obtain ⟨i, hi, hj⟩ := h
        refine ⟨pageOf i, (hrun _).mp ((mem_run_pages hroom _).mp ⟨i, hi, rfl⟩), ?_⟩
        rw [← byteIndex_eq, hj]
      · intro h
        obtain ⟨p, hp, hj⟩ := h
        obtain ⟨i, hi, hpage⟩ := (mem_run_pages hroom p).mpr ((hrun p).mpr hp)
        exact ⟨i, hi, by rw [byteIndex_eq, hpage, hj]⟩
  · have hno : ¬ Considered e := fun h => hu h.1.1
    simp [populateBytes, hu, hno]

theorem chosenEntry_some {size : UInt64} {entries : List LimineMemmapEntry}
    (hal : WholePages entries) {e : LimineMemmapEntry} (h : chosenEntry size entries = some e) :
    e ∈ entries ∧ Considered e ∧ size.toNat ≤ e.length.toNat := by
  have hmem := List.mem_of_find?_eq_some h
  have htest := List.find?_some h
  simp only [decide_eq_true_eq] at htest
  exact ⟨hmem, (considered_iff (hal e hmem htest.2.2).2.2).mp ⟨htest.1, htest.2.2⟩,
    UInt64.le_iff_toNat_le.mp htest.2.1⟩

theorem chosenEntry_isSome {size : UInt64} {entries : List LimineMemmapEntry}
    {e : LimineMemmapEntry} (he : e ∈ entries) (hcons : Considered e)
    (hsize : size.toNat ≤ e.length.toNat) : ∃ e', chosenEntry size entries = some e' := by
  obtain ⟨hhigh, hu⟩ := (considered_iff (Nat.le_of_lt hcons.2)).mpr hcons
  apply Option.isSome_iff_exists.mp
  rw [chosenEntry, List.find?_isSome]
  exact ⟨e, he, decide_eq_true ⟨hhigh, UInt64.le_iff_toNat_le.mpr hsize, hu⟩⟩

theorem populate_same (entries : List LimineMemmapEntry) (k : KernelMemInfo) :
    (entries.foldl populateEntry k).physicalLimit = k.physicalLimit ∧
    (entries.foldl populateEntry k).bitmap = k.bitmap := by
  induction entries generalizing k with
  | nil => exact ⟨rfl, rfl⟩
  | cons e rest ih =>
    have hstep : (populateEntry k e).physicalLimit = k.physicalLimit ∧
        (populateEntry k e).bitmap = k.bitmap := by
      unfold populateEntry
      split
      · exact ⟨rfl, rfl⟩
      · split
        · exact (pmFree_fold _ _).2
        · exact ⟨rfl, rfl⟩
    obtain ⟨hlim, hmap⟩ := ih (populateEntry k e)
    exact ⟨hlim.trans hstep.1, hmap.trans hstep.2⟩

section Bytes
variable {entries : List LimineMemmapEntry} (k : KernelMemInfo) (mem : Memory)

/-- `bitmap_size` in a run of `pm_init`. -/
def initSize (k : KernelMemInfo) (mem : Memory) (entries : List LimineMemmapEntry) : UInt64 :=
  (placed k mem entries).bitmapSize

theorem populated_size : (populated k mem entries).bitmapSize = initSize k mem entries :=
  bitmapSize_congr (populate_same entries _).1

theorem populated_place :
    (populated k mem entries).bitmap =
      match chosenEntry (initSize k mem entries) entries with
      | none => k.bitmap
      | some e => physToVirt e.base := by
  have hplace : (placed k mem entries).bitmap =
      placeBitmap (initSize k mem entries) k.bitmap entries := by
    have hbitmap := (scan_same entries { k with freeSize := 0, physicalLimit := 0, totalSize := 0 }).2
    simp only [placed, initSize, clearBitmap, KernelMemInfo.bitmapSize]
    rw [hbitmap]
  rw [populated, (populate_same entries _).2, hplace, placeBitmap_chosen]

theorem mem_pmInitBytes (hne : entries ≠ []) (hal : WholePages entries) (j : Nat) :
    j ∈ pmInitBytes k mem (some entries) ↔
      j < (initSize k mem entries).toNat ∨
      (∃ e ∈ entries, Considered e ∧ ∃ p, InEntry e p ∧ p / 8 = j) ∨
      j ∈ pmAllocateBytes (populated k mem entries) (virtToPhys (populated k mem entries).bitmap)
        (numPages (populated k mem entries).bitmapSize) := by
  have htrace : j ∈ Folds.trace populateEntry populateBytes (placed k mem entries) entries ↔
      ∃ e ∈ entries, Considered e ∧ ∃ p, InEntry e p ∧ p / 8 = j :=
    Folds.mem_trace (fun s e he j => populateBytes_iff (hal e he) s j) _ j
  cases entries with
  | nil => exact absurd rfl hne
  | cons e rest =>
    rw [pmInitBytes, List.mem_append, List.mem_append, List.mem_range, htrace, or_assoc]
    · rfl
    · exact hne

/-- The pages of the bitmap lie in the entry that was chosen; with no byte to hold,
    there are none. -/
theorem pmAllocateBytes_chosen (hal : WholePages entries) {j : Nat}
    (hj : j ∈ pmAllocateBytes (populated k mem entries)
      (virtToPhys (populated k mem entries).bitmap)
      (numPages (populated k mem entries).bitmapSize)) :
    0 < (initSize k mem entries).toNat ∧
    ∀ e, chosenEntry (initSize k mem entries) entries = some e →
      ∃ p, InEntry e p ∧ p / 8 = j := by
  have hsize := bitmapSize_toNat (placed k mem entries)
  have hlim := (placed k mem entries).physicalLimit.toNat_lt
  have hn : (numPages (initSize k mem entries)).toNat =
      ((initSize k mem entries).toNat + 4095) / 4096 := by
    apply numPages_toNat
    rw [initSize, hsize]
    omega
  rw [populated_size] at hj
  obtain ⟨i, hi, hbyte⟩ := pmAllocateBytes_sub hj
  constructor
  · by_contra hzero
    have hnone : numPages (initSize k mem entries) = 0 := by
      apply UInt64.toNat_inj.mp
      rw [hn, UInt64.toNat_zero]
      omega
    rw [hnone, UInt64.zero_mul, UInt64.add_zero, pages,
      loopValues_empty _ _ (UInt64.le_refl _)] at hi
    simp at hi
  · intro e he
    obtain ⟨hmem, hcons, hfit⟩ := chosenEntry_some hal he
    obtain ⟨hbase, hlen, _⟩ := hal e hmem hcons.1.1
    have hend : e.endAddr = e.base.toNat + e.length.toNat := rfl
    have hlt := hcons.2
    have hroom : e.base.toNat + (numPages (initSize k mem entries)).toNat * 4096 ≤ e.endAddr := by
      rw [hn, hend]
      omega
    have hplace := @populated_place entries k mem
    rw [he] at hplace
    rw [hplace, virtToPhys_physToVirt] at hi
    have hrun := (mem_run_pages (Nat.lt_of_le_of_lt hroom hlt) (pageOf i)).mp ⟨i, hi, rfl⟩
    refine ⟨pageOf i, ?_, by rw [← byteIndex_eq, hbyte]⟩
    obtain ⟨hlo, hhi⟩ := hrun
    simp only [InEntry]
    have hpage : pageOf e.base = e.base.toNat / 4096 := rfl
    omega

end Bytes

/-! Staying inside. -/

/-- When every page that is considered has its bit in the bitmap, no byte past it is touched. -/
theorem pmInitBytes_lt {entries : List LimineMemmapEntry} (hal : WholePages entries)
    {k : KernelMemInfo} {mem : Memory} (hne : entries ≠ [])
    (hroom : ∃ e ∈ entries, HighUsable e ∧ (initSize k mem entries).toNat ≤ e.length.toNat ∧
      ((initSize k mem entries).toNat = 0 ∨ e.endAddr < 2 ^ 64))
    (hends : ∀ e ∈ entries, Considered e → 0 < e.length.toNat →
      e.endAddr ≤ 32768 * (initSize k mem entries).toNat) {j : Nat}
    (hj : j ∈ pmInitBytes k mem (some entries)) : j < (initSize k mem entries).toNat := by
  have hcover : ∀ e ∈ entries, Considered e → ∀ p, InEntry e p →
      p / 8 < (initSize k mem entries).toNat := by
    intro e he hcons p hp
    have hend : e.endAddr = e.base.toNat + e.length.toNat := rfl
    simp only [InEntry] at hp
    have hle := hends e he hcons (by omega)
    omega
  rcases (mem_pmInitBytes k mem hne hal j).mp hj with h | ⟨e, he, hcons, p, hp, rfl⟩ | h
  · exact h
  · exact hcover e he hcons p hp
  · -- the pages of the bitmap are in an entry, too
    obtain ⟨hpos, hchosen⟩ := pmAllocateBytes_chosen k mem hal h
    obtain ⟨e, he, hhigh, hfit, hor⟩ := hroom
    have hcons : Considered e := ⟨hhigh, hor.resolve_left (Nat.ne_of_gt hpos)⟩
    obtain ⟨f, hf⟩ := chosenEntry_isSome he hcons hfit
    obtain ⟨p, hp, rfl⟩ := hchosen f hf
    obtain ⟨hmem, hconsf, _⟩ := chosenEntry_some hal hf
    exact hcover f hmem hconsf p hp

/-- Byte `j` is one of the `bitmap_size`, and lies in the entry that was chosen. -/
def InsideChosen (k : KernelMemInfo) (mem : Memory) (entries : List LimineMemmapEntry)
    (j : Nat) : Prop :=
  j < (initSize k mem entries).toNat ∧
    ∃ e, chosenEntry (initSize k mem entries) entries = some e ∧ j < e.length.toNat

/-- `pm_init` touches the bytes of its bitmap only, and halts when no usable entry
    above 1 MiB can hold it, exactly when the map is empty, or some such entry can
    and every other ends where the bitmap's pages end. -/
theorem pm_init_bytes_iff {entries : List LimineMemmapEntry} (hal : WholePages entries)
    (k : KernelMemInfo) (mem : Memory) :
    ((∀ j ∈ pmInitBytes k mem (some entries), InsideChosen k mem entries j) ∧
      (¬ RoomFor entries (initSize k mem entries).toNat →
        pmInit k mem (some entries) = none ∧ pmInitBytes k mem (some entries) = [])) ↔
    entries = [] ∨
      ((∃ e ∈ entries, HighUsable e ∧ (initSize k mem entries).toNat ≤ e.length.toNat ∧
          ((initSize k mem entries).toNat = 0 ∨ e.endAddr < 2 ^ 64)) ∧
        ∀ e ∈ entries, Considered e → 0 < e.length.toNat →
          e.endAddr ≤ 32768 * (initSize k mem entries).toNat) := by
  by_cases hne : entries = []
  · subst hne
    simp [pmInitBytes, pmInit]
  have hbytes := mem_pmInitBytes k mem hne hal
  rw [or_iff_right hne]
  constructor
  · intro h
    obtain ⟨hinside, hhalt⟩ := h
    have hroom : RoomFor entries (initSize k mem entries).toNat := by
      by_contra hno
      have hnone := (hhalt hno).1
      rw [pmInit_eq k mem hne] at hnone
      cases hnone
    constructor
    · by_cases hzero : (initSize k mem entries).toNat = 0
      · obtain ⟨e, he, hhigh, hfit⟩ := hroom
        exact ⟨e, he, hhigh, hfit, Or.inl hzero⟩
      · -- the `memset` writes byte 0, so an entry was chosen
        obtain ⟨_, e, he, _⟩ := hinside 0 ((hbytes 0).mpr (Or.inl (Nat.pos_of_ne_zero hzero)))
        obtain ⟨hmem, hcons, hfit⟩ := chosenEntry_some hal he
        exact ⟨e, hmem, hcons.1, hfit, Or.inr hcons.2⟩
    · intro e he hcons hpos
      obtain ⟨hbase, hlen, _⟩ := hal e he hcons.1.1
      have hend : e.endAddr = e.base.toNat + e.length.toNat := rfl
      -- the last page of the entry
      have hlast : InEntry e (e.endAddr / 4096 - 1) := by
        rw [InEntry]
        omega
      have hlt := (hinside _ ((hbytes _).mpr (Or.inr (Or.inl ⟨e, he, hcons, _, hlast, rfl⟩)))).1
      omega
  · intro h
    obtain ⟨hroom, hends⟩ := h
    constructor
    · intro j hj
      have hlt := pmInitBytes_lt hal hne hroom hends hj
      obtain ⟨e, he, hhigh, hfit, hor⟩ := hroom
      have hcons : Considered e := ⟨hhigh, hor.resolve_left (by omega)⟩
      obtain ⟨f, hf⟩ := chosenEntry_isSome he hcons hfit
      exact ⟨hlt, f, hf, Nat.lt_of_lt_of_le hlt (chosenEntry_some hal hf).2.2⟩
    · intro hno
      obtain ⟨e, he, hhigh, hfit, _⟩ := hroom
      exact absurd ⟨e, he, hhigh, hfit⟩ hno

/-- 36 KiB at 1 MiB: the bitmap has 33 bytes, for the pages below `0x108000`. -/
def oddMap : List LimineMemmapEntry := [⟨0x100000, 0x9000, .usable⟩]

theorem pm_init_bytes_small_map :
    (∀ j ∈ pmInitBytes kmemZero (fun _ => 0) (some smallMap),
      InsideChosen kmemZero (fun _ => 0) smallMap j) ∧
    (¬ RoomFor smallMap (initSize kmemZero (fun _ => 0) smallMap).toNat →
      pmInit kmemZero (fun _ => 0) (some smallMap) = none ∧
        pmInitBytes kmemZero (fun _ => 0) (some smallMap) = []) := by
  refine (pm_init_bytes_iff (show WholePages smallMap by unfold WholePages; decide)
    kmemZero fun _ => 0).mpr (Or.inr ⟨⟨⟨0x100000, 0x8000, .usable⟩, ?_⟩, ?_⟩)
  · decide +kernel
  · unfold Considered
    decide +kernel

/-- The last page of the entry has its bit in the byte after the bitmap. -/
theorem pm_init_byte_past_bitmap :
    33 ∈ pmInitBytes kmemZero (fun _ => 0) (some oddMap) ∧
      ¬ InsideChosen kmemZero (fun _ => 0) oddMap 33 := by
  refine ⟨by decide +kernel, fun h => ?_⟩
  have hsize : (initSize kmemZero (fun _ => 0) oddMap).toNat = 33 := by decide +kernel
  have hlt := h.1
  omega

end Horizon64
