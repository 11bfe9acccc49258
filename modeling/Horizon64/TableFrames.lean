import Horizon64.RamSpaces
import Horizon64.RamHeap

/- Who owns the frames of the tables.

   With `memory_list` a list, every run from a guarded state keeps it the list of the tables
   that the PML4 leads to, each of 8 used pages of its own (`memory_list_owns`). The state
   that `pm_init` leaves need not be guarded: the byte behind the bitmap may be the first of a
   page table, where the bits of the last pages are an entry (`table_entry_lost`).

   1. Runs.
   2. A run on memory with such a byte. -/
namespace Horizon64
open Words Bytes Isolation

/-! Runs. -/

section Runs
variable {c : Ram} {as : Space (List UInt64)} {l : List UInt64}

theorem guarded_list : (listKeeper : Keeper UInt64 (List UInt64)).guarded = listKeeper := rfl

theorem guarded_list_laws : (listKeeper : Keeper UInt64 (List UInt64)).guarded.Laws noPage :=
  guarded_list ▸ listKeeper_laws

theorem list_erasesInside (h : Stands noPage c as l) (v n : UInt64) :
    c.ErasesInside listKeeper as v n := by
  obtain ⟨s, k₀, rfl, h⟩ := h
  exact (unmapPages_ram guarded_list_laws.toErases (E := True) (fun _ _ _ _ _ _ _ => rfl) h v
    n).returns trivial

/-- After every run, `memory_list` names the tables below the PML4, each once; each is 8 used
    pages, no two share a page, and `vm_unmap` never halts. -/
theorem memory_list_owns {c₀ : Ram} {as₀ : Space (List UInt64)} {r : Ram × Space (List UInt64)}
    (hblank : c₀.Blank as₀) (hlist : as₀.memoryList = [])
    (hrun : Relation.ReflTransGen (SpaceStep listKeeper) (c₀, as₀) r) :
    ListsTables r.1.mem r.1.load.Used ⟨r.2.pml4, r.2.memoryList⟩ ∧
      ∀ v n, r.1.ErasesInside listKeeper r.2 v n ∧
        (r.1.unmapPages listKeeper r.2 v n).isSome := by
  obtain ⟨l, hstands⟩ := spaceRun_stands guarded_list_laws (r := (c₀, as₀))
    (hblank.stands (R := noPage) hlist fun _ hp => hp) hrun
  obtain ⟨k, hpaged, hused⟩ := hstands.paged
  have hshown : r.2.memoryList = l := by
    obtain ⟨s, k₀, -, -, ⟨-, hshown, -⟩, -⟩ := hstands
    exact hshown
  refine ⟨hshown ▸ hpaged.listsTables hused, fun v n => ?_⟩
  have hinside := list_erasesInside hstands v n
  exact ⟨hinside, hinside⟩

/-- Two pages of one region, in an empty space. -/
theorem memory_list_owns_two :
    ∃ r, fencedMachine.ram.mapPages listKeeper ⟨physToVirt 0, []⟩ 0x400000 0x10000 2 vmDefault =
        some r ∧
      ListsTables r.1.mem r.1.load.Used ⟨r.2.pml4, r.2.memoryList⟩ ∧
      ∀ v n, r.1.ErasesInside listKeeper r.2 v n ∧
        (r.1.unmapPages listKeeper r.2 v n).isSome := by
  have hblank : fencedMachine.ram.Blank (⟨physToVirt 0, []⟩ : Space (List UInt64)) := blank_fenced []
  have hpages : pages 0 (2 * pageSize) = [0, 0x1000] := by decide +kernel
  have hregion : ∀ i ∈ pages 0 (2 * pageSize), regionNum (0x400000 + i) = regionNum 0x400000 := by
    rw [hpages]
    intro i hi
    rcases List.mem_pair.mp hi with rfl | rfl
    · decide
    · decide
  obtain ⟨r, hr, -, -⟩ := (hblank.stands (R := noPage) rfl fun _ hp => hp).map_returns
    guarded_list_laws (guarded_list ▸ listKeeper_takes) 0x10000 vmDefault hregion (j := 0) (n := 0) trivial
    (((stock_ram fencedMachine).mpr fencedPages_stock).mono (by decide))
  exact ⟨r, hr, memory_list_owns hblank rfl (.single (.map _ _ _ _ hr))⟩

end Runs

/-! A limit of 4 KiB past 128 MiB: the bitmap fills the page at 1 MiB, and the byte behind it has
    the bit of the last page. -/

def lastPageMap : List LimineMemmapEntry :=
  [⟨0x100000, 0x9000, .usable⟩, ⟨0x200000, 0x9000, .usable⟩, ⟨0x300000, 0x8000, .usable⟩,
    ⟨0x7FF9000, 0x8000, .usable⟩]

theorem lastPageMap_fields : ((ramZero.pmInit (some lastPageMap)).map fun c =>
    (c.kmem.physicalLimit, c.kmem.bitmap)) = some (0x8001000, physToVirt 0x100000) := by
  decide +kernel

theorem lastPageMap_free {c₀ : Ram} (h : ramZero.pmInit (some lastPageMap) = some c₀) {p : Nat}
    (hp : p < 2 ^ 64) : c₀.load.isFree p = true ↔ (0x101 ≤ p ∧ p < 0x109) ∨
      (0x200 ≤ p ∧ p < 0x209) ∨ (0x300 ≤ p ∧ p < 0x308) ∨ (0x7FF9 ≤ p ∧ p < 0x8001) := by
  have hfields := lastPageMap_fields
  rw [h, Option.map_some, Option.some.injEq, Prod.mk.injEq] at hfields
  have hlim : c₀.load.physicalLimit = 0x8001000 := hfields.1
  have hsize : c₀.load.bitmapSize = 4096 := by
    rw [KernelMemInfo.bitmapSize, hlim]
    decide
  have hal : UsableAligned lastPageMap := by unfold UsableAligned; decide
  have hhigh : ∀ e ∈ lastPageMap, HighUsable e := by unfold HighUsable; decide
  have hin : (∃ e ∈ lastPageMap, InEntry e p) ↔ (0x100000 ≤ 4096 * p ∧ 4096 * p + 4096 ≤ 0x109000) ∨
      (0x200000 ≤ 4096 * p ∧ 4096 * p + 4096 ≤ 0x209000) ∨
      (0x300000 ≤ 4096 * p ∧ 4096 * p + 4096 ≤ 0x308000) ∨
      (0x7FF9000 ≤ 4096 * p ∧ 4096 * p + 4096 ≤ 0x8001000) := by
    rw [lastPageMap, List.exists_mem_cons_iff, List.exists_mem_cons_iff, List.exists_mem_cons_iff,
      List.exists_mem_cons_iff]
    simp only [List.not_mem_nil, false_and, exists_false, or_false]
    exact Iff.rfl
  have hsame : (∃ e ∈ lastPageMap, HighUsable e ∧ InEntry e p) ↔ ∃ e ∈ lastPageMap, InEntry e p :=
    exists_congr fun e => and_congr_right fun he => and_iff_right (hhigh e he)
  rw [pmInit_onePage hal h hfields.2 (by rw [hsize]; decide)
    (by rw [hsize]; exact ⟨⟨0x100000, 0x9000, .usable⟩, by decide, by decide, by decide⟩) hp, hsame,
    hin, show pageOf 0x100000 = 256 by decide]
  omega

/-- The address `y` bytes above 1 MiB. -/
def aboveMib (y : Nat) : UInt64 := physToVirt 0x100000 + UInt64.ofNat y

theorem aboveMib_sub {y z : Nat} (hy : y < 2 ^ 40) (hz : z < 2 ^ 40) :
    (aboveMib y - aboveMib z).toNat = (2 ^ 64 + y - z) % 2 ^ 64 := by
  have hsub : aboveMib y - aboveMib z = UInt64.ofNat y - UInt64.ofNat z := by
    simp only [aboveMib]
    grind
  rw [hsub, UInt64.toNat_sub, toNat_ofNat_of_lt (by omega), toNat_ofNat_of_lt (by omega)]
  omega

theorem aboveMib_add (y z : Nat) : aboveMib y + UInt64.ofNat z = aboveMib (y + z) := by
  rw [aboveMib, aboveMib, UInt64.add_assoc, ← UInt64.ofNat_add]

theorem aboveMib_page (r : Nat) :
    physToVirt (UInt64.ofNat (4096 * (256 + r))) = aboveMib (4096 * r) := by
  have hbase : UInt64.ofNat (4096 * 256) = 0x100000 := rfl
  rw [Nat.mul_add, UInt64.ofNat_add, hbase, aboveMib]
  simp only [physToVirt]
  grind

theorem aboveMib_word {m m' : Memory} {z : Nat}
    (h : ∀ y, z ≤ y → y < z + 8 → m' (aboveMib y) = m (aboveMib y)) :
    load64 m' (aboveMib z) = load64 m (aboveMib z) := by
  refine load64_congr fun x hx => ?_
  have hlt := UInt64.lt_iff_toNat_lt.mp hx
  have height : (8 : UInt64).toNat = 8 := rfl
  have hsplit : x = aboveMib (z + (x - aboveMib z).toNat) := by
    rw [← aboveMib_add, UInt64.ofNat_toNat, add_sub_back]
  rw [hsplit]
  exact h _ (by omega) (by omega)

/-! What making a table does, in these addresses. -/

section Table
variable {c : Ram} {k : KernelMemInfo} {q r w y : Nat} {e : UInt64}

/-- The frame of page `q`. -/
abbrev frame (q : Nat) : UInt64 := UInt64.ofNat (4096 * q)

theorem nextTable_first {σ : Type} (K : Keeper UInt64 σ) (as : Space σ) {table : UInt64} {i : Nat}
    (line : UInt64)
    (hnot : checkNotPresent (tableEntry c.mem table i) = true) (hpos : 0 < q)
    (hlim : c.load.physicalLimit.toNat + 8 * 4096 < 2 ^ 64)
    (hq : 4096 * q < c.load.physicalLimit.toNat)
    (hfree : ∀ p, q ≤ p → p < q + 8 → c.load.isFree p = true)
    (hbefore : ∀ a < q, ∃ p, a ≤ p ∧ p < a + 8 ∧ c.load.isFree p = false) :
    ∃ k : KernelMemInfo, k.physicalLimit = c.load.physicalLimit ∧ k.bitmap = c.load.bitmap ∧
      (∀ p, k.isFree p = (c.load.isFree p && !decide (q ≤ p ∧ p < q + 8))) ∧
      c.nextTable K as table i line = (K.append ⟨k.store.kmem, setTableEntry (memset
        k.store.mem (physToVirt (frame q)) 0 (pageSize * defaultPages)) table i
          (makeTableEntry (frame q) vmUsermode)⟩ as.memoryList (frame q) line).map fun (c, l) =>
        (c, ⟨as.pml4, l⟩, physToVirt (frame q)) := by
  have height : defaultPages.toNat = 8 := rfl
  obtain ⟨k, hget, hlimit, hbitmap, hbits⟩ := @pmGet_first c.load defaultPages q (by decide)
    (by rw [height]; exact hlim) hq (by rw [height]; exact hfree) (by rw [height]; exact hbefore)
  have hnonzero : frame q ≠ 0 := by
    intro hz
    have hnat := congrArg UInt64.toNat hz
    rw [toNat_ofNat_of_lt (by omega), UInt64.toNat_zero] at hnat
    omega
  refine ⟨k, hlimit, hbitmap, hbits, ?_⟩
  simp only [Ram.nextTable, hnot, if_true, Ram.pmGet, hget, Option.map_some, if_neg hnonzero,
    virtToPhys_physToVirt]

theorem table_off (m : Memory) (hy : y < 2 ^ 40) (hw : w < 2 ^ 40) (hr : r < 2 ^ 28)
    (hentry : ¬ (w ≤ y ∧ y < w + 8)) (htable : ¬ (4096 * r ≤ y ∧ y < 4096 * (r + 8))) :
    store64 (memset m (aboveMib (4096 * r)) 0 (pageSize * defaultPages)) (aboveMib w) e
      (aboveMib y) = m (aboveMib y) := by
  have hsize : (pageSize * defaultPages).toNat = 32768 := rfl
  have height : (8 : UInt64).toNat = 8 := rfl
  rw [store64_off, memset_apply, if_neg]
  · rw [UInt64.lt_iff_toNat_lt, aboveMib_sub hy (by omega), hsize]
    omega
  · rw [UInt64.lt_iff_toNat_lt, aboveMib_sub hy hw, height]
    omega

theorem table_zero (m : Memory) (hy : y < 2 ^ 40) (hw : w < 2 ^ 40) (hr : r < 2 ^ 28)
    (hentry : ¬ (w ≤ y ∧ y < w + 8)) (htable : 4096 * r ≤ y ∧ y < 4096 * (r + 8)) :
    store64 (memset m (aboveMib (4096 * r)) 0 (pageSize * defaultPages)) (aboveMib w) e
      (aboveMib y) = 0 := by
  have hsize : (pageSize * defaultPages).toNat = 32768 := rfl
  have height : (8 : UInt64).toNat = 8 := rfl
  rw [store64_off, memset_apply, if_pos]
  · rw [UInt64.lt_iff_toNat_lt, aboveMib_sub hy (by omega), hsize]
    omega
  · rw [UInt64.lt_iff_toNat_lt, aboveMib_sub hy hw, height]
    omega

theorem taken_byte (hbitmap : k.bitmap = c.kmem.bitmap)
    (hbits : ∀ p, k.isFree p = (c.load.isFree p && !decide (q ≤ p ∧ p < q + 8))) {x : UInt64}
    (hx : q + 8 ≤ 8 * (x - c.kmem.bitmap).toNat) : k.store.mem x = c.mem x := by
  show k.bytes (x - k.bitmap).toNat = c.mem x
  rw [hbitmap, ← c.load_byte x]
  refine BitArray.byte_eq fun p hp => ?_
  have hout : ¬ (q ≤ p ∧ p < q + 8) := by omega
  have hbit := hbits p
  rw [decide_eq_false hout, Bool.not_false, Bool.and_true] at hbit
  exact hbit

theorem aboveMib_entry (m : Memory) (a i : Nat) :
    tableEntry m (aboveMib a) i = load64 m (aboveMib (a + 8 * i)) := by
  have hmul : 8 * UInt64.ofNat i = UInt64.ofNat (8 * i) := (UInt64.ofNat_mul 8 i).symm
  rw [tableEntry, hmul, aboveMib_add]

theorem aboveMib_set (m : Memory) (a i : Nat) (e : UInt64) :
    setTableEntry m (aboveMib a) i e = store64 m (aboveMib (a + 8 * i)) e := by
  have hmul : 8 * UInt64.ofNat i = UInt64.ofNat (8 * i) := (UInt64.ofNat_mul 8 i).symm
  rw [setTableEntry, hmul, aboveMib_add]

/-- One new table: `r` pages behind the bitmap, in the word `w` of the table above. -/
theorem table_taken {as : Space (List UInt64)} {a i : Nat} (line : UInt64)
    (hbitmap : c.kmem.bitmap = physToVirt 0x100000) (hlimit : c.load.physicalLimit = 0x8001000)
    (hw : w = a + 8 * i) (hw' : w < 2 ^ 40) (hr : r < 0x7F00)
    (hzero : load64 c.mem (aboveMib w) = 0)
    (hfree : ∀ p, 256 + r ≤ p → p < 256 + r + 8 → c.load.isFree p = true)
    (hbefore : ∀ p < 256 + r, c.load.isFree p = false) :
    ∃ c' : Ram, c.nextTable listKeeper as (aboveMib a) i line =
        some (c', ⟨as.pml4, as.memoryList ++ [frame (256 + r)]⟩, aboveMib (4096 * r)) ∧
      c'.kmem.bitmap = physToVirt 0x100000 ∧ c'.load.physicalLimit = 0x8001000 ∧
      load64 c'.mem (aboveMib w) = makeTableEntry (frame (256 + r)) vmUsermode ∧
      (∀ y < 2 ^ 40, ¬ (w ≤ y ∧ y < w + 8) → (4096 * r ≤ y ∧ y < 4096 * (r + 8)) →
        c'.mem (aboveMib y) = 0) ∧
      (∀ y < 2 ^ 40, 256 + r + 8 ≤ 8 * y → ¬ (w ≤ y ∧ y < w + 8) →
        ¬ (4096 * r ≤ y ∧ y < 4096 * (r + 8)) → c'.mem (aboveMib y) = c.mem (aboveMib y)) ∧
      ∀ p < 2 ^ 40, ¬ (w ≤ p / 8 ∧ p / 8 < w + 8) →
        ¬ (4096 * r ≤ p / 8 ∧ p / 8 < 4096 * (r + 8)) →
        c'.load.isFree p = (c.load.isFree p && !decide (256 + r ≤ p ∧ p < 256 + r + 8)) := by
  have hlim : c.load.physicalLimit.toNat = 0x8001000 := congrArg UInt64.toNat hlimit
  have hnot : checkNotPresent (tableEntry c.mem (aboveMib a) i) = true := by
    rw [aboveMib_entry, ← hw, hzero]
    rfl
  obtain ⟨k, hlimit', hbitmap', hbits, hnext⟩ := nextTable_first listKeeper as line hnot (by omega)
    (by rw [hlim]; decide) (by omega) hfree fun a ha => ⟨a, Nat.le_refl a, by omega, hbefore a ha⟩
  rw [frame, aboveMib_page, aboveMib_set, ← hw] at hnext
  have hk : k.bitmap = physToVirt 0x100000 := hbitmap'.trans hbitmap
  obtain ⟨m, hmem⟩ : ∃ m, m = store64 (memset k.store.mem (aboveMib (4096 * r)) 0
    (pageSize * defaultPages)) (aboveMib w)
      (makeTableEntry (UInt64.ofNat (4096 * (256 + r))) vmUsermode) := ⟨_, rfl⟩
  rw [← hmem] at hnext
  refine ⟨⟨k.store.kmem, m⟩, hnext, hk, hlimit'.trans hlimit, ?_, fun y hy hentry htable => ?_,
    fun y hy hbyte hentry htable => ?_, fun p hp hentry htable => ?_⟩
  · rw [hmem, load64_store64_self]
  · rw [hmem]
    exact table_zero _ hy hw' (by omega) hentry htable
  · show m (aboveMib y) = c.mem (aboveMib y)
    rw [hmem, table_off _ hy hw' (by omega) hentry htable]
    refine taken_byte hbitmap' hbits ?_
    rw [hbitmap, aboveMib, add_sub_left, toNat_ofNat_of_lt (by omega)]
    exact hbyte
  · rw [← hbits p]
    refine @isFree_same k ⟨k.store.kmem, m⟩ rfl p (by omega) ?_
    rw [hk, hmem]
    exact table_off _ (by omega) hw' (by omega) hentry htable

end Table

theorem lastPageMap_pml4 :
    ∃ c₀ c₁ c : Ram, ramZero.pmInit (some lastPageMap) = some c₀ ∧
      c₀.kmallocImpl (defaultPages * pageSize) (fun _ => 0) 0 = some (aboveMib 0x101000, c₁) ∧
      c = ⟨c₁.kmem, memset c₁.mem (aboveMib 0x101000) 0 (pageSize * defaultPages)⟩ ∧
      c.kmem.bitmap = physToVirt 0x100000 ∧ c.load.physicalLimit = 0x8001000 ∧
      (∀ y, 0x101000 ≤ y → y < 0x109000 → c.mem (aboveMib y) = 0) ∧
      ∀ p < 0x8008, c.load.isFree p = true ↔
        (0x101 ≤ p ∧ p < 0x109) ∨ (0x300 ≤ p ∧ p < 0x308) ∨ (0x7FF9 ≤ p ∧ p < 0x8001) := by
  obtain ⟨c₀, h₀, hfields⟩ := Option.map_eq_some_iff.mp lastPageMap_fields
  rw [Prod.mk.injEq] at hfields
  have hlim₀ : c₀.load.physicalLimit = 0x8001000 := hfields.1
  have hlim : c₀.load.physicalLimit.toNat = 0x8001000 := congrArg UInt64.toNat hlim₀
  have hbits₀ := @lastPageMap_free c₀ h₀
  have hused₀ : ∀ p < 2 ^ 64, ¬ ((0x101 ≤ p ∧ p < 0x109) ∨ (0x200 ≤ p ∧ p < 0x209) ∨
      (0x300 ≤ p ∧ p < 0x308) ∨ (0x7FF9 ≤ p ∧ p < 0x8001)) → c₀.load.isFree p = false :=
    fun p hp hout => Bool.not_eq_true _ ▸ fun h => hout ((hbits₀ hp).mp h)
  -- 9 pages at 0x200
  obtain ⟨b, k₁, c₁, hb, -, hk₁, hkmem₁, honly₁, -, hlim₁, hbitmap₁, hbits₁⟩ :=
    @kmalloc_first c₀ (defaultPages * pageSize) 9 0x200 (by decide) (by rw [hlim]; decide)
      (by rw [hlim]; decide) (fun p hlow hhigh => (hbits₀ (by omega)).mpr (by omega))
      (fun a ha => by
        by_cases hin : 0x101 ≤ a ∧ a < 0x109
        · exact ⟨0x109, by omega, by omega, hused₀ _ (by decide) (by decide)⟩
        · exact ⟨a, Nat.le_refl a, by omega, hused₀ a (by omega) (by omega)⟩) 0
  have hptr : b.base + pageSize = aboveMib 0x101000 := by
    rw [hb]
    decide
  have hB : k₁.bitmap = physToVirt 0x100000 := hbitmap₁.trans hfields.2
  have hsize : (pageSize * defaultPages).toNat = 32768 := rfl
  rw [hptr] at hk₁
  obtain ⟨c, hc⟩ : ∃ c : Ram, c = ⟨c₁.kmem, memset c₁.mem (aboveMib 0x101000) 0
    (pageSize * defaultPages)⟩ := ⟨_, rfl⟩
  have hkmem : c.kmem = k₁.store.kmem := by rw [hc, hkmem₁]
  have hmem : c.mem = memset c₁.mem (aboveMib 0x101000) 0 (pageSize * defaultPages) := by rw [hc]
  refine ⟨c₀, c₁, c, h₀, hk₁, hc, by rw [hkmem]; exact hB, ?_, fun y hlow hhigh => ?_,
    fun p hp => ?_⟩
  · rw [Ram.load, hkmem]
    exact hlim₁.trans hlim₀
  · rw [hmem, memset_apply, if_pos]
    rw [UInt64.lt_iff_toNat_lt, aboveMib_sub (by omega) (by omega), hsize]
    omega
  · have hout : ¬ b.Holds (aboveMib (p / 8)) := by
      have hpage : pageOf (UInt64.ofNat (4096 * 0x200)) = 0x200 := by decide
      have hnine : (numPages (defaultPages * pageSize) + 1).toNat = 9 := by decide
      rw [Block.Holds, aboveMib, gapMap_byte (by omega), hb, Block.Page, InRun, hpage, hnine]
      omega
    have hsame : c.load.isFree p = k₁.isFree p := by
      refine isFree_same hkmem (by omega) ?_
      rw [hB, hmem, ← aboveMib, ← honly₁ _ hout, memset_apply, if_neg]
      rw [UInt64.lt_iff_toNat_lt, aboveMib_sub (by omega) (by omega), hsize]
      omega
    rw [hsame, hbits₁, Bool.and_eq_true, hbits₀ (by omega), Bool.not_eq_true',
      decide_eq_false_iff_not]
    omega

/-- A bit of the bitmap is the present bit of the word that starts there. -/
theorem word_bit (c : Ram) (j : Nat) : c.load.isFree (8 * j) =
    !checkNotPresent (load64 c.mem (c.kmem.bitmap + UInt64.ofNat j)) := by
  have hbyte : c.load.isFree (8 * j) =
      (c.mem (c.kmem.bitmap + UInt64.ofNat j)).toNat.testBit 0 := by
    rw [KernelMemInfo.isFree, BitArray.get, load_bytes, Nat.mul_div_cancel_left _ (by decide),
      Nat.mul_mod_right]
    rfl
  have hone : vmPresent.toNat = 2 ^ 1 - 1 := rfl
  have hlow := @load64_low c.mem (c.kmem.bitmap + UInt64.ofNat j)
  have hpres : (load64 c.mem (c.kmem.bitmap + UInt64.ofNat j) &&& vmPresent).toNat =
      (load64 c.mem (c.kmem.bitmap + UInt64.ofNat j)).toNat % 2 := by
    rw [UInt64.toNat_and, hone, Nat.and_two_pow_sub_one_eq_mod, pow_one]
  rw [hbyte, Nat.testBit_zero, hlow, checkNotPresent, ← decide_not, decide_eq_decide,
    ← UInt64.toNat_inj, hpres, UInt64.toNat_zero]
  omega

theorem lastPage_bit {c : Ram} (hbitmap : c.kmem.bitmap = physToVirt 0x100000) :
    c.load.isFree 0x8000 = !checkNotPresent (load64 c.mem (aboveMib 0x1000)) := by
  rw [aboveMib, ← hbitmap]
  exact word_bit c 0x1000

theorem word_zero {m : Memory} {w : Nat} (h : ∀ y, w ≤ y → y < w + 8 → m (aboveMib y) = 0) :
    load64 m (aboveMib w) = 0 := by
  rw [aboveMib_word (m := fun _ => 0) h]
  exact load64_zero fun _ _ => rfl

/-- The page table is made of the last 8 pages, and the bit that this takes is the present bit of
    the page directory's entry. -/
theorem lastPageMap_tables {c : Ram} (hbitmap : c.kmem.bitmap = physToVirt 0x100000)
    (hlimit : c.load.physicalLimit = 0x8001000)
    (hzero : ∀ y, 0x101000 ≤ y → y < 0x109000 → c.mem (aboveMib y) = 0)
    (hfree : ∀ p < 0x8008, c.load.isFree p = true ↔
      (0x101 ≤ p ∧ p < 0x109) ∨ (0x300 ≤ p ∧ p < 0x308) ∨ (0x7FF9 ≤ p ∧ p < 0x8001)) :
    ∃ (c' : Ram) (pt : UInt64), c.mapPageEntry listKeeper ⟨aboveMib 0x101000, []⟩ 0 0x10000
        vmDefault = some (c', ⟨aboveMib 0x101000, [0x101000, 0x300000, pt]⟩) ∧
      (∀ i : Fin 512, sub c'.mem 0x201000 i = if i = 0 then some 0x101000 else none) ∧
      ∀ i : Fin 512, sub c'.mem 0x101000 i = none := by
  have hused : ∀ p < 0x8008, ¬ ((0x101 ≤ p ∧ p < 0x109) ∨ (0x300 ≤ p ∧ p < 0x308) ∨
      (0x7FF9 ≤ p ∧ p < 0x8001)) → c.load.isFree p = false :=
    fun p hp hout => Bool.not_eq_true _ ▸ fun h => hout ((hfree p hp).mp h)
  -- the PDPT, right behind the bitmap
  obtain ⟨c₂, h₂, hB₂, hL₂, hlink₂, hnew₂, hoff₂, hbits₂⟩ := @table_taken c 1 0x101000
    ⟨aboveMib 0x101000, []⟩ 0x101000 (pml4e 0).val 263 hbitmap hlimit (by decide) (by decide)
    (by decide) (word_zero fun y hlow hhigh => hzero y hlow (by omega))
    (fun p hlow hhigh => (hfree p (by omega)).mpr (by omega))
    (fun p hp => hused p (by omega) (by omega))
  have hfree₂ : ∀ p < 0x8000, c₂.load.isFree p = true ↔
      (0x300 ≤ p ∧ p < 0x308) ∨ (0x7FF9 ≤ p ∧ p < 0x8001) := by
    intro p hp
    rw [hbits₂ p (by omega) (by omega) (by omega), Bool.and_eq_true, hfree p (by omega),
      Bool.not_eq_true', decide_eq_false_iff_not]
    omega
  have hused₂ : ∀ p < 0x300, c₂.load.isFree p = false := fun p hp =>
    Bool.not_eq_true _ ▸ fun h => by
      have hin := (hfree₂ p (by omega)).mp h
      omega
  -- the page directory at 3 MiB
  obtain ⟨c₃, h₃, hB₃, hL₃, hlink₃, hnew₃, hoff₃, hbits₃⟩ := @table_taken c₂ 0x200 0x1000
    ⟨aboveMib 0x101000, [0x101000]⟩ 0x1000 (pdpe 0).val 276 hB₂ hL₂ (by decide) (by decide)
    (by decide) (word_zero fun y hlow hhigh => hnew₂ y (by omega) (by omega) (by omega))
    (fun p hlow hhigh => (hfree₂ p (by omega)).mpr (by omega)) hused₂
  have hfree₃ : ∀ p < 0x8000, c₃.load.isFree p = true ↔ 0x7FF9 ≤ p := by
    intro p hp
    rw [hbits₃ p (by omega) (by omega) (by omega), Bool.and_eq_true, hfree₂ p (by omega),
      Bool.not_eq_true', decide_eq_false_iff_not]
    omega
  have hlast₃ : c₃.load.isFree 0x8000 = true := by
    rw [lastPage_bit hB₃, hlink₃, link_present (by decide)]
    rfl
  -- the page table, with the last page
  obtain ⟨c₄, h₄, hB₄, -, -, -, hoff₄, hbits₄⟩ := @table_taken c₃ 0x7EF9 0x200000
    ⟨aboveMib 0x101000, [0x101000, 0x300000]⟩ 0x200000 (pde 0).val 289 hB₃ hL₃ (by decide)
    (by decide) (by decide) (word_zero fun y hlow hhigh => hnew₃ y (by omega) (by omega) (by omega))
    (fun p hlow hhigh => by
      rcases Nat.lt_or_ge p 0x8000 with hp | hp
      · exact (hfree₃ p hp).mpr hlow
      · obtain rfl : p = 0x8000 := by omega
        exact hlast₃)
    (fun p hp => Bool.not_eq_true _ ▸ fun h => by
      have hin := (hfree₃ p (by omega)).mp h
      omega)
  have hlost : checkNotPresent (load64 c₄.mem (aboveMib 0x1000)) = true := by
    have hbit := hbits₄ 0x8000 (by decide) (by decide) (by decide)
    rw [hlast₃, lastPage_bit hB₄] at hbit
    simpa using hbit
  obtain ⟨m, hm⟩ : ∃ m, m = setTableEntry c₄.mem (aboveMib (4096 * 0x7EF9)) (pte 0)
    (makeTableEntry (0x10000 &&& ~~~0xFFF) vmDefault) := ⟨_, rfl⟩
  have hmap := ram_mapPageEntry_eq h₂ h₃ h₄ 0x10000 vmDefault
  rw [← hm] at hmap
  -- the words of the two upper tables since they were made
  have hleaf : ∀ y < 0x7EF9000, m (aboveMib y) = c₄.mem (aboveMib y) := by
    intro y hy
    have hat : aboveMib (4096 * 0x7EF9) + 8 * UInt64.ofNat (pte 0).val = aboveMib 0x7EF9000 := by
      decide
    have height : (8 : UInt64).toNat = 8 := rfl
    rw [hm, setTableEntry, hat, store64_off]
    rw [UInt64.lt_iff_toNat_lt, aboveMib_sub (by omega) (by decide), height]
    omega
  have hsame : ∀ y, 0x1008 ≤ y → y < 0x200000 → m (aboveMib y) = c₂.mem (aboveMib y) := by
    intro y hlow hhigh
    rw [hleaf y (by omega), hoff₄ y (by omega) (by omega) (by omega) (by omega),
      hoff₃ y (by omega) (by omega) (by omega) (by omega)]
  have hpml4 : ∀ i : Fin 512, tableEntry m (physToVirt 0x201000) i =
      if i = 0 then makeTableEntry 0x101000 vmUsermode else 0 := by
    intro i
    have hi := i.isLt
    have hbase : physToVirt 0x201000 = aboveMib 0x101000 := by decide
    rw [hbase, aboveMib_entry,
      aboveMib_word (m := c₂.mem) fun y hlow hhigh => hsame y (by omega) (by omega)]
    by_cases hzero' : i = 0
    · rw [if_pos hzero', hzero']
      exact hlink₂
    · have hne : i.val ≠ 0 := fun h => hzero' (Fin.ext h)
      rw [if_neg hzero']
      refine word_zero fun y hlow hhigh => ?_
      rw [hoff₂ y (by omega) (by omega) (by omega) (by omega)]
      exact hzero y (by omega) (by omega)
  have hpdpt : ∀ i : Fin 512, checkNotPresent (tableEntry m (physToVirt 0x101000) i) = true := by
    intro i
    have hi := i.isLt
    have hbase : physToVirt 0x101000 = aboveMib 0x1000 := by decide
    rw [hbase, aboveMib_entry]
    by_cases hzero' : i = 0
    · rw [hzero', show 0x1000 + 8 * (0 : Fin 512).val = 0x1000 from rfl,
        aboveMib_word (m := c₄.mem) fun y hlow hhigh => hleaf y (by omega)]
      exact hlost
    · have hne : i.val ≠ 0 := fun h => hzero' (Fin.ext h)
      have hword : load64 m (aboveMib (0x1000 + 8 * i.val)) = 0 := by
        refine word_zero fun y hlow hhigh => ?_
        rw [hsame y (by omega) (by omega)]
        exact hnew₂ y (by omega) (by omega) (by omega)
      rw [hword]
      rfl
  refine ⟨⟨c₄.kmem, m⟩, frame (256 + 0x7EF9), hmap, fun i => ?_, fun i => ?_⟩
  · have hframe : 0x101000 &&& ~~~(0xFFF : UInt64) = 0x101000 := by decide
    show (if checkNotPresent (tableEntry m (physToVirt 0x201000) i) then none
      else some (tableEntry m (physToVirt 0x201000) i &&& ~~~0xFFF)) = _
    rw [hpml4]
    by_cases hzero' : i = 0
    · rw [if_pos hzero', if_pos hzero', link_present (by decide), (link_frame (by decide)).1]
      rfl
    · rw [if_neg hzero', if_neg hzero']
      rfl
  · show (if checkNotPresent (tableEntry m (physToVirt 0x101000) i) then none
      else some (tableEntry m (physToVirt 0x101000) i &&& ~~~0xFFF)) = none
    rw [hpdpt, if_pos rfl]

/-- The frame at 3 MiB is in `memory_list`, and the PML4 does not lead to it: the entry that
    referred to it has lost its present bit. -/
theorem table_entry_lost :
    ∃ c₀ c₁ ptr r, ramZero.pmInit (some lastPageMap) = some c₀ ∧
      c₀.kmallocImpl (defaultPages * pageSize) (fun _ => 0) 0 = some (ptr, c₁) ∧
      (∀ i : Fin 512, tableEntry (memset c₁.mem ptr 0 (pageSize * defaultPages)) ptr i = 0) ∧
      (⟨c₁.kmem, memset c₁.mem ptr 0 (pageSize * defaultPages)⟩ : Ram).mapPages listKeeper
        ⟨ptr, []⟩ 0 0x10000 1 vmDefault = some r ∧
      0x300000 ∈ r.2.memoryList ∧
      ¬ ∃ p, p ≠ [] ∧ Radix.descend (sub r.1.mem) r.2.tables.root p = some 0x300000 := by
  obtain ⟨c₀, c₁, c, h₀, hk, hc, hbitmap, hlimit, hzero, hfree⟩ := lastPageMap_pml4
  obtain ⟨c', pt, hmap, hpml4, hpdpt⟩ := lastPageMap_tables hbitmap hlimit hzero hfree
  refine ⟨c₀, c₁, aboveMib 0x101000,
    (c', ⟨aboveMib 0x101000, [0x101000, 0x300000, pt]⟩), h₀, hk, fun i => ?_, ?_, ?_, fun hex => ?_⟩
  · have hi := i.isLt
    have hmem : c.mem = memset c₁.mem (aboveMib 0x101000) 0 (pageSize * defaultPages) := by
      rw [hc]
    rw [← hmem, aboveMib_entry]
    exact word_zero fun y hlow hhigh => hzero y (by omega) (by omega)
  · rw [← hc, Ram.mapPages_one, hmap]
  · simp
  · obtain ⟨p, hne, hp⟩ := hex
    have hroot : (⟨aboveMib 0x101000, [0x101000, 0x300000, pt]⟩ :
      Space (List UInt64)).tables.root = 0x201000 :=
      show virtToPhys (aboveMib 0x101000) = 0x201000 by decide
    rw [hroot] at hp
    cases p with
    | nil => exact hne rfl
    | cons i p =>
      rw [Radix.descend_cons, hpml4] at hp
      by_cases hi : i = 0
      · rw [if_pos hi, Option.bind_some] at hp
        cases p with
        | nil => exact absurd (Option.some.inj hp) (by decide)
        | cons j p =>
          rw [Radix.descend_cons, hpdpt] at hp
          cases hp
      · rw [if_neg hi] at hp
        cases hp

end Horizon64
