import Horizon64.PagingRuns
import Horizon64.Kmalloc

/- Blocks from `kmalloc` and page tables.

   The PML4 of a space is a block of the heap (`kmallocImpl_taken`). Its 8 pages are an
   address space with nothing mapped (`kmalloc_blank`). -/
namespace Horizon64
open Words Bytes

/-- The pages of `b` were free in `k`, and are used in `k'`; nothing else changed. -/
structure Taken (k k' : KernelMemInfo) (b : Block) : Prop where
  limit : k'.physicalLimit = k.physicalLimit
  bitmap : k'.bitmap = k.bitmap
  whole : b.Whole
  free : ∀ p, b.Page p → ¬ k.Used p
  used : ∀ p, k'.Used p ↔ k.Used p ∨ b.Page p

/-- `kmalloc` takes a block, writes inside it only, and hands out zero bytes. -/
theorem kmallocImpl_taken {s s' : Machine} {size line ptr : UInt64} {func : Nat → UInt8}
    (h : kmallocImpl s size func line = some (ptr, s'))
    (hfit : s.kmem.physicalLimit.toNat + size.toNat + 8192 ≤ 2 ^ 64) :
    ∃ b : Block, Taken s.kmem s'.kmem b ∧ b.n.toNat = (size.toNat + 4095) / 4096 + 1 ∧
      ptr = b.base + pageSize ∧ Only b s.mem s'.mem ∧ ∀ x, x - ptr < size → s'.mem x = 0 := by
  obtain ⟨b, hget, hw, hbn, hroom, hptr, honly, _, hzero⟩ :=
    kmallocImpl_spec h (inSpace_of_limit hfit)
  have hn : b.n.toNat = (size.toNat + 4095) / 4096 + 1 := by
    rw [hbn, request_pages (by omega)]
  obtain ⟨_, _, _, hfree, hbits, _, hlimit, hbitmap⟩ := pmGet_block hget (by omega)
  exact ⟨b, ⟨hlimit, hbitmap, hw, fun p hp => not_used_of_free (hfree p hp), used_taken hbits⟩, hn, hptr,
    honly, hzero⟩

theorem table_of_kmalloc {b : Block} (hw : b.Whole) (hn : b.n.toNat = 9) :
    (tableAt (virtToPhys (b.base + pageSize))).Whole ∧
    ∀ p, TablePage (virtToPhys (b.base + pageSize)) p → b.Page p := by
  obtain ⟨hal, hend⟩ := hw
  have haddr : (virtToPhys (b.base + pageSize)).toNat = b.address.toNat + 4096 := by
    have hsub : virtToPhys (b.base + pageSize) = b.address + pageSize := by
      simp only [Block.base, physToVirt, virtToPhys]
      grind
    rw [hsub, toNat_add_of_lt (by rw [pageSize_toNat]; omega), pageSize_toNat]
  have hpages : (tableAt (virtToPhys (b.base + pageSize))).n.toNat = 8 := rfl
  refine ⟨⟨?_, ?_⟩, fun p hp => ?_⟩
  · show (virtToPhys (b.base + pageSize)).toNat % 4096 = 0
    omega
  · show (virtToPhys (b.base + pageSize)).toNat + _ < _
    omega
  · have hlow : pageOf (virtToPhys (b.base + pageSize)) ≤ p := hp.1
    have hhigh : p < pageOf (virtToPhys (b.base + pageSize)) + 8 := hp.2
    rw [pageOf, haddr] at hlow hhigh
    refine ⟨?_, ?_⟩
    · rw [pageOf]
      omega
    · rw [pageOf]
      omega

/-- 8 zero pages from `kmalloc` are an address space with nothing mapped. -/
theorem kmalloc_blank {s s' : Machine} {line ptr : UInt64} {func : Nat → UInt8}
    (h : kmallocImpl s (defaultPages * pageSize) func line = some (ptr, s'))
    (hlim : s.kmem.physicalLimit.toNat + 10 * 4096 ≤ 2 ^ 64) {m : Memory}
    (hm : ∀ x, x - ptr < defaultPages * pageSize → m x = 0) :
    Blank ⟨s'.kmem, m⟩ ⟨ptr, []⟩ := by
  have hsize : (defaultPages * pageSize).toNat = 8 * 4096 := rfl
  obtain ⟨b, hb, hn, rfl, _, _⟩ := kmallocImpl_taken h (by omega)
  obtain ⟨hwhole, hpages⟩ := table_of_kmalloc hb.whole (hn.trans (by rw [hsize]))
  refine ⟨?_, hwhole, fun p hp => (hb.used p).mpr (Or.inr (hpages p hp)), fun i => ?_, rfl⟩
  · show s'.kmem.physicalLimit.toNat + _ ≤ _
    rw [hb.limit]
    omega
  · apply load64_zero
    intro x hx
    apply hm
    have hi := i.isLt
    have hoff : (8 * UInt64.ofNat i.val).toNat = 8 * i.val := entry_off (index_lt i)
    have hx' : (x - (b.base + pageSize + 8 * UInt64.ofNat i.val)).toNat < 8 :=
      UInt64.lt_iff_toNat_lt.mp hx
    have hsplit : x - (b.base + pageSize) =
        8 * UInt64.ofNat i.val + (x - (b.base + pageSize + 8 * UInt64.ofNat i.val)) :=
      sub_split _ _ _
    rw [UInt64.lt_iff_toNat_lt, hsplit, toNat_add_of_lt (by omega), hsize]
    omega

end Horizon64
