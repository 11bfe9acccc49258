import Horizon64.PmInit

/- No double allocation.

   A ghost list keeps the blocks `pm_get` has handed out and nobody has freed.
   Blocks are made of pages: `pm_get` hands out pages that were free and marks
   them, `pm_free` of a live block frees that block's pages only, so the live
   blocks are owned in the sense of the ledger, with the bitmap's own pages used
   and outside all of them.

   1. `PmRun`: calls of `pm_get` at aligned addresses, and `pm_free` of live
      blocks, in any order.
   2. `LiveInv` and what one call keeps of it.
   3. `live_blocks_disjoint`: the result, from the state `pm_init` leaves.
   4. `pm_get_overlaps`: what the three conditions are for. -/
namespace Horizon64
open Words Bytes

/-- A block handed out by `pm_get(n, _)`. -/
structure Block where
  address : UInt64
  n : UInt64
  deriving DecidableEq, Repr

/-- The pages marked for a block. -/
abbrev Block.Page (b : Block) (p : Nat) : Prop := InRun b.address b.n p

/-- The addresses in `[address, address + n * 4096)`. -/
def Block.Addr (b : Block) (x : Nat) : Prop :=
  b.address.toNat ≤ x ∧ x < b.address.toNat + b.n.toNat * 4096

/-- The allocator, with its live blocks. -/
structure PmState where
  kmem : KernelMemInfo
  live : List Block

/-- One call: `pm_get` at a page-aligned address, for a number of pages that does
    not reach past `2^64` from below the limit; or `pm_free` of a live block. -/
inductive PmStep : PmState → PmState → Prop where
  | get {k k' : KernelMemInfo} {live : List Block} {i : UInt64} (n a : UInt64)
      (hal : a.toNat % 4096 = 0) (hlim : k.physicalLimit.toNat + n.toNat * 4096 ≤ 2 ^ 64)
      (h : pmGet k n a = some (i, k')) : PmStep ⟨k, live⟩ ⟨k', ⟨i, n⟩ :: live⟩
  | free {k : KernelMemInfo} {live : List Block} (b : Block) (hb : b ∈ live) :
      PmStep ⟨k, live⟩ ⟨(pmFree k b.address b.n).2, live.erase b⟩

abbrev PmRun := Relation.ReflTransGen PmStep

/-- Page `p` is marked used. -/
abbrev KernelMemInfo.Used (k : KernelMemInfo) (p : Nat) : Prop := k.isFree p = false

theorem used_taken {k k' : KernelMemInfo} {a n : UInt64}
    (h : ∀ p, k'.isFree p = (k.isFree p && !decide (InRun a n p))) (p : Nat) :
    k'.Used p ↔ k.Used p ∨ InRun a n p := by
  rw [KernelMemInfo.Used, h, KernelMemInfo.Used, Bool.and_eq_false_iff, Bool.not_eq_false',
    decide_eq_true_eq]

theorem used_freed {k k' : KernelMemInfo} {a n : UInt64}
    (h : ∀ p, k'.isFree p = (k.isFree p || decide (InRun a n p))) (p : Nat) :
    k'.Used p ↔ k.Used p ∧ ¬ InRun a n p := by
  rw [KernelMemInfo.Used, h, KernelMemInfo.Used, Bool.or_eq_false_iff, decide_eq_false_iff_not]

theorem not_used_of_free {k : KernelMemInfo} {p : Nat} (h : k.isFree p = true) : ¬ k.Used p := by
  rw [KernelMemInfo.Used, h]
  simp

/-- The live blocks are aligned, made of used pages, disjoint, and off the bitmap. -/
structure LiveInv (s : PmState) : Prop where
  shape : ∀ b ∈ s.live, b.address.toNat % 4096 = 0 ∧
    b.address.toNat + b.n.toNat * 4096 < 2 ^ 64
  owned : Ledger.Owned Block.Page s.kmem.Used s.live
  bitmap : ∀ p, s.kmem.BitmapPage p → s.kmem.Used p
  offBitmap : ∀ b ∈ s.live, ∀ p, b.Page p → ¬ s.kmem.BitmapPage p

theorem bitmapPage_congr {k k' : KernelMemInfo} (hlim : k'.physicalLimit = k.physicalLimit)
    (hmap : k'.bitmap = k.bitmap) (p : Nat) : k'.BitmapPage p ↔ k.BitmapPage p := by
  rw [KernelMemInfo.BitmapPage, bitmapSize_congr hlim, hmap]

theorem liveInv_get {k k' : KernelMemInfo} {live : List Block} {n a i : UInt64}
    (hal : a.toNat % 4096 = 0) (hlim : k.physicalLimit.toNat + n.toNat * 4096 ≤ 2 ^ 64)
    (h : pmGet k n a = some (i, k')) (hinv : LiveInv ⟨k, live⟩) :
    LiveInv ⟨k', ⟨i, n⟩ :: live⟩ := by
  obtain ⟨_, hmod, hwrap, hfree, hbits, _, hl, hb⟩ := pmGet_block h hlim
  have hpage : ∀ p, k'.BitmapPage p ↔ k.BitmapPage p := bitmapPage_congr hl hb
  have hkeep : ∀ p, k.Used p → k'.Used p := fun p hp => (used_taken hbits p).mpr (Or.inl hp)
  constructor
  · intro b hb
    rcases List.mem_cons.mp hb with rfl | hb
    · exact ⟨hmod.trans hal, hwrap⟩
    · exact hinv.shape b hb
  · exact hinv.owned.alloc (fun p hp => not_used_of_free (hfree p hp))
      (fun p hp => (used_taken hbits p).mpr hp)
  · intro p hp
    exact hkeep p (hinv.bitmap p ((hpage p).mp hp))
  · intro b hb p hp hbm
    rw [hpage] at hbm
    rcases List.mem_cons.mp hb with rfl | hb
    · exact not_used_of_free (hfree p hp) (hinv.bitmap p hbm)
    · exact hinv.offBitmap b hb p hp hbm

theorem liveInv_free {k : KernelMemInfo} {live : List Block} {b : Block} (hb : b ∈ live)
    (hinv : LiveInv ⟨k, live⟩) : LiveInv ⟨(pmFree k b.address b.n).2, live.erase b⟩ := by
  obtain ⟨hbits, hl, hm⟩ := pmFree_run (k := k) (hinv.shape b hb).2
  have hpage : ∀ p, (pmFree k b.address b.n).2.BitmapPage p ↔ k.BitmapPage p :=
    bitmapPage_congr hl hm
  have hkeep : ∀ p, k.Used p → ¬ b.Page p → (pmFree k b.address b.n).2.Used p :=
    fun p hp hout => (used_freed hbits p).mpr ⟨hp, hout⟩
  constructor
  · exact fun c hc => hinv.shape c (List.mem_of_mem_erase hc)
  · exact hinv.owned.release hb hkeep
  · intro p hp
    rw [hpage] at hp
    exact hkeep p (hinv.bitmap p hp) (fun hbp => hinv.offBitmap b hb p hbp hp)
  · intro c hc p hp hbm
    exact hinv.offBitmap c (List.mem_of_mem_erase hc) p hp ((hpage p).mp hbm)

theorem liveInv_step {s s' : PmState} (hinv : LiveInv s) (h : PmStep s s') : LiveInv s' := by
  cases h with
  | get n a hal hlim h => exact liveInv_get hal hlim h hinv
  | free b hb => exact liveInv_free hb hinv

/-- `pm_init` leaves the pages of the bitmap used. -/
theorem pmInit_liveInv {entries : List LimineMemmapEntry} {k k₀ : KernelMemInfo} {mem : Memory}
    (hal : UsableAligned entries) (hinit : pmInit k mem (some entries) = some k₀)
    (hroom : RoomFor entries k₀.bitmapSize.toNat) : LiveInv ⟨k₀, []⟩ := by
  rw [bitmapSize_congr (pmInit_scanned hinit).1] at hroom
  obtain ⟨k', hk', _, hbits⟩ := pmInit_spec hal hroom
  obtain rfl : k' = k₀ := Option.some.inj (hk'.symm.trans hinit)
  refine ⟨by simp, Ledger.Owned.nil, ?_, by simp⟩
  intro p hp
  rw [KernelMemInfo.Used, ← Bool.not_eq_true, hbits]
  exact fun h => h.2 hp

theorem addr_apart {b c : Block} (hb : b.address.toNat % 4096 = 0)
    (hc : c.address.toNat % 4096 = 0) (h : Ledger.Apart Block.Page b c) :
    Ledger.Apart Block.Addr b c := by
  intro x hbx hcx
  simp only [Block.Addr] at hbx hcx
  have hb' : b.Page (x / 4096) := by simp only [Block.Page, InRun, pageOf]; omega
  have hc' : c.Page (x / 4096) := by simp only [Block.Page, InRun, pageOf]; omega
  exact h _ hb' hc'

/-- After `pm_init`, whatever calls of `pm_get` and frees of live blocks follow:
    the live blocks are pairwise disjoint, their pages are marked used, and none
    is a page of the bitmap. -/
theorem live_blocks_disjoint {entries : List LimineMemmapEntry} {k k₀ : KernelMemInfo}
    {mem : Memory} (hal : UsableAligned entries)
    (hinit : pmInit k mem (some entries) = some k₀)
    (hroom : RoomFor entries k₀.bitmapSize.toNat) {s : PmState} (hrun : PmRun ⟨k₀, []⟩ s) :
    s.live.Pairwise (Ledger.Apart Block.Addr) ∧
    (∀ b ∈ s.live, ∀ x, b.Addr x → s.kmem.Used (x / 4096)) ∧
    (∀ b ∈ s.live, ∀ x, b.Addr x → ¬ s.kmem.BitmapPage (x / 4096)) := by
  have hinv : LiveInv s := Ledger.run_preserves LiveInv (fun _ _ => liveInv_step)
    (pmInit_liveInv hal hinit hroom) hrun
  have hin : ∀ b ∈ s.live, ∀ x, b.Addr x → b.Page (x / 4096) := by
    intro b hb x hx
    have hmod := (hinv.shape b hb).1
    simp only [Block.Addr] at hx
    simp only [Block.Page, InRun, pageOf]
    omega
  refine ⟨?_, fun b hb x hx => hinv.owned.used b hb _ (hin b hb x hx),
    fun b hb x hx => hinv.offBitmap b hb _ (hin b hb x hx)⟩
  apply hinv.owned.apart.imp_of_mem
  intro b c hb hc h
  exact addr_apart (hinv.shape b hb).1 (hinv.shape c hc).1 h

/-- The blocks two calls of `pm_get` after `pm_init` hand out. -/
def twoGets (entries : List LimineMemmapEntry) (n a n' a' : UInt64) : Option (Block × Block) := do
  let k ← pmInit kmemZero (fun _ => 0) (some entries)
  let (i, k) ← pmGet k n a
  let (j, _) ← pmGet k n' a'
  return (⟨i, n⟩, ⟨j, n'⟩)

/-- On the small map, from page boundaries and from the middle of a page. -/
theorem twoGets_smallMap : (twoGets smallMap 2 0 1 0).isSome ∧
    twoGets smallMap 1 0x101064 1 0x101000 = some (⟨0x101064, 1⟩, ⟨0x102000, 1⟩) := by
  decide +kernel

theorem live_blocks_small_map :
    ∃ b c, twoGets smallMap 2 0 1 0 = some (b, c) ∧ Ledger.Apart Block.Addr c b := by
  obtain ⟨⟨b, c⟩, hbc⟩ := Option.isSome_iff_exists.mp twoGets_smallMap.1
  refine ⟨b, c, hbc, ?_⟩
  simp only [twoGets, Option.bind_eq_bind, Option.bind_eq_some_iff] at hbc
  obtain ⟨k₀, h₀, ⟨i, k₁⟩, h₁, ⟨j, k₂⟩, h₂, h⟩ := hbc
  obtain ⟨rfl, rfl⟩ := Prod.mk.inj (Option.some.inj h)
  have hlim₀ : k₀.physicalLimit = 0x108000 := by
    rw [(pmInit_scanned h₀).1]
    decide
  obtain ⟨_, _, _, _, _, _, hlim₁, _⟩ := pmGet_block h₁ (by rw [hlim₀]; decide)
  have hrun : PmRun ⟨k₀, []⟩ ⟨k₂, [⟨j, 1⟩, ⟨i, 2⟩]⟩ :=
    (Relation.ReflTransGen.single (PmStep.get 2 0 rfl (by rw [hlim₀]; decide) h₁)).tail
      (PmStep.get 1 0 rfl (by rw [hlim₁, hlim₀]; decide) h₂)
  have hroom : RoomFor smallMap k₀.bitmapSize.toNat := by
    rw [bitmapSize_toNat, hlim₀]
    exact ⟨⟨0x100000, 0x8000, .usable⟩, by decide, by decide, by decide⟩
  have hdis := (live_blocks_disjoint (by unfold UsableAligned; decide) h₀ hroom hrun).1
  exact (List.pairwise_cons.mp hdis).1 ⟨i, 2⟩ List.mem_cons_self

/-! What the conditions are for. -/

/-- A block that does not start at a page boundary ends in a page nobody marked. -/
theorem unaligned_get_overlaps :
    ∃ b c, twoGets smallMap 1 0x101064 1 0x101000 = some (b, c) ∧
      ¬ Ledger.Apart Block.Addr b c := by
  refine ⟨⟨0x101064, 1⟩, ⟨0x102000, 1⟩, twoGets_smallMap.2, fun h => ?_⟩
  exact h 0x102000 (by unfold Block.Addr; decide) (by unfold Block.Addr; decide)

/-- Usable memory up to the last page of the address space. -/
def hugeMap : List LimineMemmapEntry := [⟨0x100000, 0xFFFFFFFFFFEFF000, .usable⟩]

theorem pmGet_wrap {k : KernelMemInfo} (hlim : k.physicalLimit = 0xFFFFFFFFFFFFF000) :
    ∃ k', pmGet k 2 0xFFFFFFFFFFFFE000 = some (0xFFFFFFFFFFFFE000, k') ∧
      k'.physicalLimit = 0xFFFFFFFFFFFFF000 := by
  have hrun : pages 0xFFFFFFFFFFFFE000 (0xFFFFFFFFFFFFE000 + 2 * pageSize) = [] :=
    pages_wrap (by decide)
  have hfree : bitmapFree k 0xFFFFFFFFFFFFE000 2 = .free := by
    rw [bitmapFree_iff, hrun]
    simp
  have hcand : pages 0xFFFFFFFFFFFFE000 k.physicalLimit = [0xFFFFFFFFFFFFE000] := by
    rw [hlim]
    decide +kernel
  refine ⟨_, by rw [pmGet, hcand, pmGetLoop, pmAllocate, hfree], ?_⟩
  rw [bitmapSet, hrun]
  exact hlim

theorem wrapping_get_overlaps :
    ∃ b c, twoGets hugeMap 2 0xFFFFFFFFFFFFE000 2 0xFFFFFFFFFFFFE000 = some (b, c) ∧
      ¬ Ledger.Apart Block.Addr b c := by
  obtain ⟨k, hk⟩ : ∃ k, pmInit kmemZero (fun _ => 0) (some hugeMap) = some k :=
    ⟨_, pmInit_eq _ _ (by decide)⟩
  have hlim : k.physicalLimit = 0xFFFFFFFFFFFFF000 := by
    rw [(pmInit_scanned hk).1]
    decide
  obtain ⟨k₁, h₁, hlim₁⟩ := pmGet_wrap hlim
  obtain ⟨k₂, h₂, _⟩ := pmGet_wrap hlim₁
  refine ⟨⟨0xFFFFFFFFFFFFE000, 2⟩, ⟨0xFFFFFFFFFFFFE000, 2⟩, ?_, fun h => ?_⟩
  · simp [twoGets, hk, h₁, h₂]
  · exact h 0xFFFFFFFFFFFFE000 (by unfold Block.Addr; decide) (by unfold Block.Addr; decide)

/-- A usable entry that starts 16 bytes before a page boundary. -/
def bentMap : List LimineMemmapEntry := [⟨0x100FF0, 0x8000, .usable⟩]

/-- The bitmap of 33 bytes at the start of that entry reaches into a second page,
    and only one page is marked for it. -/
theorem bent_bitmap_overlaps :
    ∃ k k' i x, pmInit kmemZero (fun _ => 0) (some bentMap) = some k ∧
      pmGet k 1 0 = some (i, k') ∧ Block.Addr ⟨i, 1⟩ x ∧
      (virtToPhys k.bitmap).toNat ≤ x ∧ x < (virtToPhys k.bitmap).toNat + k.bitmapSize.toNat := by
  have h : ((pmInit kmemZero (fun _ => 0) (some bentMap)).bind fun k =>
      (pmGet k 1 0).map fun r => (r.1, virtToPhys k.bitmap, k.bitmapSize)) =
        some (0x101000, 0x100FF0, 33) := by decide +kernel
  simp only [Option.bind_eq_some_iff, Option.map_eq_some_iff, Prod.mk.injEq] at h
  obtain ⟨k, hk, ⟨i, k'⟩, hget, hi, hmap, hsize⟩ := h
  obtain rfl : i = 0x101000 := hi
  refine ⟨k, k', 0x101000, 0x101000, hk, hget, by unfold Block.Addr; decide, ?_, ?_⟩
  · rw [hmap]
    decide
  · rw [hmap, hsize]
    decide

/-- Without the three conditions two live blocks can overlap, and so can a live
    block and the bitmap. -/
theorem pm_get_overlaps :
    (∃ b c, twoGets smallMap 1 0x101064 1 0x101000 = some (b, c) ∧
      ¬ Ledger.Apart Block.Addr b c) ∧
    (∃ b c, twoGets hugeMap 2 0xFFFFFFFFFFFFE000 2 0xFFFFFFFFFFFFE000 = some (b, c) ∧
      ¬ Ledger.Apart Block.Addr b c) ∧
    ∃ k k' i x, pmInit kmemZero (fun _ => 0) (some bentMap) = some k ∧
      pmGet k 1 0 = some (i, k') ∧ Block.Addr ⟨i, 1⟩ x ∧
      (virtToPhys k.bitmap).toNat ≤ x ∧ x < (virtToPhys k.bitmap).toNat + k.bitmapSize.toNat :=
  ⟨unaligned_get_overlaps, wrapping_get_overlaps, bent_bitmap_overlaps⟩

end Horizon64
