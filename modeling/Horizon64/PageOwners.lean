import Horizon64.TableBlocks
import Horizon64.VectorBounds
import Horizon64.Lib.Isolation

/- What holds pages of physical memory.

   Address spaces take their tables from `pm_get`, `kmalloc` takes its blocks there, vectors
   take their buffers from `krealloc`, and some code takes pages itself. They share one bitmap
   and nothing says who owns a page. Each of them is an owner here: the pages it holds, and what
   it relies on (`Isolation.Owner`).

   1. The heap among others: a `HeapInv` from the state without the blocks
      (`reserved_of_owned`), and the bytes each call leaves alone.
   2. The four owners.
   3. Every call is framed: it keeps what is said about its own owner and touches no used
      page of another. -/
namespace Horizon64
open Words Bytes Isolation

/-- The heap on its own bookkeeping, whoever else has pages. -/
def HeapOwned (s : Machine) (live : List HeapBlock) : Prop := ∃ k₀, HeapInv k₀ ⟨s, live⟩

/-! The heap among others. -/

/-- The pages of the live blocks. -/
def HeldBy (live : List HeapBlock) (p : Nat) : Prop := ∃ b ∈ live, b.Page p

theorem reserved_of_owned {k : KernelMemInfo} {live : List HeapBlock}
    (hshape : ∀ b ∈ live, b.block.Whole ∧ b.block.n = numPages b.size + 1 ∧
      b.size.toNat + 4096 ≤ b.block.n.toNat * 4096)
    (howned : Ledger.Owned HeapBlock.Page k.Used live) : ∃ k₀, Reserved k₀ k live := by
  induction live generalizing k with
  | nil => exact ⟨k, Reserved.nil k⟩
  | cons b live ih =>
    obtain ⟨hwhole, hn, hroom⟩ := hshape b List.mem_cons_self
    have hpages : ∀ p, b.Page p → k.Used p := howned.used b List.mem_cons_self
    obtain ⟨hbits, hlimit, hbitmap⟩ := pmFree_run (k := k) hwhole.2
    have hsize := (pmFree_used hwhole.2 hpages).2
    obtain ⟨k', hk'⟩ : ∃ k', k' = (pmFree k b.block.address b.block.n).2 := ⟨_, rfl⟩
    rw [← hk'] at hbits hlimit hbitmap hsize
    obtain ⟨hfirst, hrest⟩ := List.pairwise_cons.mp howned.apart
    have howned' : Ledger.Owned HeapBlock.Page k'.Used live :=
      ⟨fun c hc p hp => (used_freed hbits p).mpr
        ⟨howned.used c (List.mem_cons_of_mem b hc) p hp, fun hbp => hfirst c hc p hbp hp⟩, hrest⟩
    obtain ⟨k₀, h⟩ := ih (fun c hc => hshape c (List.mem_cons_of_mem b hc)) howned'
    refine ⟨k₀, fun c hc => hshape c hc, h.books.alloc ?_ ?_, ?_, hlimit ▸ h.limit,
      hbitmap ▸ h.bitmap⟩
    · exact fun p hp hused => ((used_freed hbits p).mp hused).2 hp
    · intro p
      rw [used_freed hbits]
      by_cases hp : b.Page p
      · exact ⟨fun _ => Or.inr hp, fun _ => hpages p hp⟩
      · simp [hp]
    · have hsum := h.freeSize
      rw [hsize] at hsum
      rw [held]
      grind

theorem Reserved.keep {k₀ k k' : KernelMemInfo} {live live' : List HeapBlock}
    (h : Reserved k₀ k live) (h' : Reserved k₀ k' live') {p : Nat} (hused : k.Used p)
    (hout : ¬ HeldBy live p) : k'.Used p ∧ ¬ HeldBy live' p := by
  have hstart : k₀.Used p := ((h.books.used_iff p).mp hused).resolve_right hout
  refine ⟨(h'.books.used_iff p).mpr (Or.inl hstart), fun hin => ?_⟩
  obtain ⟨b, hb, hp⟩ := hin
  exact h'.books.fresh b hb p hp hstart

/-- The heap does not mind what happens to pages it does not hold. -/
theorem HeapOwned.of_same {s s' : Machine} {live : List HeapBlock} (h : HeapOwned s live)
    (hkeep : ∀ p, HeldBy live p → s'.kmem.Used p ∧
      ∀ x, pageOf (virtToPhys x) = p → s'.mem x = s.mem x) : HeapOwned s' live := by
  obtain ⟨k₀, hinv⟩ := h
  have howned : Ledger.Owned HeapBlock.Page s'.kmem.Used live :=
    ⟨fun b hb p hp => (hkeep p ⟨b, hb, hp⟩).1, hinv.reserved.books.owned.apart⟩
  obtain ⟨k₁, h₁⟩ := reserved_of_owned hinv.reserved.shape howned
  refine ⟨k₁, h₁, hinv.headers.of_outside (fun b hb => hinv.reserved.pages_pos hb) ?_⟩
  exact fun b hb x hx => (hkeep _ ⟨b, hb, hx⟩).2 x rfl

/-! The bytes that a call leaves alone: those in used pages of others. -/

section Off
variable {k₀ : KernelMemInfo} {s s' : Machine} {live : List HeapBlock} {b : HeapBlock}
  {size line ptr x : UInt64} {func : Nat → UInt8} (hused : s.kmem.Used (pageOf (virtToPhys x)))
include hused

theorem kmalloc_off (hfit : Fits s size) (h : kmallocImpl s size func line = some (ptr, s')) :
    s'.mem x = s.mem x := by
  obtain ⟨c, hc, -, -, honly, -⟩ := kmallocImpl_taken h hfit
  exact honly x fun hx => hc.free _ hx hused

variable (hinv : HeapInv k₀ ⟨s, live⟩) (hb : b ∈ live) (hout : ¬ b.block.Holds x)
include hinv hb hout

theorem krealloc_off (hnull : b.ptr ≠ 0) (hfit : Fits s size)
    (h : kreallocImpl s b.ptr size func line = some (ptr, s')) : s'.mem x = s.mem x := by
  obtain ⟨hwhole, hn, -⟩ := hinv.reserved.shape b hb
  have hone := (hinv.reserved.pages_pos hb).2
  by_cases heq : numPages b.size = numPages size
  · obtain ⟨-, -, honly, -⟩ := kreallocImpl_inPlace hwhole hone (hinv.headers b hb) hnull hn heq h
    exact honly.of_header hone x hout
  · obtain ⟨c, k, hget, -, hcn, -, -, -, -, honly, -⟩ := kreallocImpl_moved hwhole hone
      (hinv.headers b hb) hnull (hinv.reserved.books.owned.used b hb) heq
      (inSpace_of_limit hfit) h
    obtain ⟨-, -, -, hfree, -⟩ := pmGet_block hget (fits_pages hfit hcn)
    exact honly x (fun hx => not_used_of_free (hfree _ hx) hused) hout

omit hused in
theorem kfree_off : (kfreeImpl s b.ptr).mem x = s.mem x := by
  obtain ⟨hwhole, hone⟩ := hinv.reserved.pages_pos hb
  have hroom : magicOff.toNat + 8 ≤ b.block.n.toNat * 4096 := by
    have hzero : magicOff.toNat = 0 := rfl
    omega
  have hfree : kfreeImpl s (b.block.base + pageSize) = _ := @kfreeImpl_spec s _ _ (hinv.headers b hb)
  rw [HeapBlock.ptr, hfree]
  exact only_store64 hwhole s.mem 0 hroom x hout

end Off

/-! A vector among others: its block is the heap's. -/

/-- The pages of the vector's block. -/
def Vec.Pages (v : Vec) (p : Nat) : Prop := v.data ≠ 0 ∧ (newBlock v.data v.capacity).Page p

section Vector
variable {k₀ : KernelMemInfo} {s s' : Machine} {size : UInt64} {v v' : Vec} {xs : List (List UInt8)}

theorem VecBlock.eq_newBlock {b : HeapBlock} (h : VecBlock k₀ s v b) :
    newBlock v.data v.capacity = b := by
  obtain ⟨-, hn, -⟩ := h.heap.reserved.shape b List.mem_cons_self
  rw [← h.data, ← h.capacity, HeapBlock.ptr]
  exact newBlock_eq hn

theorem VecBuffer.heap (h : VecBuffer k₀ s v) :
    ∃ live, HeapInv k₀ ⟨s, live⟩ ∧ ∀ p, HeldBy live p ↔ v.Pages p := by
  rcases h with ⟨hdata, -, hinv⟩ | ⟨b, hblock⟩
  · exact ⟨[], hinv, fun p => ⟨fun hp => by simp [HeldBy] at hp, fun hp => absurd hdata hp.1⟩⟩
  · refine ⟨[b], hblock.heap, fun p => ?_⟩
    rw [HeldBy, Vec.Pages, hblock.eq_newBlock]
    simp [hblock.nonnull]

theorem VecBuffer.keep (h : VecBuffer k₀ s v) (h' : VecBuffer k₀ s' v') {p : Nat}
    (hused : s.kmem.Used p) (hout : ¬ v.Pages p) : s'.kmem.Used p ∧ ¬ v'.Pages p := by
  obtain ⟨live, hinv, hpages⟩ := h.heap
  obtain ⟨live', hinv', hpages'⟩ := h'.heap
  rw [← hpages] at hout
  rw [← hpages']
  exact hinv.reserved.keep hinv'.reserved hused hout

theorem VecBuffer.holds (h : VecBuffer k₀ s v) {x : UInt64} (hx : v.buffer.Has x) :
    v.Pages (pageOf (virtToPhys x)) := by
  have hlt : x - v.data < v.capacity := hx
  rcases h with ⟨-, hcap, -⟩ | ⟨b, hblock⟩
  · rw [hcap] at hlt
    exact absurd hlt UInt64.not_lt_zero
  · obtain ⟨hwhole, -, hroom⟩ := hblock.heap.reserved.shape b List.mem_cons_self
    rw [← hblock.data, ← hblock.capacity] at hlt
    refine ⟨hblock.nonnull, ?_⟩
    rw [hblock.eq_newBlock]
    exact (data_off_header hwhole hroom hlt).1

theorem VecInv.holds_elem (h : VecInv size k₀ s v xs) {o : Nat}
    (ho : o < v.length.toNat * size.toNat) :
    v.Pages (pageOf (virtToPhys (v.data + UInt64.ofNat o))) := by
  have hsmall := h.small
  have hroom := h.room
  refine h.buffer.holds ?_
  rw [ByteRange.Has, UInt64.lt_iff_toNat_lt, Vec.buffer, add_sub_left,
    toNat_ofNat_of_lt (by omega)]
  exact Nat.lt_of_lt_of_le ho hroom

theorem VecInv.of_same (h : VecInv size k₀ s v xs)
    (hkeep : ∀ p, v.Pages p → s'.kmem.Used p ∧
      ∀ x, pageOf (virtToPhys x) = p → s'.mem x = s.mem x) :
    ∃ k₁ : KernelMemInfo, s'.kmem.physicalLimit = k₁.physicalLimit ∧ VecInv size k₁ s' v xs := by
  have hsmall := h.small
  have hroom := h.room
  have hbytes : ∀ o < v.length.toNat * size.toNat,
      s'.mem (v.data + UInt64.ofNat o) = s.mem (v.data + UInt64.ofNat o) :=
    fun o ho => (hkeep _ (h.holds_elem ho)).2 _ rfl
  have helems : elements size s'.mem v = xs := (firstElements_congr hbytes).trans h.elems
  rcases h.buffer with ⟨hdata, hcap, -⟩ | ⟨b, hblock⟩
  · refine ⟨s'.kmem, rfl, helems, hroom, hsmall, Or.inl ⟨hdata, hcap, Reserved.nil _, ?_⟩⟩
    exact fun b hb => absurd hb List.not_mem_nil
  · have hheap : HeapOwned s [b] := ⟨k₀, hblock.heap⟩
    obtain ⟨k₁, hinv⟩ := @HeapOwned.of_same s s' [b] hheap fun p hp => hkeep p (by
      obtain ⟨c, hc, hp⟩ := hp
      rw [List.mem_singleton.mp hc] at hp
      refine ⟨hblock.nonnull, ?_⟩
      rw [hblock.eq_newBlock]
      exact hp)
    exact ⟨k₁, hinv.reserved.limit, helems, hroom, hsmall,
      Or.inr ⟨b, hinv, hblock.data, hblock.capacity, hblock.nonnull⟩⟩

/-- The element that `vector_append` stores is in the buffer. -/
theorem stored_within (hsize : 1 ≤ size.toNat)
    (hfit : (v.length.toNat + 1) * size.toNat * 4 ≤ 2 ^ 62) {func : Nat → UInt8} {line : UInt64}
    (hgrow : vectorGrow size s v func line = some (s', v')) {x : UInt64}
    (hx : (x - v'.addr size (v'.length - 1)).toNat < size.toNat) : v'.buffer.Has x := by
  obtain ⟨hlen, hnum⟩ := vectorGrow_numbers hsize hfit hgrow
  have hlast : v'.length - 1 = UInt64.ofNat v.length.toNat := by
    rw [hlen, UInt64.ofNat_toNat, UInt64.add_sub_cancel]
  have hless : v.length.toNat < v'.length.toNat := by
    rw [hlen, (grow_numbers hsize hfit).1]
    exact Nat.lt_succ_self _
  refine element_within hnum hless x ?_
  rw [ByteRange.Has, UInt64.lt_iff_toNat_lt, Vec.element, ← hlast]
  exact hx

variable (hlim : k₀.physicalLimit.toNat + 4096 ≤ 2 ^ 47) (hsize : 1 ≤ size.toNat)
  (h : VecInv size k₀ s v xs) {x : UInt64} (hused : s.kmem.Used (pageOf (virtToPhys x)))
  (hout : ¬ v.Pages (pageOf (virtToPhys x)))
include hlim hsize h hused hout

/-- `vector_append` writes into the vector's own block, or takes a new one. -/
theorem vectorAppend_off {elem : List UInt8} {func : Nat → UInt8} {line : UInt64}
    (helem : elem.length = size.toNat) (hfit : (v.length.toNat + 1) * size.toNat * 4 ≤ 2 ^ 62)
    (happ : vectorAppend size s v elem func line = some (s', v')) : s'.mem x = s.mem x := by
  have hinv' := vecInv_append hlim hsize h helem hfit happ
  have hout' := (h.buffer.keep hinv'.buffer hused hout).2
  obtain ⟨⟨t, w⟩, hgrow, heq⟩ := Option.map_eq_some_iff.mp happ
  obtain ⟨rfl, rfl⟩ := Prod.mk.inj heq
  have hstore : storeBytes t.mem (w.addr size (w.length - 1)) elem x = t.mem x :=
    storeBytes_off fun hin =>
      hout' (hinv'.buffer.holds (stored_within hsize hfit hgrow (helem ▸ hin)))
  refine hstore.trans ?_
  obtain ⟨-, -, hcap⟩ := grow_numbers hsize hfit
  rw [vectorGrow] at hgrow
  dsimp only at hgrow
  split at hgrow
  · obtain ⟨⟨ptr, u⟩, hre, heq⟩ := Option.map_eq_some_iff.mp hgrow
    obtain ⟨rfl, -⟩ := Prod.mk.inj heq
    have hfits := fun (hlimit : s.kmem.physicalLimit = k₀.physicalLimit) =>
      fits_of_limit hlimit hlim (n := (v.length + 1) * size * resize) (by rw [hcap]; exact hfit)
    rcases h.buffer with ⟨hdata, -, hinv⟩ | ⟨b, hblock⟩
    · rw [hdata, kreallocImpl, if_pos rfl] at hre
      exact kmalloc_off hused (hfits hinv.reserved.limit) hre
    · rw [← hblock.data] at hre
      refine krealloc_off hused hblock.heap List.mem_cons_self (fun hx => hout ?_)
        (hblock.data ▸ hblock.nonnull) (hfits hblock.heap.reserved.limit) hre
      refine ⟨hblock.nonnull, ?_⟩
      rw [hblock.eq_newBlock]
      exact hx
  · obtain ⟨rfl, -⟩ := Prod.mk.inj (Option.some.inj hgrow)
    rfl

end Vector

/-! The owners. -/

/-- The pages of the machine. -/
def machinePages : Resources Machine Nat (UInt64 × UInt64) where
  used s p := s.kmem.Used p
  same s s' p := ∀ x, pageOf (virtToPhys x) = p → s'.mem x = s.mem x
  const s := (s.kmem.physicalLimit, s.kmem.bitmap)
  same_refl _ _ _ _ := rfl
  same_trans _ _ _ _ h h' x hx := (h' x hx).trans (h x hx)

/-- The tables of an address space. -/
def tablesOwner : Owner machinePages AddrSpace where
  holds as p := ∃ t ∈ as.frames, TablePage t p
  inv := Paged
  inv_used := by
    rintro s as p hpaged ⟨t, ht, hp⟩
    exact hpaged.owned.used t ht p hp
  inv_local := by
    intro s s' as hpaged hconst hkeep
    exact (Paged.of_same hpaged (congrArg Prod.fst hconst) (fun t ht p hp => (hkeep p ⟨t, ht, hp⟩).1)
      fun t ht x hx => (hkeep _ ⟨t, ht, hx⟩).2 x rfl).1

/-- Blocks of the heap. -/
def heapOwner : Owner machinePages (List HeapBlock) where
  holds := HeldBy
  inv := HeapOwned
  inv_used := by
    rintro s live p ⟨k₀, hinv⟩ ⟨b, hb, hp⟩
    exact hinv.reserved.books.owned.used b hb p hp
  inv_local _ _ _ hinv _ hkeep := hinv.of_same hkeep

/-- Runs of pages from `pm_get`. -/
def pagesOwner : Owner machinePages (List Block) where
  holds live p := ∃ b ∈ live, b.Page p
  inv s live := (∀ b ∈ live, b.Whole) ∧ Ledger.Owned Block.Page s.kmem.Used live
  inv_used := by
    rintro s live p ⟨-, howned⟩ ⟨b, hb, hp⟩
    exact howned.used b hb p hp
  inv_local _ _ _ hinv _ hkeep :=
    ⟨hinv.1, fun b hb p hp => (hkeep p ⟨b, hb, hp⟩).1, hinv.2.apart⟩

/-- A vector of elements of `size` bytes, with the list of these. -/
def vectorOwner (size : UInt64) : Owner machinePages (Vec × List (List UInt8)) where
  holds x p := x.1.Pages p
  inv s x := 1 ≤ size.toNat ∧
    ∃ k₀ : KernelMemInfo, k₀.physicalLimit.toNat + 4096 ≤ 2 ^ 47 ∧ VecInv size k₀ s x.1 x.2
  inv_used := by
    rintro s x p ⟨-, k₀, -, hinv⟩ hp
    obtain ⟨live, hheap, hpages⟩ := hinv.buffer.heap
    obtain ⟨b, hb, hp⟩ := (hpages p).mpr hp
    exact hheap.reserved.books.owned.used b hb p hp
  inv_local := by
    rintro s s' x ⟨hsize, k₀, hlim, hinv⟩ hconst hkeep
    obtain ⟨live, hheap, -⟩ := hinv.buffer.heap
    obtain ⟨k₁, hlimit', hinv'⟩ := hinv.of_same hkeep
    have hsame : k₁.physicalLimit = k₀.physicalLimit :=
      hlimit'.symm.trans ((congrArg Prod.fst hconst).trans hheap.reserved.limit)
    exact ⟨hsize, k₁, hsame ▸ hlim, hinv'⟩

theorem vectorOwner_new {size : UInt64} (hsize : 1 ≤ size.toNat) {s : Machine}
    (hlim : s.kmem.physicalLimit.toNat + 4096 ≤ 2 ^ 47) :
    (vectorOwner size).inv s (vectorNew, []) :=
  ⟨hsize, s.kmem, hlim, vecInv_new _ _⟩

/-! Every call is framed. -/

theorem HeapInv.const {k₀ : KernelMemInfo} {h : HeapState} (hinv : HeapInv k₀ h) :
    machinePages.const h.machine = (k₀.physicalLimit, k₀.bitmap) :=
  congrArg₂ Prod.mk hinv.reserved.limit hinv.reserved.bitmap

section Framed
variable {s s' : Machine}

theorem heap_framed {k₀ : KernelMemInfo} {live live' : List HeapBlock}
    (hinv : HeapInv k₀ ⟨s, live⟩) (hinv' : HeapInv k₀ ⟨s', live'⟩)
    (hoff : ∀ x, s.kmem.Used (pageOf (virtToPhys x)) → ¬ HeldBy live (pageOf (virtToPhys x)) →
      s'.mem x = s.mem x) :
    Framed heapOwner s live s' live' := by
  refine ⟨hinv'.const.trans hinv.const.symm, ⟨k₀, hinv'⟩,
    fun p hused hout => ?_⟩
  obtain ⟨hused', hout'⟩ := hinv.reserved.keep hinv'.reserved hused hout
  refine ⟨hused', hout', fun x hx => ?_⟩
  rw [← hx] at hused hout
  exact hoff x hused hout

theorem vector_framed {k₀ : KernelMemInfo} {size : UInt64} {v v' : Vec} {xs xs' : List (List UInt8)}
    (hlim : k₀.physicalLimit.toNat + 4096 ≤ 2 ^ 47) (hsize : 1 ≤ size.toNat)
    (hinv : VecInv size k₀ s v xs) (hinv' : VecInv size k₀ s' v' xs')
    (hoff : ∀ x, s.kmem.Used (pageOf (virtToPhys x)) → ¬ v.Pages (pageOf (virtToPhys x)) →
      s'.mem x = s.mem x) :
    Framed (vectorOwner size) s (v, xs) s' (v', xs') := by
  obtain ⟨live, hheap, -⟩ := hinv.buffer.heap
  obtain ⟨live', hheap', -⟩ := hinv'.buffer.heap
  refine ⟨hheap'.const.trans hheap.const.symm, ⟨hsize, k₀, hlim, hinv'⟩,
    fun p hused hout => ?_⟩
  obtain ⟨hused', hout'⟩ := hinv.buffer.keep hinv'.buffer hused hout
  refine ⟨hused', hout', fun x hx => ?_⟩
  rw [← hx] at hused hout
  exact hoff x hused hout

theorem space_framed {as as' : AddrSpace} (hlocal : Local s as s' as') (hpaged : Paged s' as') :
    Framed tablesOwner s as s' as' := by
  refine ⟨congrArg₂ Prod.mk hlocal.limit hlocal.bitmap, hpaged, fun p hused hout => ?_⟩
  obtain ⟨hused', hout', hmem⟩ := hlocal.keep p hused fun t ht hp => hout ⟨t, ht, hp⟩
  exact ⟨hused', fun hin => by
    obtain ⟨t, ht, hp⟩ := hin
    exact hout' t ht hp, hmem⟩

/-- `pm_get` and `pm_free` do not touch memory. -/
theorem pmGet_framed {k : KernelMemInfo} {live : List Block} {n a i : UInt64}
    (hinv : pagesOwner.inv s live) (hal : a.toNat % 4096 = 0)
    (hlim : s.kmem.physicalLimit.toNat + n.toNat * 4096 ≤ 2 ^ 64)
    (h : pmGet s.kmem n a = some (i, k)) :
    Framed pagesOwner s live ⟨k, s.mem⟩ (⟨i, n⟩ :: live) := by
  obtain ⟨-, hmod, hend, hfree, hbits, -, hlimit, hbitmap⟩ := pmGet_block h hlim
  obtain ⟨hwhole, howned⟩ := hinv
  have hfresh : ∀ p, InRun i n p → ¬ s.kmem.Used p := fun p hp => not_used_of_free (hfree p hp)
  refine ⟨congrArg₂ Prod.mk hlimit hbitmap, ⟨fun b hb => ?_, howned.alloc hfresh fun p => (used_taken hbits p).mpr⟩,
    fun p hused hout => ⟨(used_taken hbits p).mpr (Or.inl hused), fun hin => ?_, fun _ _ => rfl⟩⟩
  · rcases List.mem_cons.mp hb with rfl | hb
    · exact ⟨hmod.trans hal, hend⟩
    · exact hwhole b hb
  · obtain ⟨b, hb, hp⟩ := hin
    rcases List.mem_cons.mp hb with rfl | hb
    · exact hfresh p hp hused
    · exact hout ⟨b, hb, hp⟩

theorem pmFree_framed {live : List Block} {b : Block} (hinv : pagesOwner.inv s live)
    (hb : b ∈ live) :
    Framed pagesOwner s live ⟨(pmFree s.kmem b.address b.n).2, s.mem⟩ (live.erase b) := by
  obtain ⟨hwhole, howned⟩ := hinv
  obtain ⟨hbits, hlimit, hbitmap⟩ := pmFree_run (k := s.kmem) (hwhole b hb).2
  refine ⟨congrArg₂ Prod.mk hlimit hbitmap, ⟨fun c hc => hwhole c (List.mem_of_mem_erase hc),
    howned.release hb fun p hused hout => (used_freed hbits p).mpr ⟨hused, hout⟩⟩,
    fun p hused hout => ⟨(used_freed hbits p).mpr ⟨hused, fun hp => hout ⟨b, hb, hp⟩⟩,
      fun hin => ?_, fun _ _ => rfl⟩⟩
  obtain ⟨c, hc, hp⟩ := hin
  exact hout ⟨c, List.mem_of_mem_erase hc, hp⟩

theorem writePage_framed {live : List Block} {b : Block} (hinv : pagesOwner.inv s live)
    (hb : b ∈ live) {x : UInt64} (hx : b.Holds x) (v : UInt8) :
    Framed pagesOwner s live { s with mem := write s.mem x v } live := by
  refine ⟨rfl, hinv, fun p hused hout => ⟨hused, hout, fun y hy => if_neg fun heq => ?_⟩⟩
  rw [← hy, heq] at hout
  exact hout ⟨b, hb, hx⟩

/-- A call of the heap, or a byte written that its caller asked for. -/
theorem heapStep_framed {live live' : List HeapBlock} (howned : HeapOwned s live)
    (h : HeapStep ⟨s, live⟩ ⟨s', live'⟩) : Framed heapOwner s live s' live' := by
  obtain ⟨k₀, hinv⟩ := howned
  refine heap_framed hinv (heapInv_step hinv h) fun x hused hout => ?_
  cases h with
  | kmalloc size line func hfit h => exact kmalloc_off hused hfit h
  | kreallocNull size line func hfit h =>
    rw [kreallocImpl, if_pos rfl] at h
    exact kmalloc_off hused hfit h
  | krealloc b hb hnull size line func hfit h =>
    exact krealloc_off hused hinv hb (fun hx => hout ⟨b, hb, hx⟩) hnull hfit h
  | kfree b hb => exact kfree_off hinv hb fun hx => hout ⟨b, hb, hx⟩
  | write b hb y v hy =>
    obtain ⟨hwhole, -, hroom⟩ := hinv.reserved.shape b hb
    refine if_neg fun hx => hout ⟨b, hb, ?_⟩
    rw [hx]
    exact (data_off_header hwhole hroom hy).1

end Framed

end Horizon64
