import Horizon64.Kmalloc

/- Runs of `kmalloc`, `krealloc` and `kfree`.

   The heap keeps its size information inside the pages it describes, so its
   invariant has two parts: `Reserved`, about the bitmap and a ghost list of live
   blocks, and the headers in memory, which say what the ghost list says. Callers
   write the bytes they asked for.

   1. The steps of a run.
   2. `HeapInv`, and what each step keeps of it.
   3. What it says: headers, disjointness, room, `krealloc`'s copy, and the books
      closing when every live block is freed, in any order. -/
namespace Horizon64
open Words Bytes

/-- A live block: the pages `pm_get` gave for it, and the size asked for last. -/
structure HeapBlock where
  block : Block
  size : UInt64
  deriving DecidableEq

/-- The pointer the caller has. -/
def HeapBlock.ptr (b : HeapBlock) : UInt64 := b.block.base + pageSize

abbrev HeapBlock.Page (b : HeapBlock) (p : Nat) : Prop := b.block.Page p

/-- The block a new pointer stands for. -/
def newBlock (ptr size : UInt64) : HeapBlock :=
  ⟨⟨virtToPhys (ptr - pageSize), numPages size + 1⟩, size⟩

structure HeapState where
  machine : Machine
  live : List HeapBlock

/-- A request does not reach past `2^64` from below the limit. -/
def Fits (s : Machine) (size : UInt64) : Prop :=
  s.kmem.physicalLimit.toNat + size.toNat + 8192 ≤ 2 ^ 64

/-- One step: a call of the heap on a live pointer (or on `NULL`, for `krealloc`),
    or a byte written among those a caller asked for. -/
inductive HeapStep : HeapState → HeapState → Prop where
  | kmalloc {s s' : Machine} {live : List HeapBlock} {ptr : UInt64} (size line : UInt64)
      (func : Nat → UInt8) (hfit : Fits s size)
      (h : kmallocImpl s size func line = some (ptr, s')) :
      HeapStep ⟨s, live⟩ ⟨s', newBlock ptr size :: live⟩
  | kreallocNull {s s' : Machine} {live : List HeapBlock} {ptr : UInt64} (size line : UInt64)
      (func : Nat → UInt8) (hfit : Fits s size)
      (h : kreallocImpl s 0 size func line = some (ptr, s')) :
      HeapStep ⟨s, live⟩ ⟨s', newBlock ptr size :: live⟩
  | krealloc {s s' : Machine} {live : List HeapBlock} {ptr : UInt64} (b : HeapBlock)
      (hb : b ∈ live) (hnull : b.ptr ≠ 0) (size line : UInt64) (func : Nat → UInt8)
      (hfit : Fits s size) (h : kreallocImpl s b.ptr size func line = some (ptr, s')) :
      HeapStep ⟨s, live⟩
        ⟨s', (if ptr = b.ptr then ⟨b.block, size⟩ else newBlock ptr size) :: live.erase b⟩
  | kfree {s : Machine} {live : List HeapBlock} (b : HeapBlock) (hb : b ∈ live) :
      HeapStep ⟨s, live⟩ ⟨kfreeImpl s b.ptr, live.erase b⟩
  | write {s : Machine} {live : List HeapBlock} (b : HeapBlock) (hb : b ∈ live) (x : UInt64)
      (v : UInt8) (hx : x - b.ptr < b.size) :
      HeapStep ⟨s, live⟩ ⟨{ s with mem := write s.mem x v }, live⟩

/-- The bytes of memory the live blocks hold. -/
def held : List HeapBlock → UInt64
  | [] => 0
  | b :: live => b.block.n * pageSize + held live

theorem held_erase {b : HeapBlock} {live : List HeapBlock} (hb : b ∈ live) :
    held live = b.block.n * pageSize + held (live.erase b) := by
  induction live with
  | nil => simp at hb
  | cons c live ih =>
    by_cases hc : c = b
    · rw [hc, List.erase_cons_head, held]
    · rw [List.erase_cons_tail (by simpa using hc), held, held,
        ih (by simpa [Ne.symm hc] using hb)]
      grind

/-- What the allocator holds for the live blocks, from the state `k₀` on. -/
structure Reserved (k₀ k : KernelMemInfo) (live : List HeapBlock) : Prop where
  shape : ∀ b ∈ live, b.block.Whole ∧ b.block.n = numPages b.size + 1 ∧
    b.size.toNat + 4096 ≤ b.block.n.toNat * 4096
  books : Ledger.Books HeapBlock.Page k₀.Used k.Used live
  freeSize : k.freeSize + held live = k₀.freeSize
  limit : k.physicalLimit = k₀.physicalLimit
  bitmap : k.bitmap = k₀.bitmap

theorem Reserved.nil (k : KernelMemInfo) : Reserved k k [] :=
  ⟨by simp, Ledger.Books.nil, by rw [held]; grind, rfl, rfl⟩

theorem Reserved.get {k₀ k k' : KernelMemInfo} {live : List HeapBlock} (h : Reserved k₀ k live)
    {b : HeapBlock} (hget : pmGet k b.block.n 0 = some (b.block.address, k'))
    (hlim : k.physicalLimit.toNat + b.block.n.toNat * 4096 ≤ 2 ^ 64)
    (hn : b.block.n = numPages b.size + 1)
    (hroom : b.size.toNat + 4096 ≤ b.block.n.toNat * 4096) : Reserved k₀ k' (b :: live) := by
  obtain ⟨_, hmod, hend, hfree, hbits, hsize, hl, hm⟩ := pmGet_block hget hlim
  refine ⟨fun c hc => ?_, h.books.alloc (fun p hp => not_used_of_free (hfree p hp))
    (used_taken hbits), ?_, hl.trans h.limit, hm.trans h.bitmap⟩
  · rcases List.mem_cons.mp hc with rfl | hc
    · exact ⟨⟨hmod, hend⟩, hn, hroom⟩
    · exact h.shape c hc
  · have hsum := h.freeSize
    rw [held, hsize]
    grind

theorem Reserved.free {k₀ k : KernelMemInfo} {live : List HeapBlock} (h : Reserved k₀ k live)
    {b : HeapBlock} (hb : b ∈ live) :
    Reserved k₀ (pmFree k b.block.address b.block.n).2 (live.erase b) := by
  have hend := (h.shape b hb).1.2
  obtain ⟨hbits, hl, hm⟩ := pmFree_run (k := k) hend
  have hsize := (pmFree_used hend (h.books.owned.used b hb)).2
  refine ⟨fun c hc => h.shape c (List.mem_of_mem_erase hc),
    h.books.release hb (used_freed hbits), ?_, hl.trans h.limit, hm.trans h.bitmap⟩
  have hsum := h.freeSize
  rw [held_erase hb] at hsum
  rw [hsize]
  grind

theorem Reserved.resize {k₀ k : KernelMemInfo} {live : List HeapBlock} (h : Reserved k₀ k live)
    {b : HeapBlock} (hb : b ∈ live) {size : UInt64} (hn : b.block.n = numPages size + 1)
    (hroom : size.toNat + 4096 ≤ b.block.n.toNat * 4096) :
    Reserved k₀ k (⟨b.block, size⟩ :: live.erase b) := by
  refine ⟨fun c hc => ?_, h.books.replace hb (fun _ => Iff.rfl), ?_, h.limit, h.bitmap⟩
  · rcases List.mem_cons.mp hc with rfl | hc
    · exact ⟨(h.shape b hb).1, hn, hroom⟩
    · exact h.shape c (List.mem_of_mem_erase hc)
  · rw [held, ← held_erase hb]
    exact h.freeSize

/-- The headers of the live blocks say what was reserved. -/
abbrev Headers (m : Memory) (live : List HeapBlock) : Prop :=
  ∀ b ∈ live, Header m b.block.base b.block.n b.size

structure HeapInv (k₀ : KernelMemInfo) (s : HeapState) : Prop where
  reserved : Reserved k₀ s.machine.kmem s.live
  headers : Headers s.machine.mem s.live

theorem Headers.of_outside {m m' : Memory} {live : List HeapBlock} (h : Headers m live)
    (hw : ∀ b ∈ live, b.block.Whole ∧ 1 ≤ b.block.n.toNat)
    (heq : ∀ b ∈ live, ∀ x, b.block.Holds x → m' x = m x) : Headers m' live := by
  intro b hb
  obtain ⟨hwhole, hone⟩ := hw b hb
  apply (h b hb).congr
  intro x hx
  apply heq b hb
  have hx' : (x - b.block.base).toNat < 32 := UInt64.lt_iff_toNat_lt.mp hx
  apply (holds_iff hwhole x).mpr
  omega

theorem Reserved.pages_pos {k₀ k : KernelMemInfo} {live : List HeapBlock} (h : Reserved k₀ k live)
    {b : HeapBlock} (hb : b ∈ live) : b.block.Whole ∧ 1 ≤ b.block.n.toNat := by
  obtain ⟨hw, _, hroom⟩ := h.shape b hb
  exact ⟨hw, by omega⟩

theorem newBlock_eq {b : Block} {size : UInt64} (hn : b.n = numPages size + 1) :
    newBlock (b.base + pageSize) size = ⟨b, size⟩ := by
  have hbase : b.base + pageSize - pageSize = b.base := UInt64.add_sub_cancel _ _
  rw [newBlock, hbase, Block.base, virtToPhys_physToVirt, ← hn]

theorem newBlock_ptr (ptr n : UInt64) : (newBlock ptr n).ptr = ptr := by
  rw [newBlock, HeapBlock.ptr, Block.base, physToVirt_virtToPhys]
  grind

theorem fits_pages {s : Machine} {size n : UInt64} (hfit : Fits s size)
    (hn : n = numPages size + 1) : s.kmem.physicalLimit.toNat + n.toNat * 4096 ≤ 2 ^ 64 := by
  rw [Fits] at hfit
  rw [hn, request_pages (by omega)]
  omega

section Steps
variable {k₀ : KernelMemInfo} {s s' : Machine} {live : List HeapBlock}
  (hinv : HeapInv k₀ ⟨s, live⟩)
include hinv

theorem heapInv_kmalloc {size line ptr : UInt64} {func : Nat → UInt8} (hfit : Fits s size)
    (h : kmallocImpl s size func line = some (ptr, s')) :
    HeapInv k₀ ⟨s', newBlock ptr size :: live⟩ := by
  obtain ⟨b, hget, _, hn, hroom, rfl, honly, hhead, _⟩ :=
    kmallocImpl_spec h (inSpace_of_limit hfit)
  have hres := hinv.reserved.get (b := ⟨b, size⟩) hget (fits_pages hfit hn) hn hroom
  rw [newBlock_eq hn]
  refine ⟨hres, fun c hc => ?_⟩
  rcases List.mem_cons.mp hc with rfl | hc
  · exact hhead
  · refine (hinv.headers.of_outside (fun d hd => hinv.reserved.pages_pos hd) ?_) c hc
    intro d hd x hx
    apply honly
    exact fun hbx => (List.pairwise_cons.mp hres.books.apart).1 d hd _ hbx hx

theorem heapInv_kfree {b : HeapBlock} (hb : b ∈ live) :
    HeapInv k₀ ⟨kfreeImpl s b.ptr, live.erase b⟩ := by
  rw [HeapBlock.ptr, kfreeImpl_spec (hinv.headers b hb)]
  refine ⟨hinv.reserved.free hb, ?_⟩
  have hsub : Headers s.mem (live.erase b) := fun c hc => hinv.headers c (List.mem_of_mem_erase hc)
  obtain ⟨hw, hone⟩ := hinv.reserved.pages_pos hb
  apply hsub.of_outside (fun d hd => hinv.reserved.pages_pos (List.mem_of_mem_erase hd))
  intro d hd x hx
  apply only_store64 hw s.mem 0 (show 0 + 8 ≤ _ by omega)
  exact fun hbx => hinv.reserved.books.owned.apart_erase hb d hd _ hbx hx

/-- `krealloc` in place: the block keeps its pages, and every byte of its data. -/
theorem heapInv_inPlace {b : HeapBlock} (hb : b ∈ live) (hnull : b.ptr ≠ 0)
    {size line ptr : UInt64} {func : Nat → UInt8} (hfit : Fits s size)
    (heq : numPages b.size = numPages size)
    (h : kreallocImpl s b.ptr size func line = some (ptr, s')) :
    ptr = b.ptr ∧ HeapInv k₀ ⟨s', ⟨b.block, size⟩ :: live.erase b⟩ ∧
    ∀ i, i < b.size → s'.mem (ptr + i) = s.mem (b.ptr + i) := by
  obtain ⟨hw, hn, hroom⟩ := hinv.reserved.shape b hb
  have hone := (hinv.reserved.pages_pos hb).2
  obtain ⟨rfl, hk, honly, hhead⟩ :=
    kreallocImpl_inPlace hw hone (hinv.headers b hb) hnull hn heq h
  have hroom' : size.toNat + 4096 ≤ b.block.n.toNat * 4096 := by
    rw [Fits] at hfit
    rw [hn, heq, request_pages (by omega)]
    omega
  have hres := hinv.reserved.resize hb (hn.trans (by rw [heq])) hroom'
  refine ⟨rfl, ⟨hk ▸ hres, fun c hc => ?_⟩, fun i hi => ?_⟩
  · rcases List.mem_cons.mp hc with rfl | hc
    · exact hhead
    · have hsub : Headers s.mem (live.erase b) :=
        fun c hc => hinv.headers c (List.mem_of_mem_erase hc)
      refine hsub.of_outside (fun d hd => hinv.reserved.pages_pos (List.mem_of_mem_erase hd)) ?_ c hc
      intro d hd x hx
      apply honly.of_header hone
      exact fun hbx => hinv.reserved.books.owned.apart_erase hb d hd _ hbx hx
  · exact honly _ (data_byte hw hroom hi).2

/-- `krealloc` that moves: a new block, the old one freed, and the bytes that fit
    copied. -/
theorem heapInv_moved {b : HeapBlock} (hb : b ∈ live) (hnull : b.ptr ≠ 0)
    {size line ptr : UInt64} {func : Nat → UInt8} (hfit : Fits s size)
    (hne : numPages b.size ≠ numPages size)
    (h : kreallocImpl s b.ptr size func line = some (ptr, s')) :
    ptr ≠ b.ptr ∧ HeapInv k₀ ⟨s', newBlock ptr size :: live.erase b⟩ ∧
    ∀ i, i < b.size → i < size → s'.mem (ptr + i) = s.mem (b.ptr + i) := by
  obtain ⟨hw, hn, hroom⟩ := hinv.reserved.shape b hb
  have hbone := (hinv.reserved.pages_pos hb).2
  obtain ⟨c, k, hget, hcw, hcn, hcroom, rfl, hk, hapart, honly, hhead, hcopy⟩ :=
    kreallocImpl_moved hw hbone (hinv.headers b hb) hnull (hinv.reserved.books.owned.used b hb) hne
      (inSpace_of_limit hfit) h
  have hcone : 1 ≤ c.n.toNat := by omega
  have hres := hinv.reserved.get (b := ⟨c, size⟩) hget (fits_pages hfit hcn) hcn hcroom
  have hbc : (⟨c, size⟩ : HeapBlock) ≠ b := by
    intro he
    have hcb : c = b.block := congrArg HeapBlock.block he
    rw [← hcb] at hapart
    exact hapart (pageOf c.address) ⟨Nat.le_refl _, by omega⟩ ⟨Nat.le_refl _, by omega⟩
  have hfreed := hres.free (List.mem_cons_of_mem _ hb)
  rw [List.erase_cons_tail (by simpa using hbc)] at hfreed
  have hcfresh : ∀ d ∈ live, Ledger.Apart HeapBlock.Page ⟨c, size⟩ d :=
    (List.pairwise_cons.mp hres.books.apart).1
  refine ⟨?_, ?_, hcopy hroom⟩
  · intro he
    have hbase : c.base = b.block.base := by
      rw [HeapBlock.ptr] at he
      grind
    have haddr : c.address = b.block.address := by
      rw [Block.base, Block.base, physToVirt, physToVirt] at hbase
      grind
    refine hapart (pageOf c.address) ⟨Nat.le_refl _, by omega⟩ ?_
    rw [haddr]
    exact ⟨Nat.le_refl _, by omega⟩
  · rw [newBlock_eq hcn]
    refine ⟨hk ▸ hfreed, fun d hd => ?_⟩
    rcases List.mem_cons.mp hd with rfl | hd
    · exact hhead
    · have hsub : Headers s.mem (live.erase b) :=
        fun c hc => hinv.headers c (List.mem_of_mem_erase hc)
      refine hsub.of_outside (fun d hd => hinv.reserved.pages_pos (List.mem_of_mem_erase hd)) ?_ d hd
      intro d hd x hx
      apply honly
      · exact fun hcx => hcfresh d (List.mem_of_mem_erase hd) _ hcx hx
      · exact fun hbx => hinv.reserved.books.owned.apart_erase hb d hd _ hbx hx

theorem heapInv_write {b : HeapBlock} (hb : b ∈ live) {x : UInt64} (v : UInt8)
    (hx : x - b.ptr < b.size) : HeapInv k₀ ⟨{ s with mem := write s.mem x v }, live⟩ := by
  refine ⟨hinv.reserved, fun c hc => ?_⟩
  obtain ⟨hw, _, hroom⟩ := hinv.reserved.shape b hb
  obtain ⟨hdata, hout⟩ := data_off_header hw hroom hx
  obtain ⟨hcw, hone⟩ := hinv.reserved.pages_pos hc
  apply (hinv.headers c hc).congr
  intro y hy
  refine if_neg ?_
  rintro rfl
  have hy' : (y - c.block.base).toNat < 32 := UInt64.lt_iff_toNat_lt.mp hy
  by_cases heq : c = b
  · apply hout
    rw [← heq, holds_iff (hcw.header hone)]
    show (y - c.block.base).toNat < 1 * 4096
    omega
  · have hcy : c.block.Holds y := (holds_iff hcw y).mpr (by omega)
    exact hinv.reserved.books.owned.apart_of_ne hc hb heq _ hcy hdata

end Steps

theorem heapInv_step {k₀ : KernelMemInfo} {s s' : HeapState} (hinv : HeapInv k₀ s)
    (h : HeapStep s s') : HeapInv k₀ s' := by
  cases h with
  | kmalloc size line func hfit h => exact heapInv_kmalloc hinv hfit h
  | kreallocNull size line func hfit h =>
    rw [kreallocImpl, if_pos rfl] at h
    exact heapInv_kmalloc hinv hfit h
  | krealloc b hb hnull size line func hfit h =>
    by_cases heq : numPages b.size = numPages size
    · obtain ⟨hptr, hinv', _⟩ := heapInv_inPlace hinv hb hnull hfit heq h
      rw [if_pos hptr]
      exact hinv'
    · obtain ⟨hptr, hinv', _⟩ := heapInv_moved hinv hb hnull hfit heq h
      rw [if_neg hptr]
      exact hinv'
  | kfree b hb => exact heapInv_kfree hinv hb
  | write b hb x v hx => exact heapInv_write hinv hb v hx

/-! What the invariant says. -/

section Contract
variable {k₀ : KernelMemInfo} {s : HeapState} (hinv : HeapInv k₀ s)
include hinv

theorem HeapInv.disjoint : (s.live.map HeapBlock.block).Pairwise (Ledger.Apart Block.Addr) := by
  rw [List.pairwise_map]
  apply hinv.reserved.books.apart.imp_of_mem
  intro b c hb hc h
  exact addr_apart (hinv.reserved.shape b hb).1.1 (hinv.reserved.shape c hc).1.1 h

/-- `krealloc` keeps the bytes that both sizes have. -/
theorem HeapInv.kept {b : HeapBlock} (hb : b ∈ s.live) (hnull : b.ptr ≠ 0)
    {size line ptr : UInt64} {func : Nat → UInt8} {s' : Machine} (hfit : Fits s.machine size)
    (h : kreallocImpl s.machine b.ptr size func line = some (ptr, s')) {i : UInt64}
    (hi : i < b.size) (hi' : i < size) : s'.mem (ptr + i) = s.machine.mem (b.ptr + i) := by
  by_cases heq : numPages b.size = numPages size
  · exact (heapInv_inPlace hinv hb hnull hfit heq h).2.2 i hi
  · exact (heapInv_moved hinv hb hnull hfit heq h).2.2 i hi hi'

theorem HeapInv.closed (hlive : s.live = []) : s.machine.kmem.bytes = k₀.bytes ∧
    s.machine.kmem.freeSize = k₀.freeSize := by
  obtain ⟨hres, -⟩ := hinv
  rw [hlive] at hres
  refine ⟨BitArray.ext_get (fun p => ?_), ?_⟩
  · have hused := hres.books.close p
    show s.machine.kmem.isFree p = k₀.isFree p
    simp only [KernelMemInfo.Used] at hused
    exact Bool.eq_iff_iff.mpr (by simpa using not_congr hused)
  · have hsum := hres.freeSize
    rw [held] at hsum
    rw [← hsum]
    grind

end Contract

end Horizon64
