import Horizon64.Ram

/- The contract of the kernel heap.

   A run of the heap on memory with the bitmap in it is a run on the machine that memory is
   taken apart into, from a state in which no page of the bitmap can be handed out
   (`Ram.Guarded`) on. `pm_init` does not always leave one: it reserves the pages of
   `bitmap_size` bytes, and with a limit less than 32 KiB past a multiple of 128 MiB the byte
   behind these, with the bits of the last pages, is the first of the first page that
   `kmalloc` gets. The header there sets bits of pages that nobody has freed, and when those
   are handed out the header is damaged in turn (`heap_header_lost`).

   1. The steps of a run, and `ramHeapStep_machine`: each is one of the machine.
   2. `heap_contract`.
   3. When `pm_init` leaves a guarded state (`pmInit_guarded`), and when it does not. -/
namespace Horizon64
open Words Bytes

structure RamHeap where
  ram : Ram
  live : List HeapBlock

/-- A request does not reach past `2^64` from below the limit. -/
def Ram.Fits (c : Ram) (size : UInt64) : Prop :=
  c.kmem.physicalLimit.toNat + size.toNat + 8192 ≤ 2 ^ 64

/-- One step: a call of the heap on a live pointer (or on `NULL`, for `krealloc`), or a byte
    written among those a caller asked for. -/
inductive RamHeapStep : RamHeap → RamHeap → Prop where
  | kmalloc {c c' : Ram} {live : List HeapBlock} {ptr : UInt64} (size line : UInt64)
      (func : Nat → UInt8) (hfit : c.Fits size)
      (h : c.kmallocImpl size func line = some (ptr, c')) :
      RamHeapStep ⟨c, live⟩ ⟨c', newBlock ptr size :: live⟩
  | kreallocNull {c c' : Ram} {live : List HeapBlock} {ptr : UInt64} (size line : UInt64)
      (func : Nat → UInt8) (hfit : c.Fits size)
      (h : c.kreallocImpl 0 size func line = some (ptr, c')) :
      RamHeapStep ⟨c, live⟩ ⟨c', newBlock ptr size :: live⟩
  | krealloc {c c' : Ram} {live : List HeapBlock} {ptr : UInt64} (b : HeapBlock)
      (hb : b ∈ live) (hnull : b.ptr ≠ 0) (size line : UInt64) (func : Nat → UInt8)
      (hfit : c.Fits size) (h : c.kreallocImpl b.ptr size func line = some (ptr, c')) :
      RamHeapStep ⟨c, live⟩
        ⟨c', (if ptr = b.ptr then ⟨b.block, size⟩ else newBlock ptr size) :: live.erase b⟩
  | kfree {c : Ram} {live : List HeapBlock} (b : HeapBlock) (hb : b ∈ live) :
      RamHeapStep ⟨c, live⟩ ⟨c.kfreeImpl b.ptr, live.erase b⟩
  | write {c : Ram} {live : List HeapBlock} (b : HeapBlock) (hb : b ∈ live) (x : UInt64)
      (v : UInt8) (hx : x - b.ptr < b.size) :
      RamHeapStep ⟨c, live⟩ ⟨{ c with mem := write c.mem x v }, live⟩

abbrev RamHeapRun := Relation.ReflTransGen RamHeapStep

/-- The memory of a run of the machine. -/
def HeapState.ram (s : HeapState) : RamHeap := ⟨s.machine.ram, s.live⟩

/-! One step. -/

section Step
variable {k₀ : KernelMemInfo} {s : Machine} {live : List HeapBlock} (hfence : k₀.Fenced)
  (hinv : HeapInv k₀ ⟨s, live⟩)
include hfence hinv

theorem HeapInv.fenced : s.kmem.Fenced :=
  hfence.keep hinv.reserved.limit hinv.reserved.bitmap
    fun p _ hp => (hinv.reserved.books.used_iff p).mpr (Or.inl hp)

theorem HeapInv.clear {b : HeapBlock} (hb : b ∈ live) : b.block.Clear s.kmem := by
  intro p hp hkept
  refine hinv.reserved.books.fresh b hb p hp (hfence p ?_)
  exact (KernelMemInfo.kept_congr hinv.reserved.limit hinv.reserved.bitmap p).mp hkept

theorem HeapInv.ram_krealloc {b : HeapBlock} (hb : b ∈ live) (hnull : b.ptr ≠ 0)
    {size : UInt64} (hfit : Fits s size) (func : Nat → UInt8) (line : UInt64) :
    s.ram.kreallocImpl b.ptr size func line =
      (kreallocImpl s b.ptr size func line).map fun r => (r.1, r.2.ram) := by
  obtain ⟨hw, -, hroom⟩ := hinv.reserved.shape b hb
  exact Horizon64.ram_krealloc hw (hinv.reserved.pages_pos hb).2 (hinv.clear hfence hb)
    (hinv.headers b hb) (hinv.fenced hfence) (hinv.reserved.books.owned.used b hb) hroom hnull
    (inSpace_of_limit hfit)

theorem HeapInv.ram_kfree {b : HeapBlock} (hb : b ∈ live) :
    s.ram.kfreeImpl b.ptr = (kfreeImpl s b.ptr).ram := by
  obtain ⟨hw, hone⟩ := hinv.reserved.pages_pos hb
  exact Horizon64.ram_kfree hw hone (hinv.clear hfence hb) (hinv.headers b hb)

theorem HeapInv.ram_header {b : HeapBlock} (hb : b ∈ live) :
    load64 s.ram.mem (b.ptr - pageSize + magicOff) = kmemMagicNumber ∧
      load64 s.ram.mem (b.ptr - pageSize + numPagesOff) + 1 = b.block.n := by
  obtain ⟨hw, hone⟩ := hinv.reserved.pages_pos hb
  have hclear := hinv.clear hfence hb
  have hbase : b.ptr - pageSize = b.block.base := UInt64.add_sub_cancel _ _
  rw [hbase, ram_field hw hone hclear (by decide : magicOff ≤ linenoOff),
    ram_field hw hone hclear (by decide : numPagesOff ≤ linenoOff)]
  exact ⟨(hinv.headers b hb).magic, (hinv.headers b hb).pages⟩

theorem HeapInv.ram_data {b : HeapBlock} (hb : b ∈ live) {i : UInt64} (hi : i < b.size) :
    s.ram.mem (b.ptr + i) = s.mem (b.ptr + i) := by
  obtain ⟨hw, -, hroom⟩ := hinv.reserved.shape b hb
  exact s.ram_mem ((hinv.clear hfence hb).off (data_byte hw hroom hi).1)

/-- A step on the memory of a machine is the memory of a step of the machine. -/
theorem ramHeapStep_machine {t : RamHeap} (h : RamHeapStep ⟨s.ram, live⟩ t) :
    ∃ s', HeapStep ⟨s, live⟩ s' ∧ t = s'.ram := by
  have hmap : ∀ {α : Type} {x : Option (α × Machine)} {a : α} {c : Ram},
      (x.map fun r => (r.1, r.2.ram)) = some (a, c) → ∃ s', x = some (a, s') ∧ c = s'.ram := by
    intro α x a c hx
    obtain ⟨⟨a', s'⟩, hx', heq⟩ := Option.map_eq_some_iff.mp hx
    obtain ⟨rfl, rfl⟩ := Prod.mk.inj heq
    exact ⟨s', hx', rfl⟩
  cases h with
  | kmalloc size line func hfit h =>
    rw [ram_kmalloc (hinv.fenced hfence) (inSpace_of_limit hfit)] at h
    obtain ⟨s', hs', rfl⟩ := hmap h
    exact ⟨⟨s', _⟩, .kmalloc size line func hfit hs', rfl⟩
  | kreallocNull size line func hfit h =>
    rw [Ram.kreallocImpl, if_pos rfl,
      ram_kmalloc (hinv.fenced hfence) (inSpace_of_limit hfit)] at h
    obtain ⟨s', hs', rfl⟩ := hmap h
    refine ⟨⟨s', _⟩, .kreallocNull size line func hfit ?_, rfl⟩
    rw [kreallocImpl, if_pos rfl]
    exact hs'
  | krealloc b hb hnull size line func hfit h =>
    rw [hinv.ram_krealloc hfence hb hnull hfit] at h
    obtain ⟨s', hs', rfl⟩ := hmap h
    exact ⟨⟨s', _⟩, .krealloc b hb hnull size line func hfit hs', rfl⟩
  | kfree b hb => exact ⟨_, .kfree b hb, by rw [hinv.ram_kfree hfence hb]; rfl⟩
  | write b hb x v hx =>
    obtain ⟨hw, -, hroom⟩ := hinv.reserved.shape b hb
    have hin := (data_off_header hw hroom hx).1
    have hram := ram_acts (Splice.acts_write hin v) s fun y hy => (hinv.clear hfence hb).off hy
    exact ⟨_, .write b hb x v hx, congrArg (RamHeap.mk · live) hram.symm⟩

end Step

/-! Runs. -/

theorem ramHeapRun_machine {k₀ : KernelMemInfo} (hfence : k₀.Fenced) {s : HeapState}
    (hinv : HeapInv k₀ s) {t : RamHeap} (hrun : RamHeapRun s.ram t) :
    ∃ s', HeapInv k₀ s' ∧ t = s'.ram := by
  induction hrun with
  | refl => exact ⟨s, hinv, rfl⟩
  | tail _ hstep ih =>
    obtain ⟨s', hinv', rfl⟩ := ih
    obtain ⟨s'', hstep', rfl⟩ := ramHeapStep_machine hfence hinv' hstep
    exact ⟨s'', heapInv_step hinv' hstep', rfl⟩

/-- Freeing blocks one by one. -/
def Ram.freeAll (c : Ram) (l : List HeapBlock) : Ram := l.foldl (fun c b => c.kfreeImpl b.ptr) c

theorem freeAll_run {live l : List HeapBlock} (h : l.Perm live) (c : Ram) :
    RamHeapRun ⟨c, live⟩ ⟨c.freeAll l, []⟩ := by
  induction l generalizing c live with
  | nil =>
    obtain rfl := h.nil_eq
    exact Relation.ReflTransGen.refl
  | cons b l ih =>
    have hb : b ∈ live := h.subset List.mem_cons_self
    refine Relation.ReflTransGen.head (RamHeapStep.kfree b hb) (ih ?_ (c.kfreeImpl b.ptr))
    simpa using h.erase b

theorem apart_bytes {c : Ram} {j : Nat} (hj : j < c.load.bitmapSpan) :
    c.apart.kmem.bytes j = c.load.bytes j := if_pos hj

/-- The contract of the kernel heap, in every state that a run from a guarded state reaches:
    the headers are right, the blocks disjoint, the used pages are those of the start and of
    the blocks, the data fits, `krealloc` keeps it, and freeing every live block, in any order,
    restores the bitmap and `free_size`. -/
theorem heap_contract {c₀ : Ram} (hguard : c₀.Guarded) {s : RamHeap}
    (hrun : RamHeapRun ⟨c₀, []⟩ s) :
    (∀ b ∈ s.live, load64 s.ram.mem (b.ptr - pageSize + magicOff) = kmemMagicNumber ∧
      load64 s.ram.mem (b.ptr - pageSize + numPagesOff) + 1 = b.block.n) ∧
    (s.live.map HeapBlock.block).Pairwise (Ledger.Apart Block.Addr) ∧
    (∀ p < 8 * c₀.load.bitmapSpan,
      s.ram.load.Used p ↔ c₀.load.Used p ∨ ∃ b ∈ s.live, b.block.Page p) ∧
    (∀ b ∈ s.live, b.size.toNat + 4096 ≤ b.block.n.toNat * 4096) ∧
    (∀ b ∈ s.live, b.ptr ≠ 0 → ∀ size line func ptr c', s.ram.Fits size →
      s.ram.kreallocImpl b.ptr size func line = some (ptr, c') →
      ∀ i, i < b.size → i < size → c'.mem (ptr + i) = s.ram.mem (b.ptr + i)) ∧
    ∀ l : List HeapBlock, l.Perm s.live →
      (∀ j < c₀.load.bitmapSpan, (s.ram.freeAll l).load.bytes j = c₀.load.bytes j) ∧
      (s.ram.freeAll l).kmem.freeSize = c₀.kmem.freeSize := by
  have hfence := hguard.fenced
  have hstart : HeapInv c₀.apart.kmem ⟨c₀.apart, []⟩ := ⟨Reserved.nil _, by simp [Headers]⟩
  rw [show (⟨c₀, []⟩ : RamHeap) = (HeapState.mk c₀.apart []).ram by
    rw [HeapState.ram, c₀.ram_apart]] at hrun
  obtain ⟨t, hinv, rfl⟩ := ramHeapRun_machine hfence hstart hrun
  obtain ⟨s, live⟩ := t
  have hspan : s.kmem.bitmapSpan = c₀.load.bitmapSpan := congrArg spanOf hinv.reserved.limit
  refine ⟨fun b hb => hinv.ram_header hfence hb, hinv.disjoint, fun p hp => ?_,
    fun b hb => (hinv.reserved.shape b hb).2.2, ?_, fun l hl => ?_⟩
  · have hmachine := ram_used s (p := p) (by rw [hspan]; exact hp)
    have hstart : c₀.apart.kmem.Used p ↔ c₀.load.Used p := by
      rw [KernelMemInfo.Used, c₀.apart_isFree hp]
    exact hmachine.trans ((hinv.reserved.books.used_iff p).trans (or_congr_left hstart))
  · intro b hb hnull size line func ptr c' hfit h i hi hi'
    have hre := (hinv.ram_krealloc hfence hb hnull hfit func line).symm.trans h
    obtain ⟨⟨ptr', s'⟩, hs', heq⟩ := Option.map_eq_some_iff.mp hre
    obtain ⟨rfl, rfl⟩ := Prod.mk.inj heq
    have hinv' := heapInv_step hinv (.krealloc b hb hnull size line func hfit hs')
    obtain ⟨d, hd, hptr, hsize⟩ : ∃ d ∈ (if ptr' = b.ptr then ⟨b.block, size⟩
        else newBlock ptr' size) :: live.erase b, d.ptr = ptr' ∧ d.size = size := by
      refine ⟨_, List.mem_cons_self, ?_⟩
      by_cases heq : ptr' = b.ptr
      · rw [if_pos heq]
        exact ⟨heq.symm, rfl⟩
      · rw [if_neg heq]
        exact ⟨newBlock_ptr ptr' size, rfl⟩
    have hdata := hinv'.ram_data hfence hd (hsize.symm ▸ hi')
    rw [hptr] at hdata
    exact hdata.trans ((hinv.kept hb hnull hfit hs' hi hi').trans
      (hinv.ram_data hfence hb hi).symm)
  · have hend : RamHeapRun (HeapState.mk s live).ram ⟨s.ram.freeAll l, []⟩ := freeAll_run hl s.ram
    obtain ⟨⟨s', live'⟩, hinv', heq⟩ := ramHeapRun_machine hfence hinv hend
    obtain ⟨hram, hlive⟩ := RamHeap.mk.inj heq
    obtain ⟨hbytes, hsize⟩ := hinv'.closed hlive.symm
    have hspan' : s'.kmem.bitmapSpan = c₀.load.bitmapSpan := congrArg spanOf hinv'.reserved.limit
    refine ⟨fun j hj => ?_, ?_⟩
    · show (s.ram.freeAll l).load.bytes j = c₀.load.bytes j
      rw [hram, (over_load s').inside j (hspan'.symm ▸ hj), ← apart_bytes hj]
      exact congrFun hbytes j
    · show (s.ram.freeAll l).kmem.freeSize = _
      rw [hram]
      exact hsize

/-! What `pm_init` leaves. -/

/-- The bytes that `pm_init` clears are in the pages that it reserves. -/
theorem bitmapPage_byte (k : KernelMemInfo) {j : Nat} (hj : j < k.bitmapSize.toNat) :
    k.BitmapPage (pageOf (virtToPhys k.bitmap) + j / 4096) := by
  have hsize := bitmapSize_toNat k
  have hlt := k.physicalLimit.toNat_lt
  have hpages : (numPages k.bitmapSize).toNat = (k.bitmapSize.toNat + 4095) / 4096 :=
    numPages_toNat (by omega)
  rw [KernelMemInfo.BitmapPage, InRun, hpages]
  omega

/-- `pm_init` leaves a guarded state, when the pages from the limit on read as used and so do
    those of the bytes behind the ones that it cleared. -/
theorem pmInit_guarded {c c₀ : Ram} {entries : List LimineMemmapEntry} (hal : UsableAligned entries)
    (hinit : c.pmInit (some entries) = some c₀)
    (hroom : RoomFor entries c₀.load.bitmapSize.toNat)
    (hpast : ∀ p < 8 * c₀.load.bitmapSpan, c₀.kmem.physicalLimit.toNat ≤ 4096 * p →
      c₀.load.Used p)
    (hlast : ∀ x, c₀.load.InBitmap x → c₀.load.bitmapSize.toNat ≤ (x - c₀.kmem.bitmap).toNat →
      c₀.load.Used (pageOf (virtToPhys x))) : c₀.Guarded := by
  obtain ⟨k₀, hk₀, rfl⟩ := Option.map_eq_some_iff.mp hinit
  have hsame : k₀.store.load.bitmapSize = k₀.bitmapSize := rfl
  rw [hsame, bitmapSize_congr (pmInit_scanned hk₀).1] at hroom
  obtain ⟨k', hk', ⟨e, he, hhigh, hmap, hin⟩, hbits⟩ := pmInit_spec hal hroom
  obtain rfl : k' = k₀ := Option.some.inj (hk'.symm.trans hk₀)
  obtain ⟨hbase, -, hend⟩ := hal e he hhigh.1
  have hphys : virtToPhys k'.bitmap = e.base := by rw [hmap, virtToPhys_physToVirt]
  rintro p hp (hle | ⟨x, hx, rfl⟩)
  · exact hpast p hp hle
  · by_cases hsize : (x - k'.bitmap).toNat < k'.bitmapSize.toNat
    · have hpage := bitmapPage_byte k' hsize
      have hentry := (hin _ hpage).2
      rw [hphys, pageOf] at hpage hentry
      have hsplit : virtToPhys x = e.base + (x - k'.bitmap) := by
        rw [← hphys, virtToPhys, virtToPhys]
        grind
      have hat : pageOf (virtToPhys x) = e.base.toNat / 4096 + (x - k'.bitmap).toNat / 4096 := by
        rw [hsplit, pageOf, toNat_add_of_lt (by omega)]
        omega
      have hspan : 8 * k'.store.load.bitmapSpan < 2 ^ 64 := by
        have hle := bitmapSpan_le k'.store.load
        omega
      rw [KernelMemInfo.Used, load_store_isFree k' (Nat.lt_trans hp hspan), ← Bool.not_eq_true,
        hbits, hat]
      exact fun h => h.2 hpage
    · exact hlast x hx (Nat.not_lt.mp hsize)

/-- `kmem` and memory before anything has written them. -/
def ramZero : Ram := ⟨⟨0, 0, 0, 0⟩, fun _ => 0⟩

theorem pmInit_ramZero {c₀ : Ram} {entries : List LimineMemmapEntry} (hal : UsableAligned entries)
    (hinit : ramZero.pmInit (some entries) = some c₀)
    (hroom : RoomFor entries c₀.load.bitmapSize.toNat) {p : Nat} (hp : p < 2 ^ 64) :
    c₀.load.isFree p = true ↔
      (∃ e ∈ entries, HighUsable e ∧ InEntry e p) ∧ ¬ c₀.load.BitmapPage p := by
  obtain ⟨k₀, hk₀, rfl⟩ := Option.map_eq_some_iff.mp hinit
  have hsame : k₀.store.load.bitmapSize = k₀.bitmapSize := rfl
  rw [hsame, bitmapSize_congr (pmInit_scanned hk₀).1] at hroom
  obtain ⟨k', hk', -, hbits⟩ := pmInit_spec hal hroom
  obtain rfl : k' = k₀ := Option.some.inj (hk'.symm.trans hk₀)
  have hbyte : (placed ramZero.load ramZero.mem entries).bytes (p / 8) = 0 := ite_self 0
  have hzero : (placed ramZero.load ramZero.mem entries).isFree p = false := by
    rw [KernelMemInfo.isFree, BitArray.get, hbyte]
    simp
  rw [load_store_isFree k' hp, hbits, hzero]
  simp only [Bool.false_eq_true, false_or]
  exact Iff.rfl

theorem pmInit_onePage {c₀ : Ram} {entries : List LimineMemmapEntry} (hal : UsableAligned entries)
    (hinit : ramZero.pmInit (some entries) = some c₀) {base : UInt64}
    (hbitmap : c₀.kmem.bitmap = physToVirt base) (hsize : numPages c₀.load.bitmapSize = 1)
    (hroom : RoomFor entries c₀.load.bitmapSize.toNat) {p : Nat} (hp : p < 2 ^ 64) :
    c₀.load.isFree p = true ↔ (∃ e ∈ entries, HighUsable e ∧ InEntry e p) ∧ p ≠ pageOf base := by
  have hone : c₀.load.BitmapPage p ↔ p = pageOf base := by
    rw [KernelMemInfo.BitmapPage, hsize, show c₀.load.bitmap = _ from hbitmap, InRun,
      virtToPhys_physToVirt, UInt64.toNat_one]
    omega
  rw [pmInit_ramZero hal hinit hroom hp, hone]

/-- It leaves a guarded state when that page has the bits of all pages up to the limit. -/
theorem onePage_guarded {c₀ : Ram} {entries : List LimineMemmapEntry} (hal : UsableAligned entries)
    (hinit : ramZero.pmInit (some entries) = some c₀) {base : UInt64}
    (hbase : base.toNat % 4096 = 0) (hbitmap : c₀.kmem.bitmap = physToVirt base)
    (hsize : numPages c₀.load.bitmapSize = 1) (hroom : RoomFor entries c₀.load.bitmapSize.toNat)
    (hspan : c₀.load.bitmapSpan ≤ 4096)
    (hend : ∀ e ∈ entries, HighUsable e → e.endAddr ≤ c₀.kmem.physicalLimit.toNat) :
    c₀.Guarded := by
  have hbits := @pmInit_onePage c₀ entries hal hinit base hbitmap hsize hroom
  refine pmInit_guarded hal hinit hroom (fun p hp hle => ?_) fun x hx _ => ?_
  · rw [KernelMemInfo.Used, ← Bool.not_eq_true, hbits (by omega)]
    rintro ⟨⟨e, he, hhigh, -, hin⟩, -⟩
    have hlast := hend e he hhigh
    omega
  · -- the bytes behind the bitmap are in its page
    have hoff : (x - c₀.kmem.bitmap).toNat < 4096 := Nat.lt_of_lt_of_le hx hspan
    have hsplit : virtToPhys x = base + (x - c₀.kmem.bitmap) := by
      rw [hbitmap, virtToPhys, physToVirt]
      grind
    have hlt := base.toNat_lt
    have hpage : pageOf (virtToPhys x) = pageOf base := by
      rw [hsplit, pageOf, pageOf, toNat_add_of_lt (by omega)]
      omega
    rw [hpage, KernelMemInfo.Used, ← Bool.not_eq_true, hbits (by rw [pageOf]; omega)]
    exact fun h => h.2 rfl

theorem smallMap_fields : ((ramZero.pmInit (some smallMap)).map fun c =>
    (c.kmem.physicalLimit, c.kmem.bitmap)) = some (0x108000, physToVirt 0x100000) := by
  decide +kernel

theorem smallMap_guarded {c₀ : Ram} (h : ramZero.pmInit (some smallMap) = some c₀) : c₀.Guarded := by
  have hfields := smallMap_fields
  rw [h, Option.map_some, Option.some.injEq, Prod.mk.injEq] at hfields
  obtain ⟨hlim, hbitmap⟩ := hfields
  have hlim' : c₀.load.physicalLimit = 0x108000 := hlim
  have hsize : c₀.load.bitmapSize = 33 := by
    rw [KernelMemInfo.bitmapSize, hlim']
    decide
  have hal : UsableAligned smallMap := by unfold UsableAligned; decide
  have hroom : RoomFor smallMap c₀.load.bitmapSize.toNat := by
    rw [hsize]
    exact ⟨⟨0x100000, 0x8000, .usable⟩, by decide, by decide, by decide⟩
  refine onePage_guarded hal h (by decide) hbitmap (by rw [hsize]; decide) hroom ?_ fun e he _ => ?_
  · rw [KernelMemInfo.bitmapSpan, hlim']
    decide
  · rw [List.mem_singleton.mp he, hlim]
    decide

/-- `kmalloc(100)` after `pm_init` on the small map, and its `kfree`. -/
theorem heap_contract_small_map :
    ∃ c₀ c₁ ptr, ramZero.pmInit (some smallMap) = some c₀ ∧
      c₀.kmallocImpl 100 (fun _ => 0) 7 = some (ptr, c₁) ∧
      load64 c₁.mem (ptr - pageSize + numPagesOff) + 1 = 2 ∧
      ∀ j < c₀.load.bitmapSpan, (c₁.kfreeImpl ptr).load.bytes j = c₀.load.bytes j := by
  obtain ⟨⟨i, c₁⟩, hboth⟩ := Option.isSome_iff_exists.mp
    (show ((ramZero.pmInit (some smallMap)).bind fun c => c.pmGet (numPages 100 + 1) 0).isSome = true
      by decide +kernel)
  obtain ⟨c₀, h₀, hget⟩ := Option.bind_eq_some_iff.mp hboth
  obtain ⟨c₂, hk⟩ : ∃ c₂, c₀.kmallocImpl 100 (fun _ => 0) 7 = some (physToVirt i + pageSize, c₂) := by
    rw [Ram.kmallocImpl, hget]
    exact ⟨_, rfl⟩
  have hlim : c₀.kmem.physicalLimit = 0x108000 := by
    have hfields := smallMap_fields
    rw [h₀, Option.map_some, Option.some.injEq, Prod.mk.injEq] at hfields
    exact hfields.1
  have hfit : c₀.Fits 100 := by
    rw [Ram.Fits, hlim]
    decide
  obtain ⟨hhead, -, -, -, -, hfree⟩ := heap_contract (smallMap_guarded h₀)
    (Relation.ReflTransGen.single (RamHeapStep.kmalloc 100 7 (fun _ => 0) hfit hk))
  have hhead' := (hhead _ List.mem_cons_self).2
  have hfree' := (hfree _ (List.Perm.refl _)).1
  rw [newBlock_ptr] at hhead'
  have hram : (RamHeap.mk c₂ [newBlock (physToVirt i + pageSize) 100]).ram = c₂ := rfl
  rw [Ram.freeAll, List.foldl_cons, List.foldl_nil, newBlock_ptr, hram] at hfree'
  have hn : numPages 100 + 1 = 2 := by decide
  exact ⟨c₀, c₂, _, h₀, hk, hhead'.trans hn, hfree'⟩

/-! A limit of 8 KiB past 128 MiB: the bitmap fills the page at 1 MiB, and the byte behind it
    has the bits of the pages of the kernel. -/

def gapMap : List LimineMemmapEntry :=
  [⟨0x100000, 0x4000, .usable⟩, ⟨0x8000000, 0x2000, .kernelAndModules⟩]

theorem gapMap_fields : ((ramZero.pmInit (some gapMap)).map fun c =>
    (c.kmem.physicalLimit, c.kmem.bitmap)) = some (0x8002000, physToVirt 0x100000) := by
  decide +kernel

theorem gapMap_free {c₀ : Ram} (h : ramZero.pmInit (some gapMap) = some c₀) {p : Nat}
    (hp : p < 2 ^ 64) : c₀.load.isFree p = true ↔ 257 ≤ p ∧ p < 260 := by
  have hfields := gapMap_fields
  rw [h, Option.map_some, Option.some.injEq, Prod.mk.injEq] at hfields
  have hlim : c₀.load.physicalLimit = 0x8002000 := hfields.1
  have hsize : c₀.load.bitmapSize = 4096 := by
    rw [KernelMemInfo.bitmapSize, hlim]
    decide
  have hal : UsableAligned gapMap := by unfold UsableAligned; decide
  rw [pmInit_onePage hal h hfields.2 (by rw [hsize]; decide)
    (by rw [hsize]; exact ⟨⟨0x100000, 0x4000, .usable⟩, by decide, by decide, by decide⟩) hp,
    show pageOf 0x100000 = 256 by decide]
  constructor
  · rintro ⟨⟨e, he, ⟨htype, -⟩, hlow, hhigh⟩, hout⟩
    rw [gapMap, List.mem_cons, List.mem_singleton] at he
    rcases he with rfl | rfl
    · have hlow' : 0x100000 ≤ 4096 * p := hlow
      have hhigh' : 4096 * p + 4096 ≤ 0x104000 := hhigh
      omega
    · cases htype
  · rintro ⟨hlow, hhigh⟩
    refine ⟨⟨⟨0x100000, 0x4000, .usable⟩, List.mem_cons_self, ⟨rfl, by decide⟩, ?_⟩, by omega⟩
    have hlow' : 0x100000 ≤ 4096 * p := by omega
    have hhigh' : 4096 * p + 4096 ≤ 0x104000 := by omega
    exact ⟨hlow', hhigh'⟩

theorem load64_low {m : Memory} {p : UInt64} : (m p).toNat = (load64 m p).toNat % 256 := by
  have h0 := (m p).toNat_lt
  have h1 := (m (p + 1)).toNat_lt
  have h2 := (m (p + 2)).toNat_lt
  have h3 := (m (p + 3)).toNat_lt
  have h4 := (m (p + 4)).toNat_lt
  have h5 := (m (p + 5)).toNat_lt
  have h6 := (m (p + 6)).toNat_lt
  have h7 := (m (p + 7)).toNat_lt
  rw [load64, toNat_ofNat_of_lt (by omega)]
  omega

/-- The `n` pages from `q` on are handed out, when no `n` before them are free. -/
theorem pmGet_first {k : KernelMemInfo} {n : UInt64} {q : Nat} (hpos : 0 < n.toNat)
    (hlim : k.physicalLimit.toNat + n.toNat * 4096 < 2 ^ 64)
    (hq : 4096 * q < k.physicalLimit.toNat)
    (hfree : ∀ p, q ≤ p → p < q + n.toNat → k.isFree p = true)
    (hbefore : ∀ a < q, ∃ p, a ≤ p ∧ p < a + n.toNat ∧ k.isFree p = false) :
    ∃ k', pmGet k n 0 = some (UInt64.ofNat (4096 * q), k') ∧ k'.physicalLimit = k.physicalLimit ∧
      k'.bitmap = k.bitmap ∧
      ∀ p, k'.isFree p = (k.isFree p && !decide (q ≤ p ∧ p < q + n.toNat)) := by
  have hat : (UInt64.ofNat (4096 * q)).toNat = 4096 * q := toNat_ofNat_of_lt (by omega)
  have hzero : (0 : UInt64).toNat = 0 := rfl
  have hpage : ∀ p, InRun (UInt64.ofNat (4096 * q)) n p ↔ q ≤ p ∧ p < q + n.toNat := by
    intro p
    rw [InRun, pageOf, hat]
    omega
  have hmem : UInt64.ofNat (4096 * q) ∈ pages 0 k.physicalLimit := by
    rw [mem_pages_iff rfl (by omega), UInt64.le_iff_toNat_le, UInt64.lt_iff_toNat_lt, hat, hzero]
    omega
  have hrun : bitmapFree k (UInt64.ofNat (4096 * q)) n = .free := by
    rw [bitmapFree_run (by rw [hat]; omega)]
    exact fun p hp => hfree p ((hpage p).mp hp).1 ((hpage p).mp hp).2
  obtain ⟨i, k', hget, himem, hifree, hleast⟩ := pmGet_least hmem hrun
  obtain ⟨-, hilt, hmod⟩ := (mem_pages_iff rfl (by omega)).mp himem
  rw [UInt64.lt_iff_toNat_lt] at hilt
  rw [bitmapFree_run (by omega)] at hifree
  have hle := hleast _ hmem hrun
  rw [UInt64.sub_zero, UInt64.sub_zero, UInt64.lt_iff_toNat_lt, hat] at hle
  have hnotbefore : ¬ pageOf i < q := by
    intro hlt
    obtain ⟨p, hlow, hhigh, hused⟩ := hbefore _ hlt
    rw [hifree p ⟨hlow, hhigh⟩] at hused
    cases hused
  obtain rfl : i = UInt64.ofNat (4096 * q) := by
    apply UInt64.toNat_inj.mp
    rw [hat]
    rw [pageOf] at hnotbefore
    omega
  obtain ⟨-, -, -, -, hbits, -, hlimit, hbitmap⟩ := pmGet_whole hget (by rw [hat]; omega)
  refine ⟨k', hget, hlimit, hbitmap, fun p => ?_⟩
  rw [hbits, decide_eq_decide.mpr (hpage p)]

/-- `kmalloc` when the pages from `q` on are the first that are free. -/
theorem kmalloc_first {c : Ram} {size : UInt64} {n q : Nat} (hn : (numPages size + 1).toNat = n)
    (hlim : c.load.physicalLimit.toNat + size.toNat + 8192 < 2 ^ 64)
    (hq : 4096 * q < c.load.physicalLimit.toNat)
    (hfree : ∀ p, q ≤ p → p < q + n → c.load.isFree p = true)
    (hbefore : ∀ a < q, ∃ p, a ≤ p ∧ p < a + n ∧ c.load.isFree p = false) (line : UInt64) :
    ∃ (b : Block) (k : KernelMemInfo) (c' : Ram),
      b = ⟨UInt64.ofNat (4096 * q), numPages size + 1⟩ ∧ b.Whole ∧
      c.kmallocImpl size (fun _ => 0) line = some (b.base + pageSize, c') ∧
      c'.kmem = k.store.kmem ∧ Only b k.store.mem c'.mem ∧
      Header c'.mem b.base (numPages size + 1) size ∧
      k.physicalLimit = c.load.physicalLimit ∧ k.bitmap = c.load.bitmap ∧
      ∀ p, k.isFree p = (c.load.isFree p && !decide (q ≤ p ∧ p < q + n)) := by
  subst hn
  have hat : (UInt64.ofNat (4096 * q)).toNat = 4096 * q := toNat_ofNat_of_lt (by omega)
  have hspace : InSpace (UInt64.ofNat (4096 * q)) size := by
    rw [InSpace, hat]
    omega
  have hn := @request_pages size (by omega)
  obtain ⟨k, hget, hlimit, hbitmap, hbits⟩ :=
    pmGet_first (by omega) (by omega) hq hfree hbefore
  obtain ⟨m, -, hk⟩ := Ram.kmallocImpl_get line (fun _ => 0) hget
  obtain ⟨b, k', hb, hw, hbn, -, hptr, hkmem, honly, hhead⟩ := Ram.kmallocImpl_spec hk (by
    intro p k' hget'
    rw [hget, Option.some.injEq, Prod.mk.injEq] at hget'
    rw [← hget'.1]
    exact hspace)
  rw [hbn, hget, Option.some.injEq, Prod.mk.injEq] at hb
  obtain ⟨haddr, rfl⟩ := hb
  refine ⟨b, k, _, ?_, hw, hptr ▸ hk, hkmem, honly, ?_, hlimit, hbitmap, hbits⟩
  · rw [haddr, ← hbn]
  · rw [← hbn]
    exact hhead

theorem gapMap_byte {j : Nat} (hj : j < 2 ^ 40) :
    pageOf (virtToPhys (physToVirt 0x100000 + UInt64.ofNat j)) = 256 + j / 4096 := by
  have hsplit : virtToPhys (physToVirt 0x100000 + UInt64.ofNat j) = 0x100000 + UInt64.ofNat j := by
    simp only [virtToPhys, physToVirt]
    grind
  have hbase : (0x100000 : UInt64).toNat = 1048576 := rfl
  have hof : (UInt64.ofNat j).toNat = j := toNat_ofNat_of_lt (by omega)
  rw [hsplit, pageOf, toNat_add_of_lt (by rw [hbase, hof]; omega), hbase, hof]
  omega

/-- The block of the second call is made of the kernel's pages, which the header of the first
    block marks free; the first header is damaged when they are taken. -/
theorem heap_header_lost :
    ∃ c₀ c₁ c₂ ptr₁ ptr₂, ramZero.pmInit (some gapMap) = some c₀ ∧
      (∀ p < 2 ^ 52, c₀.kmem.physicalLimit.toNat ≤ 4096 * p → c₀.load.Used p) ∧
      c₀.kmallocImpl 1 (fun _ => 0) 1 = some (ptr₁, c₁) ∧
      c₁.kmallocImpl 1 (fun _ => 0) 2 = some (ptr₂, c₂) ∧
      load64 c₂.mem (ptr₁ - pageSize + magicOff) ≠ kmemMagicNumber := by
  obtain ⟨c₀, h₀, hfields⟩ := Option.map_eq_some_iff.mp gapMap_fields
  rw [Prod.mk.injEq] at hfields
  have hlim : c₀.load.physicalLimit.toNat = 0x8002000 := congrArg UInt64.toNat hfields.1
  have hbitmap : c₀.load.bitmap = physToVirt 0x100000 := hfields.2
  have hbits := @gapMap_free c₀ h₀
  have hused : ∀ p < 2 ^ 64, ¬ (257 ≤ p ∧ p < 260) → c₀.load.isFree p = false := fun p hp hout =>
    Bool.not_eq_true _ ▸ fun h => hout ((hbits hp).mp h)
  -- the first block: pages 257 and 258
  obtain ⟨b₁, k₁, c₁, hb₁, hw₁, hk₁, hkmem₁, honly₁, hhead₁, hlim₁, hbitmap₁, hbits₁⟩ :=
    @kmalloc_first c₀ 1 2 257 (by decide) (by rw [hlim]; decide) (by rw [hlim]; decide)
      (fun p hlow hhigh => (hbits (by omega)).mpr (by omega))
      (fun a ha => ⟨a, Nat.le_refl a, by omega, hused a (by omega) (by omega)⟩) 1
  rw [hbitmap] at hbitmap₁
  have hbase₁ : b₁.base = k₁.bitmap + UInt64.ofNat 4096 := by
    rw [hbitmap₁, hb₁]
    decide
  -- its header lies on the byte behind the bitmap
  have hmagic : ∀ c : Ram, c.kmem.bitmap = k₁.bitmap →
      load64 c.mem (b₁.base + magicOff) = kmemMagicNumber → c.load.bytes 4096 = 0xEF := by
    intro c hc hmagic
    have hlow := @load64_low c.mem (b₁.base + magicOff)
    rw [hmagic, magicOff, UInt64.add_zero, hbase₁, ← hc] at hlow
    exact UInt8.toNat_inj.mp hlow
  have hbyte₁ := hmagic c₁ (by rw [hkmem₁]; rfl) hhead₁.magic
  have hlim₁' : c₁.load.physicalLimit.toNat = 0x8002000 := by
    rw [Ram.load, hkmem₁]
    exact (congrArg UInt64.toNat hlim₁).trans hlim
  have hbelow : ∀ p < 0x8000, c₁.load.isFree p = true → p = 259 := by
    intro p hp hfree
    rw [isFree_off hkmem₁ honly₁ (by omega), hbits₁, Bool.and_eq_true, Bool.not_eq_true',
      decide_eq_false_iff_not] at hfree
    · have hin := (hbits (by omega)).mp hfree.1
      omega
    · rw [hbitmap₁, Block.Holds, gapMap_byte (by omega), hb₁]
      have hpage : pageOf (UInt64.ofNat (4096 * 257)) = 257 := by decide
      rw [Block.Page, InRun, hpage]
      omega
  have hbit : ∀ r < 8, c₁.load.isFree (0x8000 + r) = (0xEF : UInt8).toBitVec.getLsbD r := by
    intro r hr
    rw [← hbyte₁, KernelMemInfo.isFree, BitArray.get, show (0x8000 + r) / 8 = 4096 by omega,
      show (0x8000 + r) % 8 = r by omega]
  -- the second block: pages 0x8000 and 0x8001
  obtain ⟨b₂, k₂, c₂, hb₂, -, hk₂, hkmem₂, honly₂, -, -, hbitmap₂, hbits₂⟩ :=
    @kmalloc_first c₁ 1 2 0x8000 (by decide) (by rw [hlim₁']; decide) (by rw [hlim₁']; decide)
      (fun p hlow hhigh => by
        obtain rfl | rfl : p = 0x8000 ∨ p = 0x8001 := by omega
        · exact hbit 0 (by decide)
        · exact hbit 1 (by decide))
      (fun a ha => by
        -- of pages `a` and `a + 1` not both are 259
        by_cases hfree : c₁.load.isFree a = true
        · have hat := hbelow a ha hfree
          refine ⟨a + 1, by omega, by omega, ?_⟩
          rw [← Bool.not_eq_true]
          intro hnext
          have hnext' := hbelow (a + 1) (by omega) hnext
          omega
        · exact ⟨a, Nat.le_refl a, by omega, Bool.not_eq_true _ ▸ hfree⟩) 2
  have hsame : k₂.bitmap = k₁.bitmap := by
    rw [hbitmap₂, Ram.load, hkmem₁]
    rfl
  refine ⟨c₀, c₁, c₂, _, _, h₀, fun p hp hle => hused p (by omega) (by
    have hle' : 0x8002000 ≤ 4096 * p := hlim ▸ hle
    omega), hk₁, hk₂, ?_⟩
  rw [UInt64.add_sub_cancel]
  intro hmagic₂
  have hbyte₂ := hmagic c₂ (by rw [hkmem₂]; exact hsame) hmagic₂
  have hfree₂ : c₂.load.isFree 0x8000 = true := by
    show (c₂.load.bytes 4096).toBitVec.getLsbD 0 = true
    rw [hbyte₂]
    rfl
  rw [isFree_off hkmem₂ honly₂ (by decide), hbits₂] at hfree₂
  · simp at hfree₂
  · rw [hsame, hbitmap₁, Block.Holds, gapMap_byte (by decide), hb₂]
    decide

end Horizon64
