import Horizon64.Regions

/- `kmalloc`, `kfree` and `krealloc` of `common/kmalloc.c`.

   A block is a run of pages whose first page holds the `KMEM_METADATA` header;
   the pointer a caller gets is one page further on. Pointers are virtual
   addresses, and memory is keyed by them.

   1. The functions, with the header as words and bytes of memory.
   2. The header page, and the data area after it.
   3. One lemma for each function: what it does to the pages, to the header it
      leaves, and to memory outside the block. -/
namespace Horizon64
open Words Bytes

def kmemMagicNumber : UInt64 := 0xBEEFBEEF

/-- `kmalloc_checkno`, which nothing writes. -/
def kmallocCheckno : UInt64 := 0

/-! Offsets of the fields of `KMEM_METADATA`. -/

def magicOff : UInt64 := 0
def checknoOff : UInt64 := 8
def numPagesOff : UInt64 := 16
def sizeOff : UInt64 := 24
def fileNameOff : UInt64 := 32
def linenoOff : UInt64 := 544

/-- `sizeof(mem->file_name) - 1`. -/
def fileNameLen : Nat := 511

/-- The two loops of `strncpy` from index `i` on: characters up to the first NUL,
    then zero bytes. -/
def strncpyFrom (dest : UInt64) (src : Nat → UInt8) : (todo i : Nat) → Memory → Memory
  | 0, _, m => m
  | todo + 1, i, m =>
    if src i ≠ 0 then strncpyFrom dest src todo (i + 1) (write m (dest + UInt64.ofNat i) (src i))
    else memset m (dest + UInt64.ofNat i) 0 (UInt64.ofNat (todo + 1))

def strncpy (m : Memory) (dest : UInt64) (src : Nat → UInt8) (num : Nat) : Memory :=
  if dest = 0 then m else strncpyFrom dest src num 0 m

/-- `kmalloc_impl`. The pointer `mem` is never null for a page below `2^47`; where
    it is, the code only logs. -/
def kmallocImpl (s : Machine) (size : UInt64) (func : Nat → UInt8) (line : UInt64) :
    Option (UInt64 × Machine) :=
  match pmGet s.kmem (numPages size + 1) 0 with
  | none => none
  | some (p, k) =>
    let mem := physToVirt p
    let m := memset s.mem mem 0 (size + pageSize)
    let m := store64 m (mem + magicOff) kmemMagicNumber
    let m := store64 m (mem + checknoOff) kmallocCheckno
    let m := store64 m (mem + numPagesOff) (numPages size)
    let m := store64 m (mem + sizeOff) size
    let m := store64 m (mem + linenoOff) line
    let m := strncpy m (mem + fileNameOff) func fileNameLen
    some (mem + pageSize, ⟨k, m⟩)

/-- `kfree_impl`. -/
def kfreeImpl (s : Machine) (address : UInt64) : Machine :=
  let mem := address - pageSize
  if load64 s.mem (mem + magicOff) = kmemMagicNumber then
    { kmem := (pmFree s.kmem (virtToPhys mem) (load64 s.mem (mem + numPagesOff) + 1)).2
      mem := store64 s.mem (mem + magicOff) 0 }
  else s

/-- `krealloc_impl`. -/
def kreallocImpl (s : Machine) (address newSize : UInt64) (func : Nat → UInt8) (line : UInt64) :
    Option (UInt64 × Machine) :=
  if address = 0 then kmallocImpl s newSize func line
  else
    let mem := address - pageSize
    if numPages (load64 s.mem (mem + sizeOff)) = numPages newSize then
      let m := store64 s.mem (mem + sizeOff) newSize
      let m := store64 m (mem + numPagesOff) (numPages newSize)
      let m := store64 m (mem + magicOff) kmemMagicNumber
      let m := store64 m (mem + linenoOff) line
      let m := strncpy m (mem + fileNameOff) func fileNameLen
      some (address, ⟨s.kmem, m⟩)
    else
      match kmallocImpl s newSize func line with
      | none => none
      | some (newBase, s) =>
        let m := memset s.mem newBase 0 newSize
        let size := load64 m (mem + sizeOff)
        let m := if size > newSize then memcpy m newBase address newSize
          else memcpy m newBase address size
        some (newBase, kfreeImpl ⟨s.kmem, m⟩ address)

/-! The header. -/

theorem strncpyFrom_off {dest x : UInt64} {src : Nat → UInt8} {num : Nat} (hn : num < 2 ^ 64)
    (hx : num ≤ (x - dest).toNat) : ∀ (todo i : Nat) (m : Memory), i + todo = num →
      strncpyFrom dest src todo i m x = m x
  | 0, _, _, _ => rfl
  | todo + 1, i, m, hsum => by
    have hi : (UInt64.ofNat i).toNat = i := toNat_ofNat_of_lt (by omega)
    have hne : x ≠ dest + UInt64.ofNat i := by
      intro he
      have hsub : x - dest = UInt64.ofNat i := by rw [he]; grind
      rw [hsub, hi] at hx
      omega
    rw [strncpyFrom]
    split
    · rw [strncpyFrom_off hn hx todo (i + 1) _ (by omega), write, if_neg hne]
    · have hout : ¬ x - (dest + UInt64.ofNat i) < UInt64.ofNat (todo + 1) := by
        have hsplit : x - (dest + UInt64.ofNat i) = (x - dest) - UInt64.ofNat i := sub_add_eq _ _ _
        rw [UInt64.lt_iff_toNat_lt, toNat_ofNat_of_lt (by omega), hsplit, UInt64.toNat_sub_of_le,
          hi]
        · omega
        · rw [UInt64.le_iff_toNat_le, hi]; omega
      rw [memset_apply, if_neg hout]

theorem strncpy_off {m : Memory} {dest x : UInt64} {src : Nat → UInt8} {num : Nat}
    (hn : num < 2 ^ 64) (hx : num ≤ (x - dest).toNat) : strncpy m dest src num x = m x := by
  unfold strncpy
  split
  · rfl
  · exact strncpyFrom_off hn hx num 0 m (by omega)

theorem only_strncpy {b : Block} (hb : b.Whole) (m : Memory) {off : UInt64} (src : Nat → UInt8)
    {num : Nat} (hn : num < 2 ^ 64) (h : off.toNat + num ≤ b.n.toNat * 4096) :
    Only b m (strncpy m (b.base + off) src num) := by
  intro x hx
  apply strncpy_off hn
  by_contra hlt
  exact hx (holds_off hb h (by omega))

/-- The header at `mem` carries the magic number, says `n` pages are reserved, and
    that `size` bytes were asked for. -/
structure Header (m : Memory) (mem n size : UInt64) : Prop where
  magic : load64 m (mem + magicOff) = kmemMagicNumber
  pages : load64 m (mem + numPagesOff) + 1 = n
  size : load64 m (mem + sizeOff) = size

theorem Header.congr {m m' : Memory} {mem n size : UInt64} (h : Header m mem n size)
    (heq : ∀ x, x - mem < 32 → m' x = m x) : Header m' mem n size := by
  have hload : ∀ off : UInt64, off ≤ 24 → load64 m' (mem + off) = load64 m (mem + off) := by
    intro off hoff
    apply load64_congr
    intro x hx
    apply heq
    grind
  exact ⟨(hload _ (by decide)).trans h.magic, by rw [hload _ (by decide)]; exact h.pages,
    (hload _ (by decide)).trans h.size⟩

/-- The stores both functions end with leave the header they wrote. -/
theorem header_strncpy {m : Memory} {mem n size : UInt64} (h : Header m mem n size)
    (src : Nat → UInt8) (line : UInt64) :
    Header (strncpy (store64 m (mem + linenoOff) line) (mem + fileNameOff) src fileNameLen)
      mem n size := by
  apply h.congr
  intro x hx
  have hname : 511 ≤ x - (mem + 32) := by grind
  have hname' : 511 ≤ (x - (mem + 32)).toNat := UInt64.le_iff_toNat_le.mp hname
  have hline : ¬ x - (mem + 544) < 8 := by grind
  rw [fileNameOff, fileNameLen, strncpy_off (by decide) hname', linenoOff, store64_off hline]

/-- The page of the header. -/
def Block.header (b : Block) : Block := ⟨b.address, 1⟩

theorem Block.Whole.header {b : Block} (hb : b.Whole) (hn : 1 ≤ b.n.toNat) : b.header.Whole := by
  obtain ⟨hal, hend⟩ := hb
  refine ⟨hal, ?_⟩
  calc b.address.toNat + 1 * 4096 ≤ b.address.toNat + b.n.toNat * 4096 := by omega
    _ < 2 ^ 64 := hend

theorem Only.of_header {b : Block} (hn : 1 ≤ b.n.toNat) {m m' : Memory} (h : Only b.header m m') :
    Only b m m' := by
  intro x hx
  apply h
  intro hh
  apply hx
  simp only [Block.Holds, Block.Page, InRun, Block.header, UInt64.toNat_one] at hh ⊢
  omega

theorem data_off_header {b : Block} (hb : b.Whole) {x n : UInt64}
    (hsize : n.toNat + 4096 ≤ b.n.toNat * 4096) (hx : x - (b.base + pageSize) < n) :
    b.Holds x ∧ ¬ b.header.Holds x := by
  have hend := hb.2
  have hlt := UInt64.lt_iff_toNat_lt.mp hx
  have hsplit : x - b.base = pageSize + (x - (b.base + pageSize)) := sub_split _ _ _
  have hnat : (x - b.base).toNat = 4096 + (x - (b.base + pageSize)).toNat := by
    rw [hsplit, toNat_add_of_lt (by rw [pageSize_toNat]; omega), pageSize_toNat]
  rw [holds_iff hb, holds_iff (hb.header (by omega))]
  simp only [Block.header, UInt64.toNat_one]
  have hbase : ({ address := b.address, n := 1 } : Block).base = b.base := rfl
  rw [hbase]
  omega

theorem data_byte {b : Block} (hb : b.Whole) {i n : UInt64}
    (hsize : n.toNat + 4096 ≤ b.n.toNat * 4096) (hi : i < n) :
    b.Holds (b.base + pageSize + i) ∧ ¬ b.header.Holds (b.base + pageSize + i) := by
  apply data_off_header hb hsize
  rw [add_sub_left]
  exact hi

section Page
variable {b : Block} (hb : b.header.Whole) {m m' : Memory} (h : Only b.header m m')
include hb h

theorem Only.field {off : UInt64} (v : UInt64) (hoff : off ≤ linenoOff) :
    Only b.header m (store64 m' (b.base + off) v) := by
  have hle : off.toNat ≤ 544 := UInt64.le_iff_toNat_le.mp hoff
  have hroom : off.toNat + 8 ≤ 1 * 4096 := by omega
  exact h.trans (only_store64 hb m' v hroom)

theorem Only.fileName (func : Nat → UInt8) :
    Only b.header m (strncpy m' (b.base + fileNameOff) func fileNameLen) :=
  h.trans (only_strncpy hb m' func (by decide) (show 32 + 511 ≤ 1 * 4096 by decide))

end Page

/-- A header outlives writes to a block that shares no page with its own. -/
theorem Header.keep {b c : Block} (hb : b.Whole) (hn : 1 ≤ b.n.toNat)
    (hapart : Ledger.Apart Block.Page c b) {m m' : Memory} (honly : Only c m m') {n size : UInt64}
    (h : Header m b.base n size) : Header m' b.base n size := by
  apply h.congr
  intro x hx
  apply honly
  intro hcx
  refine hapart _ hcx ((holds_iff hb x).mpr ?_)
  have hx' : (x - b.base).toNat < 32 := UInt64.lt_iff_toNat_lt.mp hx
  omega

/-- The stores of `kmalloc` into a header page. -/
theorem kmalloc_stores {b : Block} (hb : b.header.Whole) (m : Memory) (size line : UInt64)
    (func : Nat → UInt8) :
    Only b.header m (strncpy (store64 (store64 (store64 (store64 (store64 m
      (b.base + magicOff) kmemMagicNumber) (b.base + checknoOff) kmallocCheckno)
      (b.base + numPagesOff) (numPages size)) (b.base + sizeOff) size)
      (b.base + linenoOff) line) (b.base + fileNameOff) func fileNameLen) ∧
    Header (strncpy (store64 (store64 (store64 (store64 (store64 m
      (b.base + magicOff) kmemMagicNumber) (b.base + checknoOff) kmallocCheckno)
      (b.base + numPagesOff) (numPages size)) (b.base + sizeOff) size)
      (b.base + linenoOff) line) (b.base + fileNameOff) func fileNameLen)
      b.base (numPages size + 1) size := by
  refine ⟨?_, header_strncpy ⟨?_, ?_, ?_⟩ func line⟩
  · exact (((((Only.refl _ m).field hb _ (by decide)).field hb _ (by decide)).field hb _
      (by decide)).field hb _ (by decide)).field hb _ (by decide) |>.fileName hb func
  · rw [load64_field _ _ _ (by decide) (by decide), load64_field _ _ _ (by decide) (by decide),
      load64_field _ _ _ (by decide) (by decide), load64_store64_self]
  · rw [load64_field _ _ _ (by decide) (by decide), load64_store64_self]
  · rw [load64_store64_self]

/-! The three functions. -/

/-- The block of a request at `p`, with the page of its header, ends below `2^64`. -/
def InSpace (p size : UInt64) : Prop :=
  p.toNat + ((size.toNat + 4095) / 4096 + 1) * 4096 < 2 ^ 64

theorem inSpace_of_limit {k : KernelMemInfo} {size : UInt64}
    (hfit : k.physicalLimit.toNat + size.toNat + 8192 ≤ 2 ^ 64) :
    ∀ p k', pmGet k (numPages size + 1) 0 = some (p, k') → InSpace p size := by
  intro p k' hget
  have hlt := UInt64.lt_iff_toNat_lt.mp (pmGet_spec hget).1
  rw [InSpace]
  omega

theorem request_pages {size : UInt64} (h : size.toNat + 8192 ≤ 2 ^ 64) :
    (numPages size + 1).toNat = (size.toNat + 4095) / 4096 + 1 := by
  have hp := numPages_toNat (x := size) (by omega)
  rw [toNat_add_of_lt (by rw [hp, UInt64.toNat_one]; omega), hp, UInt64.toNat_one]

theorem InSpace.run {p size : UInt64} (h : InSpace p size) :
    size.toNat + 8192 ≤ 2 ^ 64 ∧
      (numPages size + 1).toNat = (size.toNat + 4095) / 4096 + 1 ∧
      p.toNat + (numPages size + 1).toNat * 4096 < 2 ^ 64 := by
  rw [InSpace] at h
  have hsize : size.toNat + 8192 ≤ 2 ^ 64 := by omega
  have hn := request_pages hsize
  exact ⟨hsize, hn, by rw [hn]; exact h⟩

theorem kmallocImpl_get {s : Machine} {size line p : UInt64} {func : Nat → UInt8}
    {k : KernelMemInfo} (h : pmGet s.kmem (numPages size + 1) 0 = some (p, k)) :
    ∃ m, kmallocImpl s size func line = some (physToVirt p + pageSize, ⟨k, m⟩) := by
  rw [kmallocImpl, h]
  exact ⟨_, rfl⟩

/-- `kmalloc` reserves a new block, writes inside it only, and leaves its header
    in the first page and zero bytes in the rest. -/
theorem kmallocImpl_spec {s s' : Machine} {size line ptr : UInt64} {func : Nat → UInt8}
    (h : kmallocImpl s size func line = some (ptr, s'))
    (hfit : ∀ p k, pmGet s.kmem (numPages size + 1) 0 = some (p, k) → InSpace p size) :
    ∃ b : Block, pmGet s.kmem b.n 0 = some (b.address, s'.kmem) ∧ b.Whole ∧
      b.n = numPages size + 1 ∧ size.toNat + 4096 ≤ b.n.toNat * 4096 ∧
      ptr = b.base + pageSize ∧ Only b s.mem s'.mem ∧ Header s'.mem b.base b.n size ∧
      ∀ x, x - ptr < size → s'.mem x = 0 := by
  rw [kmallocImpl] at h
  split at h
  · cases h
  · next p k hget =>
    simp only [Option.some.injEq, Prod.mk.injEq] at h
    obtain ⟨rfl, rfl⟩ := h
    obtain ⟨_, hn, hend⟩ := (hfit p k hget).run
    obtain ⟨_, hal, _⟩ := pmGet_whole hget hend
    obtain ⟨b, rfl, hbn⟩ : ∃ b : Block, b.address = p ∧ b.n = numPages size + 1 :=
      ⟨⟨p, _⟩, rfl, rfl⟩
    rw [← hbn] at hget hend hn
    rw [show physToVirt b.address = b.base from rfl]
    have hw : b.Whole := ⟨hal, hend⟩
    have hone : 1 ≤ b.n.toNat := by omega
    have hhdr := hw.header hone
    have hroom : size.toNat + 4096 ≤ b.n.toNat * 4096 := by omega
    have hfits : size.toNat + 4096 < 2 ^ 64 := by omega
    have hsum : (size + pageSize).toNat = size.toNat + 4096 := toNat_add_of_lt hfits
    have hset : Only b s.mem (memset s.mem b.base 0 (size + pageSize)) := by
      have hlen : (0 : UInt64).toNat + (size + pageSize).toNat ≤ b.n.toNat * 4096 := by
        rw [hsum, UInt64.toNat_zero, Nat.zero_add]
        exact hroom
      have honly := only_memset hw s.mem 0 hlen
      rw [UInt64.add_zero] at honly
      exact honly
    obtain ⟨honly, hheader⟩ := kmalloc_stores hhdr (memset s.mem b.base 0 (size + pageSize))
      size line func
    rw [← hbn] at hheader
    dsimp only
    refine ⟨b, hget, hw, hbn, hroom, rfl, hset.trans (honly.of_header hone), hheader, ?_⟩
    intro x hx
    obtain ⟨hin, hout⟩ := data_off_header hw hroom hx
    have hlt : x - b.base < size + pageSize := by
      have hx' := UInt64.lt_iff_toNat_lt.mp hx
      have hsub : (x - b.base).toNat = (x - (b.base + pageSize)).toNat + 4096 := by
        rw [show x - b.base = (x - (b.base + pageSize)) + pageSize by grind]
        exact toNat_add_of_lt (Nat.lt_trans (Nat.add_lt_add_right hx' _) hfits)
      rw [UInt64.lt_iff_toNat_lt, hsum, hsub]
      exact Nat.add_lt_add_right hx' _
    rw [honly x hout, memset_apply, if_pos hlt]

theorem kfreeImpl_spec {s : Machine} {b : Block} {size : UInt64}
    (h : Header s.mem b.base b.n size) :
    kfreeImpl s (b.base + pageSize) =
      ⟨(pmFree s.kmem b.address b.n).2, store64 s.mem (b.base + magicOff) 0⟩ := by
  have hmem : b.base + pageSize - pageSize = b.base := UInt64.add_sub_cancel _ _
  have hphys : virtToPhys b.base = b.address := virtToPhys_physToVirt _
  simp only [kfreeImpl, hmem, h.magic, if_true, h.pages, hphys]

theorem header_of_data {b : Block} (hw : b.Whole) {n : UInt64}
    (hroom : n.toNat + 4096 ≤ b.n.toNat * 4096) {m m' : Memory} {size : UInt64}
    (h : Header m b.base b.n size) (heq : ∀ x, ¬ x - (b.base + pageSize) < n → m' x = m x) :
    Header m' b.base b.n size := by
  apply h.congr
  intro x hx
  apply heq
  intro hlt
  obtain ⟨_, hout⟩ := data_off_header hw hroom hlt
  apply hout
  apply (holds_iff (hw.header (by omega)) x).mpr
  have hx' : (x - b.base).toNat < 32 := UInt64.lt_iff_toNat_lt.mp hx
  show (x - b.base).toNat < 1 * 4096
  omega

theorem memcpy_data {b c : Block} (hb : b.Whole) (hc : c.Whole)
    (hapart : Ledger.Apart Block.Page c b) {n : UInt64} (hbn : n.toNat + 4096 ≤ b.n.toNat * 4096)
    (hcn : n.toNat + 4096 ≤ c.n.toNat * 4096) (m : Memory) {i : UInt64} (hi : i < n) :
    memcpy m (c.base + pageSize) (b.base + pageSize) n (c.base + pageSize + i) =
      m (b.base + pageSize + i) := by
  rw [memcpy_apply]
  · have hoff : c.base + pageSize + i - (c.base + pageSize) = i := add_sub_left _ _
    rw [hoff, if_pos hi]
  · intro i j hi hj heq
    have hin := (data_byte hb hbn hi).1
    rw [heq] at hin
    exact hapart _ (data_byte hc hcn hj).1 hin

/-- `krealloc` copies as many bytes as both sizes have. -/
theorem memcpy_min (dst src old newSize : UInt64) :
    ∃ n : UInt64, (∀ m : Memory, (if old > newSize then memcpy m dst src newSize
        else memcpy m dst src old) = memcpy m dst src n) ∧
      n.toNat ≤ old.toNat ∧ n.toNat ≤ newSize.toNat ∧ ∀ i, i < old → i < newSize → i < n := by
  by_cases hgt : old > newSize
  · refine ⟨newSize, fun m => if_pos hgt, ?_, Nat.le_refl _, fun i _ hi => hi⟩
    exact Nat.le_of_lt (UInt64.lt_iff_toNat_lt.mp hgt)
  · refine ⟨old, fun m => if_neg hgt, Nat.le_refl _, ?_, fun i hi _ => hi⟩
    exact UInt64.le_iff_toNat_le.mp (UInt64.not_lt.mp hgt)

section Realloc
variable {s : Machine} {b : Block} {old newSize line : UInt64} {func : Nat → UInt8}
  (hw : b.Whole) (hone : 1 ≤ b.n.toNat) (h : Header s.mem b.base b.n old)
  (hptr : b.base + pageSize ≠ 0)
include hw hone h hptr

/-- With the same number of pages, `krealloc` rewrites the header in place. -/
theorem kreallocImpl_inPlace (hn : b.n = numPages old + 1)
    (heq : numPages old = numPages newSize) {ptr : UInt64} {s' : Machine}
    (hre : kreallocImpl s (b.base + pageSize) newSize func line = some (ptr, s')) :
    ptr = b.base + pageSize ∧ s'.kmem = s.kmem ∧ Only b.header s.mem s'.mem ∧
      Header s'.mem b.base b.n newSize := by
  have hmem : b.base + pageSize - pageSize = b.base := UInt64.add_sub_cancel _ _
  have hhdr := hw.header (by omega)
  rw [kreallocImpl, if_neg hptr] at hre
  simp only [hmem, h.size, heq, if_true] at hre
  obtain ⟨rfl, rfl⟩ := Prod.mk.inj (Option.some.inj hre)
  dsimp only
  refine ⟨rfl, rfl, ?_, ?_⟩
  · exact ((((Only.refl _ s.mem).field hhdr _ (by decide)).field hhdr _ (by decide)).field hhdr _
      (by decide)).field hhdr _ (by decide) |>.fileName hhdr func
  · rw [hn, heq]
    refine header_strncpy ⟨load64_store64_self _ _ _, ?_, ?_⟩ func line
    · rw [load64_field _ _ _ (by decide) (by decide), load64_store64_self]
    · rw [load64_field _ _ _ (by decide) (by decide), load64_field _ _ _ (by decide) (by decide),
        load64_store64_self]

/-- Otherwise it reserves a new block `c`, copies what fits, and frees `b`. -/
theorem kreallocImpl_moved (hused : ∀ p, b.Page p → s.kmem.Used p)
    (hne : numPages old ≠ numPages newSize)
    (hfit : ∀ p k, pmGet s.kmem (numPages newSize + 1) 0 = some (p, k) → InSpace p newSize)
    {ptr : UInt64} {s' : Machine}
    (hre : kreallocImpl s (b.base + pageSize) newSize func line = some (ptr, s')) :
    ∃ (c : Block) (k : KernelMemInfo), pmGet s.kmem c.n 0 = some (c.address, k) ∧ c.Whole ∧
      c.n = numPages newSize + 1 ∧ newSize.toNat + 4096 ≤ c.n.toNat * 4096 ∧
      ptr = c.base + pageSize ∧ s'.kmem = (pmFree k b.address b.n).2 ∧
      Ledger.Apart Block.Page c b ∧
      (∀ x, ¬ c.Holds x → ¬ b.Holds x → s'.mem x = s.mem x) ∧
      Header s'.mem c.base c.n newSize ∧
      (old.toNat + 4096 ≤ b.n.toNat * 4096 → ∀ i, i < old → i < newSize →
        s'.mem (ptr + i) = s.mem (b.base + pageSize + i)) := by
  have hmem : b.base + pageSize - pageSize = b.base := UInt64.add_sub_cancel _ _
  have hhdr := hw.header (by omega)
  rw [kreallocImpl, if_neg hptr] at hre
  simp only [hmem, h.size, if_neg hne] at hre
  split at hre
  · cases hre
  · next newBase s₁ hk =>
    obtain ⟨c, hget, hcw, hcn, hcroom, rfl, honly, hhead, hzero⟩ := kmallocImpl_spec hk hfit
    -- the new block is made of pages that were free, so it has none of the old block's
    obtain ⟨_, _, _, hfree, _⟩ := pmGet_whole hget hcw.2
    have hapart : Ledger.Apart Block.Page c b :=
      fun p hc hb => not_used_of_free (hfree p hc) (hused p hb)
    -- `m₂` is memory after the `memset`, `m₃` after the copy of `n` bytes
    obtain ⟨m₂, hm₂⟩ : ∃ m, m = memset s₁.mem (c.base + pageSize) 0 newSize := ⟨_, rfl⟩
    have hset : Only c s₁.mem m₂ :=
      hm₂ ▸ only_memset hcw s₁.mem 0 (by rw [pageSize_toNat]; omega)
    have hhead₂ : Header m₂ c.base c.n newSize :=
      header_of_data hcw hcroom hhead (fun x hx => by rw [hm₂, memset_apply, if_neg hx])
    have hold := Header.keep hw hone hapart hset (Header.keep hw hone hapart honly h)
    rw [← hm₂] at hre
    simp only [hold.size] at hre
    obtain ⟨n, hn, hnold, hnnew, hmin⟩ := memcpy_min (c.base + pageSize) (b.base + pageSize)
      old newSize
    rw [hn] at hre
    obtain ⟨m₃, hm₃⟩ : ∃ m, m = memcpy m₂ (c.base + pageSize) (b.base + pageSize) n := ⟨_, rfl⟩
    have hcopy : Only c m₂ m₃ := hm₃ ▸ only_memcpy hcw _ _ (by rw [pageSize_toNat]; omega)
    have hhead₃ : Header m₃ c.base c.n newSize :=
      header_of_data (n := n) hcw (by omega) hhead₂ (fun x hx => by rw [hm₃, memcpy_off _ hx])
    rw [← hm₃, kfreeImpl_spec (Header.keep hw hone hapart hcopy hold)] at hre
    obtain ⟨rfl, rfl⟩ := Prod.mk.inj (Option.some.inj hre)
    dsimp only
    have hfreed : Only b m₃ (store64 m₃ (b.base + magicOff) 0) :=
      only_store64 hw _ 0 (show 0 + 8 ≤ _ by omega)
    refine ⟨c, s₁.kmem, hget, hcw, hcn, hcroom, rfl, rfl, hapart, ?_, ?_, ?_⟩
    · intro x hcx hbx
      rw [hfreed x hbx, hcopy x hcx, hset x hcx, honly x hcx]
    · exact Header.keep hcw (by omega) hapart.symm hfreed hhead₃
    · intro hroom i hi hi'
      have hin := hmin i hi hi'
      have hcx : c.Holds (c.base + pageSize + i) := (data_byte hcw (by omega) hin).1
      have hbx : b.Holds (b.base + pageSize + i) := (data_byte hw (by omega) hin).1
      have hcb : ¬ c.Holds (b.base + pageSize + i) := fun hc => hapart _ hc hbx
      rw [hfreed _ (fun hb => hapart _ hcx hb), hm₃,
        memcpy_data hw hcw hapart (by omega) (by omega) m₂ hin, hset _ hcb, honly _ hcb]

end Realloc

end Horizon64
