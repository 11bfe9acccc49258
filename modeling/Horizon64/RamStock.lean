import Horizon64.RamPaging

/- Calls that return.

   The functions of `RamPaging` halt when `pm_get` finds nothing. With a stock of free pages in
   a row they do not: a table takes at most 8 pages of it, and appending to a list at most what
   the keeper says (`Keeper.Takes`). A `vm_map` whose pages are in one 2 MiB region makes three
   tables at most. -/
namespace Horizon64
open Words Bytes Isolation
variable {α σ : Type}

theorem Over.stock {m : Memory} {k k' : KernelMemInfo} (h : Over m k k') {n : Nat} :
    Stock k n ↔ Stock k' n := by
  have hspan : ∀ p, 4096 * p ≤ k'.physicalLimit.toNat → p < 8 * k'.bitmapSpan := by
    intro p hp
    rw [KernelMemInfo.bitmapSpan, spanOf]
    omega
  have hzero := h.isFree (hspan 0 (Nat.zero_le _))
  have hrun : ∀ a, 4096 * (a + n) ≤ k'.physicalLimit.toNat → ∀ p, p < a + n →
      k.isFree p = k'.isFree p := fun a ha p hp => h.isFree (hspan p (by omega))
  refine ⟨fun hs => ?_, fun hs => ?_⟩
  · obtain ⟨a, hlimit, hfree⟩ := hs.run
    rw [h.limit] at hlimit
    exact ⟨h.limit ▸ hs.limit, hzero ▸ hs.zero, a, hlimit,
      fun p hlow hhigh => (hrun a hlimit p hhigh) ▸ hfree p hlow hhigh⟩
  · obtain ⟨a, hlimit, hfree⟩ := hs.run
    exact ⟨h.limit ▸ hs.limit, hzero.trans hs.zero, a, h.limit ▸ hlimit,
      fun p hlow hhigh => (hrun a hlimit p hhigh).trans (hfree p hlow hhigh)⟩

theorem stock_ram (s : Machine) {n : Nat} : Stock s.ram.load n ↔ Stock s.kmem n := (over_load s).stock

/-- Appending takes at most `a` pages of the stock; `P j v` says that `j` more elements can be
    appended to `v`. -/
structure Keeper.Takes (K : Keeper α σ) (R : Owner machinePages (σ × List α)) (a : Nat)
    (P : Nat → σ → Prop) : Prop where
  append : ∀ {s k₀ v l x line j n}, (fence.star R).inv s (k₀, (v, l)) → P (j + 1) v →
    Stock s.kmem (a + n) →
    ∃ c v', K.append s.ram v x line = some (c, v') ∧ Stock c.load n ∧ P j v'
  less : ∀ {v j}, P (j + 1) v → P j v

theorem listKeeper_takes [Inhabited α] :
    (listKeeper : Keeper α (List α)).Takes noPage 0 fun _ _ => True where
  append := by
    intro s k₀ v l x line j n _ _ hs
    exact ⟨_, _, rfl, (stock_ram s).mpr (hs.mono (by omega)), trivial⟩
  less _ := trivial

/-! The vector, while its elements take less than a page. -/

theorem kmallocImpl_stock {s : Machine} {size : UInt64} {n m : Nat}
    (hm : (numPages size + 1).toNat = m) (hten : m ≤ 10) (hpos : 0 < m) (h : Stock s.kmem (m + n))
    (func : Nat → UInt8) (line : UInt64) :
    ∃ ptr s', kmallocImpl s size func line = some (ptr, s') ∧ Stock s'.kmem n := by
  subst hm
  obtain ⟨p, k, hget, -, hs⟩ := h.get hpos hten
  obtain ⟨m, hk⟩ : ∃ m, kmallocImpl s size func line = some (physToVirt p + pageSize, ⟨k, m⟩) :=
    kmallocImpl_get hget
  exact ⟨_, _, hk, hs⟩

/-- With `j` more elements the vector has less than a page of bytes, and room for four times
    as many. -/
def VecRoom (size : UInt64) (j : Nat) (v : Vec) : Prop :=
  (v.length.toNat + j) * size.toNat * 4 ≤ 4096 ∧ (v.data = 0 ∨ v.length ≠ 0)

theorem VecRoom.next {size : UInt64} {j : Nat} {v v' : Vec} (h : VecRoom size (j + 1) v)
    (hsize : 1 ≤ size.toNat) (hlen : v'.length = v.length + 1) : VecRoom size j v' := by
  have hroom := h.1
  have hle : v.length.toNat + (j + 1) ≤ (v.length.toNat + (j + 1)) * size.toNat :=
    Nat.le_mul_of_pos_right _ hsize
  have hnum : v'.length.toNat = v.length.toNat + 1 := by
    rw [hlen, toNat_add_of_lt (by rw [UInt64.toNat_one]; omega), UInt64.toNat_one]
  refine ⟨?_, Or.inr fun hz => ?_⟩
  · rw [hnum, show v.length.toNat + 1 + j = v.length.toNat + (j + 1) by omega]
    exact hroom
  · rw [hz, UInt64.toNat_zero] at hnum
    omega

theorem one_page {n : UInt64} (hpos : 0 < n.toNat) (hle : n.toNat ≤ 4096) : numPages n = 1 := by
  apply UInt64.toNat_inj.mp
  rw [numPages_toNat (by omega), UInt64.toNat_one]
  omega

section Vector
variable {size : UInt64} {enc : α → List UInt8} {dec : List UInt8 → α} {func : Nat → UInt8}
  {k : KernelMemInfo} {s : Machine} {v : Vec} {xs : List (List UInt8)} {j n : Nat}

/-- The first block of a vector, of the pages that `pm_get` finds. -/
theorem vectorGrow_first (hsize : 1 ≤ size.toNat) {p : UInt64} {k : KernelMemInfo}
    (hget : pmGet s.kmem (numPages (size * resize) + 1) 0 = some (p, k)) (line : UInt64) :
    ∃ m, vectorGrow size s vectorNew func line =
      some (⟨k, m⟩, ⟨1, size * resize, physToVirt p + pageSize⟩) := by
  obtain ⟨m, hk⟩ : ∃ m, kmallocImpl s (size * resize) func line =
      some (physToVirt p + pageSize, ⟨k, m⟩) := kmallocImpl_get hget
  have hone : (vectorNew.length + 1) * size = size := UInt64.one_mul size
  have hpos : vectorNew.capacity < size := UInt64.lt_iff_toNat_lt.mpr hsize
  refine ⟨m, ?_⟩
  rw [vectorGrow]
  dsimp only
  rw [hone, if_pos hpos, kreallocImpl, if_pos (show vectorNew.data = 0 from rfl), hk]
  rfl

/-- No page is taken where the block has as many pages as it is to have. -/
theorem vectorGrow_inPlace (h : VecInv size k s v xs) (hdata : v.data ≠ 0)
    (hpages : v.capacity < (v.length + 1) * size →
      numPages v.capacity = numPages ((v.length + 1) * size * resize)) (line : UInt64) :
    ∃ m, vectorGrow size s v func line = some (⟨s.kmem, m⟩, ⟨v.length + 1,
      if v.capacity < (v.length + 1) * size then (v.length + 1) * size * resize else v.capacity,
      v.data⟩) := by
  rw [vectorGrow]
  dsimp only
  split
  · next hgrow =>
    obtain ⟨b, hblock⟩ := h.buffer.resolve_left fun hnone => hdata hnone.1
    have hmem : b.ptr - pageSize = b.block.base := UInt64.add_sub_cancel _ _
    have hheader := (hblock.heap.headers b List.mem_cons_self).size
    rw [hblock.capacity] at hheader
    rw [kreallocImpl, if_neg hdata, ← hblock.data]
    simp only [hmem, hheader]
    rw [if_pos (hpages hgrow)]
    exact ⟨_, rfl⟩
  · exact ⟨s.mem, rfl⟩

theorem vectorGrow_room (h : VecInv size k s v xs) (hsize : 1 ≤ size.toNat) (hdata : v.data ≠ 0)
    (hroom : VecRoom size (j + 1) v) (line : UInt64) :
    ∃ m v', vectorGrow size s v func line = some (⟨s.kmem, m⟩, v') ∧ v'.data = v.data ∧
      v'.length = v.length + 1 := by
  obtain ⟨hbytes, hfirst⟩ := hroom
  have hone : (v.length.toNat + 1) * size.toNat ≤ (v.length.toNat + (j + 1)) * size.toNat :=
    Nat.mul_le_mul_right _ (by omega)
  have hpos : 1 ≤ (v.length.toNat + 1) * size.toNat :=
    Nat.le_trans hsize (Nat.le_mul_of_pos_left _ (Nat.succ_pos _))
  obtain ⟨-, hmul, hcap⟩ := grow_numbers (v := v) hsize (by omega)
  have hlen : 1 ≤ v.length.toNat :=
    Nat.pos_of_ne_zero fun hz => hfirst.resolve_left hdata (UInt64.toNat_inj.mp hz)
  have hold : 1 ≤ v.length.toNat * size.toNat :=
    Nat.le_trans hsize (Nat.le_mul_of_pos_left _ hlen)
  have hbuffer := h.room
  obtain ⟨m, hm⟩ := @vectorGrow_inPlace size func k s v xs h hdata (fun hgrow => by
    have hlt := UInt64.lt_iff_toNat_lt.mp hgrow
    rw [one_page (by omega) (by omega), one_page (by omega) (by omega)]) line
  exact ⟨m, _, hm, rfl, rfl⟩

theorem vectorGrow_stock (h : VecInv size k s v xs) (hsize : 1 ≤ size.toNat)
    (hroom : VecRoom size (j + 1) v) (hs : Stock s.kmem (2 + n)) (line : UInt64) :
    ∃ s' v', vectorGrow size s v func line = some (s', v') ∧ Stock s'.kmem n ∧
      v'.length = v.length + 1 := by
  by_cases hdata : v.data = 0
  · -- a new block, of one page and its header
    obtain ⟨hbytes, -⟩ := id hroom
    have hone : (v.length.toNat + 1) * size.toNat ≤ (v.length.toNat + (j + 1)) * size.toNat :=
      Nat.mul_le_mul_right _ (by omega)
    have hpos : 1 ≤ (v.length.toNat + 1) * size.toNat :=
      Nat.le_trans hsize (Nat.le_mul_of_pos_left _ (Nat.succ_pos _))
    obtain ⟨-, hmul, hcap⟩ := grow_numbers (v := v) hsize (by omega)
    have hpage : numPages ((v.length + 1) * size * resize) = 1 := one_page (by omega) (by omega)
    obtain ⟨ptr, s', hk, hs'⟩ := kmallocImpl_stock (m := 2) (by rw [hpage]; rfl) (by decide)
      (by decide) hs func line
    rw [vectorGrow]
    dsimp only
    split
    · exact ⟨s', _, by rw [kreallocImpl, if_pos hdata, hk]; rfl, hs', rfl⟩
    · exact ⟨s, _, rfl, hs.mono (by omega), rfl⟩
  · obtain ⟨m, v', hgrow, -, hlen⟩ :=
      @vectorGrow_room size func k s v xs j h hsize hdata hroom line
    exact ⟨_, v', hgrow, hs.mono (by omega), hlen⟩

/-- What appending is, once the vector has grown. -/
theorem vecKeeper_append (hsize : 1 ≤ size.toNat) (hsmall : size.toNat ≤ 2 ^ 32)
    (henc : ∀ a, (enc a).length = size.toNat) {k₀ : KernelMemInfo} {l : List α}
    (h : (fence.star (vecOwner size enc)).inv s (k₀, (v, l))) {line : UInt64} {s' : Machine}
    {v' : Vec} (hgrow : vectorGrow size s v func line = some (s', v')) (x : α) :
    ∃ m, (vecKeeper size enc dec func).guarded.append s.ram v x line =
      some ((⟨s'.kmem, m⟩ : Machine).ram, v') := by
  obtain ⟨hfence, ⟨-, k, hlim, hinv⟩, hapart⟩ := h
  have haway : ∀ p, s.kmem.Kept p → ¬ v.Pages p :=
    fun p hp => hapart p ((fence_kept hfence p).mp hp)
  have happ : vectorAppend size s v (enc x) func line =
      some (⟨s'.kmem, storeBytes s'.mem (v'.addr size (v'.length - 1)) (enc x)⟩, v') := by
    rw [vectorAppend, hgrow]
    rfl
  have hram := ram_vectorAppend hinv (fence_fenced hfence) haway hlim hsize
    (hinv.room_more haway hlim hsmall) func line (henc x)
  rw [happ] at hram
  exact ⟨_, hram⟩

/-- An element takes two pages, for a new block. -/
theorem vecKeeper_takes (hsize : 1 ≤ size.toNat) (hsmall : size.toNat ≤ 2 ^ 32)
    (henc : ∀ a, (enc a).length = size.toNat) :
    (vecKeeper size enc dec func).guarded.Takes (vecOwner size enc) 2 (VecRoom size) where
  append := by
    intro s k₀ v l x line j n h hroom hs
    obtain ⟨-, ⟨-, k, -, hinv⟩, -⟩ := id h
    obtain ⟨s', v', hgrow, hs', hlen⟩ :=
      @vectorGrow_stock size func _ _ _ _ _ _ hinv hsize hroom hs line
    obtain ⟨m, hram⟩ := @vecKeeper_append _ size enc dec func _ _ hsize hsmall henc _ _ h _ _ _ hgrow x
    exact ⟨_, v', hram, (stock_ram ⟨s'.kmem, _⟩).mpr hs', hroom.next hsize hlen⟩
  less := by
    intro v j h
    have hle : (v.length.toNat + j) * size.toNat ≤ (v.length.toNat + (j + 1)) * size.toNat :=
      Nat.mul_le_mul_right _ (by omega)
    exact ⟨by have hroom := h.1; omega, h.2⟩

end Vector

/-! Mapping. -/

section Map
variable {K : Keeper UInt64 σ} {R : Owner machinePages (σ × List UInt64)} {a : Nat}
  {P : Nat → σ → Prop} (hK : K.Laws R) (hP : K.Takes R a P) {s : Machine} {k₀ : KernelMemInfo}
  {as : Space σ} {l : List UInt64} (h : (fence.star (spaceOwner R)).inv s (k₀, (as, l)))
  {j n : Nat}

include hK hP h in
theorem nextTable_stock {p : List (Fin 512)} {t : UInt64}
    (hp : Radix.descend (sub s.mem) as.tables.root p = some t) (hlen : p.length < 3)
    (i : Fin 512) (line : UInt64) (hroom : P (j + 1) as.memoryList)
    (hs : Stock s.kmem (8 + a + n)) :
    ∃ c as' table, s.ram.nextTable K as (physToVirt t) i line = some (c, as', table) ∧
      Stock c.load n ∧ P j as'.memoryList := by
  cases hpres : checkNotPresent (tableEntry s.mem (physToVirt t) i) with
  | true =>
    rw [Nat.add_assoc] at hs
    obtain ⟨f, k, hget, hf, hs'⟩ := Stock.get (m := defaultPages) hs (by decide) (by decide)
    obtain ⟨s', v, l', hnext, ⟨hstock, hless⟩, -⟩ := nextTable_new hK h hp hlen hpres hget hf
      (P := fun c v => Stock c.load n ∧ P j v)
      fun m hinv => hP.append hinv hroom hs'
    exact ⟨_, _, _, hnext, hstock, hless⟩
  | false =>
    have htables : (fence.star tablesOwner).inv s (k₀, ⟨as.pml4, l⟩) :=
      star_left (T := R) (n := (as.memoryList, l)) h
    have hpaged : Paged s ⟨as.pml4, l⟩ := htables.2.1
    have ht : t ∈ (⟨as.pml4, l⟩ : AddrSpace).frames := hpaged.mem_frames (Nat.le_of_lt hlen) hp
    simp only [Ram.nextTable, ram_tableEntry htables ht (index_lt i), hpres, Bool.false_eq_true,
      if_false]
    exact ⟨_, _, _, rfl, (stock_ram s).mpr (hs.mono (by omega)), hP.less hroom⟩

/-- The leaf goes into the table that the third step gives. -/
theorem ram_mapPageEntry_eq {K : Keeper UInt64 σ} {c c₁ c₂ c₃ : Ram} {as as₁ as₂ as₃ : Space σ}
    {v pdpt pd pt : UInt64} (h₁ : c.nextTable K as as.pml4 (pml4e v) 263 = some (c₁, as₁, pdpt))
    (h₂ : c₁.nextTable K as₁ pdpt (pdpe v) 276 = some (c₂, as₂, pd))
    (h₃ : c₂.nextTable K as₂ pd (pde v) 289 = some (c₃, as₃, pt)) (physAddr flags : UInt64) :
    c.mapPageEntry K as v physAddr flags =
      some (⟨c₃.kmem, setTableEntry c₃.mem pt (pte v)
        (makeTableEntry (physAddr &&& ~~~0xFFF) flags)⟩, as₃) := by
  rw [Ram.mapPageEntry, Option.bind_eq_bind, h₁, Option.bind_some]
  dsimp only
  rw [h₂, Option.bind_some]
  dsimp only
  rw [h₃, Option.bind_some]
  exact rfl

theorem ram_nextTable_present {K : Keeper UInt64 σ} {c : Ram} {t u : UInt64} {i : Fin 512}
    (h : sub c.mem t i = some u) (as : Space σ) (line : UInt64) :
    c.nextTable K as (physToVirt t) i line = some (c, as, physToVirt u) := by
  rw [sub] at h
  simp only [Ram.nextTable]
  cases hpres : checkNotPresent (tableEntry c.mem (physToVirt t) i) with
  | true =>
    rw [hpres] at h
    cases h
  | false =>
    simp only [hpres, Bool.false_eq_true, if_false, Option.some.injEq] at h ⊢
    rw [h]

theorem ram_mapPageEntry_again {K : Keeper UInt64 σ} {c : Ram} {as : Space σ} {v t : UInt64}
    (h : Radix.descend (sub c.mem) as.tables.root (path v) = some t) (physAddr flags : UInt64) :
    c.mapPageEntry K as v physAddr flags =
      some (⟨c.kmem, setTableEntry c.mem (physToVirt t) (pte v)
        (makeTableEntry (physAddr &&& ~~~0xFFF) flags)⟩, as) := by
  have hroot : as.pml4 = physToVirt as.tables.root := (physToVirt_virtToPhys as.pml4).symm
  simp only [path, Radix.descend, Option.bind_eq_some_iff, Option.some.injEq] at h
  obtain ⟨t₁, h₁, t₂, h₂, t₃, h₃, rfl⟩ := h
  have hnext := ram_nextTable_present (K := K) h₁ as 263
  rw [← hroot] at hnext
  exact ram_mapPageEntry_eq hnext (ram_nextTable_present h₂ as 276)
    (ram_nextTable_present h₃ as 289) physAddr flags

/-- A space with the page table of `v`, a stock of `n` pages, and room for `j` more tables in
    its list. -/
def HasPageTable (R : Owner machinePages (σ × List UInt64)) (P : Nat → σ → Prop) (k₀ : KernelMemInfo)
    (j n : Nat) (v : UInt64) (r : Ram × Space σ) : Prop :=
  ∃ (s : Machine) (l : List UInt64) (t : UInt64), r.1 = s.ram ∧
    (fence.star (spaceOwner R)).inv s (k₀, (r.2, l)) ∧ Stock s.kmem n ∧ P j r.2.memoryList ∧
    Radix.descend (sub s.mem) r.2.tables.root (path v) = some t

theorem ram_descend {R : Owner machinePages (σ × List UInt64)} {s : Machine} {k₀ : KernelMemInfo}
    {as : Space σ} {l : List UInt64} (h : (fence.star (spaceOwner R)).inv s (k₀, (as, l)))
    {q : List (Fin 512)} (hq : q.length ≤ 3) :
    Radix.descend (sub s.ram.mem) as.tables.root q = Radix.descend (sub s.mem) as.tables.root q := by
  have htables : (fence.star tablesOwner).inv s (k₀, ⟨as.pml4, l⟩) :=
    star_left (T := R) (n := (as.memoryList, l)) h
  have hpaged : Paged s ⟨as.pml4, l⟩ := htables.2.1
  refine (@Paged.of_upper s ⟨s.kmem, s.ram.mem⟩ _ hpaged rfl hpaged.owned.used
    fun q t hq ht i hi => ?_).2 q hq
  exact ram_tableEntry htables (hpaged.mem_frames (Nat.le_of_lt hq) ht) hi

theorem HasPageTable.leaf {R : Owner machinePages (σ × List UInt64)} {P : Nat → σ → Prop}
    {k₀ : KernelMemInfo} {j n : Nat} {v w t : UInt64} {s : Machine} {as : Space σ}
    {l : List UInt64} (h : (fence.star (spaceOwner R)).inv s (k₀, (as, l))) (hs : Stock s.kmem n)
    (hroom : P j as.memoryList)
    (ht : Radix.descend (sub s.mem) as.tables.root (path v) = some t)
    (hw : regionNum w = regionNum v) (e : UInt64) :
    HasPageTable R P k₀ j n v
      (⟨s.ram.kmem, setTableEntry s.ram.mem (physToVirt t) (pte w) e⟩, as) := by
  have hpath : path w = path v := (path_eq_iff v w).mpr hw
  obtain ⟨s', hram, hkmem, hframed, hdesc, -⟩ := setLeaf_ram h (hpath ▸ ht) e
  refine ⟨s', l, t, hram, (hframed.right h).inv, hkmem ▸ hs, hroom, ?_⟩
  exact (hdesc (path v) (Nat.le_of_eq (path_length v))).trans ht

theorem HasPageTable.map {K : Keeper UInt64 σ} {R : Owner machinePages (σ × List UInt64)}
    {P : Nat → σ → Prop} {k₀ : KernelMemInfo} {j n : Nat} {v w : UInt64} {r : Ram × Space σ}
    (h : HasPageTable R P k₀ j n v r) (hw : regionNum w = regionNum v) (physAddr flags : UInt64) :
    ∃ r', r.1.mapPageEntry K r.2 w physAddr flags = some r' ∧ HasPageTable R P k₀ j n v r' := by
  obtain ⟨s, l, t, hram, hinv, hs, hroom, ht⟩ := h
  have hpath : path w = path v := (path_eq_iff v w).mpr hw
  have hmem : Radix.descend (sub r.1.mem) r.2.tables.root (path w) = some t := by
    rw [hram, ram_descend hinv (Nat.le_of_eq (path_length w)), hpath, ht]
  refine ⟨_, ram_mapPageEntry_again hmem physAddr flags, ?_⟩
  rw [hram]
  exact .leaf hinv hs hroom ht hw _

include hK hP h in
theorem mapPageEntry_stock (virtAddr physAddr flags : UInt64) (hroom : P (j + 3) as.memoryList)
    (hs : Stock s.kmem (3 * (8 + a) + n)) :
    ∃ r, s.ram.mapPageEntry K as virtAddr physAddr flags = some r ∧
      HasPageTable R P k₀ j n virtAddr r := by
  have hroot : as.pml4 = physToVirt as.tables.root := (physToVirt_virtToPhys as.pml4).symm
  have hnil : Radix.descend (sub s.mem) as.tables.root ([] : List (Fin 512)) = some as.tables.root :=
    Radix.descend_nil _
  obtain ⟨c₁, as₁, x₁, hnext₁, hs₁, hroom₁⟩ := nextTable_stock hK hP h hnil (by decide)
    (pml4e virtAddr) 263 hroom (hs.mono (m := 8 + a + (2 * (8 + a) + n)) (by omega))
  obtain ⟨s₁, v₁, l₁, t₁, rfl, rfl, rfl, hframed₁, hd₁, -⟩ :=
    nextTable_ram hK h hnil (by decide) hnext₁
  have h₁ := (hframed₁.right h).inv
  obtain ⟨c₂, as₂, x₂, hnext₂, hs₂, hroom₂⟩ := nextTable_stock hK hP h₁ hd₁ (by simp)
    (pdpe virtAddr) 276 hroom₁ (((stock_ram s₁).mp hs₁).mono (m := 8 + a + (8 + a + n)) (by omega))
  obtain ⟨s₂, v₂, l₂, t₂, rfl, rfl, rfl, hframed₂, hd₂, -⟩ :=
    nextTable_ram hK h₁ hd₁ (by simp) hnext₂
  have h₂ := (hframed₂.right h₁).inv
  obtain ⟨c₃, as₃, x₃, hnext₃, hs₃, hroom₃⟩ := nextTable_stock hK hP h₂ hd₂ (by simp)
    (pde virtAddr) 289 hroom₂ ((stock_ram s₂).mp hs₂)
  obtain ⟨s₃, v₃, l₃, t₃, rfl, rfl, rfl, hframed₃, hd₃, -⟩ :=
    nextTable_ram hK h₂ hd₂ (by simp) hnext₃
  have h₃ := (hframed₃.right h₂).inv
  rw [← hroot] at hnext₁
  refine ⟨_, ram_mapPageEntry_eq hnext₁ hnext₂ hnext₃ physAddr flags, ?_⟩
  exact .leaf h₃ ((stock_ram s₃).mp hs₃) hroom₃ hd₃ rfl _

include hK hP h in
theorem mapPages_stock {v m : UInt64} (physAddr flags : UInt64)
    (hregion : ∀ i ∈ pages 0 (m * pageSize), regionNum (v + i) = regionNum v)
    (hroom : P (j + 3) as.memoryList) (hs : Stock s.kmem (3 * (8 + a) + n)) :
    ∃ r, s.ram.mapPages K as v physAddr m flags = some r ∧ Stock r.1.load n ∧
      P j r.2.memoryList := by
  have hless : P j as.memoryList := hP.less (hP.less (hP.less hroom))
  cases hpages : pages 0 (m * pageSize) with
  | nil =>
    refine ⟨(s.ram, as), ?_, (stock_ram s).mpr (hs.mono (by omega)), hless⟩
    rw [Ram.mapPages, hpages, List.foldlM_nil]
    rfl
  | cons i rest =>
    -- the first page makes the tables that are missing
    rw [hpages] at hregion
    have hfirst := hregion i List.mem_cons_self
    obtain ⟨r, hr, hhas⟩ :=
      mapPageEntry_stock hK hP h (v + i) (physAddr + i) flags hroom hs
    obtain ⟨r', hr', hhas'⟩ := Folds.foldlM_returns
      (f := fun r i => r.1.mapPageEntry K r.2 (v + i) (physAddr + i) flags) (l := rest)
      (fun r' x hx hr' => hr'.map ((hregion x (List.mem_cons_of_mem _ hx)).trans hfirst.symm)
        (physAddr + x) flags) hhas
    obtain ⟨s', l', t, hram, -, hs', hroom', -⟩ := hhas'
    refine ⟨r', ?_, ?_, hroom'⟩
    · rw [Ram.mapPages, hpages, List.foldlM_cons, Option.bind_eq_bind, hr, Option.bind_some, hr']
    · rw [hram]
      exact (stock_ram s').mpr hs'

end Map

end Horizon64
