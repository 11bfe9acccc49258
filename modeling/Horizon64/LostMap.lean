import Horizon64.LostFrames
import Horizon64.Mirror

/- A memory map on which `vm_init` loses the direct map.

   The limit is 8 KiB past 384 MiB, so the byte behind the bitmap has the bit of the last page
   but one. The PDPT of the direct map is made right behind the bitmap, and that byte is the
   low byte of its first entry. All other memory is used up when the page table of the kernel's
   own page is made of the last 8 usable pages, and marking them used clears the present bit
   of that entry.

   1. The kernel's tables and records below the lower limit of `LostFrames`.
   2. `pm_init` and the PML4.
   3. The passes of `vm_init`, with the lower limit and so with the real one.
   4. The page table of the kernel's page. -/
namespace Horizon64
open Words Bytes Isolation

/-- `n` tables, those of `S`, and records with room for `j` more. -/
def Kernel.Low (k₀ : KernelMemInfo) (s : Kernel Vec Vec) (j n : Nat)
    (S : List (Fin 512) → Prop) : Prop :=
  ∃ (m : Machine) (maps : List MemMap) (l : List UInt64), s.On listOwner recordsOwner k₀ m maps l ∧
    Exact s.ram s.kernelAddrSpace n S ∧ VecRoom 32 j s.globalMemMap ∧ s.globalMemMap.data ≠ 0

section Kernel
variable (func : Nat → UInt8) {k₀ : KernelMemInfo} (hk : LowFence k₀) {m m' : Machine}
  {s : Kernel Vec Vec} {maps maps' : List MemMap} {l : List UInt64} {gm : Vec} {j n : Nat}
  {S : List (Fin 512) → Prop}

theorem Kernel.On.reached (h : s.On listOwner recordsOwner k₀ m maps l) {r : Ram × Space Vec}
    (hr : Reached m s.kernelAddrSpace l n S r) (hroom : VecRoom 32 j s.globalMemMap)
    (hdata : s.globalMemMap.data ≠ 0) :
    Kernel.Low k₀ ⟨r.1, r.2, s.globalMemMap⟩ j n S := by
  obtain ⟨m', v, l', rfl, hframed, hexact⟩ := hr
  obtain ⟨m'', l'', hon, -⟩ := h.space_update ⟨m', v, l', rfl, hframed, rfl⟩
  exact ⟨m'', maps, l'', hon, hexact, hroom, hdata⟩

theorem Kernel.On.record_kept (h : s.On listOwner recordsOwner k₀ m maps l)
    (hframed : Framed recordsOwner m (s.globalMemMap, maps) m' (gm, maps')) {q : List (Fin 512)}
    (hq : q.length ≤ 3) :
    Radix.descend (sub m'.ram.mem) s.kernelAddrSpace.tables.root q =
      Radix.descend (sub s.ram.mem) s.kernelAddrSpace.tables.root q := by
  have hon := (h.records_framed hframed).1
  rw [h.ram, ram_descend h.space hq, ram_descend hon.space hq]
  exact (tables_kept hframed h.both).2.2 q hq

include hk

theorem Kernel.Low.record (h : s.Low k₀ (j + 1) n S) (map : MemMap) :
    ∃ t, (memMaps func).append s.ram s.globalMemMap map 474 = some t ∧
      Kernel.Low k₀ { s with ram := t.1, globalMemMap := t.2 } j n S := by
  obtain ⟨m, maps, l, hon, hexact, hroom, hdata⟩ := h
  obtain ⟨-, ⟨-, k, -, hvec⟩, -⟩ := id hon.shown
  obtain ⟨mem, gm, hgrow, hdata', hlen⟩ :=
    @vectorGrow_room 32 func k m _ _ j hvec (by decide) hdata hroom 474
  obtain ⟨mem', happ⟩ := @vecKeeper_append _ 32 MemMap.bytes MemMap.ofBytes func m _ (by decide)
    (by decide) MemMap.bytes_length _ _ hon.shown _ _ _ hgrow map
  obtain ⟨m', hram, hframed⟩ := (memMaps_laws func).append hon.shown happ
  rw [← hon.ram, hram] at happ
  refine ⟨_, happ, m', maps ++ [map], l, (hon.records_framed hframed).1, ?_,
    hroom.next (by decide) hlen, hdata'.trans_ne hdata⟩
  · refine ⟨?_, hexact.pml4, hexact.list, fun q hne hq => ?_, ?_, fun p hp => ?_⟩
    · rw [← hram, freeBelow_ram]
      have hfree := hexact.free
      rw [hon.ram, freeBelow_ram] at hfree
      exact hfree
    · rw [hon.record_kept hframed hq]
      exact hexact.tables q hne hq
    · rw [hon.record_kept hframed (by simp)]
      exact hexact.pdpt
    · rw [hk.last_framed hon.shown hframed hp, ← hon.ram]
      exact hexact.last p hp

theorem Kernel.Low.pages_again (h : s.Low k₀ j n S) (map : MemMap)
    (hS : ∀ i < map.numPages.toNat, S (path (map.virtAddr + pageSize * UInt64.ofNat i))) :
    ∃ r, s.ram.mapPages (memoryList func) s.kernelAddrSpace map.virtAddr map.physAddr map.numPages
        map.flags = some r ∧ Kernel.Low k₀ ⟨r.1, r.2, s.globalMemMap⟩ j n S := by
  obtain ⟨m, maps, l, hon, hexact, hroom, hdata⟩ := h
  rw [hon.ram] at hexact ⊢
  have hstart : Reached m s.kernelAddrSpace l n S (m.ram, s.kernelAddrSpace) :=
    ⟨m, _, l, rfl, .refl hon.space.2.1, hexact⟩
  obtain ⟨r, hr, hreached⟩ :=
    hstart.pages_again func hk hon.space map.physAddr map.flags hS
  exact ⟨r, hr, hon.reached hreached hroom hdata⟩

theorem Kernel.Low.map_again (h : s.Low k₀ (j + 1) n S) (map : MemMap)
    (hS : ∀ i < map.numPages.toNat, S (path (map.virtAddr + pageSize * UInt64.ofNat i))) :
    ∃ r, vmMap (memoryList func) (memMaps func) s none map.virtAddr map.physAddr map.numPages
        map.flags = some r ∧ r.1.Low k₀ j n S := by
  obtain ⟨t, happ, hlow⟩ := h.record func hk map
  obtain ⟨u, hu, hlow'⟩ := hlow.pages_again func hk map hS
  exact ⟨_, vmMap_none.mpr ⟨t, u, happ, hu, rfl⟩, hlow'⟩

theorem first_map (hon : s.On listOwner recordsOwner k₀ m [] [])
    (hfresh : Fresh s.ram s.kernelAddrSpace fun p => (0x100 ≤ p ∧ p < 0x102) ∨
      (0x203 ≤ p ∧ p < 0x20B) ∨ (0x309 ≤ p ∧ p < 0x92B)) (hrecords : s.globalMemMap = vectorNew)
    {k : UInt64} (hpos : 0 < k.toNat) (hk' : k.toNat ≤ 98306) (flags : UInt64) :
    ∃ r, vmMap (memoryList func) (memMaps func) s none memVirtOffset 0 k flags = some r ∧
      r.1.Low k₀ 31 (regionsTo k.toNat + 2) (DirectTables (regionsTo k.toNat)) := by
  have hlimit := hk.limit_toNat hon.inv.1
  obtain ⟨map, hmap⟩ : ∃ map : MemMap, map = ⟨memVirtOffset, 0, flags, k⟩ := ⟨_, rfl⟩
  have hshown := hon.shown
  rw [hrecords] at hshown
  have hfree := hfresh.free
  rw [hon.ram, freeBelow_ram] at hfree
  obtain ⟨k₁, mem, happ, hfree'⟩ := FreeBelow.append MemMap.ofBytes func (m := m) hfree
    (by decide) (by decide) MemMap.bytes_length hshown (by decide) (q := 0x100) (by omega)
    (by omega) (by omega) (by omega) map 474
  obtain ⟨m', hram, hframed⟩ := (memMaps_laws func).append hshown happ
  rw [hram, ← hon.ram, ← hrecords] at happ
  rw [← hrecords] at hframed
  have hon' := (hon.records_framed hframed).1
  have hfresh' : Fresh m'.ram s.kernelAddrSpace fun p =>
      (0x203 ≤ p ∧ p < 0x20B) ∨ (0x309 ≤ p ∧ p < 0x92B) := by
    refine ⟨?_, hfresh.pml4, hfresh.list, fun q hne hq => ?_, fun p hp => ?_⟩
    · rw [← hram, freeBelow_ram]
      exact hfree'.congr fun p => by omega
    · rw [hon.record_kept hframed hq]
      exact hfresh.tables q hne hq
    · rw [hk.last_framed hon.shown hframed hp, ← hon.ram]
      exact hfresh.last p hp
  obtain ⟨r, hr, hreached⟩ := hfresh'.page func hk hon'.space
    (0 + pageSize * UInt64.ofNat 0) flags
  obtain ⟨r', hr', hreached'⟩ := direct_pass func hk hon'.space hpos hk' hr hreached
  have hdata : (⟨1, 32 * resize, physToVirt (frame 0x100) + pageSize⟩ : Vec).data ≠ 0 := by decide
  have hroom : VecRoom 32 31 ⟨1, 32 * resize, physToVirt (frame 0x100) + pageSize⟩ :=
    ⟨by decide, Or.inr (by decide)⟩
  rw [hmap] at happ
  exact ⟨_, vmMap_none.mpr ⟨_, r', happ, hr', rfl⟩, hon'.reached hreached' hroom hdata⟩

end Kernel

/-! The last page table, with the real limit. -/

theorem ListAt.append_room {n : Nat} {v : Vec} (h : ListAt n v) (hn : n < 2 ^ 32)
    (hroom : (n + 1) * 8 ≤ tableCapacity n) (func : Nat → UInt8) (c : Ram) (x line : UInt64) :
    ∃ w, (memoryList func).append c v x line = some (⟨c.kmem, storeBytes c.mem
      (physToVirt (frame 0x30A) + UInt64.ofNat (n * 8)) (wordBytes x)⟩, w) := by
  obtain ⟨hdata, hlength, hcapacity⟩ := h
  have height : (8 : UInt64).toNat = 8 := rfl
  obtain ⟨-, hmul, -⟩ := @grow_numbers 8 v (by decide)
    (by rw [hlength, height]; omega)
  have hless : ¬ v.capacity < (v.length + 1) * 8 := by
    rw [UInt64.lt_iff_toNat_lt, hcapacity, hmul, hlength, height]
    omega
  have hlast : v.length + 1 - 1 = UInt64.ofNat n := by
    rw [UInt64.add_sub_cancel, ← hlength, UInt64.ofNat_toNat]
  refine ⟨{ v with length := v.length + 1 }, ?_⟩
  show Ram.vectorAppend 8 c v (wordBytes x) func line = _
  rw [Ram.vectorAppend, Ram.vectorGrow]
  dsimp only
  rw [if_neg hless, Option.map_some]
  dsimp only [Vec.addr]
  rw [hlast, hdata, UInt64.ofNat_mul]
  rfl

/-- The memory before the last table. -/
structure BeforeLast (c : Ram) (as : Space Vec) : Prop where
  limit : c.kmem.physicalLimit = 0x18002000
  bitmap : c.kmem.bitmap = aboveMib 0x100000
  free : ∀ p < 0x18000, c.load.isFree p = true ↔ 0x17FF9 ≤ p
  list : ListAt 197 as.memoryList
  pdpt : sub c.mem (frame 0x301) 256 = some (frame 0x203)
  pd : (sub c.mem (frame 0x203) 0).isSome
  kernel : sub c.mem (frame 0x923) 0 = none

theorem sub_word (m : Memory) {r w : Nat} (i : Fin 512) (hw : w = 4096 * r + 8 * i.val) :
    sub m (frame (r + 256)) i = if checkNotPresent (load64 m (aboveMib w)) then none
      else some (load64 m (aboveMib w) &&& ~~~0xFFF) := by
  rw [hw, ← aboveMib_entry, ← aboveMib_page, Nat.add_comm]
  rfl

/-- The entry of the PDPT loses its present bit. -/
theorem BeforeLast.lost {c : Ram} {as : Space Vec} (h : BeforeLast c as) (func : Nat → UInt8) :
    ∃ (c' : Ram) (w : Vec), c.nextTable (memoryList func) as (physToVirt (frame 0x923)) (0 : Fin 512)
        289 = some (c', ⟨as.pml4, w⟩, physToVirt (frame 0x17FF9)) ∧
      c'.kmem.physicalLimit = 0x18002000 ∧ ∀ (i : Fin 512) (e : UInt64),
        let m := setTableEntry c'.mem (physToVirt (frame 0x17FF9)) i e
        sub m (frame 0x301) 256 = some (frame 0x203) ∧ sub m (frame 0x203) 0 = none := by
  have hlim : c.load.physicalLimit.toNat = 0x18002000 := congrArg UInt64.toNat h.limit
  have hbits0 : aboveMib 0x100000 + UInt64.ofNat 0x3000 = aboveMib 0x103000 := aboveMib_add _ _
  have hused : ∀ p < 0x17FF9, c.load.isFree p = false := fun p hp => Bool.not_eq_true _ ▸ fun hf => by
    have hin := (h.free p (by omega)).mp hf
    omega
  have hlast : c.load.isFree 0x18000 = true := by
    have hpd := h.pd
    rw [sub_word (r := 0x103) (w := 0x103000) c.mem 0 rfl] at hpd
    have hbit := word_bit c 0x3000
    rw [h.bitmap, hbits0] at hbit
    split at hpd
    · cases hpd
    · next hpres =>
      rw [Bool.eq_false_iff.mpr hpres] at hbit
      exact hbit
  have hnot : checkNotPresent (tableEntry c.mem (physToVirt (frame 0x923)) (0 : Fin 512)) = true := by
    by_contra hpres
    have hnone := h.kernel
    rw [sub_of_present (Bool.eq_false_iff.mpr hpres)] at hnone
    cases hnone
  obtain ⟨k, hlimit, hbitmap, hbits, hnext⟩ := nextTable_first (memoryList func) as (q := 0x17FF9) 289
    hnot (by decide) (by rw [hlim]; decide) (by rw [hlim]; decide)
    (fun p hlow hhigh => by
      rcases Nat.lt_or_ge p 0x18000 with hp | hp
      · exact (h.free p hp).mpr hlow
      · obtain rfl : p = 0x18000 := by omega
        exact hlast)
    (fun a ha => ⟨a, Nat.le_refl a, by omega, hused a ha⟩)
  obtain ⟨w, happ⟩ := h.list.append_room (by decide) (by decide) func ⟨k.store.kmem, setTableEntry
    (memset k.store.mem (physToVirt (frame 0x17FF9)) 0 (pageSize * defaultPages))
      (physToVirt (frame 0x923)) (0 : Fin 512) (makeTableEntry (frame 0x17FF9) vmUsermode)⟩
    (frame 0x17FF9) 289
  rw [happ, Option.map_some] at hnext
  refine ⟨_, w, hnext, hlimit.trans h.limit, fun i e => ?_⟩
  have hi := i.isLt
  have hk : k.bitmap = aboveMib 0x100000 := hbitmap.trans h.bitmap
  -- below 4 MiB only the list and the bitmap changed
  obtain ⟨m, hm⟩ : ∃ m, m = setTableEntry (storeBytes (setTableEntry (memset k.store.mem
    (physToVirt (frame 0x17FF9)) 0 (pageSize * defaultPages)) (physToVirt (frame 0x923)) (0 : Fin 512)
      (makeTableEntry (frame 0x17FF9) vmUsermode)) (physToVirt (frame 0x30A) + UInt64.ofNat (197 * 8))
        (wordBytes (frame 0x17FF9))) (physToVirt (frame 0x17FF9)) i e := ⟨_, rfl⟩
  have hoff : ∀ y < 0x300000, ¬ (0x20A628 ≤ y ∧ y < 0x20A630) →
      m (aboveMib y) = k.store.mem (aboveMib y) := by
    intro y hy hlist
    have hwords : (wordBytes (frame 0x17FF9)).length = 8 := wordBytes_length _
    have height : (8 : UInt64).toNat = 8 := rfl
    have hpt : physToVirt (frame 0x17FF9) = aboveMib (4096 * 0x17EF9) := by decide
    have hpd : physToVirt (frame 0x923) = aboveMib 0x823000 := by decide
    have hblock : physToVirt (frame 0x30A) + UInt64.ofNat (197 * 8) = aboveMib 0x20A628 := by decide
    rw [hm, hpt, hpd, aboveMib_set, aboveMib_set, store64_off, storeBytes_off,
      table_off _ (by omega) (by decide) (by decide) (by omega) (by omega)]
    · rw [hblock, aboveMib_sub (by omega) (by decide), hwords]
      omega
    · rw [UInt64.lt_iff_toNat_lt, aboveMib_sub (by omega) (by omega), height]
      omega
  dsimp only
  rw [← hm, ← h.pdpt]
  refine ⟨?_, ?_⟩
  · have hsame : load64 m (aboveMib 0x201800) = load64 c.mem (aboveMib 0x201800) := by
      refine aboveMib_word fun y hlow hhigh => ?_
      rw [hoff y (by omega) (by omega)]
      refine taken_byte hbitmap hbits ?_
      rw [h.bitmap, aboveMib_sub (by omega) (by decide)]
      omega
    rw [sub_word (r := 0x201) (w := 0x201800) m 256 rfl, hsame,
      ← sub_word (r := 0x201) (w := 0x201800) c.mem 256 rfl]
  · have hbit := word_bit ⟨k.store.kmem, m⟩ 0x3000
    have hclear : (⟨k.store.kmem, m⟩ : Ram).load.isFree (8 * 0x3000) = false := by
      rw [@isFree_same k ⟨k.store.kmem, m⟩ rfl (8 * 0x3000) (by decide) ?_, hbits]
      · simp
      · rw [hk, hbits0]
        exact hoff 0x103000 (by decide) (by decide)
    rw [hclear, show (⟨k.store.kmem, m⟩ : Ram).kmem.bitmap = aboveMib 0x100000 from hk, hbits0,
      Bool.false_eq, Bool.not_eq_false'] at hbit
    rw [sub_word (r := 0x103) (w := 0x103000) m 0 rfl, hbit]
    rfl

/-- The PDPT and the page directory of the kernel's pages take all that is free below the lower
    limit. -/
theorem Kernel.Low.upper_tables {k₀ : KernelMemInfo} (hk : LowFence k₀) {s : Kernel Vec Vec} {j : Nat}
    (h : s.Low k₀ j 195 (DirectTables 193)) (func : Nat → UInt8) :
    ∃ c₁ as₁ c₂ as₂, s.ram.nextTable (memoryList func) s.kernelAddrSpace s.kernelAddrSpace.pml4
        (511 : Fin 512) 263 = some (c₁, as₁, physToVirt (frame 0x91B)) ∧
      c₁.nextTable (memoryList func) as₁ (physToVirt (frame 0x91B)) (510 : Fin 512) 276 =
        some (c₂, as₂, physToVirt (frame 0x923)) ∧
      as₂.pml4 = physToVirt (frame 0x301) ∧
      ∀ {c}, Raised k₀.physicalLimit 0x18002000 c₂ c → BeforeLast c as₂ := by
  obtain ⟨m, maps, l, hon, hexact, -⟩ := h
  rw [hon.ram] at hexact ⊢
  have hinv := hon.space
  have hroot : s.kernelAddrSpace.pml4 = physToVirt s.kernelAddrSpace.tables.root :=
    (physToVirt_virtToPhys _).symm
  obtain ⟨m₁, v₁, l₁, h₁, hframed₁, hexact₁, hdesc₁⟩ := hexact.new func hk hinv
    (Radix.descend_nil _) (by simp) (i := 511) (by simp [DirectTables]) (by decide) (by decide) 263
  rw [← hroot] at h₁
  have hinv₁ := (hframed₁.right hinv).inv
  have hpdpt := hdesc₁ [511] (by simp)
  rw [List.nil_append, if_pos rfl] at hpdpt
  obtain ⟨m₂, v₂, l₂, h₂, hframed₂, hexact₂, hdesc₂⟩ := hexact₁.new func hk hinv₁ hpdpt
    (by simp) (i := 510) (by simp [DirectTables]) (by decide) (by decide) 276
  have hinv₂ := (hframed₂.right hinv₁).inv
  refine ⟨m₁.ram, _, m₂.ram, _, h₁, h₂, hexact.pml4, fun {c} hc => ?_⟩
  have hmem : sub c.mem = sub m₂.ram.mem := by rw [hc.mem]
  have hroot' : virtToPhys s.kernelAddrSpace.pml4 = frame 0x301 := by
    rw [hexact.pml4, virtToPhys_physToVirt]
  have hpdpt' : sub c.mem (frame 0x301) 256 = some (frame 0x203) := by
    rw [hmem, ← hroot']
    exact sub_of_descend (p := []) (Radix.descend_nil _) hexact₂.pdpt
  refine ⟨hc.1, ?_, fun p hp => ?_, hexact₂.list, hpdpt', ?_, ?_⟩
  · have hbitmap : m₂.kmem.bitmap = k₀.bitmap := congrArg Prod.snd hinv₂.1.1
    have hsame : c.kmem.bitmap = m₂.kmem.bitmap := by
      rw [show m₂.kmem.bitmap = m₂.ram.kmem.bitmap from rfl, hc.2]
      rfl
    rw [hsame, hbitmap, hk.bitmap]
    decide
  · have hfree : c.load.isFree p = m₂.ram.load.isFree p := by
      rw [hc.2]
      rfl
    rw [hfree]
    have hlimit := hk.limit_toNat hinv₂.1
    have hload : m₂.ram.load.physicalLimit.toNat = 0x17FF0000 := hlimit
    by_cases hlow : p < 0x17FF0
    · rw [hexact₂.free p (by omega)]
      omega
    by_cases hlast : p / 8 = 0x2FFF
    · exact hexact₂.last p hlast
    -- the pages from the limit on that are in the bitmap of the limit
    · have hkept : k₀.Kept p := Or.inl (by rw [hk.limit]; show 0x17FF0000 ≤ 4096 * p; omega)
      have hused : m₂.kmem.isFree p = false := hinv₂.1.2 p hkept
      rw [(over_load m₂).isFree (by rw [KernelMemInfo.bitmapSpan, spanOf, hlimit]; omega), hused]
      exact iff_of_false Bool.false_ne_true (by omega)
  · obtain ⟨pd, hpd⟩ := Option.isSome_iff_exists.mp
      ((hexact₂.tables [256, 0] (by simp) (by simp)).mpr (by simp [DirectTables]))
    rw [hmem, sub_of_descend (p := [256]) hexact₂.pdpt hpd]
    rfl
  · have hpd : Radix.descend (sub m₂.ram.mem) (⟨s.kernelAddrSpace.pml4, v₂⟩ : Space Vec).tables.root
        [511, 510] = some (frame 0x923) :=
      (ram_descend hinv₂ (by simp)).trans ((hdesc₂ [511, 510] (by simp)).trans (if_pos rfl))
    have hnone := (hexact₂.tables [511, 510, 0] (by simp) (by simp)).not.mpr (by simp [DirectTables])
    rw [hmem, ← Option.not_isSome_iff_eq_none]
    intro hsome
    obtain ⟨pt, hpt⟩ := Option.isSome_iff_exists.mp hsome
    refine hnone ?_
    rw [show ([511, 510, 0] : List (Fin 512)) = [511, 510] ++ [0] from rfl, Radix.descend_snoc]
    rw [hpd, Option.bind_some, hpt]
    rfl

/-- With the real limit, the record of the kernel's page leaves no page of the direct map's first
    GiB mapped. -/
theorem Kernel.Low.lost {k₀ : KernelMemInfo} (hk : LowFence k₀) {s s' : Kernel Vec Vec} {j : Nat}
    (h : s.Low k₀ (j + 1) 195 (DirectTables 193)) (hs' : RaisedKernel k₀.physicalLimit 0x18002000 s s')
    (func : Nat → UInt8) :
    ∃ r, vmMap (memoryList func) (memMaps func) s' none 0xFFFFFFFF80000000 0x18001000 1 vmDefault =
        some r ∧ r.1.ram.kmem.physicalLimit = 0x18002000 ∧
      ∀ v, pml4e v = 256 → pdpe v = 0 → r.1.walk v = none := by
  have hle : k₀.physicalLimit ≤ 0x18002000 := by
    rw [hk.limit]
    decide
  have hlist : (memoryList func).Raises k₀.physicalLimit 0x18002000 := vecKeeper_raises hle _ _ _ _
  have hmaps : (memMaps func).Raises k₀.physicalLimit 0x18002000 := vecKeeper_raises hle _ _ _ _
  -- the record, and the tables that are made as with the lower limit
  obtain ⟨t, happ, hlow⟩ := h.record func hk ⟨0xFFFFFFFF80000000, 0x18001000, vmDefault, 1⟩
  obtain ⟨t', happ', ht, hgm⟩ := hmaps hs'.1 _ _ _ t happ
  obtain ⟨c₁, as₁, c₂, as₂, h₁, h₂, hpml4, hlast⟩ := hlow.upper_tables hk func
  obtain ⟨⟨c₁', as₁', p₁⟩, h₁', hc₁, heq₁⟩ := raise_nextTable hle hlist ht _ _ _ _ _ h₁
  obtain ⟨rfl, rfl⟩ := Prod.mk.inj heq₁
  obtain ⟨⟨c₂', as₂', p₂⟩, h₂', hc₂, heq₂⟩ := raise_nextTable hle hlist hc₁ _ _ _ _ _ h₂
  obtain ⟨rfl, rfl⟩ := Prod.mk.inj heq₂
  obtain ⟨c₃, w, h₃, hlimit, hsub⟩ := (hlast hc₂).lost func
  have hv : pml4e 0xFFFFFFFF80000000 = 511 ∧ pdpe 0xFFFFFFFF80000000 = 510 ∧
      pde 0xFFFFFFFF80000000 = 0 := by decide
  have hmap := ram_mapPageEntry_eq (K := memoryList func) (v := 0xFFFFFFFF80000000)
    (by rw [hv.1]; exact h₁') (by rw [hv.2.1]; exact h₂') (by rw [hv.2.2]; exact h₃) 0x18001000
    vmDefault
  rw [← Ram.mapPages_one] at hmap
  dsimp only at hmap
  rw [hs'.2.1] at hmap
  rw [hs'.2.2] at happ'
  refine ⟨_, vmMap_none.mpr ⟨t', _, happ', hmap, rfl⟩, hlimit, fun v h4 h3 => ?_⟩
  have hroot : (⟨as₂.pml4, w⟩ : Space Vec).tables.root = frame 0x301 := by
    show virtToPhys as₂.pml4 = frame 0x301
    rw [hpml4, virtToPhys_physToVirt]
  obtain ⟨h₄, h₅⟩ := hsub (pte 0xFFFFFFFF80000000) (makeTableEntry (0x18001000 &&& ~~~0xFFF) vmDefault)
  rw [Kernel.walk, walk_eq]
  dsimp only
  rw [hroot, path, h4, h3, Radix.descend_cons, h₄, Option.bind_some, Radix.descend_cons, h₅]
  rfl

/-! The memory map. -/

def lostUsable : List LimineMemmapEntry :=
  [⟨0x100000, 0x2000, .usable⟩, ⟨0x200000, 0xB000, .usable⟩, ⟨0x300000, 0x62B000, .usable⟩,
    ⟨0x17FF9000, 0x8000, .usable⟩]

def lostMap : List LimineMemmapEntry := lostUsable ++ [⟨0x18001000, 0x1000, .kernelAndModules⟩]

def lostAddr : LimineKAddrRes := ⟨0x18001000, 0xFFFFFFFF80000000⟩

theorem lostMap_pmInit : ∃ c, ramZero.pmInit (some lostMap) = some c ∧
    c.kmem.physicalLimit = 0x18002000 ∧ c.kmem.bitmap = physToVirt (frame 0x200) ∧
    ∀ p < 2 ^ 64, c.load.isFree p = true ↔ (0x100 ≤ p ∧ p < 0x102) ∨ (0x203 ≤ p ∧ p < 0x20B) ∨
      (0x300 ≤ p ∧ p < 0x92B) ∨ (0x17FF9 ≤ p ∧ p < 0x18001) := by
  have hlim : (placed ramZero.load ramZero.mem lostMap).physicalLimit = 0x18002000 := by
    decide +kernel
  have hbitmap : (placed ramZero.load ramZero.mem lostMap).bitmap = physToVirt (frame 0x200) := by
    decide +kernel
  have hsize : (placed ramZero.load ramZero.mem lostMap).bitmapSize = 0x3000 := by
    rw [KernelMemInfo.bitmapSize, hlim]
    decide
  have hal : UsableAligned lostMap := by unfold UsableAligned; decide
  have hroom : RoomFor lostMap (0x3000 : UInt64).toNat :=
    ⟨⟨0x200000, 0xB000, .usable⟩, by decide, by decide, by decide⟩
  obtain ⟨k, hk, -, -⟩ := @pmInit_spec _ hal ramZero.load ramZero.mem
    (by rw [hsize]; exact hroom)
  have hinit : ramZero.pmInit (some lostMap) = some k.store := Option.map_eq_some_iff.mpr ⟨k, hk, rfl⟩
  have hlim' : k.store.load.physicalLimit = 0x18002000 := (pmInit_scanned hk).1.trans hlim
  have hbitmap' : k.store.load.bitmap = physToVirt (frame 0x200) := (pmInit_bitmap hal hk).trans hbitmap
  have hsize' : k.store.load.bitmapSize = 0x3000 := by
    rw [KernelMemInfo.bitmapSize, hlim']
    decide
  refine ⟨k.store, hinit, hlim', hbitmap', fun p hp => ?_⟩
  have hpages : k.store.load.BitmapPage p ↔ 0x200 ≤ p ∧ p < 0x203 := by
    rw [KernelMemInfo.BitmapPage, hsize', hbitmap', virtToPhys_physToVirt]
    exact Iff.rfl
  have hhigh : ∀ e ∈ lostUsable, HighUsable e := by unfold HighUsable; decide
  have hin : (∃ e ∈ lostMap, HighUsable e ∧ InEntry e p) ↔ ∃ e ∈ lostUsable, InEntry e p := by
    constructor
    · rintro ⟨e, he, ⟨htype, -⟩, hin⟩
      rcases List.mem_append.mp he with he | he
      · exact ⟨e, he, hin⟩
      · rw [List.mem_singleton.mp he] at htype
        cases htype
    · rintro ⟨e, he, hin⟩
      exact ⟨e, List.mem_append_left _ he, hhigh e he, hin⟩
  have hruns : (∃ e ∈ lostUsable, InEntry e p) ↔ (0x100000 ≤ 4096 * p ∧ 4096 * p + 4096 ≤ 0x102000) ∨
      (0x200000 ≤ 4096 * p ∧ 4096 * p + 4096 ≤ 0x20B000) ∨
      (0x300000 ≤ 4096 * p ∧ 4096 * p + 4096 ≤ 0x92B000) ∨
      (0x17FF9000 ≤ 4096 * p ∧ 4096 * p + 4096 ≤ 0x18001000) := by
    rw [lostUsable, List.exists_mem_cons_iff, List.exists_mem_cons_iff, List.exists_mem_cons_iff,
      List.exists_mem_cons_iff]
    simp only [List.not_mem_nil, false_and, exists_false, or_false]
    exact Iff.rfl
  rw [pmInit_ramZero hal hinit (by rw [hsize']; exact hroom) hp, hpages, hin, hruns]
  omega

/-- With the lower limit, the kernel's PML4 takes pages 0x300 to 0x308. -/
theorem lostMap_start {c : Ram} (hbitmap : c.kmem.bitmap = physToVirt (frame 0x200))
    (hbits : ∀ p < 2 ^ 64, c.load.isFree p = true ↔ (0x100 ≤ p ∧ p < 0x102) ∨
      (0x203 ≤ p ∧ p < 0x20B) ∨ (0x300 ≤ p ∧ p < 0x92B) ∨ (0x17FF9 ≤ p ∧ p < 0x18001))
    (func : Nat → UInt8) (line : UInt64) :
    ∃ (k₀ : KernelMemInfo) (m : Machine) (d : Ram), LowFence k₀ ∧
      (c.at 0x17FF0000).kmallocImpl (defaultPages * pageSize) func line =
        some (physToVirt (frame 0x301), d) ∧
      memset d.mem (physToVirt (frame 0x301)) 0 (pageSize * defaultPages) = d.mem ∧
      Kernel.On listOwner recordsOwner k₀ m ⟨d, ⟨physToVirt (frame 0x301), vectorNew⟩, vectorNew⟩
        [] [] ∧
      Fresh d ⟨physToVirt (frame 0x301), vectorNew⟩ fun p => (0x100 ≤ p ∧ p < 0x102) ∨
        (0x203 ≤ p ∧ p < 0x20B) ∨ (0x309 ≤ p ∧ p < 0x92B) := by
  obtain ⟨s, hs⟩ : ∃ s, s = bootKernel (c.at 0x17FF0000) := ⟨_, rfl⟩
  have hlow : s.ram.kmem.physicalLimit = 0x17FF0000 := by rw [hs]; rfl
  have hfree : ∀ p, s.ram.load.isFree p = c.load.isFree p := fun p => by rw [hs]; rfl
  have hmap : s.ram.kmem.bitmap = physToVirt (frame 0x200) := by rw [hs]; exact hbitmap
  have hspan : s.ram.load.bitmapSpan = 0x2FFF := by
    rw [KernelMemInfo.bitmapSpan, show s.ram.load.physicalLimit = 0x17FF0000 from hlow]
    decide
  have hguarded : s.ram.Guarded := by
    intro p hp hkept
    rw [hspan] at hp
    rw [KernelMemInfo.Used, hfree, ← Bool.not_eq_true, hbits p (by omega)]
    rcases hkept with hkept | ⟨x, hx, hpage⟩
    · have hlim : s.ram.load.physicalLimit.toNat = 0x17FF0000 := congrArg UInt64.toNat hlow
      omega
    · -- a byte of the bitmap is in its three pages
      rw [KernelMemInfo.InBitmap, hspan] at hx
      have hsplit : virtToPhys x = frame 0x200 + (x - s.ram.load.bitmap) := by
        rw [show s.ram.load.bitmap = _ from hmap, virtToPhys, physToVirt]
        grind
      have hbase : (frame 0x200).toNat = 0x200000 := rfl
      rw [hsplit, pageOf, toNat_add_of_lt (by omega), hbase] at hpage
      omega
  have hstart : s.Start := ⟨by rw [hlow]; decide, hguarded, by rw [hs]; rfl, by rw [hs]; rfl⟩
  -- the same memory as a machine behind the fence
  obtain ⟨m₀, hm₀⟩ : ∃ m₀, m₀ = s.ram.apart := ⟨_, rfl⟩
  have hram : s.ram = m₀.ram := by rw [hm₀, Ram.ram_apart]
  have hfence : fence.inv m₀ m₀.kmem := ⟨rfl, by rw [hm₀]; exact hguarded.fenced⟩
  have hk : LowFence m₀.kmem := ⟨by rw [hm₀]; exact hlow, by rw [hm₀]; exact hmap⟩
  have hlimit' : m₀.kmem.physicalLimit.toNat = 0x17FF0000 := congrArg UInt64.toNat hk.limit
  have hfree₀ : FreeBelow m₀.kmem fun p => (0x100 ≤ p ∧ p < 0x102) ∨ (0x203 ≤ p ∧ p < 0x20B) ∨
      (0x300 ≤ p ∧ p < 0x92B) := by
    rw [← freeBelow_ram, ← hram]
    intro p hp
    rw [show s.ram.load.physicalLimit = 0x17FF0000 from hlow] at hp
    have hp' : 4096 * p < 0x17FF0000 := hp
    rw [hfree, hbits p (by omega)]
    omega
  have hnine : (numPages (defaultPages * pageSize) + 1).toNat = 9 := by decide
  obtain ⟨k, hget, -, -, hfree₁⟩ := hfree₀.get (n := numPages (defaultPages * pageSize) + 1)
    (q := 0x300) (by decide) (by rw [hlimit']; decide) (by rw [hlimit']; decide)
    (fun p hlow hhigh => by rw [hnine] at hhigh; omega)
    (fun a ha => by
      rw [hnine]
      by_cases hin : 0x203 ≤ a ∧ a < 0x20B
      · exact ⟨0x20B, by omega, by omega, by omega⟩
      · by_cases hin' : 0x100 ≤ a ∧ a < 0x102
        · exact ⟨0x102, by omega, by omega, by omega⟩
        · exact ⟨a, Nat.le_refl a, by omega, by omega⟩)
  obtain ⟨mem, hmalloc, hframed, hset⟩ := ram_kmalloc_get hfence hk.small (by decide) hget func line
  have hptr : physToVirt (frame 0x300) + pageSize = physToVirt (frame 0x301) := by decide
  rw [hptr, ← hram] at hmalloc
  rw [hptr, UInt64.mul_comm] at hset
  obtain ⟨t, m, hon, -, ht, hspace, hrecords, -⟩ := vmInit_start hstart hmalloc
  obtain ⟨d, hd⟩ : ∃ d, d = (⟨k, mem⟩ : Machine).ram := ⟨_, rfl⟩
  have hkernel : t = ⟨d, ⟨physToVirt (frame 0x301), vectorNew⟩, vectorNew⟩ := by
    rw [hd, ← ht, ← hspace, ← hrecords]
  rw [hkernel, ← hm₀] at hon
  rw [← hd] at hmalloc hset
  rw [hs] at hmalloc
  refine ⟨m₀.kmem, m, d, hk, hmalloc, hset, hon, ?_, rfl, rfl, fun q hne hq => ?_, fun p hp => ?_⟩
  · rw [hd, freeBelow_ram]
    exact hfree₁.congr fun p => by rw [hnine]; omega
  · cases q with
    | nil => exact absurd rfl hne
    | cons i q =>
      have hi := i.isLt
      have hroot : (⟨physToVirt (frame 0x301), vectorNew⟩ : Space Vec).tables.root = frame 0x301 :=
        virtToPhys_physToVirt _
      have hsize : (pageSize * defaultPages).toNat = 32768 := rfl
      have hzero : load64 d.mem (aboveMib (0x201000 + 8 * i.val)) = 0 := by
        refine word_zero fun y hlow hhigh => ?_
        rw [← hset, memset_apply, if_pos]
        rw [show physToVirt (frame 0x301) = aboveMib 0x201000 by decide, UInt64.lt_iff_toNat_lt,
          aboveMib_sub (by omega) (by decide), hsize]
        omega
      rw [hroot, Radix.descend_cons, sub_word (r := 0x201) d.mem i rfl, hzero]
      rfl
  · have hall : (fence.star (nobody machinePages)).inv m₀ (m₀.kmem, ()) :=
      ⟨hfence, trivial, fun _ _ h => h⟩
    rw [hd, hk.last_framed hall hframed hp, ← hram, hfree, hbits p (by omega)]
    omega

section Passes
variable (func : Nat → UInt8) {k₀ : KernelMemInfo} (hk : LowFence k₀) {s : Kernel Vec Vec} {j : Nat}
  (kernel : LimineKAddrRes)
include hk

theorem Kernel.Low.entry {e : LimineMemmapEntry} (h : s.Low k₀ (j + 1) 195 (DirectTables 193))
    (htype : e.type = .usable) (hbase : e.base.toNat % 4096 = 0) (hend : e.endAddr ≤ 0x18002000) :
    ∃ t, vmInitEntry (memoryList func) (memMaps func) kernel s e = some t ∧
      t.Low k₀ j 195 (DirectTables 193) := by
  rw [LimineMemmapEntry.endAddr] at hend
  have hmap : entryMap kernel e = some ⟨physToVirt e.base, e.base, vmDefault, numPages e.length⟩ := by
    rw [entryMap, htype]
  have hat : e.base = pageSize * UInt64.ofNat (e.base.toNat / 4096) := by
    apply UInt64.toNat_inj.mp
    rw [page_toNat (by omega)]
    omega
  obtain ⟨r, hr, hlow⟩ := h.map_again func hk
    ⟨physToVirt e.base, e.base, vmDefault, numPages e.length⟩ fun i hi => by
      have hi' : i < (numPages e.length).toNat := hi
      rw [numPages_toNat (by omega)] at hi'
      have hpage : physToVirt e.base + pageSize * UInt64.ofNat i =
          directPage (e.base.toNat / 4096 + i) := by
        rw [directPage, UInt64.ofNat_add, UInt64.mul_add, ← hat, physToVirt]
        grind
      show DirectTables 193 (path (physToVirt e.base + pageSize * UInt64.ofNat i))
      rw [hpage, directPage_path (r := ⟨(e.base.toNat / 4096 + i) / 512, by omega⟩) (by omega) rfl]
      exact Or.inr (Or.inr ⟨_, by dsimp only; omega, rfl⟩)
  refine ⟨r.1, ?_, hlow⟩
  rw [vmInitEntry, hmap]
  dsimp only
  rw [hr, Option.map_some]

theorem Kernel.Low.entries (es : List LimineMemmapEntry)
    (h : s.Low k₀ (es.length + j) 195 (DirectTables 193))
    (hes : ∀ e ∈ es, e.type = .usable ∧ e.base.toNat % 4096 = 0 ∧ e.endAddr ≤ 0x18002000) :
    ∃ t, es.foldlM (vmInitEntry (memoryList func) (memMaps func) kernel) s = some t ∧
      t.Low k₀ j 195 (DirectTables 193) := by
  induction es generalizing s with
  | nil =>
    rw [List.length_nil, Nat.zero_add] at h
    exact ⟨s, rfl, h⟩
  | cons e es ih =>
    rw [List.length_cons, Nat.add_right_comm] at h
    obtain ⟨htype, hbase, hend⟩ := hes e List.mem_cons_self
    obtain ⟨t, ht, hlow⟩ := h.entry func hk kernel htype hbase hend
    obtain ⟨t', ht', hlow'⟩ := ih hlow fun e he => hes e (List.mem_cons_of_mem _ he)
    refine ⟨t', ?_, hlow'⟩
    rw [List.foldlM_cons, Option.bind_eq_bind, ht, Option.bind_some, ht']

/-- The passes, up to the entry of the kernel's page. -/
theorem lostMap_passes {m : Machine} (hon : s.On listOwner recordsOwner k₀ m [] [])
    (hfresh : Fresh s.ram s.kernelAddrSpace fun p => (0x100 ≤ p ∧ p < 0x102) ∨
      (0x203 ≤ p ∧ p < 0x20B) ∨ (0x309 ≤ p ∧ p < 0x92B)) (hrecords : s.globalMemMap = vectorNew) :
    ∃ u r t, vmMap (memoryList func) (memMaps func) s none memVirtOffset 0 0x18002 vmUsermode = some u ∧
      u.1.ram.mapPages (memoryList func) u.1.kernelAddrSpace memVirtOffset 0 0x18002 vmDefault =
        some r ∧
      lostUsable.foldlM (vmInitEntry (memoryList func) (memMaps func) kernel) (u.1.after none r) =
        some t ∧
      t.Low k₀ 27 195 (DirectTables 193) := by
  have hpages : (0x18002 : UInt64).toNat = 98306 := rfl
  have hregions : regionsTo (0x18002 : UInt64).toNat = 193 := rfl
  obtain ⟨u, hu, hlow⟩ := first_map func hk hon hfresh hrecords (k := 0x18002) (by decide)
    (by decide) vmUsermode
  rw [hregions] at hlow
  obtain ⟨r, hr, hlow'⟩ := hlow.pages_again func hk
    ⟨memVirtOffset, 0, vmDefault, 0x18002⟩ fun i hi => by
      have hi' : i < 98306 := hi
      rw [directPage_path (r := ⟨i / 512, by omega⟩) (by omega) rfl]
      exact Or.inr (Or.inr ⟨_, by dsimp only; omega, rfl⟩)
  obtain ⟨t, ht, hlow''⟩ := hlow'.entries func hk kernel lostUsable (j := 27) (by decide)
  exact ⟨u, r, t, hu, hr, ht, hlow''⟩

end Passes

end Horizon64
