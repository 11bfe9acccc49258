import Horizon64.KernelMap

/- The map that `vm_init` leaves.

   `vm_init` maps frames over frames: a user pass, a supervisor pass, and a pass for
   each entry. From the supervisor pass on, every assignment is of one of two kinds:
   the direct map puts frame `a` at `MEM_VIRT_OFFSET + a`, and the kernel's entries put
   it at `virtual_base + a - physical_base`, both with `VM_DEFAULT`. On memory below
   2^45 with the kernel in the top 2 GiB, no page is assigned two different frames
   (`direct_page_inj`, `kernel_page_inj`, `direct_ne_kernel`), so the passes agree where
   they overlap, whatever their order. -/
namespace Horizon64
open Words Bytes

/-! The pages of a record. -/

/-- A record with aligned addresses whose frames end below `2^64` assigns its frames,
    one each. -/
theorem mem_updates {map : MemMap} (hp : map.physAddr.toNat % 4096 = 0)
    (hend : map.physAddr.toNat + 4096 * map.numPages.toNat < 2 ^ 64)
    (hflags : map.flags.toNat < 4096) (hpres : checkNotPresent map.flags = false)
    (x : UInt64 × Option UInt64) :
    x ∈ map.updates ↔ ∃ a : UInt64, a.toNat % 4096 = 0 ∧ map.physAddr.toNat ≤ a.toNat ∧
      a.toNat < map.physAddr.toNat + 4096 * map.numPages.toNat ∧
      x = (map.virtAddr + (a - map.physAddr), some (a ||| map.flags)) := by
  have hn : map.numPages.toNat % 2 ^ 52 = map.numPages.toNat := by omega
  have hoff : ∀ j < map.numPages.toNat, (pageSize * UInt64.ofNat j).toNat = 4096 * j :=
    fun j hj => page_toNat (by omega)
  have hsum : ∀ j < map.numPages.toNat,
      (map.physAddr + pageSize * UInt64.ofNat j).toNat = map.physAddr.toNat + 4096 * j := by
    intro j hj
    rw [toNat_add_of_lt (by rw [hoff j hj]; omega), hoff j hj]
  have hentry : ∀ a : UInt64, a.toNat % 4096 = 0 →
      pageEntry a map.flags = some (a ||| map.flags) :=
    fun a ha => pageEntry_aligned ha hflags hpres
  rw [MemMap.updates, mapUpdates, pages_offsets, hn, List.map_map, List.mem_map]
  constructor
  · intro hx
    obtain ⟨j, hj, rfl⟩ := hx
    rw [List.mem_range] at hj
    refine ⟨map.physAddr + pageSize * UInt64.ofNat j, ?_, ?_, ?_, ?_⟩
    · rw [hsum j hj]
      omega
    · rw [hsum j hj]
      omega
    · rw [hsum j hj]
      omega
    · have hsub : map.physAddr + pageSize * UInt64.ofNat j - map.physAddr =
          pageSize * UInt64.ofNat j := by grind
      rw [hsub, ← hentry _ (by rw [hsum j hj]; omega)]
      rfl
  · intro hx
    obtain ⟨a, ha, hlow, hhigh, rfl⟩ := hx
    have hj : (a.toNat - map.physAddr.toNat) / 4096 < map.numPages.toNat := by omega
    have hback : map.physAddr + pageSize * UInt64.ofNat ((a.toNat - map.physAddr.toNat) / 4096) =
        a := by
      apply UInt64.toNat_inj.mp
      rw [hsum _ hj]
      omega
    refine ⟨_, List.mem_range.mpr hj, ?_⟩
    have hsub : a - map.physAddr =
        pageSize * UInt64.ofNat ((a.toNat - map.physAddr.toNat) / 4096) := by
      rw [← hback]
      grind
    rw [hsub, ← hentry a ha]
    simp only [Function.comp_apply, hback]

/-! Where frames go. -/

/-- The direct map's address of the physical address `a`. -/
def directAddr (a : UInt64) : UInt64 := memVirtOffset + a

/-- The kernel map's address of the physical address `a`. -/
def kernelAddr (kernel : LimineKAddrRes) (a : UInt64) : UInt64 :=
  kernel.virtualBase + (a - kernel.physicalBase)

/-- The two passes over all frames assign to pages of the direct map. -/
theorem mem_direct_updates {flags n : UInt64} (hn : n.toNat < 2 ^ 52) (hflags : flags.toNat < 4096)
    (hpres : checkNotPresent flags = false) (x : UInt64 × Option UInt64) :
    x ∈ MemMap.updates ⟨memVirtOffset, 0, flags, n⟩ ↔ ∃ a : UInt64, a.toNat % 4096 = 0 ∧
      a.toNat < 4096 * n.toNat ∧ x = (directAddr a, some (a ||| flags)) := by
  have hzero : (0 : UInt64).toNat = 0 := rfl
  have hmem := @mem_updates ⟨memVirtOffset, 0, flags, n⟩ rfl (by dsimp only; omega) hflags hpres x
  simp only [hzero, Nat.zero_le, true_and, Nat.zero_add, UInt64.sub_zero] at hmem
  exact hmem

/-- What the boot loader answers: a page-aligned physical base below 2^45 and a
    page-aligned virtual base in the top 2 GiB. -/
structure LimineKAddrRes.Valid (kernel : LimineKAddrRes) : Prop where
  physAligned : kernel.physicalBase.toNat % 4096 = 0
  physBelow : kernel.physicalBase.toNat < 2 ^ 45
  virtAligned : kernel.virtualBase.toNat % 4096 = 0
  virtTop : 2 ^ 64 - 2 ^ 31 ≤ kernel.virtualBase.toNat

/-- An entry of whole pages that ends at or below 2^45. -/
structure LimineMemmapEntry.Valid (entry : LimineMemmapEntry) : Prop where
  baseAligned : entry.base.toNat % 4096 = 0
  lengthAligned : entry.length.toNat % 4096 = 0
  below : entry.endAddr ≤ 2 ^ 45

theorem direct_pageNum {a : UInt64} (ha : a.toNat < 2 ^ 45) :
    pageNum (directAddr a) = 2 ^ 35 + a.toNat / 4096 := by
  have hoff : memVirtOffset.toNat = 2 ^ 64 - 2 ^ 47 := rfl
  rw [pageNum, directAddr, toNat_add_of_lt (by omega), hoff]
  omega

theorem kernel_pageNum {kernel : LimineKAddrRes} (hk : kernel.Valid) {a : UInt64}
    (ha : a.toNat < 2 ^ 45) (hal : a.toNat % 4096 = 0) :
    pageNum (kernelAddr kernel a) =
      (kernel.virtualBase.toNat / 4096 + a.toNat / 4096 + 2 ^ 52 -
        kernel.physicalBase.toNat / 4096) % 2 ^ 36 := by
  obtain ⟨hpa, hpb, hva, hvt⟩ := hk
  have hv := kernel.virtualBase.toNat_lt
  rw [pageNum, kernelAddr, UInt64.toNat_add, UInt64.toNat_sub]
  omega

theorem direct_page_inj {a b : UInt64} (ha : a.toNat < 2 ^ 45) (hal : a.toNat % 4096 = 0)
    (hb : b.toNat < 2 ^ 45) (hbl : b.toNat % 4096 = 0)
    (h : pageNum (directAddr a) = pageNum (directAddr b)) : a = b := by
  rw [direct_pageNum ha, direct_pageNum hb] at h
  apply UInt64.toNat_inj.mp
  omega

section KernelPages
variable {kernel : LimineKAddrRes} (hk : kernel.Valid) {a b : UInt64} (ha : a.toNat < 2 ^ 45)
  (hal : a.toNat % 4096 = 0) (hb : b.toNat < 2 ^ 45) (hbl : b.toNat % 4096 = 0)
include hk ha hal hb hbl

theorem kernel_page_inj (h : pageNum (kernelAddr kernel a) = pageNum (kernelAddr kernel b)) :
    a = b := by
  rw [kernel_pageNum hk ha hal, kernel_pageNum hk hb hbl] at h
  have hpb := hk.physBelow
  apply UInt64.toNat_inj.mp
  omega

/-- The kernel's pages end below the direct map, or start above it. -/
theorem direct_ne_kernel : pageNum (directAddr a) ≠ pageNum (kernelAddr kernel b) := by
  rw [direct_pageNum ha, kernel_pageNum hk hb hbl]
  have hpb := hk.physBelow
  have hvt := hk.virtTop
  have hv := kernel.virtualBase.toNat_lt
  omega

end KernelPages

/-! What the passes assign. -/

/-- The assignment puts a frame below 2^45 at one of its two places. -/
structure Placed (kernel : LimineKAddrRes) (x : UInt64 × Option UInt64) (a : UInt64) : Prop where
  below : a.toNat < 2 ^ 45
  aligned : a.toNat % 4096 = 0
  page : x.1 = directAddr a ∨ x.1 = kernelAddr kernel a
  entry : x.2 = some (a ||| vmDefault)

theorem Placed.unique {kernel : LimineKAddrRes} (hk : kernel.Valid) {x y : UInt64 × Option UInt64}
    {a b : UInt64} (hx : Placed kernel x a) (hy : Placed kernel y b)
    (h : pageNum x.1 = pageNum y.1) : x.2 = y.2 := by
  have hab : a = b := by
    rcases hx.page with hpx | hpx <;> rcases hy.page with hpy | hpy <;> rw [hpx, hpy] at h
    · exact direct_page_inj hx.below hx.aligned hy.below hy.aligned h
    · exact absurd h (direct_ne_kernel hk hx.below hx.aligned hy.below hy.aligned)
    · exact absurd h.symm (direct_ne_kernel hk hy.below hy.aligned hx.below hx.aligned)
    · exact kernel_page_inj hk hx.below hx.aligned hy.below hy.aligned h
  rw [hx.entry, hy.entry, hab]

/-- The place of an address of the entry. -/
def LimineMemmapEntry.place (entry : LimineMemmapEntry) (kernel : LimineKAddrRes) (a : UInt64) :
    UInt64 :=
  if entry.type = .kernelAndModules then kernelAddr kernel a else directAddr a

theorem entryMap_cases {kernel : LimineKAddrRes} {entry : LimineMemmapEntry} {map : MemMap}
    (h : entryMap kernel entry = some map) :
    entry.type = .kernelAndModules ∧
      map = ⟨kernel.virtualBase + entry.base - kernel.physicalBase, entry.base, vmDefault,
        numPages entry.length⟩ ∨
    entry.type ≠ .kernelAndModules ∧
      map = ⟨physToVirt entry.base, entry.base, vmDefault, numPages entry.length⟩ := by
  rw [entryMap] at h
  split at h
  · next ht => exact Or.inl ⟨ht, (Option.some.inj h).symm⟩
  all_goals
    next ht =>
      first
      | exact Or.inr ⟨by rw [ht]; decide, (Option.some.inj h).symm⟩
      | cases h

theorem mem_entry_updates {kernel : LimineKAddrRes} {entry : LimineMemmapEntry}
    (he : entry.Valid) {map : MemMap} (hmap : entryMap kernel entry = some map)
    (x : UInt64 × Option UInt64) :
    x ∈ map.updates ↔ ∃ a : UInt64, a.toNat % 4096 = 0 ∧ entry.base.toNat ≤ a.toNat ∧
      a.toNat < entry.endAddr ∧ x = (entry.place kernel a, some (a ||| vmDefault)) := by
  have hbelow := he.below
  have hlength := he.lengthAligned
  rw [LimineMemmapEntry.endAddr] at hbelow
  have hpages : 4096 * (numPages entry.length).toNat = entry.length.toNat := by
    rw [numPages_toNat (by omega)]
    omega
  have hfields : map.physAddr = entry.base ∧ map.numPages = numPages entry.length ∧
      map.flags = vmDefault ∧
      ∀ a, map.virtAddr + (a - entry.base) = entry.place kernel a := by
    rcases entryMap_cases hmap with ⟨ht, rfl⟩ | ⟨ht, rfl⟩
    · refine ⟨rfl, rfl, rfl, fun a => ?_⟩
      rw [LimineMemmapEntry.place, if_pos ht, kernelAddr]
      grind
    · refine ⟨rfl, rfl, rfl, fun a => ?_⟩
      rw [LimineMemmapEntry.place, if_neg ht, directAddr]
      dsimp only [physToVirt]
      grind
  obtain ⟨hphys, hnum, hflags, hplace⟩ := hfields
  rw [mem_updates (by rw [hphys]; exact he.baseAligned) (by rw [hphys, hnum, hpages]; omega)
    (by rw [hflags]; decide) (by rw [hflags]; decide), hphys, hnum, hpages, hflags]
  simp only [hplace, LimineMemmapEntry.endAddr]

/-- From the loop over all frames on, every assignment puts a frame at its place. -/
theorem placed_of_mem {kernel : LimineKAddrRes} {entries : List LimineMemmapEntry}
    (hentries : ∀ e ∈ entries, e.Valid) {limit : UInt64} (hlimit : limit.toNat ≤ 2 ^ 45)
    {x : UInt64 × Option UInt64}
    (hx : x ∈ (frameMap limit :: entries.filterMap (entryMap kernel)).flatMap MemMap.updates) :
    ∃ a, Placed kernel x a := by
  have hnum : (numPages limit).toNat = (limit.toNat + 4095) / 4096 := numPages_toNat (by omega)
  rw [List.flatMap_cons, List.mem_append] at hx
  rcases hx with hx | hx
  · obtain ⟨a, hal, hlt, rfl⟩ :=
      (mem_direct_updates (numPages_lt limit) (by decide) (by decide) x).mp hx
    exact ⟨a, by omega, hal, Or.inl rfl, rfl⟩
  · obtain ⟨map, hmap, hx⟩ := List.mem_flatMap.mp hx
    obtain ⟨entry, hentry, hmap⟩ := List.mem_filterMap.mp hmap
    have hvalid := hentries entry hentry
    obtain ⟨a, hal, _, hlt, rfl⟩ := (mem_entry_updates hvalid hmap x).mp hx
    refine ⟨a, Nat.lt_of_lt_of_le hlt hvalid.below, hal, ?_, rfl⟩
    dsimp only [LimineMemmapEntry.place]
    split
    · exact Or.inr rfl
    · exact Or.inl rfl

/-- What those passes assign to a page is what the page has at the end. -/
theorem replay_placed {kernel : LimineKAddrRes} (hk : kernel.Valid)
    {entries : List LimineMemmapEntry} (hentries : ∀ e ∈ entries, e.Valid) {limit : UInt64}
    (hlimit : limit.toNat ≤ 2 ^ 45) (user : MemMap) {x : UInt64 × Option UInt64}
    (hx : x ∈ (frameMap limit :: entries.filterMap (entryMap kernel)).flatMap MemMap.updates) :
    replay noPages (user :: frameMap limit :: entries.filterMap (entryMap kernel)) x.1 = x.2 := by
  rw [replay_cons, replay]
  obtain ⟨a, ha⟩ := placed_of_mem hentries hlimit hx
  refine FlatMap.assignAll_same ⟨x, hx, rfl⟩ (fun y hy hpage => ?_) _
  obtain ⟨b, hb⟩ := placed_of_mem hentries hlimit hy
  exact hb.unique hk ha hpage.symm

theorem highest_le {entries : List LimineMemmapEntry} {n : Nat}
    (h : ∀ e ∈ entries, entryTypeCheck e = true → e.endAddr ≤ n) : highestAddress entries ≤ n := by
  rw [highestAddress]
  induction entries with
  | nil => exact Nat.zero_le n
  | cons e rest ih =>
    have hrest := ih fun f hf => h f (List.mem_cons_of_mem e hf)
    cases hc : entryTypeCheck e with
    | false =>
      rw [List.filter_cons_of_neg (by simp [hc])]
      exact hrest
    | true =>
      rw [List.filter_cons_of_pos hc, List.map_cons, List.foldr_cons]
      exact Nat.max_le.mpr ⟨h e List.mem_cons_self hc, hrest⟩

theorem pmInit_limit {c c' : Ram} {entries : List LimineMemmapEntry}
    (h : c.pmInit (some entries) = some c') (hentries : ∀ e ∈ entries, e.Valid) :
    c'.kmem.physicalLimit.toNat ≤ 2 ^ 45 := by
  obtain ⟨k, hk, rfl⟩ := Option.map_eq_some_iff.mp h
  have hend : ∀ e ∈ entries, e.endAddr ≤ 2 ^ 45 := fun e he => (hentries e he).below
  show k.physicalLimit.toNat ≤ 2 ^ 45
  rw [(pmInit_scanned hk).1, placed_limit fun e he _ => Nat.lt_of_le_of_lt (hend e he) (by decide)]
  exact highest_le fun e he _ => hend e he

end Horizon64
