import Horizon64.VmInit
import Horizon64.RamHeap

/- A new address space and the kernel's.

   `create_address_space` maps the records of `global_mem_map` in order, in tables of its
   own: the new space is the replay of the records (`createAddressSpace_spec`). It is the
   kernel's map exactly while the records are in step with it (`Synced`).

   1. `vm_map(NULL, ...)` keeps them in step.
   2. `vm_init` does when the entries' records map every frame again that it maps
      without a record (`synced_init_iff`).
   3. `vm_unmap(NULL, ...)` erases the first record with its address, whatever its size,
      and drops whole regions; it keeps them in step when the two match
      (`synced_unmap_iff`). -/
namespace Horizon64
open Words Bytes Isolation

/-- The kernel's records make the kernel's map. -/
def Kernel.Synced (func : Nat → UInt8) (s : Kernel Vec Vec) : Prop :=
  s.walk = replay noPages (s.records (memMaps func))

section Mirrors
variable {func : Nat → UInt8} {k₀ : KernelMemInfo} {s : Kernel Vec Vec} {maps : List MemMap}

theorem Kernel.Ready.synced_iff (h : s.Ready k₀ maps) :
    s.Synced func ↔ s.walk = replay noPages maps := by rw [Kernel.Synced, h.records_eq]

/-- The new space has the kernel's map exactly when the records make it. -/
theorem mirrors_iff_synced (h : s.Ready k₀ maps) {s' : Kernel Vec Vec} {func' : Nat → UInt8}
    {line line' : UInt64} {as : Space Vec}
    (hrun : createAddressSpace (memoryList func) (memMaps func) vectorNew s func' line line' =
      some (some as, s')) :
    (∀ w, walk s'.ram.mem as.tables w = s'.walk w) ↔ s.Synced func := by
  obtain ⟨hnew, -, hkernel⟩ := createAddressSpace_spec h hrun
  rw [hnew, hkernel, ← funext_iff, h.synced_iff, eq_comm]

end Mirrors

/-! Records and the pages they cover. -/

/-- The page of `w` is one of the record's. -/
def MemMap.Covers (map : MemMap) (w : UInt64) : Prop := ∃ x ∈ map.updates, pageNum w = pageNum x.1

theorem replay_off {maps : List MemMap} {w : UInt64} (h : ∀ map ∈ maps, ¬ map.Covers w)
    (f : UInt64 → Option UInt64) : replay f maps w = f w := by
  apply FlatMap.assignAll_off
  intro x hx hpage
  obtain ⟨map, hmap, hx⟩ := List.mem_flatMap.mp hx
  exact h map hmap ⟨x, hx, hpage⟩

theorem replay_covered {maps : List MemMap} {w : UInt64} (h : ∃ map ∈ maps, map.Covers w)
    (f g : UInt64 → Option UInt64) : replay f maps w = replay g maps w := by
  obtain ⟨map, hmap, x, hx, hpage⟩ := h
  exact FlatMap.assignAll_covered ⟨x, List.mem_flatMap.mpr ⟨map, hmap, hx⟩, hpage⟩ f g

/-- Taking one record out changes a page exactly when the record covers it, no later
    one does, and those before it give another entry. -/
theorem replay_erase_iff (before after : List MemMap) (erased : MemMap) (w : UInt64) :
    replay noPages (before ++ after) w = replay noPages (before ++ erased :: after) w ↔
      (erased.Covers w → (∃ map ∈ after, map.Covers w) ∨
        replay noPages before w = replay noPages (before ++ [erased]) w) := by
  have hsplit : before ++ erased :: after = (before ++ [erased]) ++ after := by simp
  rw [hsplit, replay_append _ before after, replay_append _ (before ++ [erased]) after]
  by_cases hafter : ∃ map ∈ after, map.Covers w
  · rw [replay_covered hafter (replay noPages before) (replay noPages (before ++ [erased]))]
    exact ⟨fun _ _ => Or.inl hafter, fun _ => rfl⟩
  · have hoff : ∀ map ∈ after, ¬ map.Covers w := fun map hmap hc => hafter ⟨map, hmap, hc⟩
    rw [replay_off hoff, replay_off hoff]
    by_cases hc : erased.Covers w
    · exact ⟨fun heq _ => Or.inr heq, fun h => (h hc).resolve_left hafter⟩
    · have hsame : replay noPages (before ++ [erased]) w = replay noPages before w := by
        rw [replay_append]
        exact replay_off (by simpa using hc) _
      exact ⟨fun _ h => absurd h hc, fun _ => hsame.symm⟩

/-! The kernel's calls. -/

/-- The record that `vm_unmap(NULL, v, n)` erases and the regions it drops match, where the map is
    `f` and the records are `maps`: the records that are left map nothing in a dropped region, and
    a page of the erased record that is not dropped is covered by a later record, or had its entry
    from the records before. -/
structure UnmapMatches (f : UInt64 → Option UInt64) (maps : List MemMap) (v n : UInt64) : Prop where
  dropped : ∀ w, RegionHit f v n w →
    replay noPages (maps.eraseP fun map => map.virtAddr = v) w = none
  kept : ∀ before erased after, maps = before ++ erased :: after →
    (∀ map ∈ before, map.virtAddr ≠ v) → erased.virtAddr = v →
    ∀ w, ¬ RegionHit f v n w → erased.Covers w →
      (∃ map ∈ after, map.Covers w) ∨
        replay noPages before w = replay noPages (before ++ [erased]) w

theorem eraseP_split {before after : List MemMap} {erased : MemMap} {v : UInt64}
    (hbefore : ∀ map ∈ before, map.virtAddr ≠ v) (hv : erased.virtAddr = v) :
    (before ++ erased :: after).eraseP (fun map => map.virtAddr = v) = before ++ after := by
  rw [List.eraseP_append_right _ fun map hmap => by simpa using hbefore map hmap,
    List.eraseP_cons_of_pos (by simpa using hv)]

/-- The map and the records stay in step exactly when the two match. -/
theorem unmapped_replay_iff {f : UInt64 → Option UInt64} {maps : List MemMap}
    (hsync : f = replay noPages maps) (v n : UInt64) :
    unmapped f v n = replay noPages (maps.eraseP fun map => map.virtAddr = v) ↔
      UnmapMatches f maps v n := by
  have happly := unmapped_apply f v n
  rw [funext_iff]
  constructor
  · intro h
    refine ⟨fun w hit => ?_, fun before erased after hsplit hbefore hv w hmiss => ?_⟩
    · rw [← h w, (happly w).1 hit]
    · rw [← replay_erase_iff, ← eraseP_split hbefore hv, ← hsplit, ← h w, (happly w).2 hmiss, hsync]
  · intro hm w
    by_cases hit : RegionHit f v n w
    · rw [(happly w).1 hit, hm.dropped w hit]
    · rw [(happly w).2 hit, hsync]
      by_cases hex : ∃ map ∈ maps, map.virtAddr = v
      · obtain ⟨first, hmem, hfirst⟩ := hex
        obtain ⟨erased, before, after, hbefore, hv, hsplit, herase⟩ :=
          List.exists_of_eraseP (p := fun map => decide (map.virtAddr = v)) hmem (by simpa using hfirst)
        have hkept := hm.kept before erased after hsplit (fun map hmap => by
          simpa using hbefore map hmap) (by simpa using hv) w hit
        rw [← replay_erase_iff] at hkept
        rw [herase, hsplit, hkept]
      · rw [List.eraseP_of_forall_not fun map hmap => by simpa using fun hv => hex ⟨map, hmap, hv⟩]

section Calls
variable {func : Nat → UInt8} {k₀ : KernelMemInfo} {s : Kernel Vec Vec} {maps : List MemMap}

theorem synced_map (h : s.Ready k₀ maps) (hsync : s.Synced func) (map : MemMap)
    {r : Kernel Vec Vec × Space Vec}
    (hmap : vmMap (memoryList func) (memMaps func) s none map.virtAddr map.physAddr map.numPages
      map.flags = some r) : r.1.Synced func := by
  obtain ⟨hready, hwalk⟩ := h.map map hmap
  rw [hready.synced_iff, hwalk, h.synced_iff.mp hsync, replay_append]

/-- `vm_unmap(NULL, ...)` keeps the records in step exactly when the two match. -/
theorem synced_unmap_iff (h : s.Ready k₀ maps) (hsync : s.Synced func) {v n : UInt64}
    (hinside : (vmUnmap (memoryList func).guarded (memMaps func).guarded s none v n).isSome)
    {r : Kernel Vec Vec × Space Vec}
    (hunmap : vmUnmap (memoryList func) (memMaps func) s none v n = some r) :
    r.1.Ready k₀ (maps.eraseP fun map => map.virtAddr = v) ∧
      (r.1.Synced func ↔ UnmapMatches s.walk maps v n) := by
  obtain ⟨m, l, hon⟩ := id h
  obtain ⟨r', hr', hon', hwalk⟩ := vmUnmap_kernel (memMaps_laws func) (memoryList_laws func) hon
    hinside
  obtain rfl : r' = r := Option.some.inj (hr'.symm.trans hunmap)
  have hready : r'.1.Ready k₀ (maps.eraseP fun map => map.virtAddr = v) := hon'
  refine ⟨hready, ?_⟩
  rw [hready.synced_iff, hwalk]
  exact unmapped_replay_iff (h.synced_iff.mp hsync) v n

end Calls

/-! `vm_init`. -/

theorem frame_user_ne {a b : UInt64} (ha : a.toNat % 4096 = 0) (hb : b.toNat % 4096 = 0) :
    a ||| vmDefault ≠ b ||| vmUsermode := by
  intro heq
  have hframe : (a ||| vmDefault).toNat = a.toNat + vmDefault.toNat :=
    or_low_toNat (k := 12) ha (by decide)
  have huser : (b ||| vmUsermode).toNat = b.toNat + vmUsermode.toNat :=
    or_low_toNat (k := 12) hb (by decide)
  have h3 : vmDefault.toNat = 3 := rfl
  have h7 : vmUsermode.toNat = 7 := rfl
  rw [heq] at hframe
  omega

/-- A page of the loop over all frames is mapped there as it is not by the user pass. -/
theorem frames_ne_user {limit w : UInt64} (hw : (frameMap limit).Covers w)
    (f : UInt64 → Option UInt64) :
    replay f [frameMap limit] w ≠ replay noPages [userMap limit] w := by
  have hn := numPages_lt limit
  have huserN : (if numPages limit < memSize then numPages limit else memSize).toNat < 2 ^ 52 := by
    split
    · exact hn
    · decide
  rw [replay_singleton, replay_singleton]
  obtain ⟨x, hx, _, hval⟩ := FlatMap.assignAll_mem hw f
  obtain ⟨a, ha, _, rfl⟩ := (mem_direct_updates hn (by decide) (by decide) x).mp hx
  rw [hval]
  by_cases huser : (userMap limit).Covers w
  · obtain ⟨y, hy, _, hval'⟩ := FlatMap.assignAll_mem huser noPages
    obtain ⟨b, hb, _, rfl⟩ := (mem_direct_updates huserN (by decide) (by decide) y).mp hy
    rw [hval']
    exact fun heq => frame_user_ne ha hb (Option.some.inj heq)
  · rw [FlatMap.assignAll_off fun y hy hpage => huser ⟨y, hy, hpage⟩]
    exact Option.some_ne_none _

/-- `vm_init` leaves the records in step exactly when the entries' records cover every
    page of its loop over all frames. -/
theorem synced_init_iff {s s' : Kernel Vec Vec} (h : s.Start) {entries : List LimineMemmapEntry}
    {kernel : LimineKAddrRes} {func : Nat → UInt8} {line : UInt64}
    (hrun : vmInit (memoryList func) (memMaps func) s (some entries) (some kernel) func line =
      some s') :
    s'.Synced func ↔ ∀ w, (frameMap s.ram.kmem.physicalLimit).Covers w →
      ∃ map ∈ entries.filterMap (entryMap kernel), map.Covers w := by
  obtain ⟨hready, hwalk⟩ := vmInit_spec h hrun
  rw [hready.synced_iff, hwalk]
  obtain ⟨maps, hmaps⟩ : ∃ l, l = entries.filterMap (entryMap kernel) := ⟨_, rfl⟩
  obtain ⟨user, huser⟩ : ∃ m, m = userMap s.ram.kmem.physicalLimit := ⟨_, rfl⟩
  rw [← hmaps, ← huser]
  rw [replay_first _ user, replay_first _ (frameMap _), replay_first _ user maps, funext_iff]
  refine ⟨fun heq w hw => ?_, fun hcover w => ?_⟩
  · by_contra hno
    have hoff : ∀ map ∈ maps, ¬ map.Covers w := fun map hmap hc => hno ⟨map, hmap, hc⟩
    have hat := heq w
    rw [replay_off hoff, replay_off hoff, huser] at hat
    exact frames_ne_user hw _ hat
  · by_cases hw : (frameMap s.ram.kmem.physicalLimit).Covers w
    · exact replay_covered (hcover w hw) _ _
    · by_cases hex : ∃ map ∈ maps, map.Covers w
      · exact replay_covered hex _ _
      · have hoff : ∀ map ∈ maps, ¬ map.Covers w := fun map hmap hc => hex ⟨map, hmap, hc⟩
        rw [replay_off hoff, replay_off hoff]
        exact replay_off (by simpa using hw) _

/-! Runs of the kernel. -/

/-- A call on the kernel's own space, or something that leaves the pages of its tables and
    records alone. The erases of a call of `vm_unmap` copy nothing from behind the pages of the
    two lists, and `ok` says which of these calls are made. -/
inductive KernelStep (func : Nat → UInt8) (ok : Kernel Vec Vec → UInt64 → UInt64 → Prop) :
    Kernel Vec Vec → Kernel Vec Vec → Prop where
  | map {s : Kernel Vec Vec} {r : Kernel Vec Vec × Space Vec} (v p n flags : UInt64)
      (h : vmMap (memoryList func) (memMaps func) s none v p n flags = some r) :
      KernelStep func ok s r.1
  | unmap {s : Kernel Vec Vec} {r : Kernel Vec Vec × Space Vec} (v n : UInt64) (hok : ok s v n)
      (hinside : (vmUnmap (memoryList func).guarded (memMaps func).guarded s none v n).isSome)
      (h : vmUnmap (memoryList func) (memMaps func) s none v n = some r) : KernelStep func ok s r.1
  | other {s : Kernel Vec Vec} {c : Ram}
      (limit : c.kmem.physicalLimit = s.ram.kmem.physicalLimit)
      (bitmap : c.kmem.bitmap = s.ram.kmem.bitmap) (guarded : c.Guarded)
      (keep : ∀ p, s.Page (memoryList func) (memMaps func) p →
        c.load.Used p ∧ ∀ x, pageOf (virtToPhys x) = p → c.mem x = s.ram.mem x) :
      KernelStep func ok s { s with ram := c }

/-- The calls of `vm_unmap` that match the records. -/
def Kernel.Matches (func : Nat → UInt8) (s : Kernel Vec Vec) (v n : UInt64) : Prop :=
  UnmapMatches s.walk (s.records (memMaps func)) v n

theorem synced_step {func : Nat → UInt8} {k₀ : KernelMemInfo} {s s' : Kernel Vec Vec}
    (h : (∃ maps, s.Ready k₀ maps) ∧ s.Synced func)
    (hstep : KernelStep func (Kernel.Matches func) s s') :
    (∃ maps, s'.Ready k₀ maps) ∧ s'.Synced func := by
  obtain ⟨⟨maps, hready⟩, hsync⟩ := h
  cases hstep with
  | map v p n flags hmap =>
    exact ⟨⟨_, (hready.map ⟨v, p, flags, n⟩ hmap).1⟩,
      synced_map hready hsync ⟨v, p, flags, n⟩ hmap⟩
  | unmap v n hok hinside hunmap =>
    obtain ⟨hready', hiff⟩ := synced_unmap_iff hready hsync hinside hunmap
    rw [Kernel.Matches, hready.records_eq] at hok
    exact ⟨⟨_, hready'⟩, hiff.mpr hok⟩
  | other limit bitmap guarded keep =>
    obtain ⟨m, l, hon⟩ := id hready
    obtain ⟨hon', hwalk⟩ := hon.other (memoryList_laws func) (memMaps_laws func) limit bitmap
      guarded keep
    have hready' : Kernel.Ready k₀ _ maps := ⟨_, l, hon'⟩
    refine ⟨⟨maps, hready'⟩, ?_⟩
    rw [hready'.synced_iff, hwalk]
    exact hready.synced_iff.mp hsync

/-- From a `vm_init` whose entries cover all frames, through calls of `vm_map` and of
    `vm_unmap` that match the records, a new address space has the kernel's map. -/
theorem address_space_mirrors {func func' : Nat → UInt8} {s₀ s₁ s s' : Kernel Vec Vec}
    (hstart : s₀.Start) {entries : List LimineMemmapEntry} {kernel : LimineKAddrRes}
    {line line' line'' : UInt64}
    (hinit : vmInit (memoryList func) (memMaps func) s₀ (some entries) (some kernel) func line =
      some s₁)
    (hcover : ∀ w, (frameMap s₀.ram.kmem.physicalLimit).Covers w →
      ∃ map ∈ entries.filterMap (entryMap kernel), map.Covers w)
    (hrun : Relation.ReflTransGen (KernelStep func (Kernel.Matches func)) s₁ s) {as : Space Vec}
    (hcreate : createAddressSpace (memoryList func) (memMaps func) vectorNew s func' line' line'' =
      some (some as, s')) :
    ∀ w, walk s'.ram.mem as.tables w = s'.walk w ∧ s'.walk w = s.walk w := by
  obtain ⟨⟨maps, hready⟩, hsync⟩ :=
    Ledger.run_preserves (fun s => (∃ maps, s.Ready s₀.ram.apart.kmem maps) ∧ s.Synced func)
      (fun _ _ => synced_step) ⟨⟨_, (vmInit_spec hstart hinit).1⟩, (synced_init_iff hstart hinit).mpr hcover⟩
      hrun
  intro w
  exact ⟨(mirrors_iff_synced hready hcreate).mpr hsync w,
    congrFun (createAddressSpace_spec hready hcreate).2.2 w⟩

/-! Two runs from `pm_init`: usable memory from `base` to 2 MiB, with the bitmap in its first
    page. -/

def lowMap (base : UInt64) : List LimineMemmapEntry := [⟨base, 0x200000 - base, .usable⟩]

def bootAddr : LimineKAddrRes := ⟨0x1F0000, 0xFFFFFFFF80000000⟩

/-- The kernel before `vm_init`: its own data are zero. -/
def bootKernel (c : Ram) : Kernel Vec Vec := ⟨c, ⟨0, vectorNew⟩, vectorNew⟩

section Boot
variable {base : UInt64} (hbase : base = 0 ∨ base = 0x1000)
include hbase

theorem lowMap_end : (⟨base, 0x200000 - base, .usable⟩ : LimineMemmapEntry).endAddr = 0x200000 := by
  rcases hbase with rfl | rfl
  · decide
  · decide

theorem lowMap_aligned : UsableAligned (lowMap base) := by
  unfold UsableAligned
  rcases hbase with rfl | rfl
  · decide
  · decide

theorem lowMap_high : HighUsable ⟨base, 0x200000 - base, .usable⟩ :=
  ⟨rfl, by rw [lowMap_end hbase]; decide⟩

theorem lowMap_room : RoomFor (lowMap base) 64 := by
  refine ⟨_, List.mem_singleton_self _, lowMap_high hbase, ?_⟩
  rcases hbase with rfl | rfl
  · decide
  · decide

theorem lowMap_fields : ∃ c, ramZero.pmInit (some (lowMap base)) = some c ∧
    c.kmem.physicalLimit = 0x200000 ∧ c.kmem.bitmap = physToVirt base := by
  have hlim : (placed ramZero.load ramZero.mem (lowMap base)).physicalLimit = 0x200000 := by
    apply UInt64.toNat_inj.mp
    rw [placed_limit fun e he _ => by rw [List.mem_singleton.mp he, lowMap_end hbase]; decide,
      highestAddress, lowMap, List.filter_cons_of_pos (by rfl), List.filter_nil, List.map_singleton,
      lowMap_end hbase]
    rfl
  have hsize : (placed ramZero.load ramZero.mem (lowMap base)).bitmapSize.toNat = 64 := by
    rw [KernelMemInfo.bitmapSize, hlim]
    decide
  have hroom : RoomFor (lowMap base)
      (placed ramZero.load ramZero.mem (lowMap base)).bitmapSize.toNat := by
    rw [hsize]
    exact lowMap_room hbase
  obtain ⟨k, hk, ⟨e, he, -, hbitmap, -⟩, -⟩ := pmInit_spec (lowMap_aligned hbase) hroom
  rw [List.mem_singleton.mp he] at hbitmap
  exact ⟨k.store, Option.map_eq_some_iff.mpr ⟨k, hk, rfl⟩, (pmInit_scanned hk).1.trans hlim, hbitmap⟩

/-- `pm_init` leaves a guarded state with 510 free pages in a row. -/
theorem lowMap_start : ∃ c, ramZero.pmInit (some (lowMap base)) = some c ∧
    c.kmem.physicalLimit = 0x200000 ∧ (bootKernel c).Start ∧ Stock c.load 510 := by
  obtain ⟨c, hinit, hlim, hbitmap⟩ := lowMap_fields hbase
  have hlim' : c.load.physicalLimit = 0x200000 := hlim
  have hsize : c.load.bitmapSize = 64 := by
    rw [KernelMemInfo.bitmapSize, hlim']
    decide
  have hone : numPages c.load.bitmapSize = 1 := by
    rw [hsize]
    decide
  have hroom : RoomFor (lowMap base) c.load.bitmapSize.toNat := by
    rw [hsize]
    exact lowMap_room hbase
  have hbits := fun (p : Nat) =>
    @pmInit_onePage c (lowMap base) (lowMap_aligned hbase) hinit base hbitmap hone hroom p
  have hpage : pageOf base ≤ 1 ∧ base.toNat ≤ 4096 ∧ base.toNat % 4096 = 0 := by
    rcases hbase with rfl | rfl
    · decide
    · decide
  have hguarded : c.Guarded := by
    refine onePage_guarded (lowMap_aligned hbase) hinit hpage.2.2 hbitmap hone hroom ?_
      fun e he _ => ?_
    · rw [KernelMemInfo.bitmapSpan, hlim']
      decide
    · rw [List.mem_singleton.mp he, lowMap_end hbase, hlim]
      decide
  refine ⟨c, hinit, hlim, ⟨?_, hguarded, rfl, rfl⟩, ?_, ?_, 2, ?_, fun p hlow hhi => ?_⟩
  · show c.kmem.physicalLimit.toNat + 4096 ≤ 2 ^ 47
    rw [hlim]
    decide
  · rw [hlim']
    decide
  · rw [← Bool.not_eq_true, hbits 0 (by decide)]
    rintro ⟨⟨e, he, -, hin, -⟩, hne⟩
    rw [List.mem_singleton.mp he] at hin
    have hzero : base.toNat = 0 := Nat.le_zero.mp hin
    exact hne (by rw [pageOf, hzero])
  · rw [hlim']
    decide
  · refine (hbits p (by omega)).mpr
      ⟨⟨_, List.mem_singleton_self _, lowMap_high hbase, ?_, ?_⟩, by omega⟩
    · show base.toNat ≤ 4096 * p
      omega
    · rw [lowMap_end hbase]
      omega

theorem lowMap_oneRegion :
    ∀ map ∈ (lowMap base).filterMap (entryMap bootAddr), map.OneRegion := by
  intro map hmap
  obtain rfl : map = ⟨physToVirt base, base, vmDefault, numPages (0x200000 - base)⟩ :=
    List.mem_singleton.mp hmap
  rcases hbase with rfl | rfl
  · exact oneRegion_of (by decide) (by decide)
  · exact oneRegion_of (by decide) (by decide)

theorem lowMap_init : ∃ c s, ramZero.pmInit (some (lowMap base)) = some c ∧
    c.kmem.physicalLimit = 0x200000 ∧ (bootKernel c).Start ∧
    vmInit (memoryList fun _ => 0) (memMaps fun _ => 0) (bootKernel c) (some (lowMap base))
      (some bootAddr) (fun _ => 0) 0 = some s ∧ s.Supplied 20 90 400 := by
  obtain ⟨c, hinit, hlim, hstart, hstock⟩ := lowMap_start hbase
  have hlow : (bootKernel c).ram.kmem.physicalLimit.toNat = 0x200000 := by
    show c.kmem.physicalLimit.toNat = _
    rw [hlim]
    decide
  have hlength : (lowMap base).length = 1 := rfl
  obtain ⟨s, hs, hsupplied⟩ := vmInit_returns (fun _ => 0) 0 hstart
    (Nat.le_of_eq hlow) (lowMap_oneRegion hbase) (by rw [hlow]; decide) (j := 20) (i := 90) (n := 400)
    (by rw [hlength]; decide) (by rw [hlength]; decide)
    (by rw [hlength]; exact hstock.mono (by decide))
  exact ⟨c, s, hinit, hlim, hstart, hs, hsupplied⟩

end Boot

theorem bootAddr_valid : bootAddr.Valid := ⟨by decide, by decide, by decide, by decide⟩

theorem lowMap_valid : ∀ e ∈ lowMap 0, e.Valid := by
  intro e he
  rw [List.mem_singleton.mp he]
  exact ⟨by decide, by decide, by decide⟩

/-- One page at 4 MiB. -/
def pageAt (p : UInt64) : MemMap := ⟨0x400000, p, vmDefault, 1⟩

theorem pageAt_oneRegion (p : UInt64) : (pageAt p).OneRegion :=
  oneRegion_of (show (0x400000 : UInt64).toNat % 4096 = 0 by decide)
    (show pageNum 0x400000 % 512 + (1 : UInt64).toNat ≤ 512 by decide)

/-- All of memory is usable; one more page is mapped. -/
theorem address_space_mirrors_boot :
    ∃ c s₁ r as s', ramZero.pmInit (some (lowMap 0)) = some c ∧
      vmInit (memoryList fun _ => 0) (memMaps fun _ => 0) (bootKernel c) (some (lowMap 0))
        (some bootAddr) (fun _ => 0) 0 = some s₁ ∧
      vmMap (memoryList fun _ => 0) (memMaps fun _ => 0) s₁ none 0x400000 0x5000 1 vmDefault =
        some r ∧
      createAddressSpace (memoryList fun _ => 0) (memMaps fun _ => 0) vectorNew r.1 (fun _ => 0) 0 0 =
        some (some as, s') ∧
      ∀ w, walk s'.ram.mem as.tables w = s'.walk w ∧ s'.walk w = r.1.walk w := by
  obtain ⟨c, s₁, hpm, hlim, hstart, hinit, hsupplied⟩ := lowMap_init (Or.inl (Eq.refl (0 : UInt64)))
  have hready := (vmInit_spec hstart hinit).1
  have hlim' : (bootKernel c).ram.kmem.physicalLimit = 0x200000 := hlim
  rw [hlim'] at hready
  obtain ⟨r, hr, hsr⟩ := hready.map_returns (fun _ => 0) (j := 19) (i := 87) (n := 368)
    hsupplied (pageAt_oneRegion 0x5000)
  have hready' := (hready.map _ hr).1
  have hregions : ∀ map ∈ userMap 0x200000 :: (lowMap 0).filterMap (entryMap bootAddr) ++
      [pageAt 0x5000], map.OneRegion := by
    intro map hmap
    rcases List.mem_append.mp hmap with hmap | hmap
    · rcases List.mem_cons.mp hmap with rfl | hmap
      · exact oneRegion_of (by decide) (by decide)
      · exact lowMap_oneRegion (Or.inl rfl) map hmap
    · rw [List.mem_singleton.mp hmap]
      exact pageAt_oneRegion 0x5000
  obtain ⟨as, s', hcreate⟩ := createAddressSpace_returns (fun _ => 0) hready' hregions
    (by decide) (hsr.stock.mono (by decide)) (fun _ => 0) 0 0
  refine ⟨c, s₁, r, as, s', hpm, hinit, hr, hcreate, ?_⟩
  refine address_space_mirrors hstart hinit (fun w hw => ?_) (.single (.map _ _ _ _ hr)) hcreate
  rw [hlim'] at hw
  exact ⟨_, List.mem_singleton_self _, hw⟩

/-- The frame below the usable memory is the kernel's alone, and a user's in a new address
    space. -/
theorem frame_without_record :
    ∃ c s₁ as s', ramZero.pmInit (some (lowMap 0x1000)) = some c ∧
      vmInit (memoryList fun _ => 0) (memMaps fun _ => 0) (bootKernel c) (some (lowMap 0x1000))
        (some bootAddr) (fun _ => 0) 0 = some s₁ ∧
      createAddressSpace (memoryList fun _ => 0) (memMaps fun _ => 0) vectorNew s₁ (fun _ => 0) 0 0 =
        some (some as, s') ∧
      walk s'.ram.mem as.tables memVirtOffset = some 7 ∧ s'.walk memVirtOffset = some 3 := by
  obtain ⟨c, s₁, hpm, hlim, hstart, hinit, hsupplied⟩ := lowMap_init (Or.inr (Eq.refl (0x1000 : UInt64)))
  obtain ⟨hready, hwalk⟩ := vmInit_spec hstart hinit
  have hlim' : (bootKernel c).ram.kmem.physicalLimit = 0x200000 := hlim
  rw [hlim'] at hready hwalk
  have hregions : ∀ map ∈ userMap 0x200000 :: (lowMap 0x1000).filterMap (entryMap bootAddr),
      map.OneRegion := by
    intro map hmap
    rcases List.mem_cons.mp hmap with rfl | hmap
    · exact oneRegion_of (by decide) (by decide)
    · exact lowMap_oneRegion (Or.inr rfl) map hmap
  obtain ⟨as, s', hcreate⟩ := createAddressSpace_returns (fun _ => 0) hready hregions
    (by decide) (hsupplied.stock.mono (by decide)) (fun _ => 0) 0 0
  obtain ⟨hnew, -, hkernel⟩ := createAddressSpace_spec hready hcreate
  -- the entry covers the pages from the second one on
  have hentry : ∀ f, replay f ((lowMap 0x1000).filterMap (entryMap bootAddr)) memVirtOffset =
      f memVirtOffset := by
    intro f
    have hrecords : (lowMap 0x1000).filterMap (entryMap bootAddr) =
        [⟨0xFFFF800000001000, 0x1000, vmDefault, 511⟩] := by decide
    rw [hrecords, replay_singleton]
    exact (@mapUpdates_apply f 0xFFFF800000001000 0x1000 511 vmDefault (by decide) (by decide)
      (by decide) (by decide) (by decide)).2 memVirtOffset (by decide)
  -- the first page of the passes over all frames
  have hpass : ∀ f flags, flags.toNat < 4096 → checkNotPresent flags = false →
      replay f [⟨memVirtOffset, 0, flags, 512⟩] memVirtOffset = some (0 ||| flags) := by
    intro f flags hflags hpres
    have hfirst := (@mapUpdates_apply f memVirtOffset 0 512 flags (by decide) (by decide) (by decide)
      hflags hpres).1 0 (by decide)
    rw [show memVirtOffset + pageSize * UInt64.ofNat 0 = memVirtOffset by decide,
      show (0 : UInt64) + pageSize * UInt64.ofNat 0 = 0 by decide] at hfirst
    rw [replay_singleton]
    exact hfirst
  have huser : userMap 0x200000 = ⟨memVirtOffset, 0, vmUsermode, 512⟩ := by decide
  have hframe : frameMap 0x200000 = ⟨memVirtOffset, 0, vmDefault, 512⟩ := by decide
  refine ⟨c, s₁, as, s', hpm, hinit, hcreate, ?_, ?_⟩
  · rw [hnew, replay_first, hentry, huser, hpass _ _ (by decide) (by decide)]
    rfl
  · rw [hkernel, hwalk, replay_first, replay_first _ (frameMap _), hentry, hframe,
      hpass _ _ (by decide) (by decide)]
    rfl

end Horizon64
