import Horizon64.AddressSpaces

/- The map that the kernel's calls make.

   A list of records stands for the map that `vm_map` makes of them in order (`replay`).
   `vm_init` leaves the replay of its passes (`vmInit_spec`), and a space that
   `create_address_space` returns is the replay of the kernel's records
   (`createAddressSpace_spec`). Both in memory where the pages that no block may have are
   used at the start (`Kernel.Start`).

   1. Replaying records.
   2. `vm_init`.
   3. `create_address_space`.
   4. Calls that return. -/
namespace Horizon64
open Words Bytes Isolation

/-! Records. -/

/-- The assignments that mapping a record makes. -/
def MemMap.updates (map : MemMap) : List (UInt64 × Option UInt64) :=
  mapUpdates map.virtAddr map.physAddr map.numPages map.flags

/-- The map in which nothing is mapped. -/
def noPages : UInt64 → Option UInt64 := fun _ => none

/-- Map the records in order, over the map `f`. -/
def replay (f : UInt64 → Option UInt64) (maps : List MemMap) : UInt64 → Option UInt64 :=
  FlatMap.assignAll pageNum f (maps.flatMap MemMap.updates)

theorem replay_append (f : UInt64 → Option UInt64) (l l' : List MemMap) :
    replay f (l ++ l') = replay (replay f l) l' := by
  rw [replay, List.flatMap_append, FlatMap.assignAll_append]
  rfl

theorem replay_cons (f : UInt64 → Option UInt64) (map : MemMap) (l : List MemMap) :
    replay f (map :: l) = replay (FlatMap.assignAll pageNum f map.updates) l := by
  rw [replay, List.flatMap_cons, FlatMap.assignAll_append]
  rfl

theorem replay_singleton (f : UInt64 → Option UInt64) (map : MemMap) :
    replay f [map] = FlatMap.assignAll pageNum f map.updates := by
  rw [replay_cons]
  rfl

theorem replay_first (f : UInt64 → Option UInt64) (map : MemMap) (l : List MemMap) :
    replay f (map :: l) = replay (replay f [map]) l := by
  rw [replay_cons, replay_singleton]

/-- The kernel's tables and records are in order, behind the fence `k₀`; the records are
    `maps`. -/
def Kernel.Ready (k₀ : KernelMemInfo) (s : Kernel Vec Vec) (maps : List MemMap) : Prop :=
  ∃ (m : Machine) (l : List UInt64), s.On listOwner recordsOwner k₀ m maps l

/-- The kernel before `vm_init`. -/
structure Kernel.Start (s : Kernel Vec Vec) : Prop where
  limit : s.ram.kmem.physicalLimit.toNat + 4096 ≤ 2 ^ 47
  guarded : s.ram.Guarded
  list : s.kernelAddrSpace.memoryList = vectorNew
  records : s.globalMemMap = vectorNew

section Ready
variable {func : Nat → UInt8} {k₀ : KernelMemInfo} {s : Kernel Vec Vec} {maps : List MemMap}

theorem Kernel.Ready.limit (h : s.Ready k₀ maps) :
    s.ram.kmem.physicalLimit = k₀.physicalLimit := by
  obtain ⟨m, l, hon⟩ := h
  rw [hon.ram]
  exact congrArg Prod.fst hon.inv.1.1

theorem Kernel.Ready.records_eq (h : s.Ready k₀ maps) : s.records (memMaps func) = maps := by
  obtain ⟨m, l, hon⟩ := h
  exact hon.records_eq (memMaps_laws func)

theorem Kernel.Ready.map (h : s.Ready k₀ maps) (map : MemMap) {r : Kernel Vec Vec × Space Vec}
    (hmap : vmMap (memoryList func) (memMaps func) s none map.virtAddr map.physAddr map.numPages
      map.flags = some r) :
    r.1.Ready k₀ (maps ++ [map]) ∧ r.1.walk = replay s.walk [map] := by
  obtain ⟨m, l, hon⟩ := h
  rw [replay_singleton]
  exact vmMap_kernel (memMaps_laws func) (memoryList_laws func) hon hmap

theorem Kernel.Ready.frames (h : s.Ready k₀ maps) {map : MemMap} {r : Ram × Space Vec}
    (hmap : s.ram.mapPages (memoryList func) s.kernelAddrSpace map.virtAddr map.physAddr
      map.numPages map.flags = some r) :
    (s.after none r).Ready k₀ maps ∧ (s.after none r).walk = replay s.walk [map] := by
  obtain ⟨m, l, hon⟩ := h
  have hram := hon.ram
  rw [hram] at hmap
  obtain ⟨m', l', hon', hwalk⟩ := hon.space_update (mapPages_ram (memoryList_laws func) hon.space hmap)
  refine ⟨⟨m', l', hon'⟩, hwalk.trans ?_⟩
  rw [replay_singleton, hon.walk_eq]
  rfl

end Ready

/-! `vm_init`. -/

/-- The record of the first `vm_map` of `vm_init`. -/
def userMap (limit : UInt64) : MemMap :=
  ⟨memVirtOffset, 0, vmUsermode, if numPages limit < memSize then numPages limit else memSize⟩

/-- What the loop over all frames maps, with no record. -/
def frameMap (limit : UInt64) : MemMap := ⟨memVirtOffset, 0, vmDefault, numPages limit⟩

section VmInit
variable {σ τ : Type} (K : Keeper UInt64 σ) (M : Keeper MemMap τ)

theorem vmInit_bind (s : Kernel σ τ) (entries : List LimineMemmapEntry) (kernel : LimineKAddrRes)
    (func : Nat → UInt8) (line : UInt64) :
    vmInit K M s (some entries) (some kernel) func line =
      (s.ram.kmallocImpl (defaultPages * pageSize) func line).bind fun (pml4, c) =>
        let t : Kernel σ τ := { s with
          ram := ⟨c.kmem, memset c.mem pml4 0 (pageSize * defaultPages)⟩
          kernelAddrSpace := { s.kernelAddrSpace with pml4 := pml4 } }
        let map := userMap t.ram.kmem.physicalLimit
        (vmMap K M t none map.virtAddr map.physAddr map.numPages map.flags).bind fun (u, _) =>
          let map := frameMap t.ram.kmem.physicalLimit
          (u.ram.mapPages K u.kernelAddrSpace map.virtAddr map.physAddr map.numPages
            map.flags).bind fun r =>
              entries.foldlM (vmInitEntry K M kernel) (u.after none r) := by
  simp only [Ram.mapPages, frameMap, UInt64.zero_add]
  rfl

end VmInit

section Start
variable {func : Nat → UInt8} {line : UInt64} {s : Kernel Vec Vec} (h : s.Start)
include h

/-- After its `kmalloc`, `vm_init` makes its passes over an empty address space. -/
theorem vmInit_start {pml4 : UInt64} {c : Ram}
    (hk : s.ram.kmallocImpl (defaultPages * pageSize) func line = some (pml4, c)) :
    ∃ (t : Kernel Vec Vec) (m : Machine), t.On listOwner recordsOwner s.ram.apart.kmem m [] [] ∧
      t.walk = noPages ∧ t.ram = c ∧ t.kernelAddrSpace = ⟨pml4, vectorNew⟩ ∧ t.globalMemMap = vectorNew ∧
      ∀ entries kernel, vmInit (memoryList func) (memMaps func) s (some entries) (some kernel) func
          line =
        let user := userMap s.ram.kmem.physicalLimit
        let frames := frameMap s.ram.kmem.physicalLimit
        (vmMap (memoryList func) (memMaps func) t none user.virtAddr user.physAddr user.numPages
          user.flags).bind fun (u, _) =>
          (u.ram.mapPages (memoryList func) u.kernelAddrSpace frames.virtAddr frames.physAddr
            frames.numPages frames.flags).bind
          fun r => entries.foldlM (vmInitEntry (memoryList func) (memMaps func) kernel)
            (u.after none r) := by
  obtain ⟨hlim, hguarded, hlist, hrecords⟩ := h
  obtain ⟨m₀, hm₀⟩ : ∃ m₀, m₀ = s.ram.apart := ⟨_, rfl⟩
  have hram : s.ram = m₀.ram := by rw [hm₀, Ram.ram_apart]
  have hstart : (fence.star recordsOwner).inv m₀ (m₀.kmem, (vectorNew, [])) := by
    refine ⟨⟨rfl, ?_⟩, vectorOwner_new (by decide) ?_, fun p _ hp => hp.1 rfl⟩
    · rw [hm₀]
      exact hguarded.fenced
    · rw [hm₀]
      exact hlim
  have hlimit : m₀.kmem.physicalLimit = s.ram.kmem.physicalLimit := by rw [hm₀]; rfl
  have hk' := hk
  rw [hram] at hk'
  obtain ⟨m, rfl, hframed, hset, hinv, hwalk, -⟩ := newSpace_ram (R := listOwner)
    hstart (fun _ => vectorOwner_new (by decide)) (fun p hp => hp.1 rfl) (by rw [hlimit]; exact hlim) rfl hk'
  obtain ⟨t, ht⟩ : ∃ t : Kernel Vec Vec, t = ⟨m.ram, ⟨pml4, vectorNew⟩, vectorNew⟩ := ⟨_, rfl⟩
  have hon : t.On listOwner recordsOwner m₀.kmem m [] [] := by
    rw [ht]
    exact ⟨rfl, by rw [hlimit]; exact hlim, hinv⟩
  have hfinal : m.ram.kmem.physicalLimit = s.ram.kmem.physicalLimit :=
    (congrArg Prod.fst hinv.1.1).trans hlimit
  refine ⟨t, m, hm₀ ▸ hon, ?_, by rw [ht], by rw [ht], by rw [ht], fun entries kernel => ?_⟩
  · rw [hon.walk_eq, ht]
    exact hwalk
  · rw [UInt64.mul_comm] at hset
    rw [vmInit_bind, hk, Option.bind_some]
    dsimp only
    rw [hset, hlist, hrecords, hfinal, ht]

end Start

section Entries
variable {func : Nat → UInt8} {k₀ : KernelMemInfo} {kernel : LimineKAddrRes} {maps : List MemMap}

/-- A round for an entry maps its record, when it has one. -/
theorem vmInitEntry_spec {s s' : Kernel Vec Vec} {entry : LimineMemmapEntry} (h : s.Ready k₀ maps)
    (hrun : vmInitEntry (memoryList func) (memMaps func) kernel s entry = some s') :
    s'.Ready k₀ (maps ++ (entryMap kernel entry).toList) ∧
      s'.walk = replay s.walk (entryMap kernel entry).toList := by
  rw [vmInitEntry] at hrun
  cases hmap : entryMap kernel entry with
  | none =>
    rw [hmap] at hrun
    obtain rfl : s = s' := Option.some.inj hrun
    rw [Option.toList_none, List.append_nil]
    exact ⟨h, rfl⟩
  | some map =>
    rw [hmap] at hrun
    obtain ⟨r, hr, rfl⟩ := Option.map_eq_some_iff.mp hrun
    exact h.map map hr

theorem vmInit_entries {s s' : Kernel Vec Vec} {entries : List LimineMemmapEntry}
    (h : s.Ready k₀ maps)
    (hrun : entries.foldlM (vmInitEntry (memoryList func) (memMaps func) kernel) s = some s') :
    s'.Ready k₀ (maps ++ entries.filterMap (entryMap kernel)) ∧
      s'.walk = replay s.walk (entries.filterMap (entryMap kernel)) := by
  induction entries generalizing s maps with
  | nil =>
    rw [List.foldlM_nil] at hrun
    obtain rfl : s = s' := Option.some.inj hrun
    rw [List.filterMap_nil, List.append_nil]
    exact ⟨h, rfl⟩
  | cons entry rest ih =>
    rw [List.foldlM_cons, Option.bind_eq_bind, Option.bind_eq_some_iff] at hrun
    obtain ⟨t, ht, hrest⟩ := hrun
    obtain ⟨hready, hwalk⟩ := vmInitEntry_spec h ht
    obtain ⟨hready', hwalk'⟩ := ih hready hrest
    have hsplit : (entry :: rest).filterMap (entryMap kernel) =
        (entryMap kernel entry).toList ++ rest.filterMap (entryMap kernel) := by
      rw [List.filterMap_cons]
      cases entryMap kernel entry <;> rfl
    rw [hsplit]
    refine ⟨?_, ?_⟩
    · rw [← List.append_assoc]
      exact hready'
    · rw [hwalk', hwalk, replay_append]

theorem vmInit_passes {t s' : Kernel Vec Vec} (h : t.Ready k₀ []) (hwalk : t.walk = noPages)
    {entries : List LimineMemmapEntry} {user frames : MemMap} {r : Kernel Vec Vec × Space Vec}
    (huser : vmMap (memoryList func) (memMaps func) t none user.virtAddr user.physAddr user.numPages
      user.flags = some r)
    {r' : Ram × Space Vec}
    (hframes : r.1.ram.mapPages (memoryList func) r.1.kernelAddrSpace frames.virtAddr
      frames.physAddr frames.numPages frames.flags = some r')
    (hrun : entries.foldlM (vmInitEntry (memoryList func) (memMaps func) kernel)
      (r.1.after none r') = some s') :
    s'.Ready k₀ (user :: entries.filterMap (entryMap kernel)) ∧
      s'.walk = replay noPages (user :: frames :: entries.filterMap (entryMap kernel)) := by
  obtain ⟨hready₁, hwalk₁⟩ := h.map _ huser
  obtain ⟨hready₂, hwalk₂⟩ := hready₁.frames hframes
  obtain ⟨hready₃, hwalk₃⟩ := vmInit_entries hready₂ hrun
  refine ⟨hready₃, ?_⟩
  rw [hwalk₃, hwalk₂, hwalk₁, hwalk, replay_first _ user (frames :: _), replay_first _ frames
    (entries.filterMap (entryMap kernel))]

end Entries

/-- `vm_init` maps the user pages, then all frames, then the entries' records; it keeps no
    record of the frames. -/
theorem vmInit_spec {func : Nat → UInt8} {line : UInt64} {s s' : Kernel Vec Vec} (h : s.Start)
    {entries : List LimineMemmapEntry} {kernel : LimineKAddrRes}
    (hrun : vmInit (memoryList func) (memMaps func) s (some entries) (some kernel) func line =
      some s') :
    s'.Ready s.ram.apart.kmem
        (userMap s.ram.kmem.physicalLimit :: entries.filterMap (entryMap kernel)) ∧
      s'.walk = replay noPages (userMap s.ram.kmem.physicalLimit ::
        frameMap s.ram.kmem.physicalLimit :: entries.filterMap (entryMap kernel)) := by
  cases hk : s.ram.kmallocImpl (defaultPages * pageSize) func line with
  | none =>
    rw [vmInit_bind, hk, Option.bind_none] at hrun
    cases hrun
  | some r =>
    obtain ⟨t, m, hon, hwalk, -, -, -, heq⟩ := vmInit_start h hk
    rw [heq] at hrun
    obtain ⟨u, hu, hrun⟩ := Option.bind_eq_some_iff.mp hrun
    obtain ⟨r', hr', hrun⟩ := Option.bind_eq_some_iff.mp hrun
    exact vmInit_passes ⟨m, [], hon⟩ hwalk hu hr' hrun

/-! `create_address_space`. -/

/-- What the kernel has, and a new space. -/
abbrev withSpace : Owner machinePages
    (((Vec × List MemMap) × (Space Vec × List UInt64)) × (Space Vec × List UInt64)) :=
  (kernelOwner listOwner recordsOwner).star (spaceOwner listOwner)

/-- While the records are mapped: the space `r.2` holds `f` so far, and the kernel `s` has not
    changed. -/
def Building (k₀ : KernelMemInfo) (s : Kernel Vec Vec) (maps : List MemMap)
    (r : Kernel Vec Vec × Space Vec) (f : UInt64 → Option UInt64) : Prop :=
  ∃ (m : Machine) (l l' : List UInt64), r.1 = { s with ram := m.ram } ∧
    (fence.star withSpace).inv m
      (k₀, (((s.globalMemMap, maps), (s.kernelAddrSpace, l)), (r.2, l'))) ∧
    walk m.mem s.kernelAddrSpace.tables = s.walk ∧ walk m.mem r.2.tables = f

section Building
variable {func : Nat → UInt8} {k₀ : KernelMemInfo} {s : Kernel Vec Vec} {maps : List MemMap}
  {r : Kernel Vec Vec × Space Vec} {f : UInt64 → Option UInt64}

theorem Building.kernel (h : Building k₀ s maps r f)
    (hlim : k₀.physicalLimit.toNat + 4096 ≤ 2 ^ 47) :
    r.1.Ready k₀ maps ∧ r.1.walk = s.walk := by
  obtain ⟨r₁, as⟩ := r
  obtain ⟨m, l, l', rfl, hinv, hkernel, -⟩ := h
  have hon : Kernel.On listOwner recordsOwner k₀ m { s with ram := m.ram } maps l :=
    ⟨rfl, hlim, star_left (T := spaceOwner listOwner) (n := (as, l')) hinv⟩
  exact ⟨⟨m, l, hon⟩, hon.walk_eq.trans hkernel⟩

theorem Building.step (h : Building k₀ s maps r f) {map : MemMap} {r' : Kernel Vec Vec × Space Vec}
    (hrun : vmMap (memoryList func) (memMaps func) r.1 (some r.2) map.virtAddr map.physAddr
      map.numPages map.flags = some r') :
    Building k₀ s maps r' (FlatMap.assignAll pageNum f map.updates) := by
  obtain ⟨r₁, as⟩ := r
  obtain ⟨m, l, l', rfl, hinv, hkernel, hwalk⟩ := h
  obtain ⟨u, hu, rfl⟩ := vmMap_some.mp hrun
  have hspace : (fence.star (spaceOwner listOwner)).inv m (k₀, (as, l')) :=
    star_right (Q := kernelOwner listOwner recordsOwner)
      (m := ((s.globalMemMap, maps), (s.kernelAddrSpace, l))) hinv
  obtain ⟨m', v, l'', rfl, hframed, hwalk'⟩ := mapPages_ram (memoryList_laws func) hspace hu
  refine ⟨m', l, l'', rfl, ((hframed.right hinv.2.1).right hinv).inv, ?_, ?_⟩
  · -- the kernel's tables are not the new ones
    obtain ⟨-, ⟨⟨-, ⟨htables, -, -⟩, -⟩, -, hapart⟩, -⟩ := hinv
    have hboth : (tablesOwner.star (spaceOwner listOwner)).inv m
        (⟨s.kernelAddrSpace.pml4, l⟩, (as, l')) :=
      ⟨htables, hspace.2.1, fun p hp hnew => hapart p (Or.inr (Or.inl hp)) hnew⟩
    exact (tables_kept hframed hboth).2.1.trans hkernel
  · rw [MemMap.updates, ← hwalk]
    exact hwalk'

/-- Mapping all of them: each round reads its record in memory. -/
theorem Building.loop (h : Building k₀ s maps r f) {r' : Kernel Vec Vec × Space Vec}
    (hrun : (List.range maps.length).foldlM (fun (s, as) i =>
      let map := (memMaps func).get s.ram s.globalMemMap i
      vmMap (memoryList func) (memMaps func) s (some as) map.virtAddr map.physAddr map.numPages
        map.flags) r = some r') :
    Building k₀ s maps r' (replay f maps) := by
  have hfold : replay f maps = (List.range maps.length).foldl (fun g i =>
      FlatMap.assignAll pageNum g (maps.getD i default).updates) f := by
    have hrange : (List.range maps.length).map (fun i => maps.getD i default) = maps := by
      refine List.ext_getElem (by simp) fun i hi hi' => ?_
      rw [List.getElem_map, List.getElem_range, List.getD_eq_getElem _ _ hi']
    rw [← List.foldl_map (f := fun i => maps.getD i default)
      (g := fun g map => FlatMap.assignAll pageNum g map.updates), hrange, replay,
      FlatMap.assignAll, List.foldl_flatMap]
    rfl
  rw [hfold]
  refine Folds.foldlM_sim (R := fun r f => Building k₀ s maps r f) (fun t g t' i hi ht hmap => ?_) h hrun
  have hlt : i < maps.length := List.mem_range.mp hi
  obtain ⟨t₁, as⟩ := t
  obtain ⟨m, l, l', rfl, hinv, -⟩ := id ht
  have hshown : (fence.star recordsOwner).inv m (k₀, (s.globalMemMap, maps)) :=
    star_left (T := spaceOwner listOwner) (n := (s.kernelAddrSpace, l))
      (star_left (T := spaceOwner listOwner) (n := (as, l')) hinv)
  have hget : (memMaps func).get m.ram s.globalMemMap i = maps[i] :=
    (memMaps_laws func).get hshown i hlt
  dsimp only at hmap
  rw [hget] at hmap
  rw [List.getD_eq_getElem _ _ hlt]
  exact ht.step hmap

end Building

section Create
variable {func func' : Nat → UInt8} {k₀ : KernelMemInfo} {s s' : Kernel Vec Vec}
  {maps : List MemMap} {line line' : UInt64}

theorem building_start {m : Machine} {l : List UInt64} (h : s.On listOwner recordsOwner k₀ m maps l)
    {as pml4 : UInt64} {c c' : Ram}
    (hk : s.ram.kmallocImpl sizeofAddrSpace func line = some (as, c))
    (hk' : Ram.kmallocImpl ⟨c.kmem, memset c.mem as 0 sizeofAddrSpace⟩ (pageSize * defaultPages) func
      line' = some (pml4, c')) :
    Building k₀ s maps ({ s with ram := c' }, ⟨pml4, vectorNew⟩) noPages := by
  have hlim := h.limit
  have hsize : sizeofAddrSpace.toNat = 48 := rfl
  obtain ⟨-, ⟨-, ⟨htables, -, -⟩, -⟩, -⟩ := id h.inv
  have hheld : (tablesOwner.star (nobody machinePages)).inv m (⟨s.kernelAddrSpace.pml4, l⟩, ()) :=
    ⟨htables, trivial, fun _ _ => id⟩
  -- the block of the structure, which is zero already
  have hfence : fence.inv m k₀ := h.inv.1
  rw [h.ram] at hk
  obtain ⟨m₁, rfl, -, hframed₁, hset⟩ := kmalloc_framed hfence (by rw [hsize]; omega) hk
  rw [hset] at hk'
  -- the block of the PML4
  rw [UInt64.mul_comm] at hk'
  obtain ⟨m₂, rfl, hframed₂, -, hinv₂, hwalk, -⟩ := newSpace_ram (R := listOwner)
    (hframed₁.anyone h.inv).inv (fun _ => vectorOwner_new (by decide)) (fun p hp => hp.1 rfl) hlim rfl hk'
  exact ⟨m₂, l, [], rfl, hinv₂,
    ((tables_kept (hframed₁.trans hframed₂) hheld).2.1).trans h.walk_eq.symm, hwalk⟩

/-- A space that `create_address_space` returns is the replay of the records; the kernel's own
    space has not changed. -/
theorem createAddressSpace_spec (h : s.Ready k₀ maps) {as : Space Vec}
    (hrun : createAddressSpace (memoryList func) (memMaps func) vectorNew s func' line line' =
      some (some as, s')) :
    walk s'.ram.mem as.tables = replay noPages maps ∧ s'.Ready k₀ maps ∧ s'.walk = s.walk := by
  obtain ⟨m, l, hon⟩ := h
  have hlength : (memMaps func).length s.globalMemMap = maps.length :=
    (memMaps_laws func).length hon.shown.2.1
  simp only [createAddressSpace, Option.bind_eq_bind, Option.bind_eq_some_iff] at hrun
  obtain ⟨⟨ptr, c⟩, hk, hrun⟩ := hrun
  split at hrun
  · cases hrun
  · obtain ⟨⟨pml4, c'⟩, hk', hrun⟩ := Option.bind_eq_some_iff.mp hrun
    dsimp only at hrun
    split at hrun
    · cases hrun
    · obtain ⟨r, hloop, hrun⟩ := Option.bind_eq_some_iff.mp hrun
      rw [hlength] at hloop
      have hbuilt := (building_start hon hk hk').loop hloop
      obtain ⟨has, rfl⟩ := Prod.mk.inj (Option.some.inj hrun)
      obtain rfl := Option.some.inj has
      obtain ⟨hready, hwalk⟩ := hbuilt.kernel hon.limit
      obtain ⟨m', l₁, l₂, hram, hinv, -, hnew⟩ := id hbuilt
      refine ⟨?_, hready, hwalk⟩
      have hspace : (fence.star (spaceOwner listOwner)).inv m' (k₀, (r.2, l₂)) :=
        star_right (Q := kernelOwner listOwner recordsOwner)
          (m := ((s.globalMemMap, maps), (s.kernelAddrSpace, l₁))) hinv
      rw [hram]
      exact (ram_walk hspace).trans hnew

end Create

/-! Calls that return: with a stock of pages in a row the functions do not halt. -/

/-- The pages of the record are in one 2 MiB region. -/
def MemMap.OneRegion (map : MemMap) : Prop :=
  ∀ i ∈ pages 0 (map.numPages * pageSize), regionNum (map.virtAddr + i) = regionNum map.virtAddr

/-- A range that fits in what is left of its first page's region. -/
theorem oneRegion_of {map : MemMap} (hv : map.virtAddr.toNat % 4096 = 0)
    (hfits : pageNum map.virtAddr % 512 + map.numPages.toNat ≤ 512) : map.OneRegion := by
  intro i hi
  rw [pages_offsets, List.mem_map] at hi
  obtain ⟨j, hj, rfl⟩ := hi
  rw [List.mem_range] at hj
  have hpage : pageNum map.virtAddr < 2 ^ 36 := Nat.mod_lt _ (by decide)
  rw [regionNum, pageNum_add hv, regionNum]
  omega

/-- With memory below 2 MiB, the two passes over all frames stay in one region. -/
theorem direct_oneRegion {map : MemMap} (hv : map.virtAddr = memVirtOffset) {limit : UInt64}
    (hlimit : limit.toNat ≤ 2 ^ 21) (hn : map.numPages.toNat ≤ (numPages limit).toNat) :
    map.OneRegion := by
  have hpage : pageNum memVirtOffset % 512 = 0 := by decide
  rw [numPages_toNat (by omega)] at hn
  apply oneRegion_of
  · rw [hv]
    decide
  · rw [hv, hpage]
    omega

theorem ram_kmalloc_get {m : Machine} {k₀ : KernelMemInfo} {size p : UInt64} {k : KernelMemInfo}
    (h : fence.inv m k₀) (hlim : k₀.physicalLimit.toNat + 4096 ≤ 2 ^ 47) (hsmall : size.toNat ≤ 2 ^ 32)
    (hget : pmGet m.kmem (numPages size + 1) 0 = some (p, k)) (func : Nat → UInt8) (line : UInt64) :
    ∃ mem, m.ram.kmallocImpl size func line =
        some (physToVirt p + pageSize, (⟨k, mem⟩ : Machine).ram) ∧
      Framed (nobody machinePages) m () ⟨k, mem⟩ () ∧
      memset (⟨k, mem⟩ : Machine).ram.mem (physToVirt p + pageSize) 0 size =
        (⟨k, mem⟩ : Machine).ram.mem := by
  have hlimit : m.kmem.physicalLimit = k₀.physicalLimit := congrArg Prod.fst h.1
  obtain ⟨mem, hk⟩ : ∃ mem, kmallocImpl m size func line =
      some (physToVirt p + pageSize, ⟨k, mem⟩) := kmallocImpl_get hget
  have hfit : m.kmem.physicalLimit.toNat + size.toNat + 8192 ≤ 2 ^ 64 := by
    rw [hlimit]
    omega
  have hram : m.ram.kmallocImpl size func line =
      some (physToVirt p + pageSize, (⟨k, mem⟩ : Machine).ram) := by
    rw [ram_kmalloc (fence_fenced h) (inSpace_of_limit hfit), hk]
    rfl
  obtain ⟨m', hm', hk', hframed, hset⟩ := kmalloc_framed h (by omega) hram
  obtain rfl : (⟨k, mem⟩ : Machine) = m' :=
    (Prod.mk.inj (Option.some.inj (hk.symm.trans hk'))).2
  exact ⟨mem, hram, hframed, hset⟩

theorem ram_kmalloc_returns {m : Machine} {k₀ : KernelMemInfo} {size : UInt64} {a n : Nat}
    (h : fence.inv m k₀) (hlim : k₀.physicalLimit.toNat + 4096 ≤ 2 ^ 47) (hsmall : size.toNat ≤ 2 ^ 32)
    (ha : (numPages size + 1).toNat = a) (hten : a ≤ 10) (hpos : 0 < a) (hs : Stock m.kmem (a + n))
    (func : Nat → UInt8) (line : UInt64) :
    ∃ (ptr : UInt64) (m' : Machine),
      m.ram.kmallocImpl size func line = some (ptr, m'.ram) ∧ ptr ≠ 0 ∧ fence.inv m' k₀ ∧
        memset m'.ram.mem ptr 0 size = m'.ram.mem ∧ Stock m'.kmem n := by
  subst ha
  have hlimit : m.kmem.physicalLimit = k₀.physicalLimit := congrArg Prod.fst h.1
  obtain ⟨p, k, hget, -, hs'⟩ := hs.get hpos hten
  obtain ⟨mem, hram, hframed, hset⟩ := ram_kmalloc_get h hlim hsmall hget func line
  refine ⟨_, _, hram, fun hnull => ?_, (hframed.anyone h).inv, hset, hs'⟩
  have hlt := UInt64.lt_iff_toNat_lt.mp (pmGet_spec hget).1
  have hoff : memVirtOffset.toNat = 2 ^ 64 - 2 ^ 47 := rfl
  rw [hlimit] at hlt
  have hvirt : (physToVirt p).toNat = p.toNat + memVirtOffset.toNat := by
    rw [physToVirt, toNat_add_of_lt (by omega)]
  have hptr : (physToVirt p + pageSize).toNat = p.toNat + memVirtOffset.toNat + 4096 := by
    rw [toNat_add_of_lt (by rw [hvirt, pageSize_toNat]; omega), hvirt, pageSize_toNat]
  rw [hnull, UInt64.toNat_zero] at hptr
  omega

/-- Room for `j` more records and `i` more tables, and a stock of `n` pages. -/
structure Kernel.Supplied (s : Kernel Vec Vec) (j i n : Nat) : Prop where
  records : VecRoom 32 j s.globalMemMap
  tables : VecRoom 8 i s.kernelAddrSpace.memoryList
  stock : Stock s.ram.load n

section Supplied
variable (func : Nat → UInt8) {k₀ : KernelMemInfo} {s : Kernel Vec Vec} {maps : List MemMap}
  {kernel : LimineKAddrRes} {j i n : Nat}

theorem Kernel.Ready.frames_returns (h : s.Ready k₀ maps) (hs : s.Supplied j (i + 3) (30 + n))
    {map : MemMap} (hmap : map.OneRegion) :
    ∃ r, s.ram.mapPages (memoryList func) s.kernelAddrSpace map.virtAddr map.physAddr map.numPages
      map.flags = some r ∧ (s.after none r).Supplied j i n := by
  obtain ⟨m, l, hon⟩ := h
  have hram := hon.ram
  have hstock := hs.stock
  rw [hram, stock_ram] at hstock
  obtain ⟨r, hr, hstock', hroom'⟩ := mapPages_stock (memoryList_laws func) (memoryList_takes func)
    hon.space map.physAddr map.flags hmap hs.tables hstock
  rw [hram]
  exact ⟨r, hr, hs.records, hroom', hstock'⟩

theorem Kernel.Ready.map_returns (h : s.Ready k₀ maps) (hs : s.Supplied (j + 1) (i + 3) (32 + n))
    {map : MemMap} (hmap : map.OneRegion) :
    ∃ r, vmMap (memoryList func) (memMaps func) s none map.virtAddr map.physAddr map.numPages
      map.flags = some r ∧ r.1.Supplied j i n := by
  obtain ⟨m, l, hon⟩ := h
  have hram := hon.ram
  have hstock := hs.stock
  rw [hram, stock_ram] at hstock
  obtain ⟨c, gm, happ, hstock₁, hroom₁⟩ := (memMaps_takes func).append (x := map)
    (n := 30 + n) hon.shown hs.records (hstock.mono (by omega))
  obtain ⟨m₁, rfl, hframed⟩ := (memMaps_laws func).append hon.shown happ
  have hon₁ := (hon.records_framed hframed).1
  obtain ⟨u, hu, hu'⟩ := Kernel.Ready.frames_returns func (j := j) (i := i) (n := n)
    ⟨m₁, l, hon₁⟩ ⟨hroom₁, hs.tables, hstock₁⟩ hmap
  refine ⟨_, vmMap_none.mpr ⟨(m₁.ram, gm), u, ?_, hu, rfl⟩, hu'⟩
  rw [hram]
  exact happ

/-- Where the first page is mapped, so is the page table of the region. -/
theorem Kernel.Ready.frames_again (h : s.Ready k₀ maps) (hs : s.Supplied j i n) (map : MemMap)
    (hv : (s.walk map.virtAddr).isSome) (hmap : map.OneRegion) :
    ∃ r, s.ram.mapPages (memoryList func) s.kernelAddrSpace map.virtAddr map.physAddr map.numPages
      map.flags = some r ∧ (s.after none r).Supplied j i n := by
  obtain ⟨m, l, hon⟩ := h
  have hram := hon.ram
  have hstock := hs.stock
  rw [hram, stock_ram] at hstock
  rw [hon.walk_eq, walk_eq] at hv
  cases ht : Radix.descend (sub m.mem) s.kernelAddrSpace.tables.root (path map.virtAddr) with
  | none =>
    rw [ht] at hv
    cases hv
  | some t =>
    have hhas : HasPageTable listOwner (VecRoom 8) k₀ i n map.virtAddr
        (s.ram, s.kernelAddrSpace) := ⟨m, l, t, hram, hon.space, hstock, hs.tables, ht⟩
    obtain ⟨r, hr, hhas'⟩ := Folds.foldlM_returns
      (f := fun r x => r.1.mapPageEntry (memoryList func) r.2 (map.virtAddr + x) (map.physAddr + x)
        map.flags) (l := pages 0 (map.numPages * pageSize))
      (fun r x hx hr => hr.map (hmap x hx) (map.physAddr + x) map.flags) hhas
    obtain ⟨m', l', t', hram', -, hstock', hroom', -⟩ := hhas'
    refine ⟨r, hr, hs.records, hroom', ?_⟩
    show Stock r.1.load n
    rw [hram']
    exact (stock_ram m').mpr hstock'

theorem vmInit_entries_returns {entries : List LimineMemmapEntry} (h : s.Ready k₀ maps)
    (hregions : ∀ map ∈ entries.filterMap (entryMap kernel), map.OneRegion)
    (hs : s.Supplied (entries.length + j) (3 * entries.length + i) (32 * entries.length + n)) :
    ∃ s', entries.foldlM (vmInitEntry (memoryList func) (memMaps func) kernel) s = some s' ∧
      s'.Supplied j i n := by
  induction entries generalizing s maps with
  | nil =>
    rw [List.length_nil, Nat.mul_zero, Nat.zero_add, Nat.zero_add, Nat.zero_add] at hs
    exact ⟨s, by rw [List.foldlM_nil]; rfl, hs⟩
  | cons entry rest ih =>
    have hj : (entry :: rest).length + j = rest.length + j + 1 := by
      rw [List.length_cons]
      omega
    have hi : 3 * (entry :: rest).length + i = 3 * rest.length + i + 3 := by
      rw [List.length_cons]
      omega
    have hn : 32 * (entry :: rest).length + n = 32 + (32 * rest.length + n) := by
      rw [List.length_cons]
      omega
    rw [hj, hi, hn] at hs
    obtain ⟨t, ht, hst⟩ : ∃ t, vmInitEntry (memoryList func) (memMaps func) kernel s entry = some t ∧
        t.Supplied (rest.length + j) (3 * rest.length + i) (32 * rest.length + n) := by
      rw [vmInitEntry]
      cases hmap : entryMap kernel entry with
      | none =>
        have hless : ∀ {v j}, VecRoom 8 (j + 1) v → VecRoom 8 j v := (memoryList_takes func).less
        exact ⟨s, rfl, (memMaps_takes func).less hs.records, hless (hless (hless hs.tables)),
          hs.stock.mono (by omega)⟩
      | some map =>
        have hmem : map ∈ (entry :: rest).filterMap (entryMap kernel) :=
          List.mem_filterMap.mpr ⟨entry, List.mem_cons_self, hmap⟩
        obtain ⟨r, hr, hsr⟩ := h.map_returns func hs (hregions map hmem)
        exact ⟨r.1, Option.map_eq_some_iff.mpr ⟨r, hr, rfl⟩, hsr⟩
    obtain ⟨s', hs', hsupplied⟩ := ih (vmInitEntry_spec h ht).1 (fun map hmap => hregions map (by
      obtain ⟨e, he, hmap⟩ := List.mem_filterMap.mp hmap
      exact List.mem_filterMap.mpr ⟨e, List.mem_cons_of_mem entry he, hmap⟩)) hst
    refine ⟨s', ?_, hsupplied⟩
    rw [List.foldlM_cons, Option.bind_eq_bind, ht, Option.bind_some, hs']

theorem vmInit_returns (line : UInt64) (h : s.Start) (hlow : s.ram.kmem.physicalLimit.toNat ≤ 2 ^ 21)
    {entries : List LimineMemmapEntry}
    (hregions : ∀ map ∈ entries.filterMap (entryMap kernel), map.OneRegion)
    (hpos : 0 < s.ram.kmem.physicalLimit.toNat)
    (hj : (1 + (entries.length + j)) * 128 ≤ 4096) (hi : (3 + (3 * entries.length + i)) * 32 ≤ 4096)
    (hs : Stock s.ram.load (9 + (32 + (32 * entries.length + n)))) :
    ∃ s', vmInit (memoryList func) (memMaps func) s (some entries) (some kernel) func line =
      some s' ∧ s'.Supplied j i n := by
  have hsize : (numPages (defaultPages * pageSize) + 1).toNat = 9 := by decide
  obtain ⟨m₀, hm₀⟩ : ∃ m₀, m₀ = s.ram.apart := ⟨_, rfl⟩
  have hram : s.ram = m₀.ram := by rw [hm₀, Ram.ram_apart]
  have hfence : fence.inv m₀ s.ram.apart.kmem := by
    rw [hm₀]
    exact ⟨rfl, h.guarded.fenced⟩
  rw [hram, stock_ram] at hs
  obtain ⟨pml4, m, hk, -, -, -, hs₁⟩ := ram_kmalloc_returns hfence h.limit (by decide) hsize (by decide)
    (by decide) hs func line
  rw [← hram] at hk
  obtain ⟨t, m', hon, -, hram, hspace, hrecords, heq⟩ := vmInit_start h hk
  have hready : t.Ready s.ram.apart.kmem [] := ⟨m', [], hon⟩
  have hsupplied : t.Supplied (entries.length + j + 1) (3 * entries.length + i + 3)
      (32 + (32 * entries.length + n)) := by
    refine ⟨?_, ?_, ?_⟩
    · rw [hrecords]
      exact ⟨by rw [show vectorNew.length.toNat = 0 from rfl, show (32 : UInt64).toNat = 32 from rfl]; omega,
        Or.inl rfl⟩
    · rw [hspace]
      exact ⟨by rw [show vectorNew.length.toNat = 0 from rfl, show (8 : UInt64).toNat = 8 from rfl]; omega,
        Or.inl rfl⟩
    · rw [hram]
      exact (stock_ram m).mpr hs₁
  -- the user pass makes the tables, and the other one finds them
  have hnum : (numPages s.ram.kmem.physicalLimit).toNat =
      (s.ram.kmem.physicalLimit.toNat + 4095) / 4096 := numPages_toNat (by omega)
  have hsmall : numPages s.ram.kmem.physicalLimit < memSize := by
    rw [UInt64.lt_iff_toNat_lt, hnum, show memSize.toNat = 524288 from rfl]
    omega
  have hpass : userMap s.ram.kmem.physicalLimit =
      ⟨memVirtOffset, 0, vmUsermode, numPages s.ram.kmem.physicalLimit⟩ := by
    rw [userMap, if_pos hsmall]
  have huser : (userMap s.ram.kmem.physicalLimit).OneRegion := by
    rw [hpass]
    exact direct_oneRegion rfl hlow (Nat.le_refl _)
  obtain ⟨u, hu, hsu⟩ := hready.map_returns func hsupplied huser
  obtain ⟨hreadyu, hwalku⟩ := hready.map _ hu
  have hfirst : (u.1.walk memVirtOffset).isSome := by
    have hupdates := (@mapUpdates_apply t.walk memVirtOffset 0 (numPages s.ram.kmem.physicalLimit)
      vmUsermode (by decide) (by decide)
      (by rw [hnum, show memVirtOffset.toNat % 2 ^ 48 = 2 ^ 47 from rfl]; omega) (by decide)
      (by decide)).1 0 (by omega)
    have hzero : memVirtOffset + pageSize * UInt64.ofNat 0 = memVirtOffset := rfl
    rw [hzero] at hupdates
    rw [hwalku, replay_singleton, hpass, MemMap.updates, hupdates]
    rfl
  obtain ⟨r, hr, hsr⟩ := hreadyu.frames_again func hsu
    (frameMap s.ram.kmem.physicalLimit) hfirst
    (direct_oneRegion rfl hlow (Nat.le_refl _))
  obtain ⟨hreadyr, -⟩ := hreadyu.frames hr
  -- the entries
  obtain ⟨s', hs', hsupplied'⟩ := vmInit_entries_returns func hreadyr hregions hsr
  refine ⟨s', ?_, hsupplied'⟩
  rw [heq]
  dsimp only
  rw [hu, Option.bind_some]
  rw [hr, Option.bind_some, hs']

theorem Building.loop_returns {r : Kernel Vec Vec × Space Vec} {f : UInt64 → Option UInt64}
    (h : Building k₀ s maps r f) (is : List Nat) (his : ∀ i ∈ is, i < maps.length)
    (hregions : ∀ map ∈ maps, map.OneRegion) (hroom : VecRoom 8 (3 * is.length) r.2.memoryList)
    (hs : Stock r.1.ram.load (30 * is.length)) :
    ∃ r', is.foldlM (fun (s, as) i =>
      let map := (memMaps func).get s.ram s.globalMemMap i
      vmMap (memoryList func) (memMaps func) s (some as) map.virtAddr map.physAddr map.numPages
        map.flags) r = some r' := by
  induction is generalizing r f with
  | nil => exact ⟨r, by rw [List.foldlM_nil]; rfl⟩
  | cons i rest ih =>
    have hlt := his i List.mem_cons_self
    rw [List.length_cons] at hroom hs
    obtain ⟨r₁, as⟩ := r
    obtain ⟨m, l, l', rfl, hinv, -⟩ := id h
    have hshown : (fence.star recordsOwner).inv m (k₀, (s.globalMemMap, maps)) :=
      star_left (T := spaceOwner listOwner) (n := (s.kernelAddrSpace, l))
        (star_left (T := spaceOwner listOwner) (n := (as, l')) hinv)
    have hspace : (fence.star (spaceOwner listOwner)).inv m (k₀, (as, l')) :=
      star_right (Q := kernelOwner listOwner recordsOwner)
        (m := ((s.globalMemMap, maps), (s.kernelAddrSpace, l))) hinv
    have hget : (memMaps func).get m.ram s.globalMemMap i = maps[i] :=
      (memMaps_laws func).get hshown i hlt
    have hstock : Stock m.kmem (3 * (8 + 2) + 30 * rest.length) :=
      ((stock_ram m).mp hs).mono (by omega)
    obtain ⟨u, hu, hsu, hroomu⟩ := mapPages_stock (memoryList_laws func) (memoryList_takes func)
      hspace maps[i].physAddr maps[i].flags (hregions _ (List.getElem_mem hlt))
      (j := 3 * rest.length) (by rw [show 3 * rest.length + 3 = 3 * (rest.length + 1) by omega]; exact hroom) hstock
    have hmap : vmMap (memoryList func) (memMaps func) { s with ram := m.ram } (some as)
        maps[i].virtAddr maps[i].physAddr maps[i].numPages maps[i].flags =
        some ({ s with ram := u.1 }, u.2) := vmMap_some.mpr ⟨u, hu, rfl⟩
    obtain ⟨r', hr'⟩ := ih (h.step hmap) (fun i hi => his i (List.mem_cons_of_mem _ hi)) hroomu hsu
    refine ⟨r', ?_⟩
    rw [List.foldlM_cons, Option.bind_eq_bind]
    dsimp only
    rw [hget, hmap, Option.bind_some, hr']

theorem createAddressSpace_returns (h : s.Ready k₀ maps) (hregions : ∀ map ∈ maps, map.OneRegion)
    (hroom : 3 * maps.length * 32 ≤ 4096) (hs : Stock s.ram.load (2 + (9 + 30 * maps.length)))
    (func' : Nat → UInt8) (line line' : UInt64) :
    ∃ as s', createAddressSpace (memoryList func) (memMaps func) vectorNew s func' line line' =
      some (some as, s') := by
  have htwo : (numPages sizeofAddrSpace + 1).toNat = 2 := by decide
  have hnine : (numPages (pageSize * defaultPages) + 1).toNat = 9 := by decide
  obtain ⟨m, l, hon⟩ := h
  have hlength : (memMaps func).length s.globalMemMap = maps.length :=
    (memMaps_laws func).length hon.shown.2.1
  have hfence : fence.inv m k₀ := hon.inv.1
  rw [hon.ram, stock_ram] at hs
  obtain ⟨ptr, m₁, hk, hptr, hfence₁, hset, hs₁⟩ := ram_kmalloc_returns hfence hon.limit (by decide)
    htwo (by decide) (by decide) hs func' line
  obtain ⟨pml4, m₂, hk₂, hpml4, -, -, hs₂⟩ := ram_kmalloc_returns hfence₁ hon.limit (by decide) hnine
    (by decide) (by decide) hs₁ func' line'
  rw [← hon.ram] at hk
  have hk' : Ram.kmallocImpl ⟨m₁.ram.kmem, memset m₁.ram.mem ptr 0 sizeofAddrSpace⟩
      (pageSize * defaultPages) func' line' = some (pml4, m₂.ram) := by
    rw [hset]
    exact hk₂
  obtain ⟨r, hr⟩ := (building_start hon hk hk').loop_returns func (List.range maps.length)
    (fun i hi => List.mem_range.mp hi) hregions
    ⟨by rw [List.length_range, show vectorNew.length.toNat = 0 from rfl,
      show (8 : UInt64).toNat = 8 from rfl]; omega, Or.inl rfl⟩
    (by rw [List.length_range]; exact (stock_ram m₂).mpr hs₂)
  refine ⟨r.2, r.1, ?_⟩
  rw [createAddressSpace, hk, Option.bind_eq_bind, Option.bind_some]
  dsimp only
  rw [if_neg hptr]
  simp only [Option.bind_eq_bind]
  rw [hk', Option.bind_some]
  dsimp only
  rw [if_neg hpml4, hlength, hr, Option.bind_some]
  rfl

end Supplied

end Horizon64
