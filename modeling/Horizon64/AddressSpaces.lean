import Horizon64.RamSpaces
import Horizon64.TableBlocks
import Horizon64.PmInit

/- The kernel's address space and the new ones: `vm_map`, `vm_unmap`, `vm_init` and
   `create_address_space` of `sys/mmu.c`.

   `vm_map(NULL, ...)` maps in `kernel_addr_space` and appends a record of the call to
   `global_mem_map`; `create_address_space` maps the records again in a new space.
   `vm_init` maps all frames with `map_page_entry`, which keeps no record. The tables, the list
   of them and the records are bytes of one memory, with the bitmap (`RamPaging`, `Keeper`).

   1. The functions, over any two keepers.
   2. `Kernel.On`: the kernel's tables and records in memory, behind the fence, and what the
      calls do to them.
   3. Blocks from `kmalloc`: a PML4 is an address space with nothing mapped. -/
namespace Horizon64
open Words Bytes Isolation

/-- `MEM_MAP`. -/
structure MemMap where
  virtAddr : UInt64
  physAddr : UInt64
  flags : UInt64
  numPages : UInt64
  deriving DecidableEq, Repr, Inhabited

/-- The bytes of a record. -/
def MemMap.bytes (map : MemMap) : List UInt8 :=
  wordBytes map.virtAddr ++ (wordBytes map.physAddr ++
    (wordBytes map.flags ++ wordBytes map.numPages))

def MemMap.ofBytes (l : List UInt8) : MemMap :=
  ⟨bytesWord l, bytesWord (l.drop 8), bytesWord (l.drop 16), bytesWord (l.drop 24)⟩

/-- Memory with `kernel_addr_space` and `global_mem_map`. -/
structure Kernel (σ τ : Type) where
  ram : Ram
  kernelAddrSpace : Space σ
  globalMemMap : τ

/-- `LIMINE_K_ADDR_RES`. -/
structure LimineKAddrRes where
  physicalBase : UInt64
  virtualBase : UInt64

variable {σ τ : Type}

/-- `CONVERT_ADDR_SPACE(as)`. -/
def Kernel.convertAddrSpace (s : Kernel σ τ) : Option (Space σ) → Space σ
  | none => s.kernelAddrSpace
  | some as => as

/-- Put back what a loop made of memory and of the address space it worked on. -/
def Kernel.after (s : Kernel σ τ) (addrSpace : Option (Space σ)) (r : Ram × Space σ) :
    Kernel σ τ :=
  match addrSpace with
  | none => { s with ram := r.1, kernelAddrSpace := r.2 }
  | some _ => { s with ram := r.1 }

/-- What `vm_init` asks `vm_map` to map for an entry of the memory map. -/
def entryMap (kernel : LimineKAddrRes) (entry : LimineMemmapEntry) : Option MemMap :=
  match entry.type with
  | .kernelAndModules =>
    some ⟨kernel.virtualBase + entry.base - kernel.physicalBase, entry.base, vmDefault,
      numPages entry.length⟩
  | .framebuffer | .usable | .acpiReclaimable | .bootloaderReclaimable =>
    some ⟨physToVirt entry.base, entry.base, vmDefault, numPages entry.length⟩
  | .reserved | .acpiNvs | .badMemory => none

/-- `mem_size` of `vm_init`: 2 GiB of pages. -/
def memSize : UInt64 := 1024 * 512

/-- `sizeof(ADDR_SPACE)`. -/
def sizeofAddrSpace : UInt64 := 48

section Functions
variable (K : Keeper UInt64 σ) (M : Keeper MemMap τ)

/-- The first part of `vm_map`: the record of a call on the kernel's space. -/
def keepRecord (s : Kernel σ τ) (addrSpace : Option (Space σ)) (map : MemMap) :
    Option (Kernel σ τ) :=
  match addrSpace with
  | none => (M.append s.ram s.globalMemMap map 474).map fun r =>
      { s with ram := r.1, globalMemMap := r.2 }
  | some _ => some s

/-- The first part of `vm_unmap`: the first record with the address is erased. -/
def eraseRecord (s : Kernel σ τ) (addrSpace : Option (Space σ)) (virtAddr : UInt64) :
    Option (Kernel σ τ) :=
  match addrSpace with
  | none => (M.eraseFirst s.ram s.globalMemMap fun map => map.virtAddr = virtAddr).map fun r =>
      { s with ram := r.1, globalMemMap := r.2 }
  | some _ => some s

/-- `vm_map`, with the address space it worked on; `none` where it halts. -/
def vmMap (s : Kernel σ τ) (addrSpace : Option (Space σ))
    (virtAddr physAddr n flags : UInt64) : Option (Kernel σ τ × Space σ) := do
  let s ← keepRecord M s addrSpace ⟨virtAddr, physAddr, flags, n⟩
  let r ← s.ram.mapPages K (s.convertAddrSpace addrSpace) virtAddr physAddr n flags
  return (s.after addrSpace r, r.2)

/-- `vm_unmap`. -/
def vmUnmap (s : Kernel σ τ) (addrSpace : Option (Space σ)) (virtAddr n : UInt64) :
    Option (Kernel σ τ × Space σ) := do
  let s ← eraseRecord M s addrSpace virtAddr
  let r ← s.ram.unmapPages K (s.convertAddrSpace addrSpace) virtAddr n
  return (s.after addrSpace r, r.2)

/-- One round of the last loop of `vm_init`. -/
def vmInitEntry (kernel : LimineKAddrRes) (s : Kernel σ τ) (entry : LimineMemmapEntry) :
    Option (Kernel σ τ) :=
  match entryMap kernel entry with
  | none => some s
  | some map =>
    (vmMap K M s none map.virtAddr map.physAddr map.numPages map.flags).map Prod.fst

/-- `vm_init`, from the two responses (`none` for a null one); `func` and `line` are
    what the `kmalloc` macro passes. -/
def vmInit (s : Kernel σ τ) (m : Option (List LimineMemmapEntry))
    (kernel : Option LimineKAddrRes) (func : Nat → UInt8) (line : UInt64) :
    Option (Kernel σ τ) := do
  let entries ← m
  let kernel ← kernel
  let (pml4, c) ← s.ram.kmallocImpl (defaultPages * pageSize) func line
  let s := { s with
    ram := ⟨c.kmem, memset c.mem pml4 0 (pageSize * defaultPages)⟩
    kernelAddrSpace := { s.kernelAddrSpace with pml4 := pml4 } }
  let limit := numPages s.ram.kmem.physicalLimit
  let min := if limit < memSize then limit else memSize
  let (s, _) ← vmMap K M s none memVirtOffset 0 min vmUsermode
  let r ← (pages 0 (limit * pageSize)).foldlM
    (fun r i => r.1.mapPageEntry K r.2 (memVirtOffset + i) i vmDefault)
    (s.ram, s.kernelAddrSpace)
  entries.foldlM (vmInitEntry K M kernel) (s.after none r)

/-- `create_address_space`: the new space, or `none` for the null pointer; `zero` is a list of
    zero bytes, and the lines are those of the two `kmalloc` calls. -/
def createAddressSpace (zero : σ) (s : Kernel σ τ) (func : Nat → UInt8) (line line' : UInt64) :
    Option (Option (Space σ) × Kernel σ τ) := do
  let (as, c) ← s.ram.kmallocImpl sizeofAddrSpace func line
  if as = 0 then return (none, { s with ram := c })
  let mem := memset c.mem as 0 sizeofAddrSpace
  let (pml4, c) ← Ram.kmallocImpl ⟨c.kmem, mem⟩ (pageSize * defaultPages) func line'
  if pml4 = 0 then return (none, { s with ram := c.kfreeImpl as })
  let (s, as) ← (List.range (M.length s.globalMemMap)).foldlM
    (fun (s, as) i =>
      let map := M.get s.ram s.globalMemMap i
      vmMap K M s (some as) map.virtAddr map.physAddr map.numPages map.flags)
    ({ s with ram := c }, ⟨pml4, zero⟩)
  return (some as, s)

/-- What the records are. -/
def Kernel.records (s : Kernel σ τ) : List MemMap :=
  (List.range (M.length s.globalMemMap)).map fun i => M.get s.ram s.globalMemMap i

end Functions

/-- What the processor finds in the kernel's address space. -/
def Kernel.walk (s : Kernel σ τ) : UInt64 → Option UInt64 :=
  Horizon64.walk s.ram.mem s.kernelAddrSpace.tables

section Equations
variable {K : Keeper UInt64 σ} {M : Keeper MemMap τ} {s : Kernel σ τ}

theorem vmMap_none {v p n flags : UInt64} {r : Kernel σ τ × Space σ} :
    vmMap K M s none v p n flags = some r ↔ ∃ t u,
      M.append s.ram s.globalMemMap ⟨v, p, flags, n⟩ 474 = some t ∧
      t.1.mapPages K s.kernelAddrSpace v p n flags = some u ∧ r = (⟨u.1, u.2, t.2⟩, u.2) := by
  simp only [vmMap, keepRecord, Option.bind_eq_bind, Option.bind_eq_some_iff,
    Option.map_eq_some_iff, exists_exists_and_eq_and, Kernel.convertAddrSpace, Option.pure_def,
    Kernel.after, Option.some.injEq, exists_and_left]
  exact exists_congr fun t => and_congr_right fun _ => exists_congr fun u =>
    and_congr_right fun _ => eq_comm

theorem vmMap_some {as : Space σ} {v p n flags : UInt64} {r : Kernel σ τ × Space σ} :
    vmMap K M s (some as) v p n flags = some r ↔
      ∃ u, s.ram.mapPages K as v p n flags = some u ∧ r = ({ s with ram := u.1 }, u.2) := by
  simp only [vmMap, keepRecord, Option.bind_eq_bind, Option.bind_some, Option.bind_eq_some_iff,
    Kernel.convertAddrSpace, Option.pure_def, Kernel.after, Option.some.injEq]
  exact exists_congr fun u => and_congr_right fun _ => eq_comm

theorem vmUnmap_none {v n : UInt64} {r : Kernel σ τ × Space σ} :
    vmUnmap K M s none v n = some r ↔ ∃ t u,
      M.eraseFirst s.ram s.globalMemMap (fun map => map.virtAddr = v) = some t ∧
      t.1.unmapPages K s.kernelAddrSpace v n = some u ∧ r = (⟨u.1, u.2, t.2⟩, u.2) := by
  simp only [vmUnmap, eraseRecord, Option.bind_eq_bind, Option.bind_eq_some_iff,
    Option.map_eq_some_iff, exists_exists_and_eq_and, Kernel.convertAddrSpace, Option.pure_def,
    Kernel.after, Option.some.injEq, exists_and_left]
  exact exists_congr fun t => and_congr_right fun _ => exists_congr fun u =>
    and_congr_right fun _ => eq_comm

/-- A call whose erases are made where their copies stay inside is made. -/
theorem vmUnmap_guarded {v n : UInt64} {r : Kernel σ τ × Space σ}
    (h : vmUnmap K.guarded M.guarded s none v n = some r) : vmUnmap K M s none v n = some r := by
  rw [vmUnmap_none] at h ⊢
  obtain ⟨t, u, ht, hu, rfl⟩ := h
  exact ⟨t, u, Keeper.eraseFirst_guarded ht, unmapPages_guarded hu, rfl⟩

end Equations

/-! The records are a vector. -/

theorem MemMap.bytes_length (map : MemMap) : map.bytes.length = 32 := rfl

theorem MemMap.ofBytes_bytes (map : MemMap) : MemMap.ofBytes map.bytes = map := by
  have hdrop : ∀ (v : UInt64) (l : List UInt8) (n : Nat),
      (wordBytes v ++ l).drop (8 + n) = l.drop n := by
    intro v l n
    rw [← List.drop_drop, ← wordBytes_length v, List.drop_left]
  rw [MemMap.ofBytes, MemMap.bytes, hdrop _ _ 0, hdrop _ _ 8, hdrop _ _ 16, hdrop _ _ 0,
    hdrop _ _ 8, hdrop _ _ 0, List.drop_zero, List.drop_zero, List.drop_zero, bytesWord_append,
    bytesWord_append, bytesWord_append, bytesWord_wordBytes]

/-- `global_mem_map`. -/
def memMaps (func : Nat → UInt8) : Keeper MemMap Vec :=
  vecKeeper 32 MemMap.bytes MemMap.ofBytes func

/-- Its block. -/
abbrev recordsOwner : Owner machinePages (Vec × List MemMap) := vecOwner 32 MemMap.bytes

theorem memMaps_laws (func : Nat → UInt8) : (memMaps func).guarded.Laws recordsOwner :=
  vecKeeper_laws (by decide) MemMap.bytes_length MemMap.ofBytes_bytes

theorem memMaps_takes (func : Nat → UInt8) :
    (memMaps func).guarded.Takes recordsOwner 2 (VecRoom 32) :=
  vecKeeper_takes (by decide) (by decide) MemMap.bytes_length

/-! The kernel's tables and records. -/

/-- The records, and the tables with their list. -/
def kernelOwner (R : Owner machinePages (σ × List UInt64))
    (Q : Owner machinePages (τ × List MemMap)) :
    Owner machinePages ((τ × List MemMap) × (Space σ × List UInt64)) :=
  Q.star (spaceOwner R)

/-- A page of the kernel's tables, of their list or of the records. -/
def Kernel.Page (K : Keeper UInt64 σ) (M : Keeper MemMap τ) (s : Kernel σ τ) (p : Nat) : Prop :=
  s.kernelAddrSpace.Page K s.ram.mem p ∨ M.Pages s.globalMemMap p

/-- `s` is in the memory of the machine `m`, behind the fence; its records are `maps`, its
    tables have the frames `l` besides the PML4. -/
structure Kernel.On (R : Owner machinePages (σ × List UInt64))
    (Q : Owner machinePages (τ × List MemMap)) (k₀ : KernelMemInfo) (m : Machine) (s : Kernel σ τ)
    (maps : List MemMap) (l : List UInt64) : Prop where
  ram : s.ram = m.ram
  limit : k₀.physicalLimit.toNat + 4096 ≤ 2 ^ 47
  inv : (fence.star (kernelOwner R Q)).inv m
    (k₀, ((s.globalMemMap, maps), (s.kernelAddrSpace, l)))

section Kernel
variable {K : Keeper UInt64 σ} {M : Keeper MemMap τ} {R : Owner machinePages (σ × List UInt64)}
  {Q : Owner machinePages (τ × List MemMap)} {k₀ : KernelMemInfo} {m m' : Machine}
  {s : Kernel σ τ} {maps : List MemMap} {l : List UInt64}

theorem Kernel.On.space (h : s.On R Q k₀ m maps l) :
    (fence.star (spaceOwner R)).inv m (k₀, (s.kernelAddrSpace, l)) :=
  star_right (Q := Q) (m := (s.globalMemMap, maps)) h.inv

theorem Kernel.On.shown (h : s.On R Q k₀ m maps l) :
    (fence.star Q).inv m (k₀, (s.globalMemMap, maps)) :=
  star_left (T := spaceOwner R) (n := (s.kernelAddrSpace, l)) h.inv

theorem Kernel.On.walk_eq (h : s.On R Q k₀ m maps l) :
    s.walk = Horizon64.walk m.mem s.kernelAddrSpace.tables := by
  rw [Kernel.walk, h.ram]
  exact ram_walk h.space

theorem Kernel.On.stands (h : s.On R Q k₀ m maps l) : Stands R s.ram s.kernelAddrSpace l :=
  ⟨m, k₀, h.ram, h.space⟩

theorem Kernel.On.other (hK : K.guarded.Laws R) (hM : M.guarded.Laws Q) (h : s.On R Q k₀ m maps l)
    {c : Ram} (hlimit : c.kmem.physicalLimit = s.ram.kmem.physicalLimit)
    (hbitmap : c.kmem.bitmap = s.ram.kmem.bitmap) (hguarded : c.Guarded)
    (hkeep : ∀ p, s.Page K M p →
      c.load.Used p ∧ ∀ x, pageOf (virtToPhys x) = p → c.mem x = s.ram.mem x) :
    Kernel.On R Q k₀ c.apart { s with ram := c } maps l ∧
      Kernel.walk { s with ram := c } = s.walk := by
  obtain ⟨k, hpagedc, -⟩ := h.stands.paged
  have hkeptmem : ∀ t ∈ (⟨s.kernelAddrSpace.pml4, l⟩ : AddrSpace).frames, ∀ x,
      (tableAt t).Holds x → c.mem x = s.ram.mem x := fun t ht x hx =>
    (hkeep _ (Or.inl (Or.inl ⟨t, (hpagedc.reached t).mp ht, hx⟩))).2 x rfl
  have hwalk : Kernel.walk { s with ram := c } = s.walk :=
    funext (@Paged.of_same _ ⟨k, c.mem⟩ _ hpagedc rfl hpagedc.owned.used hkeptmem).2
  obtain ⟨hram, hlim, hfence, hkernel, hapart⟩ := h
  have hconst : machinePages.const c.apart = machinePages.const m := by
    rw [hram] at hlimit hbitmap
    exact congrArg₂ Prod.mk hlimit hbitmap
  have hconst₀ := hconst.trans hfence.1
  refine ⟨⟨c.ram_apart.symm, hlim, ⟨hconst₀, fun p hp => ?_⟩, ?_, hapart⟩, hwalk⟩
  · exact hguarded.fenced p ((KernelMemInfo.kept_congr (congrArg Prod.fst hconst₀)
      (congrArg Prod.snd hconst₀) p).mpr hp)
  · refine (kernelOwner R Q).inv_local m c.apart _ hkernel hconst fun p hp => ?_
    have hpage : s.Page K M p := by
      rcases hp with hrecords | ⟨t, ht, hp⟩ | hlist
      · exact Or.inr (hM.pages (x := (s.globalMemMap, maps)) hrecords)
      · exact Or.inl (Or.inl ⟨t, (hpagedc.reached t).mp ht, hp⟩)
      · exact Or.inl (Or.inr (hK.pages (x := (s.kernelAddrSpace.memoryList, l)) hlist))
    obtain ⟨hused, hsame⟩ := hkeep p hpage
    refine ⟨apart_used hused, fun x hx => (hsame x hx).trans ?_⟩
    rw [hram]
    exact m.ram_mem fun hin => hapart p ((fence_kept hfence p).mp (Or.inr ⟨x, hin, hx⟩)) hp

theorem Kernel.On.both (h : s.On R Q k₀ m maps l) :
    (tablesOwner.star Q).inv m (⟨s.kernelAddrSpace.pml4, l⟩, (s.globalMemMap, maps)) := by
  obtain ⟨-, ⟨hmaps, ⟨htables, -, -⟩, hapart⟩, -⟩ := h.inv
  exact ⟨htables, hmaps, fun p ht hq => hapart p hq (Or.inl ht)⟩

theorem Kernel.On.records_framed (h : s.On R Q k₀ m maps l) {gm : τ} {maps' : List MemMap}
    (hframed : Framed Q m (s.globalMemMap, maps) m' (gm, maps')) :
    Kernel.On R Q k₀ m' { s with ram := m'.ram, globalMemMap := gm } maps' l ∧
      Horizon64.walk m'.mem s.kernelAddrSpace.tables =
        Horizon64.walk m.mem s.kernelAddrSpace.tables := by
  exact ⟨⟨rfl, h.limit, (Framed.right (hframed.left h.inv.2.1) h.inv).inv⟩,
    (tables_kept hframed h.both).2.1⟩

theorem Kernel.On.space_update (h : s.On R Q k₀ m maps l) {r : Ram × Space σ}
    {f : UInt64 → Option UInt64} (hup : SpaceUpdate R m s.kernelAddrSpace l r f) :
    ∃ m' l', Kernel.On R Q k₀ m' ⟨r.1, r.2, s.globalMemMap⟩ maps l' ∧
      Kernel.walk (⟨r.1, r.2, s.globalMemMap⟩ : Kernel σ τ) = f := by
  obtain ⟨m', v, l', rfl, hframed, hwalk⟩ := hup
  have hon : Kernel.On R Q k₀ m' ⟨m'.ram, ⟨s.kernelAddrSpace.pml4, v⟩, s.globalMemMap⟩ maps l' :=
    ⟨rfl, h.limit, (Framed.right (hframed.right h.inv.2.1) h.inv).inv⟩
  exact ⟨m', l', hon, hon.walk_eq.trans hwalk⟩

variable (hM : M.guarded.Laws Q)
include hM

theorem Kernel.On.records_eq (h : s.On R Q k₀ m maps l) : s.records M = maps := by
  have hlength : M.length s.globalMemMap = maps.length := hM.length h.shown.2.1
  refine List.ext_getElem ?_ fun i hi hi' => ?_
  · rw [Kernel.records, List.length_map, List.length_range, hlength]
  · have hget : M.get m.ram s.globalMemMap i = maps[i] := hM.get h.shown i hi'
    simp only [Kernel.records, List.getElem_map, List.getElem_range, h.ram, hget]

variable (hK : K.guarded.Laws R)
include hK

/-- `vm_map(NULL, ...)` maps the pages and keeps a record of the call. -/
theorem vmMap_kernel (h : s.On R Q k₀ m maps l) {v p n flags : UInt64} {r : Kernel σ τ × Space σ}
    (hmap : vmMap K M s none v p n flags = some r) :
    (∃ m' l', r.1.On R Q k₀ m' (maps ++ [⟨v, p, flags, n⟩]) l') ∧
      r.1.walk = FlatMap.assignAll pageNum s.walk (mapUpdates v p n flags) := by
  obtain ⟨⟨c, gm⟩, u, happ, hpages, rfl⟩ := vmMap_none.mp hmap
  rw [h.ram] at happ
  obtain ⟨m₁, rfl, hframed⟩ := hM.append h.shown happ
  obtain ⟨h₁, hwalk₁⟩ := h.records_framed hframed
  obtain ⟨m₂, l₂, h₂, hwalk₂⟩ := h₁.space_update (mapPages_ram hK h₁.space hpages)
  refine ⟨⟨m₂, l₂, h₂⟩, hwalk₂.trans ?_⟩
  rw [h.walk_eq, ← hwalk₁]

/-- `vm_unmap(NULL, ...)` erases the first record of the address, and drops regions. -/
theorem vmUnmap_kernel (h : s.On R Q k₀ m maps l) {v n : UInt64}
    (hinside : (vmUnmap K.guarded M.guarded s none v n).isSome) :
    ∃ r, vmUnmap K M s none v n = some r ∧
      (∃ m' l', r.1.On R Q k₀ m' (maps.eraseP fun map => map.virtAddr = v) l') ∧
      r.1.walk = unmapped s.walk v n := by
  obtain ⟨r, hr⟩ := Option.isSome_iff_exists.mp hinside
  refine ⟨r, vmUnmap_guarded hr, ?_⟩
  obtain ⟨⟨c, gm⟩, u, herase, hpages, rfl⟩ := vmUnmap_none.mp hr
  rw [h.ram] at herase
  obtain ⟨m₁, rfl, hframed⟩ :=
    (hM.toErases.eraseFirst (E := False) False.elim h.shown _).good _ herase
  obtain ⟨h₁, hwalk₁⟩ := h.records_framed hframed
  obtain ⟨m₂, l₂, h₂, hwalk₂⟩ := h₁.space_update
    ((unmapPages_ram hK.toErases (E := False) False.elim h₁.space v n).good u hpages)
  refine ⟨⟨m₂, l₂, h₂⟩, hwalk₂.trans ?_⟩
  rw [h.walk_eq, ← hwalk₁]
  rfl

end Kernel

/-! Blocks from `kmalloc`, behind the fence. -/

section Kmalloc
variable {m : Machine} {k₀ : KernelMemInfo} {c : Ram} {size line ptr : UInt64} {func : Nat → UInt8}

theorem kmalloc_framed (h : fence.inv m k₀)
    (hlim : k₀.physicalLimit.toNat + size.toNat + 8192 ≤ 2 ^ 64)
    (hk : m.ram.kmallocImpl size func line = some (ptr, c)) :
    ∃ m' : Machine, c = m'.ram ∧ kmallocImpl m size func line = some (ptr, m') ∧
      Framed (nobody machinePages) m () m' () ∧ memset c.mem ptr 0 size = c.mem := by
  have hlimit : m.kmem.physicalLimit = k₀.physicalLimit := congrArg Prod.fst h.1
  have hfit : m.kmem.physicalLimit.toNat + size.toNat + 8192 ≤ 2 ^ 64 := hlimit ▸ hlim
  rw [ram_kmalloc (fence_fenced h) (inSpace_of_limit hfit)] at hk
  obtain ⟨⟨ptr', m'⟩, hm', heq⟩ := Option.map_eq_some_iff.mp hk
  obtain ⟨(rfl : ptr' = ptr), (rfl : m'.ram = c)⟩ := Prod.mk.inj heq
  obtain ⟨b, hb, hn, hptr, honly, hzero⟩ := kmallocImpl_taken hm' hfit
  have hconst : machinePages.const m' = machinePages.const m := congrArg₂ Prod.mk hb.limit hb.bitmap
  refine ⟨m', rfl, hm', ⟨hconst, trivial, fun p hused _ => ⟨(hb.used p).mpr (Or.inl hused), id,
    fun x hx => honly x fun hbx => ?_⟩⟩, ?_⟩
  · rw [Block.Holds, hx] at hbx
    exact hb.free p hbx hused
  · -- the bytes behind the pointer are zero, and not of the bitmap
    have hclear : b.Clear m'.kmem := by
      have hfree : ∀ p, b.Page p → m.kmem.isFree p = true :=
        fun p hp => Bool.not_eq_false _ ▸ hb.free p hp
      exact fun p hp hkept => clear_of_free (fence_fenced h) hfree p hp
        ((KernelMemInfo.kept_congr hb.limit hb.bitmap p).mp hkept)
    funext x
    rw [memset_apply]
    split
    · next hx =>
      have hlt := UInt64.lt_iff_toNat_lt.mp hx
      have hsplit : x - b.base = pageSize + (x - ptr') := by
        rw [hptr]
        grind
      have hin : b.Holds x := by
        rw [holds_iff hb.whole, hsplit, toNat_add_of_lt (by rw [pageSize_toNat]; omega), hn,
          pageSize_toNat]
        omega
      exact ((m'.ram_mem (hclear.off hin)).trans (hzero x hx)).symm
    · rfl

/-- A new PML4 is an address space with nothing mapped, apart from what others hold. -/
theorem newSpace_ram {L : Type} {T : Owner machinePages L} {y : L}
    {R : Owner machinePages (σ × List UInt64)} {zero : σ} (h : (fence.star T).inv m (k₀, y))
    (hzero : ∀ m : Machine, m.kmem.physicalLimit.toNat + 4096 ≤ 2 ^ 47 → R.inv m (zero, []))
    (hnone : ∀ p, ¬ R.holds (zero, []) p) (hlim : k₀.physicalLimit.toNat + 4096 ≤ 2 ^ 47)
    (hsize : size = defaultPages * pageSize)
    (hk : m.ram.kmallocImpl size func line = some (ptr, c)) :
    ∃ m' : Machine, c = m'.ram ∧ Framed (nobody machinePages) m () m' () ∧
      memset c.mem ptr 0 size = c.mem ∧
      (fence.star (T.star (spaceOwner R))).inv m' (k₀, (y, (⟨ptr, zero⟩, []))) ∧
      (walk m'.mem (⟨ptr, zero⟩ : Space σ).tables = fun _ => none) ∧
      ∀ p, m.kmem.Used p → ¬ (spaceOwner R).holds (⟨ptr, zero⟩, []) p := by
  have hpages : size.toNat = 8 * 4096 := by
    rw [hsize]
    decide
  have hfence : fence.inv m k₀ := h.1
  have hlimit : m.kmem.physicalLimit = k₀.physicalLimit := congrArg Prod.fst hfence.1
  obtain ⟨m', rfl, hm', hframed, hset⟩ := kmalloc_framed hfence (by omega) hk
  obtain ⟨b, hb, hn, rfl, -, hbytes⟩ := kmallocImpl_taken hm' (by rw [hlimit]; omega)
  obtain ⟨-, hpages'⟩ := table_of_kmalloc hb.whole (hn.trans (by rw [hpages]))
  rw [hsize] at hm' hbytes
  have hblank := kmalloc_blank hm' (by rw [hlimit]; omega) hbytes
  have hinv := (hframed.anyone h).inv
  have hspace : (spaceOwner R).inv m' (⟨b.base + pageSize, zero⟩, []) :=
    ⟨hblank.paged, hzero m' (by rw [hb.limit, hlimit]; exact hlim), fun p _ hp => hnone p hp⟩
  -- its pages were free
  have hfresh : ∀ p, m.kmem.Used p → ¬ (spaceOwner R).holds (⟨b.base + pageSize, zero⟩, []) p := by
    rintro p hused (⟨t, ht, hp⟩ | hp)
    · rw [List.mem_singleton.mp ht] at hp
      exact hb.free p (hpages' p hp) hused
    · exact hnone p hp
  refine ⟨m', rfl, hframed, hset, ⟨hinv.1, ⟨hinv.2.1, hspace, fun p hp => ?_⟩,
    fun p hp hnew => ?_⟩, funext hblank.walk_none, hfresh⟩
  · exact hfresh p (T.inv_used m y p h.2.1 hp)
  · rcases hnew with hp' | hnew
    · exact h.2.2 p hp hp'
    · exact hfresh p (fence.inv_used m k₀ p h.1 hp) hnew

end Kmalloc

end Horizon64
