import Horizon64.RamStock
import Horizon64.PagingRuns

/- Runs of `vm_map` and `vm_unmap` on one memory.

   The tables of an address space, the bitmap and the block of `memory_list` are bytes of one
   memory. A run starts from an empty PML4 where the pages that no block may have are used
   (`Ram.Blank`). Between the calls the rest of the kernel may do what it likes, as long as it
   leaves alone the pages of this space and hands out none of the former (`SpaceStep.other`).

   A call of `vm_unmap` is one whose erases copy nothing from behind the block of the list
   (`Ram.ErasesInside`); it always is while the list is short (`short_erasesInside`).

   1. Erasing inside.
   2. `Stands`: what holds in every state of a run.
   3. What `vm_unmap`, `vm_get_phys_addr` and `memory_list` come to. -/
namespace Horizon64
open Words Bytes Isolation
variable {σ : Type}

/-! Erasing inside. -/

section Guarded
variable {K : Keeper UInt64 σ} {c : Ram} {as : Space σ}

theorem dropTable_failed {c' : Ram} {parent table : UInt64} {i : Nat}
    (hfree : (⟨c.kmem, setTableEntry c.mem parent i 0⟩ : Ram).pmFree (virtToPhys table)
      defaultPages = (.sysErr, c')) : c.dropTable K as parent i table = none := by
  have hdef : @Ram.dropTable σ = delta% @Ram.dropTable σ := by
    delta Ram.dropTable
    exact Eq.refl _
  rw [hdef]
  beta_reduce
  rw [hfree]

theorem dropTable_guarded {parent table : UInt64} {i : Nat} {r : Ram × Space σ}
    (h : c.dropTable K.guarded as parent i table = some r) :
    c.dropTable K as parent i table = some r := by
  obtain ⟨⟨status, c'⟩, hfree⟩ : ∃ x, (⟨c.kmem, setTableEntry c.mem parent i 0⟩ : Ram).pmFree
    (virtToPhys table) defaultPages = x := ⟨_, rfl⟩
  cases status with
  | sysErr =>
    rw [dropTable_failed hfree] at h
    cases h
  | sysOk =>
    rw [dropTable_freed hfree] at h ⊢
    obtain ⟨x, hx, rfl⟩ := Option.map_eq_some_iff.mp h
    rw [Keeper.eraseFirst_guarded hx]
    rfl

theorem ite_returns {α : Type} {p : Prop} [Decidable p] {x y y' : Option α} {r : α}
    (h : (if p then x else y) = some r) (hy : y = some r → y' = some r) :
    (if p then x else y') = some r := by
  split at h
  · next hp => rw [if_pos hp, h]
  · next hp => rw [if_neg hp, hy h]

theorem unmapTables_guarded {v pml4 pdpt pd pt : UInt64} {r : Ram × Space σ}
    (h : c.unmapTables K.guarded as v pml4 pdpt pd pt = some r) :
    c.unmapTables K as v pml4 pdpt pd pt = some r := by
  simp only [Ram.unmapTables, Option.bind_eq_bind, Option.bind_eq_some_iff] at h ⊢
  obtain ⟨x, hx, h⟩ := h
  refine ⟨x, dropTable_guarded hx, ite_returns h fun h => ?_⟩
  obtain ⟨y, hy, h⟩ := Option.bind_eq_some_iff.mp h
  exact Option.bind_eq_some_iff.mpr ⟨y, dropTable_guarded hy, ite_returns h dropTable_guarded⟩

theorem unmapPageEntry_guarded {v : UInt64} {r : Ram × Space σ}
    (h : c.unmapPageEntry K.guarded as v = some r) : c.unmapPageEntry K as v = some r :=
  ite_returns h fun h => ite_returns h fun h => ite_returns h fun h =>
    ite_returns h unmapTables_guarded

theorem unmapPages_guarded {v n : UInt64} {r : Ram × Space σ}
    (h : c.unmapPages K.guarded as v n = some r) : c.unmapPages K as v n = some r := by
  rw [Ram.unmapPages] at h ⊢
  exact Folds.foldlM_mono (fun _ _ _ => unmapPageEntry_guarded) h

end Guarded

/-- No `vector_erase` of the call copies from behind the pages of the list's block. -/
def Ram.ErasesInside (K : Keeper UInt64 σ) (c : Ram) (as : Space σ) (v n : UInt64) : Prop :=
  (c.unmapPages K.guarded as v n).isSome

/-! What holds in every state of a run. -/

/-- An address space with nothing mapped: its PML4 has 8 used pages and no entry. -/
structure Ram.Blank (c : Ram) (as : Space σ) : Prop where
  limit : c.kmem.physicalLimit.toNat + 8 * 4096 ≤ 2 ^ 64
  guarded : c.Guarded
  whole : (tableAt as.tables.root).Whole
  used : ∀ p, TablePage as.tables.root p → c.load.Used p ∧ ¬ c.load.Kept p
  zero : ∀ i : Fin 512, tableEntry c.mem as.pml4 i = 0

/-- A page of a table that the PML4 leads to, or of the list. -/
def Space.Page (K : Keeper UInt64 σ) (m : Memory) (as : Space σ) (p : Nat) : Prop :=
  (∃ t, Radix.Reached (sub m) as.tables.root 3 t ∧ TablePage t p) ∨ K.Pages as.memoryList p

/-- One step of a run: a call, or something that leaves the pages of the space alone. -/
inductive SpaceStep (K : Keeper UInt64 σ) : Ram × Space σ → Ram × Space σ → Prop where
  | map {c : Ram} {as : Space σ} {r : Ram × Space σ} (v p n flags : UInt64)
      (h : c.mapPages K as v p n flags = some r) : SpaceStep K (c, as) r
  | unmap {c : Ram} {as : Space σ} {r : Ram × Space σ} (v n : UInt64)
      (hinside : c.ErasesInside K as v n) (h : c.unmapPages K as v n = some r) :
      SpaceStep K (c, as) r
  | other {c c' : Ram} {as : Space σ} (limit : c'.kmem.physicalLimit = c.kmem.physicalLimit)
      (bitmap : c'.kmem.bitmap = c.kmem.bitmap) (guarded : c'.Guarded)
      (keep : ∀ p, as.Page K c.mem p →
        c'.load.Used p ∧ ∀ x, pageOf (virtToPhys x) = p → c'.mem x = c.mem x) :
      SpaceStep K (c, as) (c', as)

/-- Taken apart, memory has the space and its list in it, and nobody behind the fence. -/
def Stands (R : Owner machinePages (σ × List UInt64)) (c : Ram) (as : Space σ) (l : List UInt64) :
    Prop :=
  ∃ (s : Machine) (k₀ : KernelMemInfo), c = s.ram ∧ (fence.star (spaceOwner R)).inv s (k₀, (as, l))

theorem apart_used {c : Ram} {p : Nat} (h : c.load.Used p) : c.apart.kmem.Used p := by
  rw [KernelMemInfo.Used]
  by_cases hin : p < 8 * c.load.bitmapSpan
  · rw [c.apart_isFree hin]
    exact h
  · have hbyte : c.apart.kmem.bytes (p / 8) = 0 := if_neg (by omega)
    rw [KernelMemInfo.isFree, BitArray.get, hbyte]
    simp

section Runs
variable {K : Keeper UInt64 σ} {R : Owner machinePages (σ × List UInt64)} {c : Ram} {as : Space σ}
  {l : List UInt64}

theorem Stands.paged (h : Stands R c as l) :
    ∃ k : KernelMemInfo, Paged ⟨k, c.mem⟩ ⟨as.pml4, l⟩ ∧
      ∀ t ∈ (⟨as.pml4, l⟩ : AddrSpace).frames, ∀ p, TablePage t p → c.load.Used p := by
  obtain ⟨s, k₀, rfl, h⟩ := h
  have htables : (fence.star tablesOwner).inv s (k₀, ⟨as.pml4, l⟩) :=
    star_left (T := R) (n := (as.memoryList, l)) h
  have hpaged : Paged s ⟨as.pml4, l⟩ := htables.2.1
  have hsame := (@Paged.of_same s ⟨s.kmem, s.ram.mem⟩ _ hpaged rfl hpaged.owned.used
    fun t ht x hx => s.ram_mem ((tables_clear htables ht).off hx)).1
  refine ⟨s.kmem, hsame, fun t ht p hp => ?_⟩
  exact (ram_used s ((tables_clear htables ht).inside hp)).mpr (hpaged.owned.used t ht p hp)

theorem ram_walk {s : Machine} {k₀ : KernelMemInfo}
    (h : (fence.star (spaceOwner R)).inv s (k₀, (as, l))) :
    walk s.ram.mem as.tables = walk s.mem as.tables := by
  have htables : (fence.star tablesOwner).inv s (k₀, ⟨as.pml4, l⟩) :=
    star_left (T := R) (n := (as.memoryList, l)) h
  have hpaged : Paged s ⟨as.pml4, l⟩ := htables.2.1
  have hsame := (@Paged.of_same s ⟨s.kmem, s.ram.mem⟩ _ hpaged rfl hpaged.owned.used
    fun t ht x hx => s.ram_mem ((tables_clear htables ht).off hx)).2
  exact funext hsame

theorem SpaceUpdate.stands {s : Machine} {k₀ : KernelMemInfo} {r : Ram × Space σ}
    {f : UInt64 → Option UInt64} (h : (fence.star (spaceOwner R)).inv s (k₀, (as, l)))
    (hup : SpaceUpdate R s as l r f) :
    (∃ l', Stands R r.1 r.2 l') ∧ walk r.1.mem r.2.tables = f := by
  obtain ⟨s', v, l', rfl, hframed, hwalk⟩ := hup
  have hinv := (hframed.right h).inv
  exact ⟨⟨l', s', k₀, rfl, hinv⟩, (ram_walk hinv).trans hwalk⟩

theorem Stands.map (hK : K.guarded.Laws R) (h : Stands R c as l) {v p n flags : UInt64}
    {r : Ram × Space σ} (hmap : c.mapPages K as v p n flags = some r) :
    (∃ l', Stands R r.1 r.2 l') ∧ walk r.1.mem r.2.tables =
      FlatMap.assignAll pageNum (walk c.mem as.tables) (mapUpdates v p n flags) := by
  obtain ⟨s, k₀, rfl, h⟩ := h
  rw [ram_walk h]
  exact (mapPages_ram hK h hmap).stands h

/-- The call of `vm_unmap` returns, and is that of a keeper that is a list. -/
theorem Stands.unmap (hK : K.guarded.Erases R) (h : Stands R c as l) {v n : UInt64}
    (hinside : c.ErasesInside K as v n) :
    ∃ r, c.unmapPages K as v n = some r ∧ (∃ l', Stands R r.1 r.2 l') ∧
      walk r.1.mem r.2.tables = FlatMap.wipeAll regionNum (walk c.mem as.tables)
        ((pages 0 (n * pageSize)).map fun i => v + i) := by
  obtain ⟨s, k₀, rfl, h⟩ := h
  obtain ⟨r, hr⟩ := Option.isSome_iff_exists.mp hinside
  rw [ram_walk h]
  refine ⟨r, unmapPages_guarded hr, ?_⟩
  exact ((unmapPages_ram hK (E := False) False.elim h v n).good r hr).stands h

theorem Stands.other (hK : K.guarded.Laws R) (h : Stands R c as l) {c' : Ram}
    (hlimit : c'.kmem.physicalLimit = c.kmem.physicalLimit)
    (hbitmap : c'.kmem.bitmap = c.kmem.bitmap) (hguarded : c'.Guarded)
    (hkeep : ∀ p, as.Page K c.mem p →
      c'.load.Used p ∧ ∀ x, pageOf (virtToPhys x) = p → c'.mem x = c.mem x) :
    Stands R c' as l := by
  obtain ⟨k, hpagedc, -⟩ := h.paged
  obtain ⟨s, k₀, rfl, hfence, hspace, hapart⟩ := h
  have hconst : machinePages.const c'.apart = machinePages.const s :=
    congrArg₂ Prod.mk hlimit hbitmap
  have hconst₀ := hconst.trans hfence.1
  refine ⟨c'.apart, k₀, c'.ram_apart.symm, ⟨hconst₀, fun p hp => ?_⟩, ?_, hapart⟩
  · exact hguarded.fenced p ((KernelMemInfo.kept_congr (congrArg Prod.fst hconst₀)
      (congrArg Prod.snd hconst₀) p).mpr hp)
  · refine (spaceOwner R).inv_local s c'.apart (as, l) hspace hconst fun p hp => ?_
    have hpage : as.Page K s.ram.mem p := by
      refine hp.imp (fun htable => ?_) fun hlist => hK.pages (x := (as.memoryList, l)) hlist
      obtain ⟨t, ht, hp⟩ := htable
      exact ⟨t, (hpagedc.reached t).mp ht, hp⟩
    obtain ⟨hused, hsame⟩ := hkeep p hpage
    refine ⟨apart_used hused, fun x hx => (hsame x hx).trans (s.ram_mem fun hin => ?_)⟩
    exact hapart p ((fence_kept hfence p).mp (Or.inr ⟨x, hin, hx⟩)) hp

theorem Ram.Blank.stands (h : c.Blank as) (hnew : R.inv c.apart (as.memoryList, []))
    (hnone : ∀ p, ¬ R.holds (as.memoryList, []) p) : Stands R c as [] := by
  have hblank : Horizon64.Blank c.apart ⟨as.pml4, []⟩ :=
    ⟨h.limit, h.whole, fun p hp => apart_used (h.used p hp).1, h.zero, rfl⟩
  refine ⟨c.apart, c.apart.kmem, c.ram_apart.symm, ⟨rfl, h.guarded.fenced⟩,
    ⟨hblank.paged, hnew, fun p _ hp => hnone p hp⟩, fun p hkept hp => ?_⟩
  rcases hp with ⟨t, ht, hp⟩ | hp
  · rw [show t = as.tables.root from List.mem_singleton.mp ht] at hp
    exact (h.used p hp).2 hkept
  · exact hnone p hp

theorem stands_step (hK : K.guarded.Laws R) {r r' : Ram × Space σ} (h : ∃ l, Stands R r.1 r.2 l)
    (hstep : SpaceStep K r r') : ∃ l, Stands R r'.1 r'.2 l := by
  obtain ⟨l, h⟩ := h
  cases hstep with
  | map v p n flags hmap => exact (h.map hK hmap).1
  | @unmap c as _ v n hinside hunmap =>
    obtain ⟨t, ht, hstands, -⟩ := h.unmap hK.toErases hinside
    obtain rfl : t = r' := Option.some.inj (ht.symm.trans hunmap)
    exact hstands
  | other hlimit hbitmap hguarded hkeep => exact ⟨l, h.other hK hlimit hbitmap hguarded hkeep⟩

theorem spaceRun_stands (hK : K.guarded.Laws R) {r r' : Ram × Space σ} (h : Stands R r.1 r.2 l)
    (hrun : Relation.ReflTransGen (SpaceStep K) r r') : ∃ l, Stands R r'.1 r'.2 l :=
  Ledger.run_preserves (fun r => ∃ l, Stands R r.1 r.2 l) (fun _ _ => stands_step hK) ⟨l, h⟩ hrun

theorem Stands.map_returns {a : Nat} {P : Nat → σ → Prop} (hK : K.guarded.Laws R)
    (hP : K.guarded.Takes R a P) (h : Stands R c as l) {v m : UInt64} (physAddr flags : UInt64)
    (hregion : ∀ i ∈ pages 0 (m * pageSize), regionNum (v + i) = regionNum v) {j n : Nat}
    (hroom : P (j + 3) as.memoryList) (hs : Stock c.load (3 * (8 + a) + n)) :
    ∃ r, c.mapPages K as v physAddr m flags = some r ∧ Stock r.1.load n ∧ P j r.2.memoryList := by
  obtain ⟨s, k₀, rfl, h⟩ := h
  exact mapPages_stock hK hP h physAddr flags hregion hroom ((stock_ram s).mp hs)

end Runs

/-! The vector. -/

/-- `memory_list`: a vector of words. -/
def memoryList (func : Nat → UInt8) : Keeper UInt64 Vec := vecKeeper 8 wordBytes bytesWord func

/-- Its block. -/
abbrev listOwner : Owner machinePages (Vec × List UInt64) := vecOwner 8 wordBytes

theorem memoryList_laws (func : Nat → UInt8) : (memoryList func).guarded.Laws listOwner :=
  vecKeeper_laws (by decide) (fun _ => rfl) bytesWord_wordBytes

theorem memoryList_takes (func : Nat → UInt8) :
    (memoryList func).guarded.Takes listOwner 2 (VecRoom 8) :=
  vecKeeper_takes (by decide) (by decide) fun _ => rfl

section Vector
variable {func : Nat → UInt8} {c : Ram} {as : Space Vec} {l : List UInt64}

theorem Ram.Blank.stands_vector (h : c.Blank as) (hlist : as.memoryList = vectorNew)
    (hlim : c.kmem.physicalLimit.toNat + 4096 ≤ 2 ^ 47) : Stands listOwner c as [] := by
  refine h.stands ?_ fun p hp => ?_
  · rw [hlist]
    exact vectorOwner_new (by decide) hlim
  · rw [hlist] at hp
    exact hp.1 rfl

/-- While the elements of the list take no more than half of its pages, all erases copy inside. -/
theorem short_erasesInside (h : Stands listOwner c as l) (hshort : ShortVec 8 (as.memoryList, l))
    (v n : UInt64) : c.ErasesInside (memoryList func) as v n := by
  obtain ⟨s, k₀, rfl, hfence, ⟨htables, hlist, hapart'⟩, hapart⟩ := h
  have hinv : (fence.star (spaceOwner (listOwner.restrict (ShortVec 8)))).inv s (k₀, (as, l)) :=
    ⟨hfence, ⟨htables, ⟨hlist, hshort⟩, hapart'⟩, hapart⟩
  have herases : (memoryList func).guarded.Erases (listOwner.restrict (ShortVec 8)) :=
    vecKeeper_short (by decide) (fun _ => rfl) bytesWord_wordBytes
  exact (unmapPages_ram herases (E := True) (fun _ => short_erase (by decide)) hinv v n).returns trivial

theorem shortVec_of_room {j : Nat} (h : Stands listOwner c as l) (hroom : VecRoom 8 j as.memoryList) :
    ShortVec 8 (as.memoryList, l) := by
  obtain ⟨s, k₀, rfl, -, ⟨-, ⟨-, k, -, hinv⟩, -⟩, -⟩ := h
  replace hinv : VecInv 8 k s as.memoryList (l.map wordBytes) := hinv
  have hbytes := hroom.1
  have helems := hinv.room
  have height : (8 : UInt64).toNat = 8 := rfl
  rw [height] at hbytes helems
  show 2 * (as.memoryList.length.toNat * 8) ≤ 4096 * (numPages as.memoryList.capacity).toNat
  rcases hinv.buffer with ⟨-, hcap, -⟩ | ⟨b, hblock⟩
  · rw [hcap, UInt64.toNat_zero] at helems
    omega
  · obtain ⟨-, hn, hfit⟩ := hblock.heap.reserved.shape b List.mem_cons_self
    have hlt := numPages_lt as.memoryList.capacity
    rw [hn, hblock.capacity, toNat_add_of_lt (by rw [UInt64.toNat_one]; omega),
      UInt64.toNat_one] at hfit
    omega

end Vector

/-! An empty space. -/

/-- The first 8 of 256 pages are used, and the last one, where the bitmap is. -/
def fencedPages : KernelMemInfo :=
  { physicalLimit := 0x100000, totalSize := 0x100000, freeSize := 0xF7000,
    bitmap := physToVirt 0xFF000,
    bytes := fun i => if i = 0 ∨ 32 ≤ i then 0 else if i = 31 then 0x7F else 0xFF }

/-- An empty PML4 in the first 8 pages. -/
def fencedMachine : Machine := ⟨fencedPages, fun _ => 0⟩

/-- A space with a list of its tables that has no block yet. -/
def emptySpace : Space Vec := ⟨physToVirt 0, vectorNew⟩

theorem fencedPages_kept {p : Nat} (h : fencedPages.Kept p) : 255 ≤ p := by
  rcases h with hlimit | ⟨x, hin, rfl⟩
  · have hle : 0x100000 ≤ 4096 * p := hlimit
    omega
  · have hlt : (x - physToVirt 0xFF000).toNat < 33 := hin
    have hphys : virtToPhys x = 0xFF000 + (x - physToVirt 0xFF000) := by
      simp only [virtToPhys, physToVirt]
      grind
    have hbase : (0xFF000 : UInt64).toNat = 0xFF000 := rfl
    rw [pageOf, hphys, toNat_add_of_lt (by omega), hbase]
    omega

theorem fencedPages_fenced : fencedPages.Fenced := by
  intro p hp
  rw [KernelMemInfo.Used]
  rcases Nat.eq_or_lt_of_le (fencedPages_kept hp) with rfl | hlt
  · decide +kernel
  · have hbyte : fencedPages.bytes (p / 8) = 0 := if_pos (Or.inr (by omega))
    rw [KernelMemInfo.isFree, BitArray.get, hbyte]
    simp

theorem fencedPages_stock : Stock fencedPages 247 := by
  have hfree : ∀ p < 255, 8 ≤ p → fencedPages.isFree p = true := by decide +kernel
  exact ⟨by decide, by decide +kernel, 8, by decide, fun p hlow hhigh => hfree p (by omega) hlow⟩

theorem blank_ram {s : Machine} {as : Space σ} (h : Blank s ⟨as.pml4, []⟩) (hf : s.kmem.Fenced)
    (hout : ∀ p, TablePage as.tables.root p → ¬ s.kmem.Kept p) : s.ram.Blank as := by
  have hkept : ∀ p, s.ram.load.Kept p ↔ s.kmem.Kept p := KernelMemInfo.kept_congr rfl rfl
  have hclear : (tableAt as.tables.root).Clear s.kmem := hout
  refine ⟨h.limit, fun p hp hk => ?_, h.whole, fun p hp => ⟨?_, fun hk => hout p hp ((hkept p).mp hk)⟩,
    fun i => ?_⟩
  · exact (ram_used s hp).mpr (hf p ((hkept p).mp hk))
  · exact (ram_used s (hclear.inside hp)).mpr (h.used p hp)
  · rw [← h.zero i]
    have hroot : as.pml4 = physToVirt as.tables.root := (physToVirt_virtToPhys as.pml4).symm
    show tableEntry s.ram.mem as.pml4 i = tableEntry s.mem as.pml4 i
    rw [hroot]
    exact tableEntry_congr h.whole (index_lt i) fun x hx => s.ram_mem (hclear.off hx)

theorem blank_fenced (v : σ) : fencedMachine.ram.Blank (⟨physToVirt 0, v⟩ : Space σ) := by
  have hroot : (⟨physToVirt 0, v⟩ : Space σ).tables.root = 0 := virtToPhys_physToVirt 0
  have hlow : ∀ p, TablePage (⟨physToVirt 0, v⟩ : Space σ).tables.root p → p < 8 := by
    intro p hp
    rw [hroot] at hp
    exact hp.2
  refine blank_ram ⟨by decide, ?_, fun p hp => ?_, fun i => ?_, rfl⟩ fencedPages_fenced
    fun p hp hk => ?_
  · show (tableAt (⟨physToVirt 0, v⟩ : Space σ).tables.root).Whole
    rw [hroot]
    exact ⟨by decide, by decide⟩
  · have hall : ∀ p < 8, fencedMachine.kmem.Used p := by
      unfold KernelMemInfo.Used
      decide +kernel
    exact hall p (hlow p hp)
  · exact load64_zero fun _ _ => rfl
  · have hp8 := hlow p hp
    have h255 := fencedPages_kept hk
    omega

theorem emptySpace_stands : Stands listOwner fencedMachine.ram emptySpace [] :=
  (blank_fenced vectorNew).stands_vector rfl (by decide)

theorem fenced_maps_two (func : Nat → UInt8) :
    ∃ r, fencedMachine.ram.mapPages (memoryList func) emptySpace 0x400000 0x10000 2 vmDefault =
        some r ∧ (∃ l, Stands listOwner r.1 r.2 l) ∧ VecRoom 8 100 r.2.memoryList ∧
      walk r.1.mem r.2.tables 0x400000 = some 0x10003 ∧
      walk r.1.mem r.2.tables 0x401000 = some 0x11003 := by
  have hpages : pages 0 (2 * pageSize) = [0, 0x1000] := by decide +kernel
  have hregion : ∀ i ∈ pages 0 (2 * pageSize), regionNum (0x400000 + i) = regionNum 0x400000 := by
    rw [hpages]
    intro i hi
    rcases List.mem_pair.mp hi with rfl | rfl
    · decide
    · decide
  obtain ⟨r, hr, -, hroom⟩ := emptySpace_stands.map_returns (memoryList_laws func)
    (memoryList_takes func) 0x10000 vmDefault hregion (j := 100) (n := 0) ⟨by decide, Or.inl rfl⟩
    (((stock_ram fencedMachine).mpr fencedPages_stock).mono (by decide))
  obtain ⟨hstands, hwalk⟩ := emptySpace_stands.map (memoryList_laws func) hr
  have hpages := (@mapUpdates_apply (walk fencedMachine.ram.mem emptySpace.tables) 0x400000 0x10000
    2 vmDefault (by decide) (by decide) (by decide) (by decide) (by decide)).1
  rw [← hwalk] at hpages
  exact ⟨r, hr, hstands, hroom, hpages 0 (by decide), hpages 1 (by decide)⟩

/-! Unmapping. -/

/-- After every run, `vm_unmap` does what it is asked, nothing more and nothing less, exactly when
    the mapped pages of the regions it drops are the mapped pages of its range. -/
theorem vm_unmap_exact_iff {func : Nat → UInt8} {c₀ : Ram} {as₀ : Space Vec} {r : Ram × Space Vec}
    (hblank : c₀.Blank as₀) (hlist : as₀.memoryList = vectorNew)
    (hlim : c₀.kmem.physicalLimit.toNat + 4096 ≤ 2 ^ 47)
    (hrun : Relation.ReflTransGen (SpaceStep (memoryList func)) (c₀, as₀) r) {v n : UInt64}
    (hinside : r.1.ErasesInside (memoryList func) r.2 v n) :
    ∃ r', r.1.unmapPages (memoryList func) r.2 v n = some r' ∧
      (((∀ w, InPages v n w → walk r'.1.mem r'.2.tables w = none) ∧
        ∀ w, ¬ InPages v n w → walk r'.1.mem r'.2.tables w = walk r.1.mem r.2.tables w) ↔
      ∀ w, (walk r.1.mem r.2.tables w).isSome →
        (InPages v n w ↔ RegionHit (walk r.1.mem r.2.tables) v n w)) := by
  obtain ⟨l, hstands⟩ := spaceRun_stands (memoryList_laws func) (r := (c₀, as₀))
    (hblank.stands_vector hlist hlim) hrun
  obtain ⟨r', hr', -, hwalk⟩ := hstands.unmap (memoryList_laws func).toErases hinside
  refine ⟨r', hr', ?_⟩
  rw [hwalk]
  exact unmapped_exact_iff _ v n

theorem vm_unmap_first_of_two :
    ∃ r, fencedMachine.ram.mapPages (memoryList fun _ => 0) emptySpace 0x400000 0x10000 2 vmDefault =
        some r ∧
      ∃ r', r.1.unmapPages (memoryList fun _ => 0) r.2 0x400000 1 = some r' ∧
      (((∀ w, InPages 0x400000 1 w → walk r'.1.mem r'.2.tables w = none) ∧
        ∀ w, ¬ InPages 0x400000 1 w → walk r'.1.mem r'.2.tables w = walk r.1.mem r.2.tables w) ↔
      ∀ w, (walk r.1.mem r.2.tables w).isSome →
        (InPages 0x400000 1 w ↔ RegionHit (walk r.1.mem r.2.tables) 0x400000 1 w)) := by
  obtain ⟨r, hr, ⟨l, hstands⟩, hroom, -⟩ := fenced_maps_two fun _ => 0
  exact ⟨r, hr, vm_unmap_exact_iff (blank_fenced vectorNew) rfl (by decide) (.single (.map _ _ _ _ hr))
    (short_erasesInside hstands (shortVec_of_room hstands hroom) 0x400000 1)⟩

/-- Unmapping the first of two pages takes the second with it. -/
theorem vm_unmap_takes_neighbour :
    ∃ r r', fencedMachine.ram.Blank emptySpace ∧
      Relation.ReflTransGen (SpaceStep (memoryList fun _ => 0)) (fencedMachine.ram, emptySpace) r ∧
      r.1.unmapPages (memoryList fun _ => 0) r.2 0x400000 1 = some r' ∧
      ¬ InPages 0x400000 1 0x401000 ∧ walk r.1.mem r.2.tables 0x401000 = some 0x11003 ∧
      walk r'.1.mem r'.2.tables 0x401000 = none := by
  obtain ⟨r, hr, ⟨l, hstands⟩, hroom, hfirst, hsecond⟩ := fenced_maps_two fun _ => 0
  have hinside := @short_erasesInside (fun _ => 0) _ _ _ hstands (shortVec_of_room hstands hroom)
    0x400000 1
  obtain ⟨r', hr', -, hwalk⟩ := hstands.unmap (memoryList_laws fun _ => 0).toErases hinside
  refine ⟨r, r', blank_fenced vectorNew, .single (.map 0x400000 0x10000 2 vmDefault hr), hr', ?_, hsecond, ?_⟩
  · intro hin
    obtain ⟨k, hk, hpage⟩ := hin
    obtain rfl : k = 0 := Nat.lt_one_iff.mp hk
    revert hpage
    decide
  · rw [hwalk]
    refine (unmapped_apply (walk r.1.mem r.2.tables) 0x400000 1 0x401000).1 ⟨0, by decide, ?_, by decide⟩
    rw [show (0x400000 : UInt64) + pageSize * UInt64.ofNat 0 = 0x400000 from rfl, hfirst]
    rfl

end Horizon64
