import Horizon64.PagingUnmap
import Horizon64.PmGet
import Horizon64.Lib.Ledger

/- Runs of `vm_map` and `vm_unmap` on an address space.

   A run starts from an empty PML4 (`Blank`). Between the calls the rest of the
   kernel may do what it likes to memory and to the bitmap, as long as it leaves
   alone the tables of this address space (`AsStep.other`).

   1. `run_paged`: the invariant holds after every run.
   2. What a call of `vm_map` does to the map from pages to leaves.
   3. `vm_unmap` drops whole 2 MiB regions of that map.
   4. `memory_list` is the list of the tables, whose frames are used and disjoint. -/
namespace Horizon64
open Words Bytes

/-- An address space with nothing mapped: its PML4 has 8 used pages and no entry. -/
structure Blank (s : Machine) (as : AddrSpace) : Prop where
  limit : s.kmem.physicalLimit.toNat + 8 * 4096 ≤ 2 ^ 64
  whole : (tableAt as.root).Whole
  used : ∀ p, TablePage as.root p → s.kmem.Used p
  zero : ∀ i : Fin 512, tableEntry s.mem as.pml4 i = 0
  owns : as.memoryList = []

/-- One step of a run on `as`: a call, or something that leaves its tables alone. -/
inductive AsStep : Machine × AddrSpace → Machine × AddrSpace → Prop where
  | map {s : Machine} {as : AddrSpace} {r : Machine × AddrSpace} (v p n flags : UInt64)
      (h : mapPages s as v p n flags = some r) : AsStep (s, as) r
  | unmap {s : Machine} {as : AddrSpace} {r : Machine × AddrSpace} (v n : UInt64)
      (h : unmapPages s as v n = some r) : AsStep (s, as) r
  | other {s s' : Machine} {as : AddrSpace}
      (limit : s'.kmem.physicalLimit = s.kmem.physicalLimit)
      (used : ∀ t ∈ as.frames, ∀ p, TablePage t p → s'.kmem.Used p)
      (mem : ∀ t ∈ as.frames, ∀ x, (tableAt t).Holds x → s'.mem x = s.mem x) :
      AsStep (s, as) (s', as)

/-! The invariant. -/

theorem Blank.sub_none {s : Machine} {as : AddrSpace} (h : Blank s as) (i : Fin 512) :
    sub s.mem as.root i = none := by
  apply sub_of_not_present
  rw [AddrSpace.root, physToVirt_virtToPhys, h.zero i]
  exact zero_not_present

/-- From an empty PML4 no path leads anywhere. -/
theorem Blank.descend_eq {s : Machine} {as : AddrSpace} (h : Blank s as) {p : List (Fin 512)}
    {t : UInt64} (hp : Radix.descend (sub s.mem) as.root p = some t) : p = [] ∧ t = as.root := by
  cases p with
  | nil =>
    rw [Radix.descend] at hp
    exact ⟨rfl, (Option.some.inj hp).symm⟩
  | cons i p =>
    rw [Radix.descend, h.sub_none i, Option.bind_none] at hp
    cases hp

theorem Blank.paged {s : Machine} {as : AddrSpace} (h : Blank s as) : Paged s as := by
  have hframes : as.frames = [as.root] := by rw [AddrSpace.frames, h.owns]
  have hnil : Radix.descend (sub s.mem) as.root ([] : List (Fin 512)) = some as.root := by
    rw [Radix.descend]
  refine ⟨h.limit, ?_, ⟨?_, ?_⟩, ?_, ?_, ?_, ?_⟩
  · rw [hframes]
    intro t ht
    rw [List.mem_singleton.mp ht]
    exact h.whole
  · rw [hframes]
    intro t ht
    rw [List.mem_singleton.mp ht]
    exact h.used
  · rw [hframes]
    exact List.pairwise_singleton _ _
  · intro p q t _ _ hp hq
    rw [(h.descend_eq hp).1, (h.descend_eq hq).1]
  · intro t
    rw [hframes, List.mem_singleton]
    refine ⟨fun ht => ⟨[], by simp, ht ▸ hnil⟩, fun hr => ?_⟩
    obtain ⟨p, _, hp⟩ := hr
    exact (h.descend_eq hp).2
  · intro p t _ hp i
    rw [(h.descend_eq hp).2, AddrSpace.root, physToVirt_virtToPhys, h.zero i]
    exact Or.inl rfl
  · intro p t hne _ hp
    exact absurd (h.descend_eq hp).1 hne

theorem Blank.walk_none {s : Machine} {as : AddrSpace} (h : Blank s as) (w : UInt64) :
    walk s.mem as w = none := by
  rw [walk, h.sub_none, Option.bind_none]

theorem paged_step {r r' : Machine × AddrSpace} (h : Paged r.1 r.2) (hstep : AsStep r r') :
    Paged r'.1 r'.2 := by
  cases hstep with
  | map v p n flags hmap => exact (mapPages_spec h hmap).paged
  | @unmap s as _ v n hunmap =>
    obtain ⟨t, ht, hup⟩ := unmapPages_spec h v n
    obtain rfl : t = r' := Option.some.inj (ht.symm.trans hunmap)
    exact hup.paged
  | other limit used mem => exact (h.of_same limit used mem).1

theorem run_paged {s₀ : Machine} {as₀ : AddrSpace} {r : Machine × AddrSpace}
    (hblank : Blank s₀ as₀) (hrun : Relation.ReflTransGen AsStep (s₀, as₀) r) : Paged r.1 r.2 :=
  Ledger.run_preserves (fun r => Paged r.1 r.2) (fun _ _ => paged_step) hblank.paged hrun

/-! Mapping. -/

/-- After every run, `vm_map` maps the `n` pages at `v` to the `n` frames at `p` and
    changes no other page. -/
theorem vm_map_refines {s₀ : Machine} {as₀ : AddrSpace} {r r' : Machine × AddrSpace}
    (hblank : Blank s₀ as₀) (hrun : Relation.ReflTransGen AsStep (s₀, as₀) r)
    {v p n flags : UInt64} (hv : v.toNat % 4096 = 0) (hp : p.toNat % 4096 = 0)
    (hrange : v.toNat % 2 ^ 48 + 4096 * n.toNat ≤ 2 ^ 48) (hflags : flags.toNat < 4096)
    (hpres : checkNotPresent flags = false)
    (hmap : mapPages r.1 r.2 v p n flags = some r') :
    (∀ k < n.toNat, walk r'.1.mem r'.2 (v + pageSize * UInt64.ofNat k) =
      some (p + pageSize * UInt64.ofNat k ||| flags)) ∧
    ∀ w, ¬ (pageNum v ≤ pageNum w ∧ pageNum w < pageNum v + n.toNat) →
      walk r'.1.mem r'.2 w = walk r.1.mem r.2 w :=
  mapPages_walk (run_paged hblank hrun) hv hp hrange hflags hpres hmap

/-- An allocator with the first 8 of 256 pages used. -/
def tablesFree : KernelMemInfo :=
  { physicalLimit := 0x100000, totalSize := 0x100000, freeSize := 0xF8000, bitmap := 0,
    bytes := fun i => if i = 0 then 0 else 0xFF }

/-- An empty PML4 in these 8 pages. -/
def blankMachine : Machine := ⟨tablesFree, fun _ => 0⟩

def blankSpace : AddrSpace := ⟨physToVirt 0, []⟩

theorem blank_blankSpace : Blank blankMachine blankSpace := by
  have hroot : blankSpace.root = 0 := virtToPhys_physToVirt 0
  refine ⟨by decide, ?_, ?_, ?_, rfl⟩
  · rw [hroot]
    exact ⟨by decide, by decide⟩
  · intro p hp
    rw [hroot] at hp
    have hlt : p < 8 := hp.2
    have hall : ∀ p < 8, blankMachine.kmem.Used p := by
      unfold KernelMemInfo.Used
      decide +kernel
    exact hall p hlt
  · intro i
    apply load64_zero
    intro x _
    rfl

theorem blank_maps_two :
    ∃ r, mapPages blankMachine blankSpace 0x400000 0x10000 2 vmDefault = some r := by
  have hget : canGet blankMachine.kmem (0 + 3) = true := by decide +kernel
  have hpages : pages 0 (2 * pageSize) = [0, 0x1000] := by decide +kernel
  have hregion : ∀ i ∈ pages 0 (2 * pageSize), regionNum (0x400000 + i) = regionNum 0x400000 := by
    rw [hpages]
    intro i hi
    rcases List.mem_pair.mp hi with rfl | rfl
    · decide
    · decide
  obtain ⟨r, hr, _⟩ := mapPages_returns blank_blankSpace.paged hget 0x10000 vmDefault hregion
  exact ⟨r, hr⟩

theorem vm_map_two_pages :
    ∃ r, mapPages blankMachine blankSpace 0x400000 0x10000 2 vmDefault = some r ∧
      (∀ k < 2, walk r.1.mem r.2 (0x400000 + pageSize * UInt64.ofNat k) =
        some (0x10000 + pageSize * UInt64.ofNat k ||| vmDefault)) ∧
      ∀ w, ¬ (pageNum 0x400000 ≤ pageNum w ∧ pageNum w < pageNum 0x400000 + 2) →
        walk r.1.mem r.2 w = walk blankMachine.mem blankSpace w := by
  obtain ⟨r, hr⟩ := blank_maps_two
  exact ⟨r, hr, vm_map_refines blank_blankSpace .refl (by decide) (by decide) (by decide)
    (by decide) (by decide) hr⟩

/-! Unmapping. -/

/-- The page of `w` is one of the `n` pages from `v` on. -/
def InPages (v n w : UInt64) : Prop :=
  ∃ k < n.toNat, pageNum w = pageNum (v + pageSize * UInt64.ofNat k)

/-- The page of `w` is in the 2 MiB region of a mapped page that the loop of
    `vm_unmap` visits. -/
def RegionHit (f : UInt64 → Option UInt64) (v n w : UInt64) : Prop :=
  ∃ j < n.toNat % 2 ^ 52, (f (v + pageSize * UInt64.ofNat j)).isSome ∧
    regionNum w = regionNum (v + pageSize * UInt64.ofNat j)

/-- What `vm_unmap` leaves of a map: the regions that were hit are gone. -/
def unmapped (f : UInt64 → Option UInt64) (v n : UInt64) : UInt64 → Option UInt64 :=
  FlatMap.wipeAll regionNum f ((pages 0 (n * pageSize)).map fun i => v + i)

theorem unmapped_apply (f : UInt64 → Option UInt64) (v n w : UInt64) :
    (RegionHit f v n w → unmapped f v n w = none) ∧
      (¬ RegionHit f v n w → unmapped f v n w = f w) := by
  have hhit : RegionHit f v n w ↔
      ∃ u ∈ (pages 0 (n * pageSize)).map fun i => v + i,
        (f u).isSome ∧ regionNum w = regionNum u := by
    rw [pages_offsets, List.map_map, RegionHit]
    simp only [List.mem_map, List.mem_range, Function.comp_apply, exists_exists_and_eq_and]
  rw [unmapped, FlatMap.wipeAll_apply, hhit]
  exact ⟨fun hw => if_pos hw, fun hw => if_neg hw⟩

/-- The pages of the range are gone and the others are as they were exactly when the mapped
    pages of the dropped regions are the mapped pages of the range. -/
theorem unmapped_exact_iff (f : UInt64 → Option UInt64) (v n : UInt64) :
    ((∀ w, InPages v n w → unmapped f v n w = none) ∧
      ∀ w, ¬ InPages v n w → unmapped f v n w = f w) ↔
    ∀ w, (f w).isSome → (InPages v n w ↔ RegionHit f v n w) := by
  have happly := unmapped_apply f v n
  refine ⟨fun h w hw => ⟨fun hin => ?_, fun hhit => ?_⟩, fun h => ⟨?_, ?_⟩⟩
  · by_contra hno
    have hsame := ((happly w).2 hno).symm.trans (h.1 w hin)
    rw [hsame] at hw
    cases hw
  · by_contra hno
    have hsame := (h.2 w hno).symm.trans ((happly w).1 hhit)
    rw [hsame] at hw
    cases hw
  · intro w hin
    by_cases hhit : RegionHit f v n w
    · exact (happly w).1 hhit
    · rw [(happly w).2 hhit]
      by_contra hne
      exact hhit ((h w (Option.isSome_iff_ne_none.mpr hne)).mp hin)
  · intro w hout
    by_cases hhit : RegionHit f v n w
    · rw [(happly w).1 hhit]
      by_contra hne
      exact hout ((h w (Option.isSome_iff_ne_none.mpr (Ne.symm hne))).mpr hhit)
    · exact (happly w).2 hhit

/-! Who owns the frames. -/

/-- The list of the tables names those below the PML4, each once; each is 8 used pages, and no
    two share a page. -/
structure ListsTables (m : Memory) (used : Nat → Prop) (as : AddrSpace) : Prop where
  nodup : as.memoryList.Nodup
  reached : ∀ f, f ∈ as.memoryList ↔
    ∃ p, p ≠ [] ∧ p.length ≤ 3 ∧ Radix.descend (sub m) as.root p = some f
  whole : ∀ f ∈ as.memoryList, (tableAt f).Whole ∧ ∀ p, TablePage f p → used p
  apart : as.memoryList.Pairwise (Ledger.Apart TablePage)

theorem Paged.listsTables {s : Machine} {as : AddrSpace} (h : Paged s as) {used : Nat → Prop}
    (hused : ∀ t ∈ as.frames, ∀ p, TablePage t p → used p) : ListsTables s.mem used as := by
  have hnd := h.nodup
  rw [AddrSpace.frames, List.nodup_cons] at hnd
  have hmem : ∀ f ∈ as.memoryList, f ∈ as.frames := fun f hf => List.mem_cons_of_mem _ hf
  refine ⟨hnd.2, fun f => ⟨fun hf => ?_, fun hex => ?_⟩,
    fun f hf => ⟨h.whole f (hmem f hf), hused f (hmem f hf)⟩, ?_⟩
  · obtain ⟨p, hp, hpf⟩ := (h.reached f).mp (hmem f hf)
    refine ⟨p, fun hnil => hnd.1 ?_, hp, hpf⟩
    rw [hnil, Radix.descend] at hpf
    rw [Option.some.inj hpf]
    exact hf
  · obtain ⟨p, hne, hp, hpf⟩ := hex
    have hframe := h.mem_frames hp hpf
    refine (List.mem_cons.mp hframe).resolve_left fun hroot => hne ?_
    exact h.tree p [] f hp (by simp) hpf (by rw [Radix.descend, hroot])
  · have hapart := h.owned.apart
    rw [AddrSpace.frames, List.pairwise_cons] at hapart
    exact hapart.2

end Horizon64
