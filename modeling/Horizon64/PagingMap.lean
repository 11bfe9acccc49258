import Horizon64.PagingTree
import Horizon64.Lib.Folds

/- Mapping pages.

   `map_page_entry` walks down three levels, making the tables that are missing, and
   writes a leaf; on the map from addresses to leaves it is one assignment
   (`mapPageEntry_spec`), and the loop of `vm_map` is a list of them in order
   (`mapPages_spec`). -/
namespace Horizon64
open Words Bytes

/-- `r` is reached from `s`, `as` by writes to this address space only, and maps
    pages as `f` does. -/
structure Update (s : Machine) (as : AddrSpace) (r : Machine × AddrSpace)
    (f : UInt64 → Option UInt64) : Prop where
  paged : Paged r.1 r.2
  local' : Local s as r.1 r.2
  walk_eq : walk r.1.mem r.2 = f

theorem Update.refl {s : Machine} {as : AddrSpace} (h : Paged s as) :
    Update s as (s, as) (walk s.mem as) :=
  ⟨h, Local.refl s as, rfl⟩

theorem Update.trans {s : Machine} {as : AddrSpace} {r r' : Machine × AddrSpace}
    {f f' : UInt64 → Option UInt64} (h : Update s as r f) (h' : Update r.1 r.2 r' f') :
    Update s as r' f' :=
  ⟨h'.paged, h.local'.trans h'.local', h'.walk_eq⟩

/-- What the walk finds at a page mapped to `physAddr` with `flags`. -/
def pageEntry (physAddr flags : UInt64) : Option UInt64 :=
  let entry := makeTableEntry (physAddr &&& ~~~0xFFF) flags
  if checkNotPresent entry then none else some entry

/-- `map_page_entry` makes the tables that are missing on the way to the page, and
    writes the leaf. -/
theorem mapPageEntry_steps {s : Machine} {as : AddrSpace} (h : Paged s as)
    {virtAddr physAddr flags : UInt64} {r : Machine × AddrSpace}
    (hmap : mapPageEntry s as virtAddr physAddr flags = some r) :
    ∃ s' as' t, Paged s' as' ∧ Local s as s' as' ∧ walk s'.mem as' = walk s.mem as ∧
      Radix.descend (sub s'.mem) as'.root (path virtAddr) = some t ∧
      r = (⟨s'.kmem, setTableEntry s'.mem (physToVirt t) (pte virtAddr)
        (makeTableEntry (physAddr &&& ~~~0xFFF) flags)⟩, as') := by
  simp only [mapPageEntry, Option.bind_eq_bind, Option.bind_eq_some_iff, Prod.exists] at hmap
  obtain ⟨s1, as1, pdpt, hnext1, s2, as2, pd, hnext2, s3, as3, pt, hnext3, hset⟩ := hmap
  have hroot : as.pml4 = physToVirt as.root := (physToVirt_virtToPhys as.pml4).symm
  have hnil : Radix.descend (sub s.mem) as.root ([] : List (Fin 512)) = some as.root := by
    rw [Radix.descend]
  rw [hroot] at hnext1
  obtain ⟨t1, rfl, h1, hloc1, hd1, hw1⟩ := nextTable_spec h hnil (by decide) hnext1
  obtain ⟨t2, rfl, h2, hloc2, hd2, hw2⟩ := nextTable_spec h1 hd1 (by simp) hnext2
  obtain ⟨t3, rfl, h3, hloc3, hd3, hw3⟩ := nextTable_spec h2 hd2 (by simp) hnext3
  have hwalk : walk s3.mem as3 = walk s.mem as :=
    funext fun w => (hw3 w).trans ((hw2 w).trans (hw1 w))
  exact ⟨s3, as3, t3, h3, (hloc1.trans hloc2).trans hloc3, hwalk, hd3,
    (Option.some.inj hset).symm⟩

theorem mapPageEntry_spec {s : Machine} {as : AddrSpace} (h : Paged s as)
    {virtAddr physAddr flags : UInt64} {r : Machine × AddrSpace}
    (hmap : mapPageEntry s as virtAddr physAddr flags = some r) :
    Update s as r
      (FlatMap.assign pageNum (walk s.mem as) virtAddr (pageEntry physAddr flags)) := by
  obtain ⟨s', as', t, h', hloc, hwalk, ht, rfl⟩ := mapPageEntry_steps h hmap
  obtain ⟨hset, hlocset, _, hwalkset⟩ :=
    setLeaf_spec h' ht (makeTableEntry (physAddr &&& ~~~0xFFF) flags)
  refine ⟨hset, hloc.trans hlocset, ?_⟩
  funext w
  rw [hwalkset, hwalk]
  rfl

theorem mapPageEntry_table {s : Machine} {as : AddrSpace} (h : Paged s as)
    {virtAddr physAddr flags : UInt64} {r : Machine × AddrSpace}
    (hmap : mapPageEntry s as virtAddr physAddr flags = some r) :
    ∃ t, Radix.descend (sub r.1.mem) r.2.root (path virtAddr) = some t := by
  obtain ⟨s', as', t, h', _, _, ht, rfl⟩ := mapPageEntry_steps h hmap
  obtain ⟨_, _, hdesc, _⟩ :=
    setLeaf_spec h' ht (makeTableEntry (physAddr &&& ~~~0xFFF) flags)
  exact ⟨t, (hdesc _ (Nat.le_of_eq (path_length virtAddr))).trans ht⟩

/-- The assignments that `vm_map` makes, in order. -/
def mapUpdates (virtAddr physAddr n flags : UInt64) : List (UInt64 × Option UInt64) :=
  (pages 0 (n * pageSize)).map fun i => (virtAddr + i, pageEntry (physAddr + i) flags)

theorem mapPages_spec {s : Machine} {as : AddrSpace} (h : Paged s as)
    {virtAddr physAddr n flags : UInt64} {r : Machine × AddrSpace}
    (hmap : mapPages s as virtAddr physAddr n flags = some r) :
    Update s as r
      (FlatMap.assignAll pageNum (walk s.mem as) (mapUpdates virtAddr physAddr n flags)) := by
  rw [FlatMap.assignAll, mapUpdates, List.foldl_map]
  refine Folds.foldlM_sim (fun t f t' i _ ht hi => ?_) (Update.refl h) hmap
  have hstep := mapPageEntry_spec ht.paged hi
  rw [ht.walk_eq] at hstep
  exact ht.trans hstep

/-! When it returns. -/

/-- `pm_get` has `j` tables to give, one after the other. -/
def canGet (k : KernelMemInfo) : Nat → Bool
  | 0 => true
  | j + 1 =>
    match pmGet k defaultPages 0 with
    | none => false
    | some (buffer, k) => buffer ≠ 0 && canGet k j

theorem canGet_succ {k : KernelMemInfo} {j : Nat} (h : canGet k (j + 1) = true) :
    ∃ f k', pmGet k defaultPages 0 = some (f, k') ∧ f ≠ 0 ∧ canGet k' j = true := by
  rw [canGet] at h
  split at h
  · cases h
  · next f k' hget =>
    rw [Bool.and_eq_true, decide_eq_true_eq] at h
    exact ⟨f, k', hget, h.1, h.2⟩

theorem canGet_pred {k : KernelMemInfo} {j : Nat} (h : canGet k (j + 1) = true) :
    canGet k j = true := by
  induction j generalizing k with
  | zero => rfl
  | succ j ih =>
    obtain ⟨f, k', hget, hf, hrest⟩ := canGet_succ h
    rw [canGet, hget]
    simp only [ne_eq, hf, not_false_eq_true, decide_true, ih hrest, Bool.and_self]

theorem nextTable_returns {s : Machine} {j : Nat} (h : canGet s.kmem (j + 1) = true)
    (as : AddrSpace) (table : UInt64) (i : Nat) :
    ∃ s' as' t, nextTable s as table i = some (s', as', t) ∧ canGet s'.kmem j = true := by
  obtain ⟨f, k', hget, hf, hrest⟩ := canGet_succ h
  rw [nextTable]
  cases checkNotPresent (tableEntry s.mem table i) with
  | true =>
    rw [if_pos rfl, hget]
    dsimp only
    rw [if_neg hf]
    exact ⟨_, _, _, rfl, hrest⟩
  | false => exact ⟨s, as, _, rfl, canGet_pred h⟩

theorem mapPageEntry_bind (s : Machine) (as : AddrSpace) (v physAddr flags : UInt64) :
    mapPageEntry s as v physAddr flags =
      (nextTable s as as.pml4 (pml4e v)).bind fun (s, as, pdpt) =>
      (nextTable s as pdpt (pdpe v)).bind fun (s, as, pd) =>
      (nextTable s as pd (pde v)).bind fun (s, as, pt) =>
      some (⟨s.kmem, setTableEntry s.mem pt (pte v)
        (makeTableEntry (physAddr &&& ~~~0xFFF) flags)⟩, as) :=
  rfl

theorem mapPageEntry_eq {s s1 s2 s3 : Machine} {as as1 as2 as3 : AddrSpace}
    {v pdpt pd pt : UInt64} (h1 : nextTable s as as.pml4 (pml4e v) = some (s1, as1, pdpt))
    (h2 : nextTable s1 as1 pdpt (pdpe v) = some (s2, as2, pd))
    (h3 : nextTable s2 as2 pd (pde v) = some (s3, as3, pt)) (physAddr flags : UInt64) :
    mapPageEntry s as v physAddr flags =
      some (⟨s3.kmem, setTableEntry s3.mem pt (pte v)
        (makeTableEntry (physAddr &&& ~~~0xFFF) flags)⟩, as3) := by
  rw [mapPageEntry_bind, h1, Option.bind_some]
  dsimp only
  rw [h2, Option.bind_some]
  dsimp only
  rw [h3, Option.bind_some]

theorem mapPageEntry_returns {s : Machine} {j : Nat} (h : canGet s.kmem (j + 3) = true)
    (as : AddrSpace) (virtAddr physAddr flags : UInt64) :
    ∃ r, mapPageEntry s as virtAddr physAddr flags = some r ∧ canGet r.1.kmem j = true := by
  obtain ⟨s1, as1, t1, h1, hget1⟩ := nextTable_returns h as as.pml4 (pml4e virtAddr)
  obtain ⟨s2, as2, t2, h2, hget2⟩ := nextTable_returns hget1 as1 t1 (pdpe virtAddr)
  obtain ⟨s3, as3, t3, h3, hget3⟩ := nextTable_returns hget2 as2 t2 (pde virtAddr)
  exact ⟨_, mapPageEntry_eq h1 h2 h3 physAddr flags, hget3⟩

theorem nextTable_present {s : Machine} {t u : UInt64} {i : Fin 512} (h : sub s.mem t i = some u)
    (as : AddrSpace) : nextTable s as (physToVirt t) i = some (s, as, physToVirt u) := by
  rw [sub] at h
  rw [nextTable]
  cases hpres : checkNotPresent (tableEntry s.mem (physToVirt t) i) with
  | true =>
    rw [hpres] at h
    cases h
  | false =>
    simp only [hpres, Bool.false_eq_true, if_false, Option.some.injEq] at h ⊢
    rw [h]

/-- A page whose page table is there already needs none. -/
theorem mapPageEntry_again {s : Machine} {as : AddrSpace} {v t : UInt64}
    (h : Radix.descend (sub s.mem) as.root (path v) = some t) (physAddr flags : UInt64) :
    mapPageEntry s as v physAddr flags =
      some (⟨s.kmem, setTableEntry s.mem (physToVirt t) (pte v)
        (makeTableEntry (physAddr &&& ~~~0xFFF) flags)⟩, as) := by
  have hroot : as.pml4 = physToVirt as.root := (physToVirt_virtToPhys as.pml4).symm
  simp only [path, Radix.descend, Option.bind_eq_some_iff, Option.some.injEq] at h
  obtain ⟨t1, h1, t2, h2, t3, h3, rfl⟩ := h
  have hnext := nextTable_present h1 as
  rw [← hroot] at hnext
  exact mapPageEntry_eq hnext (nextTable_present h2 as) (nextTable_present h3 as) physAddr flags

/-- The region of `v` has its page table in `r`, and the bitmap is that of `k`. -/
structure HasTable (k : KernelMemInfo) (v : UInt64) (r : Machine × AddrSpace) : Prop where
  paged : Paged r.1 r.2
  kmem : r.1.kmem = k
  table : ∃ t, Radix.descend (sub r.1.mem) r.2.root (path v) = some t

theorem HasTable.map {k : KernelMemInfo} {v w : UInt64} {r : Machine × AddrSpace}
    (h : HasTable k v r) (hw : regionNum w = regionNum v) (physAddr flags : UInt64) :
    ∃ r', mapPageEntry r.1 r.2 w physAddr flags = some r' ∧ HasTable k v r' := by
  obtain ⟨s, as⟩ := r
  obtain ⟨hpaged, rfl, ⟨t, ht⟩⟩ := h
  have hpath : path w = path v := (path_eq_iff v w).mpr hw
  have htw : Radix.descend (sub s.mem) as.root (path w) = some t := hpath ▸ ht
  have hmap := mapPageEntry_again htw physAddr flags
  have hset := setLeaf_spec hpaged htw (makeTableEntry (physAddr &&& ~~~0xFFF) flags)
  obtain ⟨m, hm⟩ : ∃ m, m = setTableEntry s.mem (physToVirt t) (pte w)
    (makeTableEntry (physAddr &&& ~~~0xFFF) flags) := ⟨_, rfl⟩
  rw [← hm] at hmap hset
  obtain ⟨hpaged', _, hdesc, _⟩ := hset
  exact ⟨_, hmap, ⟨hpaged', rfl, ⟨t, (hdesc _ (Nat.le_of_eq (path_length v))).trans ht⟩⟩⟩

/-! The pages of a range. -/

/-- The loops of `vm_map` and `vm_unmap` run `n mod 2^52` times. -/
theorem pages_offsets (n : UInt64) :
    pages 0 (n * pageSize) =
      (List.range (n.toNat % 2 ^ 52)).map fun j => pageSize * UInt64.ofNat j := by
  have hmod : (UInt64.ofNat (n.toNat % 2 ^ 52)).toNat = n.toNat % 2 ^ 52 :=
    toNat_ofNat_of_lt (by omega)
  have hmul : n * pageSize = 0 + UInt64.ofNat (n.toNat % 2 ^ 52) * pageSize := by
    apply UInt64.toNat_inj.mp
    rw [UInt64.zero_add, UInt64.toNat_mul, UInt64.toNat_mul, hmod, pageSize_toNat]
    omega
  have hroom : (0 : UInt64).toNat + (UInt64.ofNat (n.toNat % 2 ^ 52)).toNat * 4096 < 2 ^ 64 := by
    rw [hmod, UInt64.toNat_zero]
    omega
  rw [hmul, pages_run hroom, hmod]
  simp only [UInt64.zero_add]

theorem pages_single : pages 0 (1 * pageSize) = [0] := by
  have hone : (1 : UInt64).toNat % 2 ^ 52 = 1 := Nat.mod_eq_of_lt (by decide)
  have hzero : UInt64.ofNat 0 = 0 := rfl
  calc pages 0 (1 * pageSize)
      = (List.range ((1 : UInt64).toNat % 2 ^ 52)).map fun j => pageSize * UInt64.ofNat j :=
        pages_offsets 1
    _ = [0] := by rw [hone, List.range_one, List.map_singleton, hzero, UInt64.mul_zero]

theorem pageNum_add {v : UInt64} (hv : v.toNat % 4096 = 0) (j : Nat) :
    pageNum (v + pageSize * UInt64.ofNat j) = (pageNum v + j) % 2 ^ 36 := by
  have hof : (UInt64.ofNat j).toNat = j % 2 ^ 64 := UInt64.toNat_ofNat'
  rw [pageNum, pageNum, UInt64.toNat_add, UInt64.toNat_mul, hof, pageSize_toNat]
  omega

theorem pageNum_run {v n : UInt64} (hv : v.toNat % 4096 = 0)
    (hrange : v.toNat % 2 ^ 48 + 4096 * n.toNat ≤ 2 ^ 48) {j : Nat} (hj : j < n.toNat) :
    pageNum (v + pageSize * UInt64.ofNat j) = pageNum v + j := by
  have hnum : pageNum v = v.toNat / 4096 % 2 ^ 36 := rfl
  rw [pageNum_add hv, Nat.mod_eq_of_lt]
  omega

theorem checkNotPresent_eq (e : UInt64) : checkNotPresent e = decide (e.toNat % 2 = 0) := by
  have hone : vmPresent.toNat = 2 ^ 1 - 1 := rfl
  rw [checkNotPresent, decide_eq_decide, ← UInt64.toNat_inj, UInt64.toNat_and, hone,
    Nat.and_two_pow_sub_one_eq_mod, UInt64.toNat_zero, Nat.pow_one]

/-- The leaf for a page-aligned frame and flags with the present bit. -/
theorem pageEntry_aligned {p flags : UInt64} (hp : p.toNat % 4096 = 0)
    (hflags : flags.toNat < 4096) (hpres : checkNotPresent flags = false) :
    pageEntry p flags = some (p ||| flags) := by
  have hmask : p &&& ~~~0xFFF = p := by
    apply UInt64.toNat_inj.mp
    rw [and_not_low_toNat (k := 12) p (by decide) rfl]
    omega
  have hor : (p ||| flags).toNat = p.toNat + flags.toNat := or_low_toNat (k := 12) hp hflags
  have hentry : makeTableEntry (p &&& ~~~0xFFF) flags = p ||| flags := by
    rw [makeTableEntry, hmask, hmask]
  have hpresent : checkNotPresent (p ||| flags) = false := by
    rw [checkNotPresent_eq, decide_eq_false_iff_not] at hpres ⊢
    rw [hor]
    omega
  simp only [pageEntry, hentry, hpresent, Bool.false_eq_true, if_false]

/-- What `vm_map` of `n` pages at `v` to `n` frames at `p` makes of a map. -/
theorem mapUpdates_apply (f : UInt64 → Option UInt64) {v p n flags : UInt64}
    (hv : v.toNat % 4096 = 0) (hp : p.toNat % 4096 = 0)
    (hrange : v.toNat % 2 ^ 48 + 4096 * n.toNat ≤ 2 ^ 48) (hflags : flags.toNat < 4096)
    (hpres : checkNotPresent flags = false) :
    (∀ k < n.toNat, FlatMap.assignAll pageNum f (mapUpdates v p n flags)
      (v + pageSize * UInt64.ofNat k) = some (p + pageSize * UInt64.ofNat k ||| flags)) ∧
    ∀ w, ¬ (pageNum v ≤ pageNum w ∧ pageNum w < pageNum v + n.toNat) →
      FlatMap.assignAll pageNum f (mapUpdates v p n flags) w = f w := by
  have hn : n.toNat % 2 ^ 52 = n.toNat := by omega
  have hup : mapUpdates v p n flags = (List.range n.toNat).map fun j =>
      (v + pageSize * UInt64.ofNat j, pageEntry (p + pageSize * UInt64.ofNat j) flags) := by
    rw [mapUpdates, pages_offsets, hn, List.map_map]
    rfl
  have hentry : ∀ j, pageEntry (p + pageSize * UInt64.ofNat j) flags =
      some (p + pageSize * UInt64.ofNat j ||| flags) := by
    intro j
    apply pageEntry_aligned _ hflags hpres
    rw [UInt64.toNat_add, UInt64.toNat_mul, pageSize_toNat]
    omega
  rw [hup]
  constructor
  · intro k hk
    apply FlatMap.assignAll_same
    · exact ⟨_, List.mem_map_of_mem (List.mem_range.mpr hk), rfl⟩
    · intro x hx heq
      obtain ⟨j, hj, rfl⟩ := List.mem_map.mp hx
      rw [List.mem_range] at hj
      rw [pageNum_run hv hrange hk, pageNum_run hv hrange hj] at heq
      have hjk : j = k := by omega
      rw [hjk, hentry]
  · intro w hw
    apply FlatMap.assignAll_off
    intro x hx heq
    obtain ⟨j, hj, rfl⟩ := List.mem_map.mp hx
    rw [List.mem_range] at hj
    rw [pageNum_run hv hrange hj] at heq
    omega

theorem mapPages_walk {s : Machine} {as : AddrSpace} (h : Paged s as) {v p n flags : UInt64}
    (hv : v.toNat % 4096 = 0) (hp : p.toNat % 4096 = 0)
    (hrange : v.toNat % 2 ^ 48 + 4096 * n.toNat ≤ 2 ^ 48) (hflags : flags.toNat < 4096)
    (hpres : checkNotPresent flags = false) {r : Machine × AddrSpace}
    (hmap : mapPages s as v p n flags = some r) :
    (∀ k < n.toNat, walk r.1.mem r.2 (v + pageSize * UInt64.ofNat k) =
      some (p + pageSize * UInt64.ofNat k ||| flags)) ∧
    ∀ w, ¬ (pageNum v ≤ pageNum w ∧ pageNum w < pageNum v + n.toNat) →
      walk r.1.mem r.2 w = walk s.mem as w := by
  rw [(mapPages_spec h hmap).walk_eq]
  exact mapUpdates_apply (walk s.mem as) hv hp hrange hflags hpres

/-- Once the first page of a 2 MiB region is mapped, the others are, with no page taken. -/
theorem mapPages_rest {s : Machine} {as : AddrSpace} (h : Paged s as) {v p n flags i : UInt64}
    {l : List UInt64} (hpages : pages 0 (n * pageSize) = i :: l)
    (hregion : ∀ i ∈ pages 0 (n * pageSize), regionNum (v + i) = regionNum v)
    {r : Machine × AddrSpace} (hr : mapPageEntry s as (v + i) (p + i) flags = some r) :
    ∃ r', mapPages s as v p n flags = some r' ∧ r'.1.kmem = r.1.kmem := by
  rw [hpages] at hregion
  obtain ⟨t, ht⟩ := mapPageEntry_table h hr
  have hpath : path (v + i) = path v :=
    (path_eq_iff v (v + i)).mpr (hregion i List.mem_cons_self)
  rw [hpath] at ht
  have hgood : HasTable r.1.kmem v r := ⟨(mapPageEntry_spec h hr).paged, rfl, ⟨t, ht⟩⟩
  obtain ⟨r', hr', hgood'⟩ := Folds.foldlM_returns
    (f := fun r i => mapPageEntry r.1 r.2 (v + i) (p + i) flags) (l := l)
    (fun r' i hi hr' =>
      hr'.map (hregion i (List.mem_cons_of_mem _ hi)) (p + i) flags) hgood
  refine ⟨r', ?_, hgood'.kmem⟩
  rw [mapPages, hpages, List.foldlM_cons, Option.bind_eq_bind, hr, Option.bind_some, hr']

theorem mapPages_returns {s : Machine} {as : AddrSpace} (h : Paged s as) {j : Nat}
    (hget : canGet s.kmem (j + 3) = true) {v n : UInt64} (p flags : UInt64)
    (hregion : ∀ i ∈ pages 0 (n * pageSize), regionNum (v + i) = regionNum v) :
    ∃ r, mapPages s as v p n flags = some r ∧ canGet r.1.kmem j = true := by
  cases hpages : pages 0 (n * pageSize) with
  | nil =>
    have hless := canGet_pred (canGet_pred (canGet_pred hget))
    exact ⟨(s, as), by rw [mapPages, hpages, List.foldlM_nil]; rfl, hless⟩
  | cons i l =>
    -- the first page makes the tables that are missing
    obtain ⟨r, hr, hgetr⟩ := mapPageEntry_returns hget as (v + i) (p + i) flags
    obtain ⟨r', hr', hkmem⟩ := mapPages_rest h hpages hregion hr
    exact ⟨r', hr', by rw [hkmem]; exact hgetr⟩

end Horizon64
