import Horizon64.PagingMap

/- Unmapping pages.

   `unmap_page_entry` clears the leaf, and then takes the page table out of its page
   directory without a look at the table's other entries; only the two levels above
   are tested for being empty. So on the map from addresses to leaves it drops the
   2 MiB region of the address, when the address is mapped
   (`unmapPageEntry_spec`), and `vm_unmap` does so for every page of its range
   (`unmapPages_spec`). Both always return: every `pm_free` on the way succeeds. -/
namespace Horizon64
open Words Bytes

theorem sub_of_descend {m : Memory} {root t u : UInt64} {p : List (Fin 512)} {i : Fin 512}
    (hp : Radix.descend (sub m) root p = some t)
    (hu : Radix.descend (sub m) root (p ++ [i]) = some u) : sub m t i = some u := by
  rw [Radix.descend_snoc, hp, Option.bind_some] at hu
  exact hu

namespace Paged
variable {s : Machine} {as : AddrSpace} (h : Paged s as) {p : List (Fin 512)} {t : UInt64}
  (hp : Radix.descend (sub s.mem) as.root p = some t)
include h hp

/-- An entry of an upper table is not present, or refers to the table that both
    masks of the source give. -/
theorem entry_cases (hlen : p.length < 3) (i : Fin 512) :
    checkNotPresent (tableEntry s.mem (physToVirt t) i) = true ∧ sub s.mem t i = none ∨
    ∃ u, checkNotPresent (tableEntry s.mem (physToVirt t) i) = false ∧ sub s.mem t i = some u ∧
      tableEntry s.mem (physToVirt t) i &&& ~~~0x1FF = u ∧
      Radix.descend (sub s.mem) as.root (p ++ [i]) = some u := by
  cases hpres : checkNotPresent (tableEntry s.mem (physToVirt t) i) with
  | true => exact Or.inl ⟨rfl, sub_of_not_present hpres⟩
  | false =>
    have hsub := sub_of_present hpres
    refine Or.inr ⟨_, rfl, hsub, (h.link p t hlen hp i).masks hpres, ?_⟩
    rw [Radix.descend_snoc, hp, Option.bind_some, hsub]

/-- A table that the scan finds empty refers to no table. -/
theorem sub_of_empty (hlen : p.length < 3)
    (hempty : tableEmpty s.mem (physToVirt t) = true) (i : Fin 512) : sub s.mem t i = none := by
  rw [tableEmpty, List.all_eq_true] at hempty
  have hzero := of_decide_eq_true (hempty i (List.mem_range.mpr (index_lt i)))
  rcases h.entry_cases hp hlen i with ⟨_, hnone⟩ | ⟨u, hpres, _⟩
  · exact hnone
  · rw [hzero] at hpres
    cases hpres

end Paged

theorem dropTable_upper {s : Machine} {as : AddrSpace} (h : Paged s as) {p : List (Fin 512)}
    {t c : UInt64} (hp : Radix.descend (sub s.mem) as.root p = some t) (hlen : p.length < 2)
    {i : Fin 512} (hc : sub s.mem t i = some c) (hbare : ∀ j, sub s.mem c j = none) :
    ∃ r, dropTable s as (physToVirt t) i (physToVirt c) = some r ∧
      Update s as r (walk s.mem as) ∧
      ∀ q : List (Fin 512), q.length ≤ 3 → q ≠ p ++ [i] →
        Radix.descend (sub r.1.mem) r.2.root q = Radix.descend (sub s.mem) as.root q := by
  obtain ⟨s', as', hdrop, hpaged, hloc, hdesc, hwalk⟩ :=
    dropTable_spec h hp (Nat.lt_succ_of_lt hlen) hc (fun _ => hbare)
  refine ⟨(s', as'), hdrop, ⟨hpaged, hloc, ?_⟩, fun q hq hne => ?_⟩
  · funext w
    rw [hwalk, if_neg]
    intro he
    have hlen' := congrArg List.length he
    rw [path_length, List.length_append, List.length_singleton] at hlen'
    omega
  · rw [hdesc q hq, if_neg hne]

/-- The part of `unmap_page_entry` after the leaf is cleared: the page table goes, and
    the two tables above it where nothing is left in them. -/
def unmapTables (s : Machine) (as : AddrSpace) (virtAddr pml4 pdpt pd pt : UInt64) :
    Option (Machine × AddrSpace) := do
  let (s, as) ← dropTable s as pd (pde virtAddr) pt
  if !tableEmpty s.mem pd then return (s, as)
  let (s, as) ← dropTable s as pdpt (pdpe virtAddr) pd
  if !tableEmpty s.mem pdpt then return (s, as)
  dropTable s as pml4 (pml4e virtAddr) pdpt

theorem unmapTables_bind (s : Machine) (as : AddrSpace) (v pml4 pdpt pd pt : UInt64) :
    unmapTables s as v pml4 pdpt pd pt =
      (dropTable s as pd (pde v) pt).bind fun (s, as) =>
        if !tableEmpty s.mem pd then some (s, as)
        else (dropTable s as pdpt (pdpe v) pd).bind fun (s, as) =>
          if !tableEmpty s.mem pdpt then some (s, as) else dropTable s as pml4 (pml4e v) pdpt :=
  rfl

theorem unmapTables_spec {s : Machine} {as : AddrSpace} (h : Paged s as) {v pdpt pd pt : UInt64}
    (h4 : Radix.descend (sub s.mem) as.root [pml4e v] = some pdpt)
    (h3 : Radix.descend (sub s.mem) as.root [pml4e v, pdpe v] = some pd)
    (hpt : sub s.mem pd (pde v) = some pt) :
    ∃ r, unmapTables s as v as.pml4 (physToVirt pdpt) (physToVirt pd) (physToVirt pt) = some r ∧
      Update s as r (fun w => if path w = path v then none else walk s.mem as w) := by
  -- the page table, whatever is left in it
  obtain ⟨s1, as1, hdrop1, hp1, hloc1, hdesc1, hwalk1⟩ :=
    dropTable_spec h h3 (by simp) hpt (fun hlt => absurd hlt (by simp))
  have hup1 : Update s as (s1, as1) (fun w => if path w = path v then none else walk s.mem as w) :=
    ⟨hp1, hloc1, funext hwalk1⟩
  have h3' : Radix.descend (sub s1.mem) as1.root [pml4e v, pdpe v] = some pd := by
    rw [hdesc1 _ (by simp), if_neg (by simp), h3]
  have h4' : Radix.descend (sub s1.mem) as1.root [pml4e v] = some pdpt := by
    rw [hdesc1 _ (by simp), if_neg (by simp), h4]
  rw [unmapTables_bind, hdrop1, Option.bind_some]
  dsimp only
  cases hempty1 : tableEmpty s1.mem (physToVirt pd) with
  | false => exact ⟨(s1, as1), if_pos rfl, hup1⟩
  | true =>
    -- the page directory, when it is empty
    have hpd : sub s1.mem pdpt (pdpe v) = some pd := sub_of_descend h4' h3'
    obtain ⟨⟨s2, as2⟩, hdrop2, hup2, hdesc2⟩ :=
      dropTable_upper hp1 h4' (by simp) hpd (hp1.sub_of_empty h3' (by simp) hempty1)
    rw [hup1.walk_eq] at hup2
    have h4'' : Radix.descend (sub s2.mem) as2.root [pml4e v] = some pdpt := by
      rw [hdesc2 _ (by simp) (by simp), h4']
    rw [if_neg (by simp), hdrop2, Option.bind_some]
    dsimp only
    cases hempty2 : tableEmpty s2.mem (physToVirt pdpt) with
    | false => exact ⟨(s2, as2), if_pos rfl, hup1.trans hup2⟩
    | true =>
      -- the PDPT, when it is empty
      have hnil : Radix.descend (sub s2.mem) as2.root ([] : List (Fin 512)) = some as2.root := by
        rw [Radix.descend_nil]
      have hpdpt : sub s2.mem as2.root (pml4e v) = some pdpt := sub_of_descend hnil h4''
      obtain ⟨r, hdrop3, hup3, _⟩ :=
        dropTable_upper hup2.paged hnil (by simp) hpdpt
          (hup2.paged.sub_of_empty h4'' (by simp) hempty2)
      rw [hup2.walk_eq] at hup3
      have hroot : physToVirt as2.root = as.pml4 := by
        rw [AddrSpace.root, physToVirt_virtToPhys, hup2.local'.pml4, hup1.local'.pml4]
      rw [hroot] at hdrop3
      refine ⟨r, ?_, (hup1.trans hup2).trans hup3⟩
      rw [if_neg (by simp), hdrop3]

/-- Unmapping an address: nothing when it is not mapped, else its 2 MiB region goes. -/
theorem unmapPageEntry_spec {s : Machine} {as : AddrSpace} (h : Paged s as) (v : UInt64) :
    ∃ r, unmapPageEntry s as v = some r ∧
      Update s as r (FlatMap.wipe regionNum (walk s.mem as) v) := by
  have hroot : as.pml4 = physToVirt as.root := (physToVirt_virtToPhys as.pml4).symm
  have hnil : Radix.descend (sub s.mem) as.root ([] : List (Fin 512)) = some as.root := by
    rw [Radix.descend_nil]
  -- the walk of `v` decides between the two outcomes
  have hstay : walk s.mem as v = none →
      Update s as (s, as) (FlatMap.wipe regionNum (walk s.mem as) v) := by
    intro hnone
    rw [FlatMap.wipe, hnone]
    exact Update.refl h
  simp only [unmapPageEntry]
  rw [hroot]
  rcases h.entry_cases hnil (by simp) (pml4e v) with ⟨hn, hsub4⟩ | ⟨pdpt, hy4, hsub4, hm4, h4⟩
  · rw [if_pos hn]
    exact ⟨_, rfl, hstay (by rw [walk, hsub4, Option.bind_none])⟩
  rw [if_neg (by simp [hy4]), hm4]
  rcases h.entry_cases h4 (by simp) (pdpe v) with ⟨hn, hsub3⟩ | ⟨pd, hy3, hsub3, hm3, h3⟩
  · rw [if_pos hn]
    exact ⟨_, rfl, hstay (by rw [walk, hsub4, Option.bind_some, hsub3, Option.bind_none])⟩
  rw [if_neg (by simp [hy3]), hm3]
  rcases h.entry_cases h3 (by simp) (pde v) with ⟨hn, hsub2⟩ | ⟨pt, hy2, hsub2, hm2, h2⟩
  · rw [if_pos hn]
    refine ⟨_, rfl, hstay ?_⟩
    rw [walk, hsub4, Option.bind_some, hsub3, Option.bind_some, hsub2, Option.bind_none]
  rw [if_neg (by simp [hy2]), hm2]
  have hleaf : walk s.mem as v = leaf s.mem pt (pte v) := by
    rw [walk, hsub4, Option.bind_some, hsub3, Option.bind_some, hsub2, Option.bind_some]
  cases hy1 : checkNotPresent (tableEntry s.mem (physToVirt pt) (pte v)) with
  | true =>
    rw [if_pos rfl]
    exact ⟨_, rfl, hstay (by simp only [hleaf, leaf, hy1, if_true])⟩
  | false =>
    rw [if_neg (by simp)]
    have hset := setLeaf_spec h h2 0
    generalize setTableEntry s.mem (physToVirt pt) (pte v) 0 = m at hset ⊢
    obtain ⟨hp1, hloc1, hdesc1, hwalk1⟩ := hset
    have hup1 : Update s as (⟨s.kmem, m⟩, as) _ := ⟨hp1, hloc1, funext hwalk1⟩
    have h4' := (hdesc1 [pml4e v] (by simp)).trans h4
    have h3' := (hdesc1 [pml4e v, pdpe v] (by simp)).trans h3
    have h2' := (hdesc1 (path v) (Nat.le_of_eq (path_length v))).trans h2
    have hpt : sub m pd (pde v) = some pt := sub_of_descend h3' h2'
    obtain ⟨r, hrun, hup2⟩ := unmapTables_spec hp1 h4' h3' hpt
    rw [hroot] at hrun
    refine ⟨r, hrun, ?_⟩
    have hall := hup1.trans hup2
    have hsome : (walk s.mem as v).isSome = true := by
      simp [hleaf, leaf, hy1]
    rw [FlatMap.wipe, if_pos hsome]
    refine ⟨hall.paged, hall.local', ?_⟩
    rw [hall.walk_eq]
    funext w
    by_cases hregion : regionNum w = regionNum v
    · rw [if_pos hregion, if_pos ((path_eq_iff v w).mpr hregion)]
    · have hpage : pageNum w ≠ pageNum v := fun he => hregion (by rw [regionNum, regionNum, he])
      rw [if_neg hregion, if_neg (fun he => hregion ((path_eq_iff v w).mp he)), hwalk1,
        FlatMap.assign, if_neg hpage]

/-- `vm_unmap` drops the regions of the mapped pages that its loop visits. -/
theorem unmapPages_spec {s : Machine} {as : AddrSpace} (h : Paged s as) (v n : UInt64) :
    ∃ r, unmapPages s as v n = some r ∧
      Update s as r (FlatMap.wipeAll regionNum (walk s.mem as)
        ((pages 0 (n * pageSize)).map fun i => v + i)) := by
  have hstep : ∀ t : Machine × AddrSpace, ∀ i ∈ pages 0 (n * pageSize), Paged t.1 t.2 →
      ∃ r, unmapPageEntry t.1 t.2 (v + i) = some r ∧ Paged r.1 r.2 := by
    intro t i _ ht
    obtain ⟨r, hr, hup⟩ := unmapPageEntry_spec ht (v + i)
    exact ⟨r, hr, hup.paged⟩
  obtain ⟨r, hrun, _⟩ := Folds.foldlM_returns hstep (s := (s, as)) h
  refine ⟨r, hrun, ?_⟩
  rw [FlatMap.wipeAll, List.foldl_map]
  refine Folds.foldlM_sim (fun t f t' i _ ht hi => ?_) (Update.refl h) hrun
  obtain ⟨r', hr', hup⟩ := unmapPageEntry_spec ht.paged (v + i)
  obtain rfl : r' = t' := Option.some.inj (hr'.symm.trans hi)
  rw [ht.walk_eq] at hup
  exact ht.trans hup

end Horizon64
