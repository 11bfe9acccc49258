import Horizon64.RamSpaces

/- The software translation.

   `vm_get_phys_addr` repeats the walk with the indices of `map_page_entry`, but it masks the
   entries with `~0x1FF` for their `~0xFFF`, its third test reads `pd[pte]`, and the table it
   then follows is the one of `pd[pde]`. On the page directory of an address there are four
   cases, by the presence of the two entries: both or none, and the result is that of the
   walk; only `pd[pde]`, and the result is 0 whatever the walk finds; only `pd[pte]`, and the
   code goes on through an entry that is not present. `vm_get_phys_addr_iff` is about any
   memory; in the tables of a run the masks make no difference (`run_third_test`). -/
namespace Horizon64
open Words Bytes

/-- The table that entry `i` of `table` refers to, with the mask of `vm_get_phys_addr`. -/
def lowSub (m : Memory) (t : UInt64) (i : Fin 512) : Option UInt64 :=
  let entry := tableEntry m (physToVirt t) i
  if checkNotPresent entry then none else some (entry &&& ~~~0x1FF)

/-- The page directory of `v`, when the two levels above it are present. -/
def pageDirectory (m : Memory) (as : AddrSpace) (v : UInt64) : Option UInt64 :=
  (lowSub m as.root (pml4e v)).bind fun pdpt => lowSub m pdpt (pdpe v)

/-- The leaf of `v` in the tables that these masks give. -/
def lowWalk (m : Memory) (as : AddrSpace) (v : UInt64) : Option UInt64 :=
  (pageDirectory m as v).bind fun pd => (lowSub m pd (pde v)).bind fun pt => leaf m pt (pte v)

/-- The frame address in a leaf, and `NULL` for no leaf. -/
def frameOf : Option UInt64 → UInt64
  | none => 0
  | some entry => entry &&& 0xFFFFFFFFFFFFF000

/-- The translation of `v` is that of the walk, and follows present entries only. -/
def Translates (m : Memory) (as : AddrSpace) (v : UInt64) : Prop :=
  (vmGetPhysAddr m as v).1 = frameOf (walk m as v) ∧
    ∀ entry ∈ (vmGetPhysAddr m as v).2, checkNotPresent entry = false

/-- Testing `pd[pte]` does no harm: it is present, `pd[pde]` is too, and its page table has the
    frame of the walk; or it is not present, and `v` has no frame to miss. -/
def ThirdTest (m : Memory) (as : AddrSpace) (v : UInt64) : Prop :=
  (∃ pd, pageDirectory m as v = some pd ∧ (lowSub m pd (pte v)).isSome ∧
    (lowSub m pd (pde v)).isSome ∧ frameOf (lowWalk m as v) = frameOf (walk m as v)) ∨
  ((∀ pd, pageDirectory m as v = some pd → lowSub m pd (pte v) = none) ∧
    frameOf (walk m as v) = 0)

theorem lowSub_none {m : Memory} {t : UInt64} {i : Fin 512}
    (h : checkNotPresent (tableEntry m (physToVirt t) i) = true) : lowSub m t i = none := if_pos h

theorem lowSub_some {m : Memory} {t : UInt64} {i : Fin 512}
    (h : checkNotPresent (tableEntry m (physToVirt t) i) = false) :
    lowSub m t i = some (tableEntry m (physToVirt t) i &&& ~~~0x1FF) :=
  if_neg (by rw [h]; exact Bool.false_ne_true)

theorem frameOf_leaf (m : Memory) (pt : UInt64) (i : Fin 512) :
    frameOf (leaf m pt i) =
      if checkNotPresent (tableEntry m (physToVirt pt) i) then 0
      else tableEntry m (physToVirt pt) i &&& 0xFFFFFFFFFFFFF000 := by
  rw [leaf]
  split <;> rfl

section Steps
variable {m : Memory} {as : AddrSpace} {v pd : UInt64}

theorem directory_entries (hpd : pageDirectory m as v = some pd) :
    ∃ e4 e3 : UInt64, e4 = tableEntry m as.pml4 (pml4e v) ∧ checkNotPresent e4 = false ∧
      e3 = tableEntry m (physToVirt (e4 &&& ~~~0x1FF)) (pdpe v) ∧ checkNotPresent e3 = false ∧
      pd = e3 &&& ~~~0x1FF := by
  have hroot : as.pml4 = physToVirt as.root := (physToVirt_virtToPhys as.pml4).symm
  rw [hroot]
  obtain ⟨pdpt, hpdpt, hpd⟩ := Option.bind_eq_some_iff.mp hpd
  cases h4 : checkNotPresent (tableEntry m (physToVirt as.root) (pml4e v)) with
  | true =>
    rw [lowSub_none h4] at hpdpt
    cases hpdpt
  | false =>
    rw [lowSub_some h4, Option.some.injEq] at hpdpt
    cases h3 : checkNotPresent (tableEntry m (physToVirt pdpt) (pdpe v)) with
    | true =>
      rw [lowSub_none h3] at hpd
      cases hpd
    | false =>
      rw [lowSub_some h3, Option.some.injEq] at hpd
      rw [← hpdpt] at h3 hpd
      exact ⟨_, _, rfl, h4, rfl, h3, hpd.symm⟩

/-- Without a page directory whose `pd[pte]` is present, the result is `NULL`. -/
theorem vmGetPhysAddr_null
    (hnone : ∀ pd, pageDirectory m as v = some pd → lowSub m pd (pte v) = none) :
    ∃ followed, vmGetPhysAddr m as v = (0, followed) ∧
      ∀ entry ∈ followed, checkNotPresent entry = false := by
  have hroot : as.pml4 = physToVirt as.root := (physToVirt_virtToPhys as.pml4).symm
  rw [vmGetPhysAddr]
  dsimp only
  cases h4 : checkNotPresent (tableEntry m as.pml4 (pml4e v)) with
  | true =>
    rw [if_pos rfl]
    exact ⟨_, rfl, fun _ hmem => absurd hmem List.not_mem_nil⟩
  | false =>
    rw [if_neg Bool.false_ne_true]
    cases h3 : checkNotPresent (tableEntry m (physToVirt (tableEntry m as.pml4 (pml4e v) &&& ~~~0x1FF))
      (pdpe v)) with
    | true =>
      rw [if_pos rfl]
      refine ⟨_, rfl, fun entry hmem => ?_⟩
      rw [List.mem_singleton.mp hmem]
      exact h4
    | false =>
      rw [if_neg Bool.false_ne_true]
      have hdirectory : pageDirectory m as v = some (tableEntry m
          (physToVirt (tableEntry m as.pml4 (pml4e v) &&& ~~~0x1FF)) (pdpe v) &&& ~~~0x1FF) := by
        rw [pageDirectory, lowSub_some (hroot ▸ h4), Option.bind_some, ← hroot, lowSub_some h3]
      have hthird := hnone _ hdirectory
      rw [lowSub] at hthird
      split at hthird
      · next ht =>
        rw [if_pos ht]
        refine ⟨_, rfl, fun entry hmem => ?_⟩
        rcases List.mem_pair.mp hmem with rfl | rfl
        · exact h4
        · exact h3
      · cases hthird

/-- With one, the code goes on through `pd[pde]`. -/
theorem vmGetPhysAddr_directory (hpd : pageDirectory m as v = some pd)
    (hsome : (lowSub m pd (pte v)).isSome) :
    ∃ followed, vmGetPhysAddr m as v =
        (frameOf (leaf m (tableEntry m (physToVirt pd) (pde v) &&& ~~~0x1FF) (pte v)),
          followed ++ [tableEntry m (physToVirt pd) (pde v)]) ∧
      ∀ entry ∈ followed, checkNotPresent entry = false := by
  obtain ⟨e4, e3, he4, h4, he3, h3, rfl⟩ := directory_entries hpd
  have hthird : ¬ checkNotPresent (tableEntry m (physToVirt (e3 &&& ~~~0x1FF)) (pte v)) = true := by
    intro ht
    rw [lowSub_none ht] at hsome
    cases hsome
  refine ⟨[e4, e3], ?_, fun entry hmem => ?_⟩
  · rw [vmGetPhysAddr]
    dsimp only
    rw [← he4, h4, if_neg Bool.false_ne_true, ← he3, h3, if_neg Bool.false_ne_true, if_neg hthird,
      frameOf_leaf]
    split <;> rfl
  · rcases List.mem_pair.mp hmem with rfl | rfl
    · exact h4
    · exact h3

end Steps

/-- In any memory, `vm_get_phys_addr` gives the frame that the walk finds, through present
    entries only, exactly for the addresses where the third test does no harm. -/
theorem vm_get_phys_addr_iff (m : Memory) (as : AddrSpace) (v : UInt64) :
    Translates m as v ↔ ThirdTest m as v := by
  rw [Translates]
  by_cases hex : ∃ pd, pageDirectory m as v = some pd ∧ (lowSub m pd (pte v)).isSome
  · obtain ⟨pd, hpd, hsome⟩ := hex
    obtain ⟨followed, heq, hfollowed⟩ := vmGetPhysAddr_directory hpd hsome
    have hthird : ThirdTest m as v ↔
        (lowSub m pd (pde v)).isSome ∧ frameOf (lowWalk m as v) = frameOf (walk m as v) := by
      refine ⟨fun ht => ?_, fun ht => Or.inl ⟨pd, hpd, hsome, ht⟩⟩
      rcases ht with ⟨pd', hpd', -, ht⟩ | ⟨hnone, -⟩
      · obtain rfl : pd = pd' := Option.some.inj (hpd.symm.trans hpd')
        exact ht
      · rw [hnone pd hpd] at hsome
        cases hsome
    rw [hthird, heq, lowWalk, hpd, Option.bind_some]
    cases h2 : checkNotPresent (tableEntry m (physToVirt pd) (pde v)) with
    | true =>
      -- an entry that is not present is followed
      refine ⟨fun ht => ?_, fun ht => ?_⟩
      · have hlast := ht.2 _ (List.mem_append_right _ List.mem_cons_self)
        rw [h2] at hlast
        cases hlast
      · rw [lowSub_none h2] at ht
        cases ht.1
    | false =>
      rw [lowSub_some h2, Option.bind_some]
      refine ⟨fun ht => ⟨rfl, ht.1⟩, fun ht => ⟨ht.2, fun entry hmem => ?_⟩⟩
      rcases List.mem_append.mp hmem with hmem | hmem
      · exact hfollowed entry hmem
      · rw [List.mem_singleton.mp hmem]
        exact h2
  · have hnone : ∀ pd, pageDirectory m as v = some pd → lowSub m pd (pte v) = none :=
      fun pd hpd => Option.not_isSome_iff_eq_none.mp fun hsome => hex ⟨pd, hpd, hsome⟩
    obtain ⟨followed, heq, hfollowed⟩ := vmGetPhysAddr_null hnone
    rw [heq]
    refine ⟨fun ht => Or.inr ⟨hnone, ht.1.symm⟩, fun ht => ?_⟩
    rcases ht with ⟨pd, hpd, hsome, -⟩ | ⟨-, hzero⟩
    · exact absurd ⟨pd, hpd, hsome⟩ hex
    · exact ⟨hzero.symm, hfollowed⟩

/-! Tables of a run. -/

/-- In the tables of an address space the masks make no difference. -/
theorem Paged.lowSub_eq {s : Machine} {as : AddrSpace} (h : Paged s as) {p : List (Fin 512)}
    {t : UInt64} (ht : Radix.descend (sub s.mem) as.root p = some t) (hlen : p.length < 3)
    (i : Fin 512) : lowSub s.mem t i = sub s.mem t i := by
  cases hpres : checkNotPresent (tableEntry s.mem (physToVirt t) i) with
  | true => rw [lowSub_none hpres, sub_of_not_present hpres]
  | false => rw [lowSub_some hpres, sub_of_present hpres, (h.link p t hlen ht i).masks hpres]

theorem Paged.pageDirectory_eq {s : Machine} {as : AddrSpace} (h : Paged s as) (v : UInt64) :
    pageDirectory s.mem as v = Radix.descend (sub s.mem) as.root [pml4e v, pdpe v] := by
  have hnil : Radix.descend (sub s.mem) as.root ([] : List (Fin 512)) = some as.root :=
    Radix.descend_nil _
  simp only [Radix.descend, Option.bind_fun_some]
  rw [pageDirectory, h.lowSub_eq hnil (by simp)]
  refine Option.bind_congr fun pdpt hpdpt => h.lowSub_eq (p := [pml4e v]) ?_ (by simp) _
  rw [Radix.descend, hpdpt, Option.bind_some, Radix.descend]

theorem Paged.lowWalk_eq {s : Machine} {as : AddrSpace} (h : Paged s as) (v : UInt64) :
    lowWalk s.mem as v = walk s.mem as v := by
  have hpath : path v = [pml4e v, pdpe v] ++ [pde v] := rfl
  rw [lowWalk, h.pageDirectory_eq, walk_eq, hpath, Radix.descend_snoc, Option.bind_assoc]
  refine Option.bind_congr fun pd hpd => ?_
  rw [h.lowSub_eq hpd (by simp)]

/-- In them, the third test is all there is to the condition. -/
theorem Paged.third_test {s : Machine} {as : AddrSpace} (h : Paged s as) (v : UInt64) :
    ThirdTest s.mem as v ↔
      ∀ pd, Radix.descend (sub s.mem) as.root [pml4e v, pdpe v] = some pd →
        match sub s.mem pd (pte v) with
        | some _ => (sub s.mem pd (pde v)).isSome
        | none => frameOf (walk s.mem as v) = 0 := by
  rw [ThirdTest, h.pageDirectory_eq, h.lowWalk_eq]
  have hlow : ∀ {pd}, Radix.descend (sub s.mem) as.root [pml4e v, pdpe v] = some pd →
      ∀ i, lowSub s.mem pd i = sub s.mem pd i := fun hpd => h.lowSub_eq hpd (by simp)
  cases hpd : Radix.descend (sub s.mem) as.root [pml4e v, pdpe v] with
  | none =>
    have hwalk : walk s.mem as v = none := by
      rw [← h.lowWalk_eq, lowWalk, h.pageDirectory_eq, hpd, Option.bind_none]
    rw [hwalk]
    refine ⟨fun _ pd hsome => ?_, fun _ => Or.inr ⟨fun pd hsome => ?_, rfl⟩⟩
    · cases hsome
    · cases hsome
  | some pd =>
    simp only [Option.some.injEq, exists_eq_left', forall_eq', hlow hpd, and_true]
    cases hthird : sub s.mem pd (pte v) with
    | none => simp
    | some pt => simp

theorem Paged.paths_le {s : Machine} {as : AddrSpace} (h : Paged s as) {l : List (List (Fin 512))}
    (hnodup : l.Nodup)
    (hl : ∀ p ∈ l, p.length ≤ 3 ∧ (Radix.descend (sub s.mem) as.root p).isSome) :
    l.length ≤ as.frames.length := by
  let frame := fun p => (Radix.descend (sub s.mem) as.root p).getD 0
  have hframe : ∀ p ∈ l, Radix.descend (sub s.mem) as.root p = some (frame p) := by
    intro p hp
    obtain ⟨f, hf⟩ := Option.isSome_iff_exists.mp (hl p hp).2
    show _ = some ((Radix.descend (sub s.mem) as.root p).getD 0)
    rw [hf, Option.getD_some]
  have hmap : (l.map frame).Nodup := by
    refine (List.nodup_map_iff_inj_on hnodup).mpr fun p hp q hq heq => ?_
    exact h.tree p q (frame p) (hl p hp).1 (hl q hq).1 (hframe p hp) (heq ▸ hframe q hq)
  have hsub : l.map frame ⊆ as.frames := by
    intro f hf
    obtain ⟨p, hp, rfl⟩ := List.mem_map.mp hf
    exact h.mem_frames (hl p hp).1 (hframe p hp)
  calc l.length = (l.map frame).length := (List.length_map frame).symm
    _ ≤ as.frames.length := (List.subperm_of_subset hmap hsub).length_le

/-- With three tables below the PML4, the page directory of a page has one entry. -/
theorem Paged.only_entry {s : Machine} {as : AddrSpace} (h : Paged s as)
    (hlen : as.memoryList.length ≤ 3) {v t : UInt64}
    (ht : Radix.descend (sub s.mem) as.root (path v) = some t) {j : Fin 512} (hj : j ≠ pde v) :
    ∃ pd, pageDirectory s.mem as v = some pd ∧ sub s.mem pd j = none := by
  simp only [path, Radix.descend, Option.bind_eq_some_iff, Option.some.injEq] at ht
  obtain ⟨pdpt, h1, pd, h2, pt, h3, rfl⟩ := ht
  have hpd : Radix.descend (sub s.mem) as.root [pml4e v, pdpe v] = some pd := by
    rw [Radix.descend, h1, Option.bind_some, Radix.descend, h2, Option.bind_some, Radix.descend]
  refine ⟨pd, (h.pageDirectory_eq v).trans hpd, ?_⟩
  cases hu : sub s.mem pd j with
  | none => rfl
  | some u =>
    -- a second entry would make five tables
    have hnodup : [[], [pml4e v], [pml4e v, pdpe v], [pml4e v, pdpe v, pde v],
        [pml4e v, pdpe v, j]].Nodup := by
      simp [hj.symm]
    have hsnoc : ∀ {p : List (Fin 512)} {t u : UInt64} {i : Fin 512},
        Radix.descend (sub s.mem) as.root p = some t → sub s.mem t i = some u →
        Radix.descend (sub s.mem) as.root (p ++ [i]) = some u := by
      intro p t u i hp hi
      rw [Radix.descend_snoc, hp, Option.bind_some, hi]
    have hd0 : Radix.descend (sub s.mem) as.root ([] : List (Fin 512)) = some as.root := by
      rw [Radix.descend]
    have hd1 := hsnoc hd0 h1
    have hd2 := hsnoc hd1 h2
    have hfive := h.paths_le hnodup fun p hp => by
      simp only [List.mem_cons, List.not_mem_nil, or_false] at hp
      rcases hp with rfl | rfl | rfl | rfl | rfl
      · exact ⟨by simp, Option.isSome_of_mem hd0⟩
      · exact ⟨by simp, Option.isSome_of_mem hd1⟩
      · exact ⟨by simp, Option.isSome_of_mem hd2⟩
      · exact ⟨by simp, Option.isSome_of_mem (hsnoc hd2 h3)⟩
      · exact ⟨by simp, Option.isSome_of_mem (hsnoc hd2 hu)⟩
    have hframes : as.frames.length = as.memoryList.length + 1 := List.length_cons
    simp only [List.length_cons, List.length_nil] at hfive
    omega

theorem run_third_test {func : Nat → UInt8} {c₀ : Ram} {as₀ : Space Vec} {r : Ram × Space Vec}
    (hblank : c₀.Blank as₀) (hlist : as₀.memoryList = vectorNew)
    (hlim : c₀.kmem.physicalLimit.toNat + 4096 ≤ 2 ^ 47)
    (hrun : Relation.ReflTransGen (SpaceStep (memoryList func)) (c₀, as₀) r) (v : UInt64) :
    ThirdTest r.1.mem r.2.tables v ↔
      ∀ pd, Radix.descend (sub r.1.mem) r.2.tables.root [pml4e v, pdpe v] = some pd →
        match sub r.1.mem pd (pte v) with
        | some _ => (sub r.1.mem pd (pde v)).isSome
        | none => frameOf (walk r.1.mem r.2.tables v) = 0 := by
  obtain ⟨l, hstands⟩ := spaceRun_stands (memoryList_laws func) (r := (c₀, as₀))
    (hblank.stands_vector hlist hlim) hrun
  obtain ⟨k, hpaged, -⟩ := hstands.paged
  exact hpaged.third_test v

/-- Page 1 of the first region: `pd[1]` is not present, and `vm_get_phys_addr` is not
    the walk. -/
theorem vm_get_phys_addr_misses :
    ∃ r, fencedMachine.ram.Blank emptySpace ∧
      Relation.ReflTransGen (SpaceStep (memoryList fun _ => 0)) (fencedMachine.ram, emptySpace) r ∧
      walk r.1.mem r.2.tables 0x1000 = some 0x5003 ∧ ¬ Translates r.1.mem r.2.tables 0x1000 := by
  have hpages : pages 0 (1 * pageSize) = [0] := by decide +kernel
  have hregion : ∀ i ∈ pages 0 (1 * pageSize), regionNum (0x1000 + i) = regionNum 0x1000 := by
    rw [hpages]
    intro i hi
    rw [List.mem_singleton.mp hi]
    rfl
  obtain ⟨r, hr, -, hroom⟩ := emptySpace_stands.map_returns (memoryList_laws fun _ => 0)
    (memoryList_takes fun _ => 0) 0x5000 vmDefault hregion (j := 125) (n := 0)
    ⟨by decide, Or.inl rfl⟩ (((stock_ram fencedMachine).mpr fencedPages_stock).mono (by decide))
  obtain ⟨⟨l, hstands⟩, hwalk⟩ := emptySpace_stands.map (memoryList_laws fun _ => 0) hr
  have hleaf := (@mapUpdates_apply (walk fencedMachine.ram.mem emptySpace.tables) 0x1000 0x5000 1
    vmDefault (by decide) (by decide) (by decide) (by decide) (by decide)).1 0 (by decide)
  rw [← hwalk] at hleaf
  have hat : walk r.1.mem r.2.tables 0x1000 = some 0x5003 := hleaf
  -- three tables at most, so the page directory has one entry
  have hlength : l.length ≤ 3 := by
    obtain ⟨s, k₀, -, -, ⟨-, hlist, -⟩, -⟩ := hstands
    have hlen : r.2.memoryList.length.toNat = l.length := (memoryList_laws fun _ => 0).length hlist
    have hbytes : (r.2.memoryList.length.toNat + 125) * 8 * 4 ≤ 4096 := hroom.1
    omega
  obtain ⟨k, hpaged, -⟩ := hstands.paged
  obtain ⟨t, ht, -⟩ : ∃ t, Radix.descend (sub r.1.mem) r.2.tables.root (path 0x1000) = some t ∧
      leaf r.1.mem t (pte 0x1000) = some 0x5003 := by
    rw [walk_eq] at hat
    exact Option.bind_eq_some_iff.mp hat
  obtain ⟨pd, hpd, hnone⟩ := @Paged.only_entry _ _ hpaged hlength 0x1000 t ht (pte 0x1000) (by decide)
  have hlow : ∀ pd', pageDirectory r.1.mem r.2.tables 0x1000 = some pd' →
      lowSub r.1.mem pd' (pte 0x1000) = none := by
    intro pd' hpd'
    obtain rfl : pd = pd' := Option.some.inj (hpd.symm.trans hpd')
    rw [hpaged.pageDirectory_eq] at hpd
    exact (hpaged.lowSub_eq hpd (by simp) _).trans hnone
  obtain ⟨followed, hnull, -⟩ := vmGetPhysAddr_null hlow
  refine ⟨r, blank_fenced vectorNew, .single (.map _ _ _ _ hr), hat, fun ht => ?_⟩
  have hframe : (0 : UInt64) = frameOf (some 0x5003) := by
    have htrans := ht.1
    rw [hnull, hat] at htrans
    exact htrans
  exact absurd hframe (by decide)

end Horizon64
