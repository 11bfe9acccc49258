import Horizon64.Keeper
import Horizon64.Lib.Ends

/- The page tables of `sys/mmu.c`, with the bitmap and the list of tables in memory.

   `Paging` has the tables alone. Here `map_page_entry` and `unmap_page_entry` do all that the
   source does: the bits that `pm_get` and `pm_free` change are bytes of memory, which a table
   could hold, and `memory_list` is what a `Keeper` makes of it.

   1. The functions, over any keeper.
   2. `spaceOwner`: the tables and their list, as something that holds pages. Behind the fence
      nobody but this code writes there.
   3. One lemma for each function. Its changes are those of the function of `Paging`, followed
      by what the keeper does with the list. -/
namespace Horizon64
open Words Bytes Isolation

/-- `ADDR_SPACE`, without its lock. -/
structure Space (σ : Type) where
  pml4 : UInt64
  memoryList : σ

variable {σ : Type}

/-- The tables of the space. -/
def Space.tables (as : Space σ) : AddrSpace := ⟨as.pml4, []⟩

namespace Ram
variable (K : Keeper UInt64 σ)

/-- The table below entry `i` of `table`, made when the entry is not present; `line` is that of
    the `vector_append`. -/
def nextTable (c : Ram) (as : Space σ) (table : UInt64) (i : Nat) (line : UInt64) :
    Option (Ram × Space σ × UInt64) :=
  let entry := tableEntry c.mem table i
  if checkNotPresent entry then
    match c.pmGet defaultPages 0 with
    | none => none
    | some (buffer, c) =>
      if buffer = 0 then none
      else
        let next := physToVirt buffer
        let m := memset c.mem next 0 (pageSize * defaultPages)
        let m := setTableEntry m table i (makeTableEntry (virtToPhys next) vmUsermode)
        (K.append ⟨c.kmem, m⟩ as.memoryList (virtToPhys next) line).map fun (c, l) =>
          (c, { as with memoryList := l }, next)
  else some (c, as, physToVirt (entry &&& ~~~0xFFF))

/-- `map_page_entry`; `none` where it halts, out of memory. -/
def mapPageEntry (c : Ram) (as : Space σ) (virtAddr physAddr flags : UInt64) :
    Option (Ram × Space σ) := do
  let (c, as, pdpt) ← c.nextTable K as as.pml4 (pml4e virtAddr) 263
  let (c, as, pd) ← c.nextTable K as pdpt (pdpe virtAddr) 276
  let (c, as, pt) ← c.nextTable K as pd (pde virtAddr) 289
  let entry := makeTableEntry (physAddr &&& ~~~0xFFF) flags
  return (⟨c.kmem, setTableEntry c.mem pt (pte virtAddr) entry⟩, as)

/-- Take `table` out of entry `i` of `parent`, free it, and erase it from the list; `none` where
    it halts. -/
def dropTable (c : Ram) (as : Space σ) (parent : UInt64) (i : Nat) (table : UInt64) :
    Option (Ram × Space σ) :=
  match (⟨c.kmem, setTableEntry c.mem parent i 0⟩ : Ram).pmFree (virtToPhys table) defaultPages with
  | (.sysErr, _) => none
  | (.sysOk, c) =>
    (K.eraseFirst c as.memoryList fun frame => frame = virtToPhys table).map fun (c, l) =>
      (c, { as with memoryList := l })

/-- The part of `unmap_page_entry` after the leaf is cleared. -/
def unmapTables (c : Ram) (as : Space σ) (virtAddr pml4 pdpt pd pt : UInt64) :
    Option (Ram × Space σ) := do
  let (c, as) ← c.dropTable K as pd (pde virtAddr) pt
  if !tableEmpty c.mem pd then return (c, as)
  let (c, as) ← c.dropTable K as pdpt (pdpe virtAddr) pd
  if !tableEmpty c.mem pdpt then return (c, as)
  c.dropTable K as pml4 (pml4e virtAddr) pdpt

/-- `unmap_page_entry`; `none` where it halts. -/
def unmapPageEntry (c : Ram) (as : Space σ) (virtAddr : UInt64) : Option (Ram × Space σ) :=
  let pml4 := as.pml4
  let e4 := tableEntry c.mem pml4 (pml4e virtAddr)
  if checkNotPresent e4 then some (c, as)
  else
    let pdpt := physToVirt (e4 &&& ~~~0x1FF)
    let e3 := tableEntry c.mem pdpt (pdpe virtAddr)
    if checkNotPresent e3 then some (c, as)
    else
      let pd := physToVirt (e3 &&& ~~~0x1FF)
      let e2 := tableEntry c.mem pd (pde virtAddr)
      if checkNotPresent e2 then some (c, as)
      else
        let pt := physToVirt (e2 &&& ~~~0x1FF)
        if checkNotPresent (tableEntry c.mem pt (pte virtAddr)) then some (c, as)
        else
          let c : Ram := ⟨c.kmem, setTableEntry c.mem pt (pte virtAddr) 0⟩
          c.unmapTables K as virtAddr pml4 pdpt pd pt

/-- The loop of `vm_map`. -/
def mapPages (c : Ram) (as : Space σ) (virtAddr physAddr n flags : UInt64) :
    Option (Ram × Space σ) :=
  (pages 0 (n * pageSize)).foldlM
    (fun r i => r.1.mapPageEntry K r.2 (virtAddr + i) (physAddr + i) flags) (c, as)

/-- The loop of `vm_unmap`. -/
def unmapPages (c : Ram) (as : Space σ) (virtAddr n : UInt64) : Option (Ram × Space σ) :=
  (pages 0 (n * pageSize)).foldlM (fun r i => r.1.unmapPageEntry K r.2 (virtAddr + i)) (c, as)

theorem mapPages_one (c : Ram) (as : Space σ) (v physAddr flags : UInt64) :
    c.mapPages K as v physAddr 1 flags = c.mapPageEntry K as v physAddr flags := by
  rw [mapPages, pages_single, List.foldlM_cons, UInt64.add_zero, UInt64.add_zero]
  exact bind_pure _

theorem unmapPages_one (c : Ram) (as : Space σ) (v : UInt64) :
    c.unmapPages K as v 1 = c.unmapPageEntry K as v := by
  rw [unmapPages, pages_single, List.foldlM_cons, UInt64.add_zero]
  exact bind_pure _

end Ram

/-! What a space holds. -/

/-- The tables, and the list that shows their frames. -/
def spaceOwner (R : Owner machinePages (σ × List UInt64)) :
    Owner machinePages (Space σ × List UInt64) :=
  (tablesOwner.star R).comap fun x => (⟨x.1.pml4, x.2⟩, (x.1.memoryList, x.2))

/-- `r` is what became of the space by writes to its own pages, with the pages mapped as in
    `f`. -/
def SpaceUpdate (R : Owner machinePages (σ × List UInt64)) (s : Machine) (as : Space σ)
    (l : List UInt64) (r : Ram × Space σ) (f : UInt64 → Option UInt64) : Prop :=
  ∃ (s' : Machine) (v : σ) (l' : List UInt64), r = (s'.ram, ⟨as.pml4, v⟩) ∧
    Framed (spaceOwner R) s (as, l) s' (⟨as.pml4, v⟩, l') ∧ walk s'.mem as.tables = f

theorem SpaceUpdate.trans {R : Owner machinePages (σ × List UInt64)} {s s' : Machine}
    {as as' : Space σ} {l l' : List UInt64} {r : Ram × Space σ} {f : UInt64 → Option UInt64}
    (h : SpaceUpdate R s' as' l' r f) (hframed : Framed (spaceOwner R) s (as, l) s' (as', l'))
    (hpml4 : as'.pml4 = as.pml4) : SpaceUpdate R s as l r f := by
  obtain ⟨pml4, v⟩ := as'
  obtain rfl : pml4 = as.pml4 := hpml4
  obtain ⟨s'', w, l'', rfl, hframed', hwalk⟩ := h
  exact ⟨s'', w, l'', rfl, hframed.trans hframed', hwalk⟩

section Tables
variable {s s' : Machine} {as : AddrSpace} {k₀ : KernelMemInfo}

/-- What another owner does leaves the tables as they are. -/
theorem tables_kept {L : Type} {R : Owner machinePages L} {y y' : L} (hframed : Framed R s y s' y')
    (h : (tablesOwner.star R).inv s (as, y)) :
    Paged s' as ∧ walk s'.mem as = walk s.mem as ∧ ∀ q : List (Fin 512), q.length ≤ 3 →
      Radix.descend (sub s'.mem) as.root q = Radix.descend (sub s.mem) as.root q := by
  obtain ⟨hpaged, hother, hapart⟩ := h
  have hheld : tablesOwner.inv s as := hpaged
  obtain ⟨-, hkeep⟩ := hframed.other hheld hapart
  have hlimit : s'.kmem.physicalLimit = s.kmem.physicalLimit := congrArg Prod.fst hframed.const
  have hused : ∀ t ∈ as.frames, ∀ p, TablePage t p → s'.kmem.Used p :=
    fun t ht p hp => (hkeep p ⟨t, ht, hp⟩).1
  have hmem : ∀ t ∈ as.frames, ∀ x, (tableAt t).Holds x → s'.mem x = s.mem x :=
    fun t ht x hx => (hkeep _ ⟨t, ht, hx⟩).2.2 x rfl
  replace hpaged : Paged s as := hpaged
  obtain ⟨hpaged', hwalk⟩ := hpaged.of_same hlimit hused hmem
  refine ⟨hpaged', funext hwalk, (hpaged.of_upper hlimit hused fun q t hq ht i hi => ?_).2⟩
  have hframe := hpaged.mem_frames (Nat.le_of_lt hq) ht
  exact tableEntry_congr (hpaged.whole t hframe) hi (hmem t hframe)

variable (h : (fence.star tablesOwner).inv s (k₀, as)) {t : UInt64} (ht : t ∈ as.frames)
include h ht

theorem tables_clear : (tableAt t).Clear s.kmem :=
  fun p hp hkept => h.2.2 p ((fence_kept h.1 p).mp hkept) ⟨t, ht, hp⟩

theorem ram_tableEntry {i : Nat} (hi : i < 4096) :
    tableEntry s.ram.mem (physToVirt t) i = tableEntry s.mem (physToVirt t) i := by
  have hpaged : Paged s as := h.2.1
  exact tableEntry_congr (hpaged.whole t ht) hi fun x hx => s.ram_mem ((tables_clear h ht).off hx)

theorem ram_tableEmpty :
    tableEmpty s.ram.mem (physToVirt t) = tableEmpty s.mem (physToVirt t) := by
  rw [tableEmpty, tableEmpty, Bool.eq_iff_iff, List.all_eq_true, List.all_eq_true]
  refine forall₂_congr fun i hi => ?_
  rw [ram_tableEntry h ht (List.mem_range.mp hi)]

theorem acts_setTableEntry {i : Nat} (hi : i < 4096) (e : UInt64) :
    Splice.Acts (tableAt t).Holds (setTableEntry · (physToVirt t) i e) := by
  have hpaged : Paged s as := h.2.1
  exact acts_off (hpaged.whole t ht) (entry_room hi) e

theorem ram_setTableEntry {i : Nat} (hi : i < 4096) (e : UInt64) :
    (⟨s.kmem, setTableEntry s.mem (physToVirt t) i e⟩ : Machine).ram =
      ⟨s.ram.kmem, setTableEntry s.ram.mem (physToVirt t) i e⟩ :=
  ram_acts (acts_setTableEntry h ht hi e) s fun _ hx => (tables_clear h ht).off hx

end Tables

theorem acts_clearTable {t : UInt64} (hw : (tableAt t).Whole) :
    Splice.Acts (tableAt t).Holds (memset · (physToVirt t) 0 (pageSize * defaultPages)) := by
  have hlen : (0 : UInt64).toNat + (pageSize * defaultPages).toNat ≤
      (tableAt t).n.toNat * 4096 := show 0 + 32768 ≤ 8 * 4096 by decide
  have h := acts_clear hw hlen 0
  rw [UInt64.add_zero] at h
  exact h

/-! `map_page_entry`. -/

section Map
variable {K : Keeper UInt64 σ} {R : Owner machinePages (σ × List UInt64)} (hK : K.Laws R)
  {s : Machine} {k₀ : KernelMemInfo} {as : Space σ} {l : List UInt64}
  (h : (fence.star (spaceOwner R)).inv s (k₀, (as, l)))
include hK h

omit hK in
theorem freshTable_ram {p : List (Fin 512)} {t : UInt64}
    (hp : Radix.descend (sub s.mem) as.tables.root p = some t) (hlen : p.length < 3) {i : Fin 512}
    (hnot : checkNotPresent (tableEntry s.mem (physToVirt t) i) = true) {f : UInt64}
    {k : KernelMemInfo} (hget : pmGet s.kmem defaultPages 0 = some (f, k)) :
    ∃ m : Memory, (⟨k, m⟩ : Machine).ram = ⟨(⟨k, s.mem⟩ : Machine).ram.kmem, setTableEntry (memset
        (⟨k, s.mem⟩ : Machine).ram.mem (physToVirt f) 0 (pageSize * defaultPages)) (physToVirt t) i
          (makeTableEntry f vmUsermode)⟩ ∧
      Framed (tablesOwner.star R) s (⟨as.pml4, l⟩, (as.memoryList, l)) ⟨k, m⟩
        (⟨as.pml4, l ++ [f]⟩, (as.memoryList, l)) ∧
      (∀ q : List (Fin 512), q.length ≤ 3 → Radix.descend (sub m) as.tables.root q =
        if q = p ++ [i] then some f else Radix.descend (sub s.mem) as.tables.root q) ∧
      walk m as.tables = walk s.mem as.tables := by
  obtain ⟨hfence, hspace, hkept⟩ : (fence.star (tablesOwner.star R)).inv s
    (k₀, (⟨as.pml4, l⟩, (as.memoryList, l))) := h
  have htables : (fence.star tablesOwner).inv s (k₀, ⟨as.pml4, l⟩) := star_left ⟨hfence, hspace, hkept⟩
  have hpaged : Paged s ⟨as.pml4, l⟩ := hspace.1
  have ht : t ∈ (⟨as.pml4, l⟩ : AddrSpace).frames := hpaged.mem_frames (Nat.le_of_lt hlen) hp
  obtain ⟨-, hmod, hend, hfree, hbits, -, hlimit, hbitmap⟩ := pmGet_block hget hpaged.limit
  obtain ⟨m, hm⟩ : ∃ m, m = setTableEntry (memset s.mem (physToVirt f) 0 (pageSize * defaultPages))
    (physToVirt t) i (makeTableEntry f vmUsermode) := ⟨_, rfl⟩
  obtain ⟨hpaged', hlocal, hdesc, hwalk⟩ :=
    newTable_spec hpaged hp hlen (sub_of_not_present hnot) hget hm
  refine ⟨m, ?_, Framed.left (space_framed hlocal hpaged') hspace, hdesc,
    funext hwalk⟩
  -- the writes are in the new table and in the old one
  have hkeptk := @KernelMemInfo.kept_congr s.kmem k hlimit hbitmap
  have hfclear : (tableAt f).Clear s.kmem := clear_of_free (fence_fenced hfence) hfree
  have hboth := ((acts_setTableEntry htables ht (index_lt i) (makeTableEntry f vmUsermode)).mono
    (T := fun x => (tableAt f).Holds x ∨ (tableAt t).Holds x) fun _ hx => Or.inr hx).comp
      ((acts_clearTable ⟨hmod, hend⟩).mono fun _ hx => Or.inl hx)
  rw [hm]
  refine ram_acts hboth ⟨k, s.mem⟩ fun x hx hin => ?_
  have hpage : s.kmem.Kept (pageOf (virtToPhys x)) := (hkeptk _).mp (Or.inr ⟨x, hin, rfl⟩)
  exact hx.elim (fun hx => hfclear _ hx hpage) fun hx => tables_clear htables ht _ hx hpage

theorem newTable_ram {p : List (Fin 512)} {t : UInt64}
    (hp : Radix.descend (sub s.mem) as.tables.root p = some t) (hlen : p.length < 3) {i : Fin 512}
    (hnot : checkNotPresent (tableEntry s.mem (physToVirt t) i) = true) {f line : UInt64}
    {k : KernelMemInfo} (hget : pmGet s.kmem defaultPages 0 = some (f, k)) {c : Ram} {v : σ}
    (happ : K.append ⟨(⟨k, s.mem⟩ : Machine).ram.kmem, setTableEntry (memset (⟨k, s.mem⟩ : Machine).ram.mem
      (physToVirt f) 0 (pageSize * defaultPages)) (physToVirt t) i (makeTableEntry f vmUsermode)⟩
      as.memoryList f line = some (c, v)) :
    ∃ (s' : Machine) (l' : List UInt64), c = s'.ram ∧
      Framed (spaceOwner R) s (as, l) s' (⟨as.pml4, v⟩, l') ∧
      (∀ q : List (Fin 512), q.length ≤ 3 → Radix.descend (sub s'.mem) as.tables.root q =
        if q = p ++ [i] then some f else Radix.descend (sub s.mem) as.tables.root q) ∧
      walk s'.mem as.tables = walk s.mem as.tables := by
  obtain ⟨m, hram, htable, hdesc, hwalk⟩ := freshTable_ram h hp hlen hnot hget
  rw [← hram] at happ
  have hinv := (htable.right (R := fence) h).inv
  -- the list, next to the new table
  obtain ⟨s', rfl, hlist⟩ := hK.append (star_right hinv) happ
  obtain ⟨-, hwalk', hdesc'⟩ := tables_kept hlist hinv.2.1
  exact ⟨s', l ++ [f], rfl, Framed.comap (htable.trans (hlist.right hinv.2.1)),
    fun q hq => (hdesc' q hq).trans (hdesc q hq), hwalk'.trans hwalk⟩

/-- A table that is not there is made, when `pm_get` and the list have room. -/
theorem nextTable_new {p : List (Fin 512)} {t : UInt64}
    (hp : Radix.descend (sub s.mem) as.tables.root p = some t) (hlen : p.length < 3) {i : Fin 512}
    (hnot : checkNotPresent (tableEntry s.mem (physToVirt t) i) = true) {f line : UInt64}
    {k : KernelMemInfo} (hget : pmGet s.kmem defaultPages 0 = some (f, k)) (hf : f ≠ 0)
    {P : Ram → σ → Prop} (happ : ∀ m, (fence.star R).inv ⟨k, m⟩ (k₀, (as.memoryList, l)) →
      ∃ c v, K.append (⟨k, m⟩ : Machine).ram as.memoryList f line = some (c, v) ∧ P c v) :
    ∃ (s' : Machine) (v : σ) (l' : List UInt64),
      s.ram.nextTable K as (physToVirt t) i line = some (s'.ram, ⟨as.pml4, v⟩, physToVirt f) ∧
      P s'.ram v ∧ Framed (spaceOwner R) s (as, l) s' (⟨as.pml4, v⟩, l') ∧
      ∀ q : List (Fin 512), q.length ≤ 3 → Radix.descend (sub s'.mem) as.tables.root q =
        if q = p ++ [i] then some f else Radix.descend (sub s.mem) as.tables.root q := by
  have htables : (fence.star tablesOwner).inv s (k₀, ⟨as.pml4, l⟩) :=
    star_left (T := R) (n := (as.memoryList, l)) h
  have hpaged : Paged s ⟨as.pml4, l⟩ := htables.2.1
  have ht : t ∈ (⟨as.pml4, l⟩ : AddrSpace).frames := hpaged.mem_frames (Nat.le_of_lt hlen) hp
  obtain ⟨m, hram, htable, -, -⟩ := freshTable_ram h hp hlen hnot hget
  obtain ⟨c, v, hc, hP⟩ := happ m (star_right (htable.right (R := fence) h).inv)
  rw [hram] at hc
  obtain ⟨s', l', rfl, hframed, hdesc, -⟩ := newTable_ram hK h hp hlen hnot hget hc
  refine ⟨s', v, l', ?_, hP, hframed, hdesc⟩
  simp only [Ram.nextTable, ram_tableEntry htables ht (index_lt i), ram_pmGet (fence_fenced h.1),
    hnot, if_true, hget, Option.map_some, if_neg hf, virtToPhys_physToVirt, hc]

theorem nextTable_ram {p : List (Fin 512)} {t : UInt64}
    (hp : Radix.descend (sub s.mem) as.tables.root p = some t) (hlen : p.length < 3) {i : Fin 512}
    {line : UInt64} {c : Ram} {as' : Space σ} {table : UInt64}
    (hnext : s.ram.nextTable K as (physToVirt t) i line = some (c, as', table)) :
    ∃ (s' : Machine) (v : σ) (l' : List UInt64) (u : UInt64), c = s'.ram ∧ as' = ⟨as.pml4, v⟩ ∧
      table = physToVirt u ∧ Framed (spaceOwner R) s (as, l) s' (⟨as.pml4, v⟩, l') ∧
      Radix.descend (sub s'.mem) as.tables.root (p ++ [i]) = some u ∧
      walk s'.mem as.tables = walk s.mem as.tables := by
  have htables : (fence.star tablesOwner).inv s (k₀, ⟨as.pml4, l⟩) :=
    star_left (T := R) (n := (as.memoryList, l)) h
  have hpaged : Paged s ⟨as.pml4, l⟩ := htables.2.1
  have ht : t ∈ (⟨as.pml4, l⟩ : AddrSpace).frames := hpaged.mem_frames (Nat.le_of_lt hlen) hp
  have hentry := ram_tableEntry htables ht (index_lt i)
  rw [Ram.nextTable] at hnext
  simp only [hentry, ram_pmGet (fence_fenced h.1)] at hnext
  cases hpres : checkNotPresent (tableEntry s.mem (physToVirt t) i) with
  | true =>
    rw [if_pos hpres] at hnext
    cases hget : pmGet s.kmem defaultPages 0 with
    | none =>
      rw [hget] at hnext
      cases hnext
    | some r =>
      obtain ⟨f, k⟩ := r
      rw [hget] at hnext
      simp only [Option.map_some, virtToPhys_physToVirt] at hnext
      split at hnext
      · cases hnext
      · obtain ⟨⟨c', v⟩, happ, heq⟩ := Option.map_eq_some_iff.mp hnext
        simp only [Prod.mk.injEq] at heq
        obtain ⟨rfl, rfl, rfl⟩ := heq
        obtain ⟨s', l', rfl, hframed, hdesc, hwalk⟩ := newTable_ram hK h hp hlen hpres hget happ
        refine ⟨s', v, l', f, rfl, rfl, rfl, hframed, ?_, hwalk⟩
        exact (hdesc _ (by rw [List.length_append, List.length_singleton]; omega)).trans (if_pos rfl)
  | false =>
    rw [if_neg (by rw [hpres]; exact Bool.false_ne_true)] at hnext
    simp only [Option.some.injEq, Prod.mk.injEq] at hnext
    obtain ⟨rfl, rfl, rfl⟩ := hnext
    refine ⟨s, as.memoryList, l, _, rfl, rfl, rfl, .refl h.2.1, ?_, rfl⟩
    rw [Radix.descend_snoc, hp, Option.bind_some]
    exact sub_of_present hpres

omit hK in
theorem setLeaf_ram {v t : UInt64} (ht : Radix.descend (sub s.mem) as.tables.root (path v) = some t)
    (e : UInt64) :
    ∃ s' : Machine, (⟨s.ram.kmem, setTableEntry s.ram.mem (physToVirt t) (pte v) e⟩ : Ram) = s'.ram ∧
      s'.kmem = s.kmem ∧ Framed (spaceOwner R) s (as, l) s' (as, l) ∧
      (∀ q : List (Fin 512), q.length ≤ 3 → Radix.descend (sub s'.mem) as.tables.root q =
        Radix.descend (sub s.mem) as.tables.root q) ∧
      walk s'.mem as.tables =
        FlatMap.assign pageNum (walk s.mem as.tables) v (if checkNotPresent e then none else some e) := by
  have htables : (fence.star tablesOwner).inv s (k₀, ⟨as.pml4, l⟩) :=
    star_left (T := R) (n := (as.memoryList, l)) h
  have hpaged : Paged s ⟨as.pml4, l⟩ := htables.2.1
  have hframe : t ∈ (⟨as.pml4, l⟩ : AddrSpace).frames :=
    hpaged.mem_frames (Nat.le_of_eq (path_length v)) ht
  obtain ⟨hpaged', hlocal, hdesc, hwalk⟩ := setLeaf_spec hpaged ht e
  refine ⟨_, (ram_setTableEntry htables hframe (index_lt _) e).symm, rfl, Framed.comap ?_, hdesc,
    funext hwalk⟩
  exact Framed.left (space_framed hlocal hpaged') h.2.1

theorem mapPageEntry_ram {virtAddr physAddr flags : UInt64} {r : Ram × Space σ}
    (hmap : s.ram.mapPageEntry K as virtAddr physAddr flags = some r) :
    SpaceUpdate R s as l r
      (FlatMap.assign pageNum (walk s.mem as.tables) virtAddr (pageEntry physAddr flags)) := by
  simp only [Ram.mapPageEntry, Option.bind_eq_bind, Option.bind_eq_some_iff, Prod.exists] at hmap
  obtain ⟨c₁, as₁, pdpt, hnext₁, c₂, as₂, pd, hnext₂, c₃, as₃, pt, hnext₃, hset⟩ := hmap
  have hroot : as.pml4 = physToVirt as.tables.root := (physToVirt_virtToPhys as.pml4).symm
  have hnil : Radix.descend (sub s.mem) as.tables.root ([] : List (Fin 512)) = some as.tables.root :=
    Radix.descend_nil _
  rw [hroot] at hnext₁
  obtain ⟨s₁, v₁, l₁, t₁, rfl, rfl, rfl, hframed₁, hd₁, hw₁⟩ :=
    nextTable_ram hK h hnil (by decide) hnext₁
  have h₁ := (hframed₁.right h).inv
  obtain ⟨s₂, v₂, l₂, t₂, rfl, rfl, rfl, hframed₂, hd₂, hw₂⟩ :=
    nextTable_ram hK h₁ hd₁ (by simp) hnext₂
  have h₂ := (hframed₂.right h₁).inv
  obtain ⟨s₃, v₃, l₃, t₃, rfl, rfl, rfl, hframed₃, hd₃, hw₃⟩ :=
    nextTable_ram hK h₂ hd₂ (by simp) hnext₃
  have h₃ := (hframed₃.right h₂).inv
  obtain ⟨s₄, hram, -, hframed₄, -, hw₄⟩ := setLeaf_ram h₃ hd₃ (makeTableEntry (physAddr &&& ~~~0xFFF) flags)
  refine ⟨s₄, v₃, l₃, ?_, ((hframed₁.trans hframed₂).trans hframed₃).trans hframed₄, ?_⟩
  · rw [← hram]
    exact (Option.some.inj hset).symm
  · refine hw₄.trans ?_
    have hw : walk s₃.mem as.tables = walk s.mem as.tables := hw₃.trans (hw₂.trans hw₁)
    rw [← hw]
    rfl

theorem mapPages_ram {virtAddr physAddr n flags : UInt64} {r : Ram × Space σ}
    (hmap : s.ram.mapPages K as virtAddr physAddr n flags = some r) :
    SpaceUpdate R s as l r
      (FlatMap.assignAll pageNum (walk s.mem as.tables) (mapUpdates virtAddr physAddr n flags)) := by
  rw [FlatMap.assignAll, mapUpdates, List.foldl_map]
  refine Folds.foldlM_sim (R := SpaceUpdate R s as l) (fun t f t' i _ ht hi => ?_)
    ⟨s, as.memoryList, l, rfl, .refl h.2.1, rfl⟩ hmap
  obtain ⟨s', v, l', rfl, hframed, rfl⟩ := ht
  exact (mapPageEntry_ram hK (hframed.right h).inv hi).trans hframed rfl

end Map

/-! `unmap_page_entry`. -/

theorem dropTable_freed {K : Keeper UInt64 σ} {c c' : Ram} {parent table : UInt64} {i : Nat}
    (hfree : (⟨c.kmem, setTableEntry c.mem parent i 0⟩ : Ram).pmFree (virtToPhys table)
      defaultPages = (.sysOk, c')) (as : Space σ) :
    c.dropTable K as parent i table = (K.eraseFirst c' as.memoryList fun frame =>
      frame = virtToPhys table).map fun r => (r.1, ⟨as.pml4, r.2⟩) := by
  -- unfolding the applied function makes the kernel evaluate `pm_free`
  have hdef : @Ram.dropTable σ = delta% @Ram.dropTable σ := by
    delta Ram.dropTable
    exact Eq.refl _
  rw [hdef]
  beta_reduce
  rw [hfree]

section Unmap
variable {K : Keeper UInt64 σ} {R : Owner machinePages (σ × List UInt64)} (hK : K.Erases R)
  {E : Prop} (hE : E → ∀ {s v l i}, R.inv s (v, l) → i < l.length → (K.erase s.ram v i).isSome)
  {s : Machine} {k₀ : KernelMemInfo} {as : Space σ} {l : List UInt64}
  (h : (fence.star (spaceOwner R)).inv s (k₀, (as, l)))
include hK hE h

/-- A table with nothing below it is dropped: what `dropTable` of `Paging` does, and then its
    frame is erased from the list. -/
theorem dropTable_ram {p : List (Fin 512)} {t b : UInt64}
    (hp : Radix.descend (sub s.mem) as.tables.root p = some t) (hlen : p.length < 3) {i : Fin 512}
    (hb : sub s.mem t i = some b) (hbare : p.length < 2 → ∀ j, sub s.mem b j = none) :
    Ends E (s.ram.dropTable K as (physToVirt t) i (physToVirt b)) fun r =>
      ∃ (s' : Machine) (v : σ) (l' : List UInt64), r = (s'.ram, ⟨as.pml4, v⟩) ∧
        Framed (spaceOwner R) s (as, l) s' (⟨as.pml4, v⟩, l') ∧
        (∀ q : List (Fin 512), q.length ≤ 3 → Radix.descend (sub s'.mem) as.tables.root q =
          if q = p ++ [i] then none else Radix.descend (sub s.mem) as.tables.root q) ∧
        ∀ w, walk s'.mem as.tables w =
          if path w = p ++ [i] then none else walk s.mem as.tables w := by
  have htables : (fence.star tablesOwner).inv s (k₀, ⟨as.pml4, l⟩) :=
    star_left (T := R) (n := (as.memoryList, l)) h
  have hpaged : Paged s ⟨as.pml4, l⟩ := htables.2.1
  have ht : t ∈ (⟨as.pml4, l⟩ : AddrSpace).frames := hpaged.mem_frames (Nat.le_of_lt hlen) hp
  have hpb : Radix.descend (sub s.mem) as.tables.root (p ++ [i]) = some b := by
    rw [Radix.descend_snoc, hp, Option.bind_some, hb]
  have hbf : b ∈ (⟨as.pml4, l⟩ : AddrSpace).frames :=
    hpaged.mem_frames (by rw [List.length_append, List.length_singleton]; omega) hpb
  obtain ⟨m, hm⟩ : ∃ m, m = setTableEntry s.mem (physToVirt t) i 0 := ⟨_, rfl⟩
  obtain ⟨k, hfree, -⟩ := pmFree_table hpaged hbf
  -- the entry and the bits of the pages
  have hset := ram_setTableEntry htables ht (index_lt i) 0
  have hwhole := hpaged.whole b hbf
  have hfreeram : (⟨s.kmem, m⟩ : Machine).ram.pmFree b defaultPages =
      (.sysOk, (⟨k, m⟩ : Machine).ram) := by
    have hin : ∀ x ∈ pages b (b + defaultPages * pageSize), pageOf x < 8 * s.kmem.bitmapSpan :=
      fun x hx => (tables_clear htables hbf).inside
        ((mem_run_pages hwhole.2 (pageOf x)).mp ⟨x, hx, rfl⟩)
    rw [ram_pmFree ⟨s.kmem, m⟩ hin, hfree]
  have hdrop : s.ram.dropTable K as (physToVirt t) i (physToVirt b) =
      (K.eraseFirst (⟨k, m⟩ : Machine).ram as.memoryList fun frame => frame = b).map fun r =>
        (r.1, ⟨as.pml4, r.2⟩) := by
    rw [← virtToPhys_physToVirt b, hm, hset] at hfreeram
    rw [dropTable_freed hfreeram, virtToPhys_physToVirt, hm]
  -- the machine is the one that `dropTable` of `Paging` leaves
  obtain ⟨s₁, as₁, hold, hpaged₁, hlocal, hdesc, hwalk⟩ := dropTable_spec hpaged hp hlen hb hbare
  rw [dropTable_eq (by rw [virtToPhys_physToVirt]; exact hfree), virtToPhys_physToVirt, ← hm,
    Option.some.injEq, Prod.mk.injEq] at hold
  obtain ⟨rfl, rfl⟩ := hold
  have htable : Framed (tablesOwner.star R) s (⟨as.pml4, l⟩, (as.memoryList, l)) ⟨k, m⟩
      (⟨as.pml4, l.erase b⟩, (as.memoryList, l)) :=
    Framed.left (space_framed hlocal hpaged₁) h.2.1
  have hinv := (htable.right (R := fence) h).inv
  have herase : l.eraseP (fun frame => frame = b) = l.erase b := (List.erase_eq_eraseP' b l).symm
  rw [hdrop]
  refine (hK.eraseFirst hE (star_right hinv) _).map fun r hr => ?_
  obtain ⟨c, v⟩ := r
  obtain ⟨s', rfl, hlist⟩ := hr
  rw [herase] at hlist
  obtain ⟨-, hwalk', hdesc'⟩ := tables_kept hlist hinv.2.1
  exact ⟨s', v, l.erase b, rfl, Framed.comap (htable.trans (hlist.right hinv.2.1)),
    fun q hq => (hdesc' q hq).trans (hdesc q hq), fun w => (congrFun hwalk' w).trans (hwalk w)⟩

omit hK hE in
theorem empty_ram {p : List (Fin 512)} {t : UInt64}
    (hp : Radix.descend (sub s.mem) as.tables.root p = some t) (hlen : p.length < 3) :
    tableEmpty s.ram.mem (physToVirt t) = tableEmpty s.mem (physToVirt t) ∧
      (tableEmpty s.mem (physToVirt t) = true → ∀ j, sub s.mem t j = none) := by
  have htables : (fence.star tablesOwner).inv s (k₀, ⟨as.pml4, l⟩) :=
    star_left (T := R) (n := (as.memoryList, l)) h
  have hpaged : Paged s ⟨as.pml4, l⟩ := htables.2.1
  exact ⟨ram_tableEmpty htables (hpaged.mem_frames (Nat.le_of_lt hlen) hp),
    hpaged.sub_of_empty hp hlen⟩

theorem dropUpper_ram {p : List (Fin 512)} {t b : UInt64}
    (hp : Radix.descend (sub s.mem) as.tables.root p = some t) (hlen : p.length < 2) {i : Fin 512}
    (hb : sub s.mem t i = some b) (hbare : ∀ j, sub s.mem b j = none) :
    Ends E (s.ram.dropTable K as (physToVirt t) i (physToVirt b)) fun r =>
      ∃ (s' : Machine) (v : σ) (l' : List UInt64), r = (s'.ram, ⟨as.pml4, v⟩) ∧
        Framed (spaceOwner R) s (as, l) s' (⟨as.pml4, v⟩, l') ∧
        (∀ q : List (Fin 512), q.length ≤ 3 → q ≠ p ++ [i] →
          Radix.descend (sub s'.mem) as.tables.root q =
            Radix.descend (sub s.mem) as.tables.root q) ∧
        walk s'.mem as.tables = walk s.mem as.tables := by
  refine (dropTable_ram hK hE h hp (Nat.lt_succ_of_lt hlen) hb fun _ => hbare).mono fun r hr => ?_
  obtain ⟨s', v, l', rfl, hframed, hdesc, hwalk⟩ := hr
  refine ⟨s', v, l', rfl, hframed, fun q hq hne => ?_, funext fun w => ?_⟩
  · rw [hdesc q hq, if_neg hne]
  · rw [hwalk, if_neg]
    intro he
    have hlen' := congrArg List.length he
    rw [path_length, List.length_append, List.length_singleton] at hlen'
    omega

theorem unmapTables_ram {v pdpt pd pt : UInt64}
    (h4 : Radix.descend (sub s.mem) as.tables.root [pml4e v] = some pdpt)
    (h3 : Radix.descend (sub s.mem) as.tables.root [pml4e v, pdpe v] = some pd)
    (hpt : sub s.mem pd (pde v) = some pt) :
    Ends E (s.ram.unmapTables K as v as.pml4 (physToVirt pdpt) (physToVirt pd) (physToVirt pt))
      fun r => SpaceUpdate R s as l r fun w =>
        if path w = path v then none else walk s.mem as.tables w := by
  rw [Ram.unmapTables]
  -- the page table, whatever is left in it
  refine (dropTable_ram hK hE h h3 (by simp) hpt fun hlt => absurd hlt (by simp)).bind fun r hr => ?_
  obtain ⟨s₁, v₁, l₁, rfl, hframed₁, hdesc₁, hwalk₁⟩ := hr
  have hinv₁ := (hframed₁.right h).inv
  have h3' : Radix.descend (sub s₁.mem) as.tables.root [pml4e v, pdpe v] = some pd := by
    rw [hdesc₁ _ (by simp), if_neg (by simp), h3]
  have h4' : Radix.descend (sub s₁.mem) as.tables.root [pml4e v] = some pdpt := by
    rw [hdesc₁ _ (by simp), if_neg (by simp), h4]
  have hup₁ : SpaceUpdate R s as l (s₁.ram, ⟨as.pml4, v₁⟩) fun w =>
      if path w = path v then none else walk s.mem as.tables w :=
    ⟨s₁, v₁, l₁, rfl, hframed₁, funext hwalk₁⟩
  obtain ⟨hempty₁, hbare₁⟩ := empty_ram hinv₁ h3' (by simp)
  dsimp only
  rw [hempty₁]
  cases hcase₁ : tableEmpty s₁.mem (physToVirt pd) with
  | false => exact .pure hup₁
  | true =>
    -- the page directory, when it is empty
    have hpd : sub s₁.mem pdpt (pdpe v) = some pd := sub_of_descend h4' h3'
    rw [if_neg (by decide)]
    refine (dropUpper_ram hK hE hinv₁ h4' (by simp) hpd (hbare₁ hcase₁)).bind fun r hr => ?_
    obtain ⟨s₂, v₂, l₂, rfl, hframed₂, hdesc₂, hwalk₂⟩ := hr
    have hinv₂ := (hframed₂.right hinv₁).inv
    have h4'' : Radix.descend (sub s₂.mem) as.tables.root [pml4e v] = some pdpt :=
      (hdesc₂ _ (by simp) (by simp)).trans h4'
    have hup₂ : SpaceUpdate R s as l (s₂.ram, ⟨as.pml4, v₂⟩) fun w =>
        if path w = path v then none else walk s.mem as.tables w :=
      ⟨s₂, v₂, l₂, rfl, hframed₁.trans hframed₂, hwalk₂.trans (funext hwalk₁)⟩
    obtain ⟨hempty₂, hbare₂⟩ := empty_ram hinv₂ h4'' (by simp)
    dsimp only
    rw [hempty₂]
    cases hcase₂ : tableEmpty s₂.mem (physToVirt pdpt) with
    | false => exact .pure hup₂
    | true =>
      -- the PDPT, when it is empty
      have hnil : Radix.descend (sub s₂.mem) as.tables.root ([] : List (Fin 512)) =
          some as.tables.root := Radix.descend_nil _
      have hpdpt : sub s₂.mem as.tables.root (pml4e v) = some pdpt := sub_of_descend hnil h4''
      have hroot : physToVirt as.tables.root = as.pml4 := physToVirt_virtToPhys as.pml4
      rw [if_neg (by decide)]
      have hdrop := dropUpper_ram hK hE hinv₂ hnil (by simp) hpdpt (hbare₂ hcase₂)
      rw [show (⟨as.pml4, v₂⟩ : Space σ).tables.root = as.tables.root from rfl, hroot] at hdrop
      refine hdrop.mono fun r hr => ?_
      obtain ⟨s₃, v₃, l₃, rfl, hframed₃, -, hwalk₃⟩ := hr
      exact ⟨s₃, v₃, l₃, rfl, (hframed₁.trans hframed₂).trans hframed₃,
        hwalk₃.trans (hwalk₂.trans (funext hwalk₁))⟩

/-- A page is unmapped: nothing happens when it is not mapped, else its 2 MiB region goes. -/
theorem unmapPageEntry_ram (v : UInt64) :
    Ends E (s.ram.unmapPageEntry K as v) fun r =>
      SpaceUpdate R s as l r (FlatMap.wipe regionNum (walk s.mem as.tables) v) := by
  have htables : (fence.star tablesOwner).inv s (k₀, ⟨as.pml4, l⟩) :=
    star_left (T := R) (n := (as.memoryList, l)) h
  have hpaged : Paged s ⟨as.pml4, l⟩ := htables.2.1
  have hroot : as.pml4 = physToVirt as.tables.root := (physToVirt_virtToPhys as.pml4).symm
  have hnil : Radix.descend (sub s.mem) as.tables.root ([] : List (Fin 512)) =
      some as.tables.root := Radix.descend_nil _
  -- entries of tables are read as on the machine
  have hread : ∀ {p : List (Fin 512)} {t : UInt64}, p.length ≤ 3 →
      Radix.descend (sub s.mem) as.tables.root p = some t → ∀ i : Fin 512,
        tableEntry s.ram.mem (physToVirt t) i = tableEntry s.mem (physToVirt t) i :=
    fun hp ht i => ram_tableEntry htables (hpaged.mem_frames hp ht) (index_lt i)
  have hstay : walk s.mem as.tables v = none →
      SpaceUpdate R s as l (s.ram, as) (FlatMap.wipe regionNum (walk s.mem as.tables) v) := by
    intro hnone
    rw [FlatMap.wipe, hnone]
    exact ⟨s, as.memoryList, l, rfl, .refl h.2.1, rfl⟩
  simp only [Ram.unmapPageEntry]
  rw [hroot, hread (by simp) hnil]
  rcases hpaged.entry_cases hnil (by simp) (pml4e v) with ⟨hn, hsub4⟩ | ⟨pdpt, hy4, hsub4, hm4, h4⟩
  · rw [if_pos hn]
    exact .pure (hstay (by rw [walk, hsub4, Option.bind_none]))
  rw [if_neg (by simp [hy4]), hm4, hread (by simp) h4]
  rcases hpaged.entry_cases h4 (by simp) (pdpe v) with ⟨hn, hsub3⟩ | ⟨pd, hy3, hsub3, hm3, h3⟩
  · rw [if_pos hn]
    exact .pure (hstay (by rw [walk, hsub4, Option.bind_some, hsub3, Option.bind_none]))
  rw [if_neg (by simp [hy3]), hm3, hread (by simp) h3]
  rcases hpaged.entry_cases h3 (by simp) (pde v) with ⟨hn, hsub2⟩ | ⟨pt, hy2, hsub2, hm2, h2⟩
  · rw [if_pos hn]
    refine .pure (hstay ?_)
    rw [walk, hsub4, Option.bind_some, hsub3, Option.bind_some, hsub2, Option.bind_none]
  rw [if_neg (by simp [hy2]), hm2, hread (by simp) h2]
  have hleaf : walk s.mem as.tables v = leaf s.mem pt (pte v) := by
    rw [walk, hsub4, Option.bind_some, hsub3, Option.bind_some, hsub2, Option.bind_some]
  cases hy1 : checkNotPresent (tableEntry s.mem (physToVirt pt) (pte v)) with
  | true =>
    rw [if_pos rfl]
    exact .pure (hstay (by simp only [hleaf, leaf, hy1, if_true]))
  | false =>
    rw [if_neg (by simp)]
    obtain ⟨s₁, hram, -, hframed₁, hdesc₁, hwalk₁⟩ := setLeaf_ram h h2 0
    have hinv₁ := (hframed₁.right h).inv
    have h4' := (hdesc₁ [pml4e v] (by simp)).trans h4
    have h3' := (hdesc₁ [pml4e v, pdpe v] (by simp)).trans h3
    have h2' := (hdesc₁ (path v) (Nat.le_of_eq (path_length v))).trans h2
    rw [hram, ← hroot]
    refine (unmapTables_ram hK hE hinv₁ h4' h3' (sub_of_descend h3' h2')).mono fun r hr => ?_
    obtain ⟨s₂, v₂, l₂, rfl, hframed₂, hwalk₂⟩ := hr
    refine ⟨s₂, v₂, l₂, rfl, hframed₁.trans hframed₂, ?_⟩
    have hsome : (walk s.mem as.tables v).isSome = true := by
      rw [hleaf]
      simp [leaf, hy1]
    rw [hwalk₂, FlatMap.wipe, if_pos hsome]
    funext w
    by_cases hregion : regionNum w = regionNum v
    · rw [if_pos hregion, if_pos ((path_eq_iff v w).mpr hregion)]
    · have hpage : pageNum w ≠ pageNum v := fun he => hregion (by rw [regionNum, regionNum, he])
      rw [if_neg hregion, if_neg (fun he => hregion ((path_eq_iff v w).mp he)), hwalk₁,
        FlatMap.assign, if_neg hpage]

theorem unmapPages_ram (virtAddr n : UInt64) :
    Ends E (s.ram.unmapPages K as virtAddr n) fun r => SpaceUpdate R s as l r
      (FlatMap.wipeAll regionNum (walk s.mem as.tables)
        ((pages 0 (n * pageSize)).map fun i => virtAddr + i)) := by
  rw [FlatMap.wipeAll, List.foldl_map]
  refine Ends.foldlM (R := SpaceUpdate R s as l) (fun t f i _ ht => ?_)
    ⟨s, as.memoryList, l, rfl, .refl h.2.1, rfl⟩
  obtain ⟨s', v, l', rfl, hframed, rfl⟩ := ht
  exact (unmapPageEntry_ram hK hE (hframed.right h).inv (virtAddr + i)).mono fun r hr =>
    hr.trans hframed rfl

end Unmap

end Horizon64
