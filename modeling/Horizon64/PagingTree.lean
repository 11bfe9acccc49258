import Horizon64.Paging

/- The invariant of an address space.

   `Paged s as`: the tables of `as` are a tree of depth 3 under its PML4; they are
   whole 8-page blocks of used pages, no two with a page in common; they are the
   PML4 and the frames of `memory_list`; and in the three upper levels every entry
   is 0 or refers to a table, with nothing after the 512th entry.

   1. Words of a table: reading one after a store, or after a `memset`.
   2. Table entries: what `MAKE_TABLE_ENTRY` puts in and the masks take out.
   3. `Paged`, and `Local`: what an operation on one address space leaves alone.
   4. One lemma for each write: making a table, writing a leaf, dropping a table. -/
namespace Horizon64
open Words Bytes

/-- The 8 pages of the table at frame `t`. -/
def tableAt (t : UInt64) : Block := ⟨t, defaultPages⟩

abbrev TablePage (t : UInt64) (p : Nat) : Prop := (tableAt t).Page p

/-! Words of a table. -/

theorem index_lt (i : Fin 512) : i.val < 4096 := Nat.lt_of_lt_of_le i.isLt (by decide)

theorem entry_off {i : Nat} (hi : i < 4096) : (8 * UInt64.ofNat i).toNat = 8 * i := by
  have hof : (UInt64.ofNat i).toNat = i := toNat_ofNat_of_lt (by omega)
  have h8 : (8 : UInt64).toNat = 8 := rfl
  rw [toNat_mul_of_lt (by rw [hof, h8]; omega), hof, h8]

theorem entry_room {i : Nat} (hi : i < 4096) :
    (8 * UInt64.ofNat i).toNat + 8 ≤ defaultPages.toNat * 4096 := by
  rw [entry_off hi, defaultPages_toNat]
  omega

section Words
variable {t : UInt64} (hw : (tableAt t).Whole) {i : Nat} (hi : i < 4096)
include hw hi

theorem tableEntry_congr {m m' : Memory} (heq : ∀ x, (tableAt t).Holds x → m' x = m x) :
    tableEntry m' (physToVirt t) i = tableEntry m (physToVirt t) i := by
  apply load64_congr
  intro x hx
  exact heq x (holds_off hw (entry_room hi) (UInt64.lt_iff_toNat_lt.mp hx))

theorem setTableEntry_only (m : Memory) (e : UInt64) :
    Only (tableAt t) m (setTableEntry m (physToVirt t) i e) :=
  only_store64 hw m e (entry_room hi)

theorem tableEntry_memset (m : Memory) :
    tableEntry (memset m (physToVirt t) 0 (pageSize * defaultPages)) (physToVirt t) i = 0 := by
  apply load64_zero
  intro x hx
  have hin := holds_off hw (entry_room hi) (UInt64.lt_iff_toNat_lt.mp hx)
  have hlt : (x - physToVirt t).toNat < 8 * 4096 := (holds_iff hw x).mp hin
  have hlt' : x - physToVirt t < pageSize * defaultPages := UInt64.lt_iff_toNat_lt.mpr hlt
  rw [memset_apply, if_pos hlt']

end Words

theorem memset_table_only {t : UInt64} (hw : (tableAt t).Whole) (m : Memory) :
    Only (tableAt t) m (memset m (physToVirt t) 0 (pageSize * defaultPages)) := by
  have hlen : (0 : UInt64).toNat + (pageSize * defaultPages).toNat ≤
      (tableAt t).n.toNat * 4096 := show 0 + 32768 ≤ 8 * 4096 by decide
  have h := only_memset hw m 0 hlen
  rw [UInt64.add_zero] at h
  exact h

theorem entry_apart {i j : Nat} (hi : i < 4096) (hj : j < 4096) (hne : i ≠ j) :
    8 ≤ 8 * UInt64.ofNat i - 8 * UInt64.ofNat j := by
  have hoi := entry_off hi
  have hoj := entry_off hj
  rw [UInt64.le_iff_toNat_le, UInt64.toNat_sub, hoi, hoj]
  show 8 ≤ _
  omega

theorem tableEntry_set {t u : UInt64} (ht : (tableAt t).Whole) (hu : (tableAt u).Whole)
    (hapart : t ≠ u → Ledger.Apart TablePage t u) {i j : Nat} (hi : i < 4096) (hj : j < 4096)
    (m : Memory) (e : UInt64) :
    tableEntry (setTableEntry m (physToVirt t) i e) (physToVirt u) j =
      if u = t ∧ j = i then e else tableEntry m (physToVirt u) j := by
  by_cases htu : t = u
  · subst htu
    by_cases hij : j = i
    · subst hij
      rw [if_pos ⟨rfl, rfl⟩, setTableEntry, tableEntry, load64_store64_self]
    · rw [if_neg (fun h => hij h.2), setTableEntry, tableEntry, tableEntry,
        load64_field _ _ _ (entry_apart hi hj (Ne.symm hij)) (entry_apart hj hi hij)]
  · rw [if_neg (fun h => htu h.1.symm)]
    apply tableEntry_congr hu hj
    intro x hx
    apply setTableEntry_only ht hi
    exact fun hxt => hapart htu _ hxt hx

/-! Table entries. -/

/-- An entry of the three upper levels: empty, or a reference to a table. -/
def Link (e : UInt64) : Prop :=
  e = 0 ∨ ∃ f : UInt64, f.toNat % 4096 = 0 ∧ e = makeTableEntry f vmUsermode

theorem link_toNat {f : UInt64} (hf : f.toNat % 4096 = 0) :
    (makeTableEntry f vmUsermode).toNat = f.toNat + 7 := by
  have hmask : (f &&& ~~~0xFFF).toNat = f.toNat / 2 ^ 12 * 2 ^ 12 :=
    and_not_low_toNat f (by decide) rfl
  have huser : vmUsermode.toNat = 7 := rfl
  have hlow : (f &&& ~~~0xFFF).toNat % 2 ^ 12 = 0 := by
    rw [hmask]
    omega
  rw [makeTableEntry, or_low_toNat hlow (by rw [huser]; omega), hmask, huser]
  omega

theorem link_present {f : UInt64} (hf : f.toNat % 4096 = 0) :
    checkNotPresent (makeTableEntry f vmUsermode) = false := by
  have hbit : (makeTableEntry f vmUsermode &&& vmPresent).toNat = 1 := by
    have hone : vmPresent.toNat = 2 ^ 1 - 1 := rfl
    rw [UInt64.toNat_and, hone, Nat.and_two_pow_sub_one_eq_mod, link_toNat hf]
    omega
  rw [checkNotPresent, decide_eq_false_iff_not]
  intro h
  rw [h] at hbit
  cases hbit

/-- Both masks of the source give the frame back. -/
theorem link_frame {f : UInt64} (hf : f.toNat % 4096 = 0) :
    makeTableEntry f vmUsermode &&& ~~~0xFFF = f ∧ makeTableEntry f vmUsermode &&& ~~~0x1FF = f := by
  have hnat := link_toNat hf
  refine ⟨UInt64.toNat_inj.mp ?_, UInt64.toNat_inj.mp ?_⟩
  · rw [and_not_low_toNat (k := 12) _ (by decide) rfl, hnat]
    omega
  · rw [and_not_low_toNat (k := 9) _ (by decide) rfl, hnat]
    omega

theorem zero_not_present : checkNotPresent 0 = true := rfl

/-- For a present upper entry the two masks agree. -/
theorem Link.masks {e : UInt64} (h : Link e) (hp : checkNotPresent e = false) :
    e &&& ~~~0x1FF = e &&& ~~~0xFFF := by
  rcases h with rfl | ⟨f, hf, rfl⟩
  · cases hp
  · rw [(link_frame hf).1, (link_frame hf).2]

theorem sub_of_not_present {m : Memory} {t : UInt64} {i : Fin 512}
    (h : checkNotPresent (tableEntry m (physToVirt t) i) = true) : sub m t i = none := by
  simp only [sub, h, if_true]

theorem sub_of_present {m : Memory} {t : UInt64} {i : Fin 512}
    (h : checkNotPresent (tableEntry m (physToVirt t) i) = false) :
    sub m t i = some (tableEntry m (physToVirt t) i &&& ~~~0xFFF) := by
  simp only [sub, h, Bool.false_eq_true, if_false]

/-! The invariant. -/

/-- The frames of all tables of an address space. -/
def AddrSpace.frames (as : AddrSpace) : List UInt64 := as.root :: as.memoryList

structure Paged (s : Machine) (as : AddrSpace) : Prop where
  limit : s.kmem.physicalLimit.toNat + 8 * 4096 ≤ 2 ^ 64
  whole : ∀ t ∈ as.frames, (tableAt t).Whole
  owned : Ledger.Owned TablePage s.kmem.Used as.frames
  tree : Radix.Tree (sub s.mem) as.root 3
  reached : ∀ t, t ∈ as.frames ↔ Radix.Reached (sub s.mem) as.root 3 t
  link : ∀ p t, p.length < 3 → Radix.descend (sub s.mem) as.root p = some t →
    ∀ i : Fin 512, Link (tableEntry s.mem (physToVirt t) i)
  tail : ∀ p t, p ≠ [] → p.length < 3 → Radix.descend (sub s.mem) as.root p = some t →
    ∀ i, 512 ≤ i → i < 4096 → tableEntry s.mem (physToVirt t) i = 0

/-- An operation that turns `s`, `as` into `s'`, `as'` leaves alone every used page
    that is not one of the address space's tables. -/
structure Local (s : Machine) (as : AddrSpace) (s' : Machine) (as' : AddrSpace) : Prop where
  limit : s'.kmem.physicalLimit = s.kmem.physicalLimit
  bitmap : s'.kmem.bitmap = s.kmem.bitmap
  pml4 : as'.pml4 = as.pml4
  keep : ∀ p, s.kmem.Used p → (∀ t ∈ as.frames, ¬ TablePage t p) →
    s'.kmem.Used p ∧ (∀ t ∈ as'.frames, ¬ TablePage t p) ∧
      ∀ x, pageOf (virtToPhys x) = p → s'.mem x = s.mem x

theorem Local.refl (s : Machine) (as : AddrSpace) : Local s as s as :=
  ⟨rfl, rfl, rfl, fun _ hu hf => ⟨hu, hf, fun _ _ => rfl⟩⟩

theorem Local.trans {s s' s'' : Machine} {as as' as'' : AddrSpace} (h : Local s as s' as')
    (h' : Local s' as' s'' as'') : Local s as s'' as'' := by
  refine ⟨h'.limit.trans h.limit, h'.bitmap.trans h.bitmap, h'.pml4.trans h.pml4,
    fun p hu hf => ?_⟩
  obtain ⟨hu', hf', hm⟩ := h.keep p hu hf
  obtain ⟨hu'', hf'', hm'⟩ := h'.keep p hu' hf'
  exact ⟨hu'', hf'', fun x hx => (hm' x hx).trans (hm x hx)⟩

namespace Paged
variable {s s' : Machine} {as as' : AddrSpace} (h : Paged s as)
include h

theorem apart {t u : UInt64} (ht : t ∈ as.frames) (hu : u ∈ as.frames) (hne : t ≠ u) :
    Ledger.Apart TablePage t u :=
  h.owned.apart_of_ne ht hu hne

theorem nodup : as.frames.Nodup := by
  apply h.owned.apart.imp
  intro t u hapart heq
  subst heq
  have hpage : TablePage t (pageOf t) := by
    refine ⟨Nat.le_refl _, ?_⟩
    show pageOf t < pageOf t + 8
    omega
  exact hapart _ hpage hpage

theorem mem_frames {p : List (Fin 512)} {t : UInt64} (hp : p.length ≤ 3)
    (ht : Radix.descend (sub s.mem) as.root p = some t) : t ∈ as.frames :=
  (h.reached t).mpr ⟨p, hp, ht⟩

/-- Where the upper tables keep their entries and the tables' pages stay used, the tables
    stay what they are. -/
theorem of_upper (hlim : s'.kmem.physicalLimit = s.kmem.physicalLimit)
    (hused : ∀ t ∈ as.frames, ∀ p, TablePage t p → s'.kmem.Used p)
    (hentry : ∀ q t, q.length < 3 → Radix.descend (sub s.mem) as.root q = some t →
      ∀ i, i < 4096 → tableEntry s'.mem (physToVirt t) i = tableEntry s.mem (physToVirt t) i) :
    Paged s' as ∧ ∀ q : List (Fin 512), q.length ≤ 3 →
      Radix.descend (sub s'.mem) as.root q = Radix.descend (sub s.mem) as.root q := by
  have hdesc : ∀ q : List (Fin 512), q.length ≤ 3 →
      Radix.descend (sub s'.mem) as.root q = Radix.descend (sub s.mem) as.root q := by
    intro q hq
    apply Radix.descend_congr
    intro r i l t hqr hr
    have hlen : r.length < 3 := by
      rw [hqr, List.length_append, List.length_cons] at hq
      omega
    exact sub_congr (hentry r t hlen hr i (index_lt i))
  refine ⟨⟨hlim ▸ h.limit, h.whole, ⟨hused, h.owned.apart⟩, ?_, ?_, ?_, ?_⟩, hdesc⟩
  · intro p q t hp hq hpt hqt
    rw [hdesc p hp] at hpt
    rw [hdesc q hq] at hqt
    exact h.tree p q t hp hq hpt hqt
  · intro t
    rw [h.reached t]
    refine exists_congr fun p => and_congr_right fun hp => ?_
    rw [hdesc p hp]
  · intro p t hp ht i
    rw [hdesc p (Nat.le_of_lt hp)] at ht
    rw [hentry p t hp ht i (index_lt i)]
    exact h.link p t hp ht i
  · intro p t hne hp ht i hi hi'
    rw [hdesc p (Nat.le_of_lt hp)] at ht
    rw [hentry p t hp ht i hi']
    exact h.tail p t hne hp ht i hi hi'

/-- Where the tables' pages stay used and their bytes as they are, so does the
    address space. -/
theorem of_same (hlim : s'.kmem.physicalLimit = s.kmem.physicalLimit)
    (hused : ∀ t ∈ as.frames, ∀ p, TablePage t p → s'.kmem.Used p)
    (hmem : ∀ t ∈ as.frames, ∀ x, (tableAt t).Holds x → s'.mem x = s.mem x) :
    Paged s' as ∧ ∀ w, walk s'.mem as w = walk s.mem as w := by
  have hentry : ∀ t ∈ as.frames, ∀ i, i < 4096 →
      tableEntry s'.mem (physToVirt t) i = tableEntry s.mem (physToVirt t) i :=
    fun t ht i hi => tableEntry_congr (h.whole t ht) hi (hmem t ht)
  obtain ⟨hpaged, hdesc⟩ := h.of_upper hlim hused
    (fun q t hq ht => hentry t (h.mem_frames (Nat.le_of_lt hq) ht))
  refine ⟨hpaged, fun w => ?_⟩
  have hlen := Nat.le_of_eq (path_length w)
  rw [walk_eq, walk_eq, hdesc _ hlen]
  cases hpt : Radix.descend (sub s.mem) as.root (path w) with
  | none => rw [Option.bind_none, Option.bind_none]
  | some u =>
    rw [Option.bind_some, Option.bind_some,
      leaf_congr (hentry u (h.mem_frames hlen hpt) (pte w) (index_lt (pte w)))]

end Paged

/-! The three kinds of write. -/

section Writes
variable {s : Machine} {as : AddrSpace} (h : Paged s as) {p : List (Fin 512)} {t : UInt64}
  (hp : Radix.descend (sub s.mem) as.root p = some t)

/-- Entries after a store to entry `i` of table `t`. -/
def Stored (as : AddrSpace) (m m' : Memory) (t : UInt64) (i : Nat) (e : UInt64) : Prop :=
  ∀ u ∈ as.frames, ∀ j, j < 4096 → tableEntry m' (physToVirt u) j =
    if u = t ∧ j = i then e else tableEntry m (physToVirt u) j

include h in
theorem stored_set (ht : t ∈ as.frames) {i : Nat} (hi : i < 4096) (e : UInt64) :
    Stored as s.mem (setTableEntry s.mem (physToVirt t) i e) t i e := by
  intro u hu j hj
  exact tableEntry_set (h.whole t ht) (h.whole u hu) (fun hne => h.apart ht hu hne) hi hj s.mem e

include h hp

theorem stored_edit (hlen : p.length < 3) {i : Fin 512} {m' : Memory} {e : UInt64}
    (hst : Stored as s.mem m' t i e) :
    Radix.Edit (sub s.mem) (sub m') as.root 3 p t i (sub m' t i) := by
  refine ⟨h.tree, hp, hlen, rfl, fun q u j hq hu hne => ?_⟩
  apply sub_congr
  rw [hst u (h.mem_frames (Nat.le_of_lt hq) hu) j (index_lt j), if_neg]
  exact fun he => hne ⟨he.1, Fin.ext he.2⟩

/-- The leaf tables of the other levels do not see it. -/
theorem stored_leaf (hlen : p.length < 3) {i : Nat} {m' : Memory} {e : UInt64}
    (hst : Stored as s.mem m' t i e) {q : List (Fin 512)} (hq : q.length = 3) {u : UInt64}
    (hu : Radix.descend (sub s.mem) as.root q = some u) (j : Fin 512) :
    leaf m' u j = leaf s.mem u j := by
  apply leaf_congr
  rw [hst u (h.mem_frames (Nat.le_of_eq hq) hu) j (index_lt j), if_neg]
  intro he
  have hqp : q = p :=
    h.tree q p t (Nat.le_of_eq hq) (Nat.le_of_lt hlen) (he.1 ▸ hu) hp
  rw [hqp] at hq
  omega

end Writes

theorem setLeaf_spec {s : Machine} {as : AddrSpace} (h : Paged s as) {v : UInt64} {t : UInt64}
    (hp : Radix.descend (sub s.mem) as.root (path v) = some t) (e : UInt64) :
    Paged ⟨s.kmem, setTableEntry s.mem (physToVirt t) (pte v) e⟩ as ∧
    Local s as ⟨s.kmem, setTableEntry s.mem (physToVirt t) (pte v) e⟩ as ∧
    (∀ q : List (Fin 512), q.length ≤ 3 →
      Radix.descend (sub (setTableEntry s.mem (physToVirt t) (pte v) e)) as.root q =
        Radix.descend (sub s.mem) as.root q) ∧
    ∀ w, walk (setTableEntry s.mem (physToVirt t) (pte v) e) as w =
      FlatMap.assign pageNum (walk s.mem as) v (if checkNotPresent e then none else some e) w := by
  have hlen : (path v).length ≤ 3 := Nat.le_of_eq (path_length v)
  have ht := h.mem_frames hlen hp
  have hst := stored_set h ht (index_lt (pte v)) e
  have hentry : ∀ q u, q.length < 3 → Radix.descend (sub s.mem) as.root q = some u →
      ∀ j, j < 4096 → tableEntry (setTableEntry s.mem (physToVirt t) (pte v) e) (physToVirt u) j =
        tableEntry s.mem (physToVirt u) j := by
    intro q u hq hu j hj
    rw [hst u (h.mem_frames (Nat.le_of_lt hq) hu) j hj, if_neg]
    intro he
    have hqp : q = path v := h.tree q (path v) t (Nat.le_of_lt hq) hlen (he.1 ▸ hu) hp
    rw [hqp, path_length] at hq
    omega
  obtain ⟨hpaged, hdesc⟩ := @Paged.of_upper s
    ⟨s.kmem, setTableEntry s.mem (physToVirt t) (pte v) e⟩ as h rfl h.owned.used hentry
  refine ⟨hpaged, ?_, hdesc, fun w => ?_⟩
  · refine ⟨rfl, rfl, rfl, fun p hu hf => ⟨hu, hf, fun x hx => ?_⟩⟩
    apply setTableEntry_only (h.whole t ht) (index_lt (pte v))
    exact fun hin => hf t ht (hx ▸ hin)
  · rw [walk_eq, hdesc _ (Nat.le_of_eq (path_length w)), FlatMap.assign, walk_eq]
    by_cases hpage : pageNum w = pageNum v
    · obtain ⟨hpath, hpte⟩ := (index_eq_iff v w).mpr hpage
      have he : tableEntry (setTableEntry s.mem (physToVirt t) (pte v) e) (physToVirt t) (pte v) =
          e := by
        rw [hst t ht _ (index_lt (pte v)), if_pos ⟨rfl, rfl⟩]
      rw [if_pos hpage, hpath, hp, Option.bind_some, hpte, leaf, he]
    · rw [if_neg hpage]
      cases hu : Radix.descend (sub s.mem) as.root (path w) with
      | none => rw [Option.bind_none, Option.bind_none]
      | some u =>
        rw [Option.bind_some, Option.bind_some]
        apply leaf_congr
        rw [hst u (h.mem_frames (Nat.le_of_eq (path_length w)) hu) _
          (index_lt (pte w)), if_neg]
        intro he
        have hpath : path w = path v := h.tree (path w) (path v) t
          (Nat.le_of_eq (path_length w)) hlen (he.1 ▸ hu) hp
        exact hpage ((index_eq_iff v w).mp ⟨hpath, Fin.ext he.2⟩)

section Upper
variable {s : Machine} {as : AddrSpace} (h : Paged s as) {p : List (Fin 512)} {t : UInt64}
  (hp : Radix.descend (sub s.mem) as.root p = some t) (hlen : p.length < 3) {i : Fin 512}
  {m' : Memory} {e : UInt64} (hst : Stored as s.mem m' t i e)
  (hbelow : ∀ l, l ≠ [] → (p ++ i :: l).length ≤ 3 →
    Radix.descend (sub s.mem) as.root (p ++ i :: l) = none)
  (hzero : ∀ f, sub m' t i = some f → ∀ j, j < 4096 → tableEntry m' (physToVirt f) j = 0)

include hzero in
theorem slot_bare : ∀ f, sub m' t i = some f → ∀ j, sub m' f j = none := by
  intro f hf j
  apply sub_of_not_present
  rw [hzero f hf j (index_lt j)]
  exact zero_not_present

include h hp hlen hst hbelow hzero

theorem upper_descend {q : List (Fin 512)} (hq : q.length ≤ 3) :
    Radix.descend (sub m') as.root q =
      if q = p ++ [i] then sub m' t i else Radix.descend (sub s.mem) as.root q :=
  (stored_edit h hp hlen hst).descend_eq hbelow (slot_bare hzero) hq

theorem upper_walk (w : UInt64) :
    walk m' as w = if path w = p ++ [i] then (sub m' t i).bind fun f => leaf m' f (pte w)
      else walk s.mem as w := by
  rw [walk_eq, upper_descend h hp hlen hst hbelow hzero (Nat.le_of_eq (path_length w)), walk_eq]
  split
  · rfl
  · cases hu : Radix.descend (sub s.mem) as.root (path w) with
    | none => rw [Option.bind_none, Option.bind_none]
    | some u =>
      rw [Option.bind_some, Option.bind_some,
        stored_leaf h hp hlen hst (path_length w) hu (pte w)]

/-- Upper tables other than the one the slot now holds have the entries they had,
    but for the slot. -/
theorem upper_entry {q : List (Fin 512)} {u : UInt64} (hq : q.length < 3) (hne : q ≠ p ++ [i])
    (hu : Radix.descend (sub m') as.root q = some u) :
    Radix.descend (sub s.mem) as.root q = some u ∧
    ∀ j, j < 4096 → tableEntry m' (physToVirt u) j =
      if u = t ∧ j = i then e else tableEntry s.mem (physToVirt u) j := by
  rw [upper_descend h hp hlen hst hbelow hzero (Nat.le_of_lt hq), if_neg hne] at hu
  exact ⟨hu, fun j hj => hst u (h.mem_frames (Nat.le_of_lt hq) hu) j hj⟩

theorem upper_cases {q : List (Fin 512)} {u : UInt64} (hq : q.length < 3)
    (hu : Radix.descend (sub m') as.root q = some u) :
    (∀ j, j < 4096 → tableEntry m' (physToVirt u) j = 0) ∨
      Radix.descend (sub s.mem) as.root q = some u ∧
      ∀ j, j < 4096 → tableEntry m' (physToVirt u) j =
        if u = t ∧ j = i then e else tableEntry s.mem (physToVirt u) j := by
  by_cases hqs : q = p ++ [i]
  · rw [upper_descend h hp hlen hst hbelow hzero (Nat.le_of_lt hq), if_pos hqs] at hu
    exact Or.inl (hzero u hu)
  · exact Or.inr (upper_entry h hp hlen hst hbelow hzero hq hqs hu)

theorem upper_links (he : Link e) :
    (∀ q u, q.length < 3 → Radix.descend (sub m') as.root q = some u →
      ∀ j : Fin 512, Link (tableEntry m' (physToVirt u) j)) ∧
    ∀ q u, q ≠ [] → q.length < 3 → Radix.descend (sub m') as.root q = some u →
      ∀ j, 512 ≤ j → j < 4096 → tableEntry m' (physToVirt u) j = 0 := by
  constructor
  · intro q u hq hu j
    rcases upper_cases h hp hlen hst hbelow hzero hq hu with hnull | ⟨hu, hold⟩
    · exact Or.inl (hnull j (index_lt j))
    · rw [hold j (index_lt j)]
      split
      · exact he
      · exact h.link q u hq hu j
  · intro q u hne hq hu j hj hj'
    rcases upper_cases h hp hlen hst hbelow hzero hq hu with hnull | ⟨hu, hold⟩
    · exact hnull j hj'
    · have hnot : ¬ (u = t ∧ j = i) := fun hji => absurd i.isLt (Nat.not_lt.mpr (hji.2 ▸ hj))
      rw [hold j hj', if_neg hnot, h.tail q u hne hq hu j hj hj']

end Upper

/-! The frames of an address space whose list of tables grows or shrinks. -/

theorem mem_frames_append {as : AddrSpace} {f u : UInt64} :
    u ∈ (⟨as.pml4, as.memoryList ++ [f]⟩ : AddrSpace).frames ↔ f = u ∨ u ∈ as.frames := by
  have hroot : (⟨as.pml4, as.memoryList ++ [f]⟩ : AddrSpace).root = as.root := rfl
  simp only [AddrSpace.frames, List.mem_cons, List.mem_append, List.not_mem_nil, or_false, hroot]
  rw [← or_assoc, or_comm, eq_comm]

theorem frames_erase {as : AddrSpace} {c : UInt64} (hroot : as.root ≠ c) :
    (⟨as.pml4, as.memoryList.erase c⟩ : AddrSpace).frames = as.frames.erase c := by
  rw [AddrSpace.frames, AddrSpace.frames, List.erase_cons_tail (by simpa using hroot)]
  rfl

theorem fresh_table {s : Machine} {as : AddrSpace} (h : Paged s as) {f : UInt64}
    (hfree : ∀ p, TablePage f p → s.kmem.isFree p = true) :
    f ∉ as.frames ∧ ∀ t ∈ as.frames, Ledger.Apart TablePage f t := by
  have hunused : ∀ p, TablePage f p → ¬ s.kmem.Used p := fun p hp => not_used_of_free (hfree p hp)
  refine ⟨fun hf => ?_, h.owned.fresh hunused⟩
  have hpage : TablePage f (pageOf f) := by
    refine ⟨Nat.le_refl _, ?_⟩
    show pageOf f < pageOf f + 8
    omega
  exact hunused _ hpage (h.owned.used f hf _ hpage)

theorem newTable_entries {s : Machine} {as : AddrSpace} (h : Paged s as) {t f : UInt64}
    (ht : t ∈ as.frames) (hfw : (tableAt f).Whole)
    (hapart : f ∉ as.frames ∧ ∀ u ∈ as.frames, Ledger.Apart TablePage f u) {i : Fin 512}
    {m : Memory} (hm : m = setTableEntry (memset s.mem (physToVirt f) 0 (pageSize * defaultPages))
      (physToVirt t) i (makeTableEntry f vmUsermode)) :
    Stored as s.mem m t i (makeTableEntry f vmUsermode) ∧
    (∀ j, j < 4096 → tableEntry m (physToVirt f) j = 0) ∧ sub m t i = some f := by
  have htw := h.whole t ht
  have hst : Stored as s.mem m t i (makeTableEntry f vmUsermode) := by
    intro u hu j hj
    rw [hm, tableEntry_set htw (h.whole u hu) (fun hne => h.apart ht hu hne) (index_lt i) hj]
    split
    · rfl
    · apply tableEntry_congr (h.whole u hu) hj
      intro x hx
      apply memset_table_only hfw
      exact fun hxf => hapart.2 u hu _ hxf hx
  refine ⟨hst, fun j hj => ?_, ?_⟩
  · have hne : f ≠ t := fun he => hapart.1 (he ▸ ht)
    rw [hm, tableEntry_set htw hfw (fun _ => (hapart.2 t ht).symm) (index_lt i) hj,
      if_neg (fun he => hne he.1), tableEntry_memset hfw hj]
  · have hmod : f.toNat % 4096 = 0 := hfw.1
    have he : tableEntry m (physToVirt t) i = makeTableEntry f vmUsermode := by
      rw [hst t ht i (index_lt i), if_pos ⟨rfl, rfl⟩]
    rw [sub_of_present (by rw [he]; exact link_present hmod), he, (link_frame hmod).1]

/-- Making a table in an empty slot: the frame is taken from the free pages, its
    entries are 0, and no page's walk changes. -/
theorem newTable_spec {s : Machine} {as : AddrSpace} (h : Paged s as) {p : List (Fin 512)}
    {t : UInt64} (hp : Radix.descend (sub s.mem) as.root p = some t) (hlen : p.length < 3)
    {i : Fin 512} (hempty : sub s.mem t i = none) {f : UInt64} {k : KernelMemInfo}
    (hget : pmGet s.kmem defaultPages 0 = some (f, k)) {m : Memory}
    (hm : m = setTableEntry (memset s.mem (physToVirt f) 0 (pageSize * defaultPages))
      (physToVirt t) i (makeTableEntry f vmUsermode)) :
    Paged ⟨k, m⟩ ⟨as.pml4, as.memoryList ++ [f]⟩ ∧
    Local s as ⟨k, m⟩ ⟨as.pml4, as.memoryList ++ [f]⟩ ∧
    (∀ q : List (Fin 512), q.length ≤ 3 → Radix.descend (sub m) as.root q =
      if q = p ++ [i] then some f else Radix.descend (sub s.mem) as.root q) ∧
    ∀ w, walk m as w = walk s.mem as w := by
  obtain ⟨_, hmod, hend, hfree, hbits, _, hl, hbitmap⟩ := pmGet_block hget h.limit
  have hfw : (tableAt f).Whole := ⟨hmod, hend⟩
  have ht := h.mem_frames (Nat.le_of_lt hlen) hp
  obtain ⟨hst, hzero, hslot⟩ := newTable_entries h ht hfw (fresh_table h hfree) hm
  have hnew : ∀ g, sub m t i = some g → ∀ j, j < 4096 → tableEntry m (physToVirt g) j = 0 := by
    intro g hg
    obtain rfl : f = g := Option.some.inj (hslot.symm.trans hg)
    exact hzero
  have hbelow : ∀ l, l ≠ [] → (p ++ i :: l).length ≤ 3 →
      Radix.descend (sub s.mem) as.root (p ++ i :: l) = none := by
    intro l _ _
    rw [Radix.descend_append, hp, Option.bind_some, Radix.descend, hempty, Option.bind_none]
  have hedit := stored_edit h hp hlen hst
  have hbare := slot_bare hnew
  obtain ⟨hlink, htail⟩ := upper_links h hp hlen hst hbelow hnew (Or.inr ⟨f, hmod, rfl⟩)
  have hroot : (⟨as.pml4, as.memoryList ++ [f]⟩ : AddrSpace).root = as.root := rfl
  refine ⟨⟨hl ▸ h.limit, fun u hu => ?_, ?_, ?_, fun u => ?_, hlink, htail⟩,
    ⟨hl, hbitmap, rfl, ?_⟩, ?_, ?_⟩
  · rcases mem_frames_append.mp hu with rfl | hu
    · exact hfw
    · exact h.whole u hu
  · have hown := h.owned.alloc (b := f) (fun p hp => not_used_of_free (hfree p hp))
      (fun p hor => (used_taken hbits p).mpr hor)
    exact hown.perm (List.perm_append_singleton f as.frames).symm
  · exact hedit.tree' hbelow hbare (fun g hg hr => by
      obtain rfl : f = g := Option.some.inj (hslot.symm.trans hg)
      exact (fresh_table h hfree).1 ((h.reached f).mpr hr))
  · rw [mem_frames_append, hroot, hedit.reached_iff hbelow hbare, hslot, hempty, h.reached]
    simp
  · intro p hu hf
    have hpf : ¬ TablePage f p := fun hp => not_used_of_free (hfree p hp) hu
    refine ⟨(used_taken hbits p).mpr (Or.inl hu), fun u hu' => ?_, fun x hx => ?_⟩
    · rcases mem_frames_append.mp hu' with rfl | hu'
      · exact hpf
      · exact hf u hu'
    · show m x = s.mem x
      rw [hm, setTableEntry_only (h.whole t ht) (index_lt i), memset_table_only hfw]
      · exact fun hin => hpf (hx ▸ hin)
      · exact fun hin => hf t ht (hx ▸ hin)
  · intro q hq
    rw [upper_descend h hp hlen hst hbelow hnew hq, hslot]
  · intro w
    rw [upper_walk h hp hlen hst hbelow hnew, hslot, Option.bind_some, leaf, hzero _ (index_lt _)]
    split
    · next hw =>
      rw [walk_eq, hw, Radix.descend_snoc, hp, Option.bind_some, hempty, Option.bind_none]
      rfl
    · rfl

/-- `nextTable`: the slot refers to the table it returns, and no page's walk has
    changed. -/
theorem nextTable_spec {s s' : Machine} {as as' : AddrSpace} (h : Paged s as)
    {p : List (Fin 512)} {t : UInt64} (hp : Radix.descend (sub s.mem) as.root p = some t)
    (hlen : p.length < 3) {i : Fin 512} {table : UInt64}
    (hnext : nextTable s as (physToVirt t) i = some (s', as', table)) :
    ∃ u, table = physToVirt u ∧ Paged s' as' ∧ Local s as s' as' ∧
      Radix.descend (sub s'.mem) as'.root (p ++ [i]) = some u ∧
      ∀ w, walk s'.mem as' w = walk s.mem as w := by
  have hlink := h.link p t hlen hp i
  rw [nextTable] at hnext
  split at hnext
  · next hnot =>
    split at hnext
    · cases hnext
    · next f k hget =>
      split at hnext
      · cases hnext
      · simp only [virtToPhys_physToVirt, Option.some.injEq, Prod.mk.injEq] at hnext
        obtain ⟨hs, has, htab⟩ := hnext
        obtain ⟨hpaged, hloc, hdesc, hwalk⟩ :=
          newTable_spec h hp hlen (sub_of_not_present hnot) hget rfl
        rw [← hs, ← has]
        refine ⟨f, htab.symm, hpaged, hloc, ?_, hwalk⟩
        exact (hdesc _ (by rw [List.length_append, List.length_singleton]; omega)).trans (if_pos rfl)
  · next hpres =>
    simp only [Option.some.injEq, Prod.mk.injEq] at hnext
    obtain ⟨rfl, rfl, htab⟩ := hnext
    refine ⟨_, htab.symm, h, Local.refl _ _, ?_, fun w => rfl⟩
    rw [Radix.descend_snoc, hp, Option.bind_some]
    exact sub_of_present (Bool.eq_false_iff.mpr hpres)

/-- `pm_free` of a table does not fail: every page of it is used. -/
theorem pmFree_table {s : Machine} {as : AddrSpace} (h : Paged s as) {c : UInt64}
    (hc : c ∈ as.frames) :
    ∃ k, pmFree s.kmem c defaultPages = (.sysOk, k) ∧
      k.physicalLimit = s.kmem.physicalLimit ∧ k.bitmap = s.kmem.bitmap ∧
      ∀ p, k.Used p ↔ s.kmem.Used p ∧ ¬ TablePage c p := by
  have hend : c.toNat + defaultPages.toNat * 4096 < 2 ^ 64 := (h.whole c hc).2
  have hused : ∀ p, InRun c defaultPages p → s.kmem.isFree p = false := h.owned.used c hc
  have hok := (pmFree_used hend hused).1
  obtain ⟨hbits, hl, hbitmap⟩ := pmFree_run (k := s.kmem) hend
  obtain ⟨r, hr⟩ : ∃ r, pmFree s.kmem c defaultPages = r := ⟨_, rfl⟩
  rw [hr] at hok hbits hl hbitmap
  obtain ⟨st, k⟩ := r
  obtain rfl : st = .sysOk := hok
  exact ⟨k, hr, hl, hbitmap, used_freed hbits⟩

/-- No entry of an upper table refers to the PML4. -/
theorem child_ne_root {s : Machine} {as : AddrSpace} (h : Paged s as) {p : List (Fin 512)}
    (hlen : p.length < 3) {i : Fin 512} {c : UInt64}
    (hpc : Radix.descend (sub s.mem) as.root (p ++ [i]) = some c) : as.root ≠ c := by
  intro he
  have hsnoc : (p ++ [i]).length ≤ 3 := by
    rw [List.length_append, List.length_singleton]
    omega
  have hroot : Radix.descend (sub s.mem) as.root [] = some c := by
    rw [Radix.descend, he]
  have hnil := h.tree [] (p ++ [i]) c (Nat.zero_le 3) hsnoc hroot hpc
  exact absurd hnil.symm (List.append_ne_nil_of_right_ne_nil p (List.cons_ne_nil i []))

theorem dropTable_cases (s : Machine) (as : AddrSpace) (parent : UInt64) (i : Nat) (c : UInt64) :
    ∃ status k, pmFree s.kmem (virtToPhys c) defaultPages = (status, k) ∧
      dropTable s as parent i c = match status with
        | .sysErr => none
        | .sysOk => some (⟨k, setTableEntry s.mem parent i 0⟩,
            ⟨as.pml4, as.memoryList.erase (virtToPhys c)⟩) := by
  -- unfolding the applied function makes the kernel evaluate `pm_free`
  have hdef : dropTable = delta% dropTable := by
    delta dropTable
    exact Eq.refl _
  rw [hdef]
  beta_reduce
  generalize pmFree s.kmem (virtToPhys c) defaultPages = r
  obtain ⟨status, k⟩ := r
  refine ⟨status, k, rfl, ?_⟩
  cases status with
  | sysErr => rfl
  | sysOk => rfl

theorem dropTable_eq {s : Machine} {as : AddrSpace} {parent : UInt64} {i : Nat} {c : UInt64}
    {k : KernelMemInfo} (hfree : pmFree s.kmem (virtToPhys c) defaultPages = (.sysOk, k)) :
    dropTable s as parent i c =
      some (⟨k, setTableEntry s.mem parent i 0⟩,
        ⟨as.pml4, as.memoryList.erase (virtToPhys c)⟩) := by
  obtain ⟨status, k', hfree', hdrop⟩ := dropTable_cases s as parent i c
  rw [hfree', Prod.mk.injEq] at hfree
  obtain ⟨rfl, rfl⟩ := hfree
  exact hdrop

/-- Nothing is below a table that refers to none, nor below the lowest one. -/
theorem bare_below {m : Memory} {root c : UInt64} {p : List (Fin 512)} {i : Fin 512}
    (hpc : Radix.descend (sub m) root (p ++ [i]) = some c)
    (hbare : p.length < 2 → ∀ j, sub m c j = none) {l : List (Fin 512)} (hl : l ≠ [])
    (hlen : (p ++ i :: l).length ≤ 3) : Radix.descend (sub m) root (p ++ i :: l) = none := by
  rw [List.append_cons, Radix.descend_append, hpc, Option.bind_some]
  cases l with
  | nil => exact absurd rfl hl
  | cons j l =>
    rw [List.length_append, List.length_cons, List.length_cons] at hlen
    rw [Radix.descend, hbare (by omega) j, Option.bind_none]

/-- `dropTable` of a table with nothing below it returns, and takes away the pages
    of its region only. -/
theorem dropTable_spec {s : Machine} {as : AddrSpace} (h : Paged s as) {p : List (Fin 512)}
    {t c : UInt64} (hp : Radix.descend (sub s.mem) as.root p = some t) (hlen : p.length < 3)
    {i : Fin 512} (hc : sub s.mem t i = some c)
    (hbare : p.length < 2 → ∀ j, sub s.mem c j = none) :
    ∃ s' as', dropTable s as (physToVirt t) i (physToVirt c) = some (s', as') ∧
      Paged s' as' ∧ Local s as s' as' ∧
      (∀ q : List (Fin 512), q.length ≤ 3 → Radix.descend (sub s'.mem) as'.root q =
        if q = p ++ [i] then none else Radix.descend (sub s.mem) as.root q) ∧
      ∀ w, walk s'.mem as' w = if path w = p ++ [i] then none else walk s.mem as w := by
  have hsnoc : (p ++ [i]).length ≤ 3 := by
    rw [List.length_append, List.length_singleton]
    omega
  have hpc : Radix.descend (sub s.mem) as.root (p ++ [i]) = some c := by
    rw [Radix.descend_snoc, hp, Option.bind_some, hc]
  have ht := h.mem_frames (Nat.le_of_lt hlen) hp
  have hcf := h.mem_frames hsnoc hpc
  have hcroot : as.root ≠ c := child_ne_root h hlen hpc
  obtain ⟨k, hfree, hl, hbitmap, hused⟩ := pmFree_table h hcf
  obtain ⟨m, hm⟩ : ∃ m, m = setTableEntry s.mem (physToVirt t) i 0 := ⟨_, rfl⟩
  have hst : Stored as s.mem m t i 0 := hm ▸ stored_set h ht (index_lt i) 0
  have hslot : sub m t i = none := by
    apply sub_of_not_present
    rw [hst t ht i (index_lt i), if_pos ⟨rfl, rfl⟩]
    exact zero_not_present
  have hnew : ∀ g, sub m t i = some g → ∀ j, j < 4096 → tableEntry m (physToVirt g) j = 0 := by
    intro g hg
    rw [hslot] at hg
    cases hg
  have hbelow : ∀ l, l ≠ [] → (p ++ i :: l).length ≤ 3 →
      Radix.descend (sub s.mem) as.root (p ++ i :: l) = none :=
    fun l hne hshort => bare_below hpc hbare hne hshort
  have hedit := stored_edit h hp hlen hst
  have hbare' := slot_bare hnew
  obtain ⟨hlink, htail⟩ := upper_links h hp hlen hst hbelow hnew (Or.inl rfl)
  have hdesc := fun (q : List (Fin 512)) (hq : q.length ≤ 3) =>
    upper_descend h hp hlen hst hbelow hnew hq
  rw [hslot] at hdesc
  have hframes := frames_erase hcroot
  refine ⟨⟨k, m⟩, ⟨as.pml4, as.memoryList.erase c⟩, ?_, ⟨hl ▸ h.limit, ?_, ?_, ?_, ?_, hlink, htail⟩,
    ⟨hl, hbitmap, rfl, ?_⟩, hdesc, ?_⟩
  · have hphys := virtToPhys_physToVirt c
    have heq : dropTable s as (physToVirt t) i (physToVirt c) =
        some (⟨k, setTableEntry s.mem (physToVirt t) i 0⟩,
          ⟨as.pml4, as.memoryList.erase (virtToPhys (physToVirt c))⟩) :=
      dropTable_eq (hphys.symm ▸ hfree)
    rw [hphys, ← hm] at heq
    exact heq
  · rw [hframes]
    exact fun u hu => h.whole u (List.mem_of_mem_erase hu)
  · rw [hframes]
    exact h.owned.release hcf (fun p hu hout => (hused p).mpr ⟨hu, hout⟩)
  · exact hedit.tree' hbelow hbare' (fun g hg => by
      rw [hslot] at hg
      cases hg)
  · intro u
    have hroot : (⟨as.pml4, as.memoryList.erase c⟩ : AddrSpace).root = as.root := rfl
    rw [hframes, hroot, hedit.reached_iff hbelow hbare', hslot, hc, h.nodup.mem_erase_iff, h.reached]
    simp only [reduceCtorEq, false_or, ne_eq, Option.some.injEq]
    rw [and_comm, eq_comm]
  · intro p hu hf
    refine ⟨(hused p).mpr ⟨hu, hf c hcf⟩, fun u hu' => ?_, fun x hx => ?_⟩
    · rw [hframes] at hu'
      exact hf u (List.mem_of_mem_erase hu')
    · show m x = s.mem x
      rw [hm, setTableEntry_only (h.whole t ht) (index_lt i)]
      exact fun hin => hf t ht (hx ▸ hin)
  · intro w
    have hw := upper_walk h hp hlen hst hbelow hnew w
    rw [hslot, Option.bind_none] at hw
    exact hw

end Horizon64
