import Horizon64.PhysicalLimit
import Horizon64.TableFrames
import Horizon64.VmInit

/- Runs below a lower limit.

   A bitmap whose last byte is in a page that nobody reserves is not guarded, but with a limit
   below the pages of that byte it is (`PhysicalLimit`). There the state after a run can be
   given exactly.

   1. `FreeBelow`, `Exact`: which pages are free, and which tables there are.
   2. One lemma for a new table, a leaf and a page.
   3. The passes over the direct map.
   4. The first record and the first tables. -/
namespace Horizon64
open Words Bytes Isolation

/-- The free pages below the limit are those of `S`. -/
def FreeBelow (k : KernelMemInfo) (S : Nat → Prop) : Prop :=
  ∀ p, 4096 * p < k.physicalLimit.toNat → (k.isFree p = true ↔ S p)

theorem freeBelow_ram (m : Machine) {S : Nat → Prop} :
    FreeBelow m.ram.load S ↔ FreeBelow m.kmem S := by
  refine forall₂_congr fun p hp => ?_
  rw [(over_load m).isFree]
  have hlt : 4096 * p < m.kmem.physicalLimit.toNat := hp
  rw [KernelMemInfo.bitmapSpan, spanOf]
  omega

theorem FreeBelow.congr {k : KernelMemInfo} {S T : Nat → Prop} (h : FreeBelow k S)
    (heq : ∀ p, S p ↔ T p) : FreeBelow k T := fun p hp => (h p hp).trans (heq p)

/-- `pm_get` takes the first run that is long enough. -/
theorem FreeBelow.get {k : KernelMemInfo} {S : Nat → Prop} (h : FreeBelow k S) {n : UInt64} {q : Nat}
    (hpos : 0 < n.toNat) (hlim : k.physicalLimit.toNat + n.toNat * 4096 < 2 ^ 64)
    (hq : 4096 * (q + n.toNat) ≤ k.physicalLimit.toNat) (hfree : ∀ p, q ≤ p → p < q + n.toNat → S p)
    (hbefore : ∀ a < q, ∃ p, a ≤ p ∧ p < a + n.toNat ∧ ¬ S p) :
    ∃ k', pmGet k n 0 = some (frame q, k') ∧ k'.physicalLimit = k.physicalLimit ∧
      k'.bitmap = k.bitmap ∧ FreeBelow k' fun p => S p ∧ ¬ (q ≤ p ∧ p < q + n.toNat) := by
  obtain ⟨k', hget, hlimit, hbitmap, hbits⟩ := @pmGet_first k n q hpos hlim (by omega)
    (fun p hlow hhigh => (h p (by omega)).mpr (hfree p hlow hhigh))
    fun a ha => by
      obtain ⟨p, hlow, hhigh, hnot⟩ := hbefore a ha
      exact ⟨p, hlow, hhigh, Bool.not_eq_true _ ▸ fun hf => hnot ((h p (by omega)).mp hf)⟩
  refine ⟨k', hget, hlimit, hbitmap, fun p hp => ?_⟩
  rw [hlimit] at hp
  rw [hbits, Bool.and_eq_true, h p hp, Bool.not_eq_true', decide_eq_false_iff_not]

/-! What there is, exactly. -/

/-- The bytes of a vector that has grown to `n` words, one at a time. -/
def tableCapacity (n : Nat) : Nat :=
  if n ≤ 4 then 32 else if n ≤ 20 then 160 else if n ≤ 84 then 672 else 2720

theorem tableCapacity_step {n : Nat} (hn : 1 ≤ n) (hn' : n < 340) :
    (tableCapacity n < (n + 1) * 8 → tableCapacity (n + 1) = (n + 1) * 8 * 4) ∧
      (¬ tableCapacity n < (n + 1) * 8 → tableCapacity (n + 1) = tableCapacity n) := by
  simp only [tableCapacity]
  split_ifs <;> omega

theorem tableCapacity_page (n : Nat) : 0 < tableCapacity n ∧ tableCapacity n ≤ 4096 := by
  simp only [tableCapacity]
  split_ifs <;> omega

/-- A list of `n` tables whose block is at page 0x309. -/
structure ListAt (n : Nat) (v : Vec) : Prop where
  data : v.data = physToVirt (frame 0x30A)
  length : v.length.toNat = n
  capacity : v.capacity.toNat = tableCapacity n

/-- With the limit at page 0x17FF0: of the pages from 0x303 on, `8 * n` are taken up to page
    0x92B, and the rest is free. The PDPT of the direct map is right behind the 3 pages of the
    bitmap, and `S` has the tables below the PML4. -/
structure Exact (c : Ram) (as : Space Vec) (n : Nat) (S : List (Fin 512) → Prop) : Prop where
  free : FreeBelow c.load fun p => 0x303 + 8 * n ≤ p ∧ p < 0x92B
  pml4 : as.pml4 = physToVirt (frame 0x301)
  list : ListAt n as.memoryList
  tables : ∀ q, q ≠ [] → q.length ≤ 3 →
    ((Radix.descend (sub c.mem) as.tables.root q).isSome ↔ S q)
  pdpt : Radix.descend (sub c.mem) as.tables.root [256] = some (frame 0x203)
  last : ∀ p, p / 8 = 0x2FFF → (c.load.isFree p = true ↔ 0x17FF9 ≤ p)

theorem Exact.congr_tables {c : Ram} {as : Space Vec} {n : Nat} {S T : List (Fin 512) → Prop}
    (h : Exact c as n S) (hT : ∀ q, S q ↔ T q) : Exact c as n T :=
  ⟨h.free, h.pml4, h.list, fun q hne hq => (h.tables q hne hq).trans (hT q), h.pdpt, h.last⟩

/-- The fence of that limit. -/
structure LowFence (k₀ : KernelMemInfo) : Prop where
  limit : k₀.physicalLimit = 0x17FF0000
  bitmap : k₀.bitmap = physToVirt (frame 0x200)

section Last
variable {k₀ : KernelMemInfo} (hk : LowFence k₀)
include hk

theorem LowFence.limit_toNat {m : Machine} (h : fence.inv m k₀) :
    m.kmem.physicalLimit.toNat = 0x17FF0000 := by
  rw [show m.kmem.physicalLimit = k₀.physicalLimit from congrArg Prod.fst h.1, hk.limit]
  rfl

theorem LowFence.small : k₀.physicalLimit.toNat + 4096 ≤ 2 ^ 47 := by
  rw [hk.limit]
  decide

theorem LowFence.last_kept : k₀.Kept (pageOf (virtToPhys (k₀.bitmap + UInt64.ofNat 0x2FFF))) := by
  refine Or.inr ⟨k₀.bitmap + UInt64.ofNat 0x2FFE, ?_, ?_⟩
  · rw [KernelMemInfo.InBitmap, add_sub_left, KernelMemInfo.bitmapSpan, hk.limit]
    decide
  · rw [hk.bitmap]
    decide

theorem LowFence.last_framed {L : Type} {R : Owner machinePages L} {m m' : Machine} {y y' : L}
    (h : (fence.star R).inv m (k₀, y)) (hframed : Framed R m y m' y') {p : Nat}
    (hp : p / 8 = 0x2FFF) : m'.ram.load.isFree p = m.ram.load.isFree p := by
  have hconst : machinePages.const m = (k₀.physicalLimit, k₀.bitmap) := h.1.1
  have hconst' : machinePages.const m' = (k₀.physicalLimit, k₀.bitmap) := hframed.const.trans hconst
  have hat : ∀ m : Machine, machinePages.const m = (k₀.physicalLimit, k₀.bitmap) →
      m.ram.load.bytes 0x2FFF = m.mem (k₀.bitmap + UInt64.ofNat 0x2FFF) := by
    intro m hm
    have hlimit : m.kmem.physicalLimit = k₀.physicalLimit := congrArg Prod.fst hm
    have hbitmap : m.kmem.bitmap = k₀.bitmap := congrArg Prod.snd hm
    have hload : m.ram.kmem.bitmap = k₀.bitmap := hbitmap
    rw [load_bytes, hload]
    refine m.ram_mem ?_
    rw [KernelMemInfo.InBitmap, hbitmap, add_sub_left, KernelMemInfo.bitmapSpan, hlimit, hk.limit]
    decide
  have hkept := hk.last_kept
  have hsame := (hframed.keep _ (h.1.2 _ hkept) fun hin => h.2.2 _ hkept hin).2.2 _ rfl
  rw [KernelMemInfo.isFree, KernelMemInfo.isFree, BitArray.get, BitArray.get, hp, hat m hconst,
    hat m' hconst', hsame]

end Last

/-! One step each. -/

theorem ListAt.append {k₀ : KernelMemInfo} {m : Machine} {v : Vec} {l : List UInt64} {n : Nat}
    (h : ListAt n v) (hinv : (fence.star listOwner).inv m (k₀, (v, l))) (hn : 1 ≤ n) (hn' : n < 340)
    (func : Nat → UInt8) (x line : UInt64) :
    ∃ m' v', (memoryList func).append m.ram v x line = some ((⟨m.kmem, m'⟩ : Machine).ram, v') ∧
      ListAt (n + 1) v' := by
  obtain ⟨hdata, hlength, hcapacity⟩ := h
  obtain ⟨-, ⟨-, k, hlim, hvec⟩, -⟩ := id hinv
  obtain ⟨hgrows, hstays⟩ := tableCapacity_step hn hn'
  have height : (8 : UInt64).toNat = 8 := rfl
  obtain ⟨hlen', hmul, hcap⟩ := @grow_numbers 8 v (by decide)
    (by rw [hlength, height]; omega)
  rw [hlength] at hlen' hmul hcap
  rw [height] at hmul hcap
  have hlt : v.capacity < (v.length + 1) * 8 ↔ tableCapacity n < (n + 1) * 8 := by
    rw [UInt64.lt_iff_toNat_lt, hcapacity, hmul]
  have hnonnull : v.data ≠ 0 := by
    rw [hdata]
    decide
  obtain ⟨m₁, hgrow⟩ := @vectorGrow_inPlace 8 func k m v _ hvec hnonnull (fun hless => by
    obtain ⟨hlow, hhigh⟩ := tableCapacity_page n
    obtain ⟨hlow', hhigh'⟩ := tableCapacity_page (n + 1)
    rw [hgrows (hlt.mp hless)] at hlow' hhigh'
    rw [one_page (n := v.capacity) (by rw [hcapacity]; exact hlow) (by rw [hcapacity]; exact hhigh),
      one_page (by rw [hcap]; exact hlow') (by rw [hcap]; exact hhigh')]) line
  obtain ⟨m₂, happ⟩ := @vecKeeper_append _ 8 wordBytes bytesWord func m v (by decide) (by decide)
    (fun _ => rfl) k₀ l hinv line _ _ hgrow x
  refine ⟨m₂, _, happ, hdata, hlen', ?_⟩
  dsimp only
  split
  · next hless => rw [hcap, hgrows (hlt.mp hless)]
  · next hless => rw [hcapacity, hstays fun hin => hless (hlt.mpr hin)]

section Steps
variable (func : Nat → UInt8) {k₀ : KernelMemInfo} (hk : LowFence k₀) {m : Machine} {as : Space Vec}
  {l : List UInt64} (hinv : (fence.star (spaceOwner listOwner)).inv m (k₀, (as, l))) {n : Nat}
  {S : List (Fin 512) → Prop} (h : Exact m.ram as n S)
include hk hinv h

/-- A table that is not there takes the next 8 pages. -/
theorem Exact.new {p : List (Fin 512)} {t : UInt64}
    (hp : Radix.descend (sub m.mem) as.tables.root p = some t) (hlen : p.length < 3) {i : Fin 512}
    (hS : ¬ S (p ++ [i])) (hn : 1 ≤ n) (hn' : n < 197) (line : UInt64) :
    ∃ (m' : Machine) (v : Vec) (l' : List UInt64),
      m.ram.nextTable (memoryList func) as (physToVirt t) i line =
        some (m'.ram, ⟨as.pml4, v⟩, physToVirt (frame (0x303 + 8 * n))) ∧
      Framed (spaceOwner listOwner) m (as, l) m' (⟨as.pml4, v⟩, l') ∧
      Exact m'.ram ⟨as.pml4, v⟩ (n + 1) (fun q => S q ∨ q = p ++ [i]) ∧
      ∀ q : List (Fin 512), q.length ≤ 3 → Radix.descend (sub m'.mem) as.tables.root q =
        if q = p ++ [i] then some (frame (0x303 + 8 * n))
        else Radix.descend (sub m.mem) as.tables.root q := by
  have hlimit := hk.limit_toNat hinv.1
  have height : defaultPages.toNat = 8 := rfl
  have hsnoc : (p ++ [i]).length ≤ 3 := by
    rw [List.length_append, List.length_singleton]
    omega
  have hnot : checkNotPresent (tableEntry m.mem (physToVirt t) i) = true := by
    by_contra hpres
    refine hS ((h.tables _ (by simp) hsnoc).mp ?_)
    rw [ram_descend hinv hsnoc, Radix.descend_snoc, hp, Option.bind_some,
      sub_of_present (Bool.eq_false_iff.mpr hpres)]
    rfl
  obtain ⟨k, hget, hlimit', -, hfree⟩ := ((freeBelow_ram m).mp h.free).get (n := defaultPages)
    (q := 0x303 + 8 * n) (by decide) (by rw [hlimit]; decide) (by rw [hlimit, height]; omega)
    (fun p hlow hhigh => by rw [height] at hhigh; omega)
    (fun a ha => ⟨a, Nat.le_refl a, by rw [height]; omega, by omega⟩)
  have hnonzero : frame (0x303 + 8 * n) ≠ 0 := by
    intro hz
    have hnat := congrArg UInt64.toNat hz
    rw [toNat_ofNat_of_lt (by omega), UInt64.toNat_zero] at hnat
    omega
  obtain ⟨m', v, l', hnext, ⟨hfree', hlist⟩, hframed, hdesc⟩ := nextTable_new (memoryList_laws func)
    hinv hp hlen hnot hget hnonzero
    (P := fun c v => FreeBelow c.load (fun p => 0x303 + 8 * (n + 1) ≤ p ∧ p < 0x92B) ∧
      ListAt (n + 1) v)
    (fun mem hm => by
      obtain ⟨mem', v, happ, hlist⟩ := h.list.append hm hn (by omega) func
        (frame (0x303 + 8 * n)) line
      refine ⟨_, v, happ, (freeBelow_ram ⟨k, mem'⟩).mpr ?_, hlist⟩
      exact hfree.congr fun p => by rw [height]; omega)
  have hinv' := (hframed.right hinv).inv
  have hroot : (⟨as.pml4, v⟩ : Space Vec).tables.root = as.tables.root := rfl
  refine ⟨m', v, l', hnext, hframed, ⟨hfree', h.pml4, hlist, fun q hne hq => ?_, ?_, fun p hp => ?_⟩,
    hdesc⟩
  · rw [ram_descend hinv' hq, hroot, hdesc q hq, ← h.tables q hne hq, ram_descend hinv hq]
    split
    · next heq => simp [heq]
    · next heq => simp [heq]
  · have hin : S [256] := (h.tables [256] (by simp) (by simp)).mp (by rw [h.pdpt]; rfl)
    have hne : ¬ ([256] : List (Fin 512)) = p ++ [i] := fun heq => hS (heq ▸ hin)
    rw [ram_descend hinv' (by simp), hroot, hdesc _ (by simp), if_neg hne,
      ← ram_descend hinv (by simp), h.pdpt]
  · rw [hk.last_framed hinv hframed hp]
    exact h.last p hp

theorem Exact.leaf {v t : UInt64}
    (ht : Radix.descend (sub m.mem) as.tables.root (path v) = some t) (e : UInt64) :
    ∃ m' : Machine, (⟨m.ram.kmem, setTableEntry m.ram.mem (physToVirt t) (pte v) e⟩ : Ram) = m'.ram ∧
      Framed (spaceOwner listOwner) m (as, l) m' (as, l) ∧ Exact m'.ram as n S := by
  obtain ⟨m', hram, hkmem, hframed, hdesc, -⟩ := setLeaf_ram hinv ht e
  have hinv' := (hframed.right hinv).inv
  have hsame : ∀ q : List (Fin 512), q.length ≤ 3 → Radix.descend (sub m'.ram.mem) as.tables.root q =
      Radix.descend (sub m.ram.mem) as.tables.root q := fun q hq => by
    rw [ram_descend hinv' hq, hdesc q hq, ram_descend hinv hq]
  refine ⟨m', hram, hframed, (freeBelow_ram m').mpr ?_, h.pml4, h.list, fun q hne hq => ?_, ?_,
    fun p hp => ?_⟩
  · rw [hkmem]
    exact (freeBelow_ram m).mp h.free
  · rw [hsame q hq]
    exact h.tables q hne hq
  · rw [hsame _ (by simp)]
    exact h.pdpt
  · rw [hk.last_framed hinv hframed hp]
    exact h.last p hp

theorem Exact.page_again {v : UInt64} (hS : S (path v)) (physAddr flags : UInt64) :
    ∃ m' : Machine, m.ram.mapPageEntry (memoryList func) as v physAddr flags = some (m'.ram, as) ∧
      Framed (spaceOwner listOwner) m (as, l) m' (as, l) ∧ Exact m'.ram as n S := by
  obtain ⟨t, ht⟩ := Option.isSome_iff_exists.mp
    ((h.tables (path v) (by simp [path]) (Nat.le_of_eq (path_length v))).mpr hS)
  have hmap := ram_mapPageEntry_again (K := memoryList func) ht physAddr flags
  rw [ram_descend hinv (Nat.le_of_eq (path_length v))] at ht
  obtain ⟨m', hram, hframed, hexact⟩ := h.leaf hk hinv ht (makeTableEntry (physAddr &&& ~~~0xFFF) flags)
  exact ⟨m', by rw [hmap, hram], hframed, hexact⟩

theorem Exact.page_new {v : UInt64} (h₁ : S [pml4e v]) (h₂ : S [pml4e v, pdpe v])
    (hS : ¬ S (path v)) (hn : 1 ≤ n) (hn' : n < 197) (physAddr flags : UInt64) :
    ∃ (m' : Machine) (w : Vec) (l' : List UInt64),
      m.ram.mapPageEntry (memoryList func) as v physAddr flags = some (m'.ram, ⟨as.pml4, w⟩) ∧
      Framed (spaceOwner listOwner) m (as, l) m' (⟨as.pml4, w⟩, l') ∧
      Exact m'.ram ⟨as.pml4, w⟩ (n + 1) fun q => S q ∨ q = path v := by
  have hroot : as.pml4 = physToVirt as.tables.root := (physToVirt_virtToPhys as.pml4).symm
  obtain ⟨pdpt, ht₁⟩ := Option.isSome_iff_exists.mp ((h.tables _ (by simp) (by simp)).mpr h₁)
  obtain ⟨pd, ht₂⟩ := Option.isSome_iff_exists.mp ((h.tables _ (by simp) (by simp)).mpr h₂)
  have hnext₁ := ram_nextTable_present (K := memoryList func)
    (sub_of_descend (Radix.descend_nil _) ht₁) as 263
  have hnext₂ := ram_nextTable_present (K := memoryList func)
    (sub_of_descend (p := [pml4e v]) ht₁ ht₂) as 276
  rw [← hroot] at hnext₁
  rw [ram_descend hinv (by simp)] at ht₂
  obtain ⟨m₁, w, l', hnext₃, hframed₁, hexact₁, hdesc₁⟩ :=
    h.new func hk hinv ht₂ (by simp) hS hn hn' 289
  have hinv₁ := (hframed₁.right hinv).inv
  have ht₃ : Radix.descend (sub m₁.mem) as.tables.root (path v) = some (frame (0x303 + 8 * n)) :=
    (hdesc₁ (path v) (Nat.le_of_eq (path_length v))).trans (if_pos rfl)
  obtain ⟨m', hram, hframed, hexact⟩ := hexact₁.leaf hk hinv₁ ht₃
    (makeTableEntry (physAddr &&& ~~~0xFFF) flags)
  refine ⟨m', w, l', ?_, hframed₁.trans hframed, hexact⟩
  rw [ram_mapPageEntry_eq hnext₁ hnext₂ hnext₃ physAddr flags, hram]

end Steps

/-! The direct map. -/

/-- The tables of the first `R` regions of the direct map. -/
def DirectTables (R : Nat) (q : List (Fin 512)) : Prop :=
  q = [256] ∨ q = [256, 0] ∨ ∃ r : Fin 512, r.val < R ∧ q = [256, 0, r]

theorem directTables_succ {R : Nat} (r : Fin 512) (hr : r.val = R) (q : List (Fin 512)) :
    DirectTables (R + 1) q ↔ DirectTables R q ∨ q = [256, 0, r] := by
  have hlast : (∃ r' : Fin 512, r'.val < R + 1 ∧ q = [256, 0, r']) ↔
      (∃ r' : Fin 512, r'.val < R ∧ q = [256, 0, r']) ∨ q = [256, 0, r] := by
    constructor
    · rintro ⟨r', hlt, rfl⟩
      rcases Nat.lt_or_ge r'.val R with hless | hge
      · exact Or.inl ⟨r', hless, rfl⟩
      · obtain rfl : r' = r := Fin.ext (by omega)
        exact Or.inr rfl
    · rintro (⟨r', hlt, rfl⟩ | rfl)
      · exact ⟨r', by omega, rfl⟩
      · exact ⟨r, by omega, rfl⟩
  rw [DirectTables, DirectTables, hlast, or_assoc, or_assoc]

/-- Page `j` of the direct map. -/
abbrev directPage (j : Nat) : UInt64 := memVirtOffset + pageSize * UInt64.ofNat j

theorem directPage_path {j : Nat} (hj : j < 2 ^ 18) {r : Fin 512} (hr : r.val = j / 512) :
    path (directPage j) = [256, 0, r] := by
  have hpage := page_toNat (j := j) (by omega)
  have hnum : pageNum (directPage j) = 2 ^ 35 + j := by
    have hdirect := direct_pageNum (a := pageSize * UInt64.ofNat j) (by omega)
    rw [hpage, Nat.mul_div_cancel_left _ (by decide)] at hdirect
    exact hdirect
  have h4 : pml4e (directPage j) = 256 := Fin.ext (by rw [pml4e_val, hnum]; show _ = 256; omega)
  have h3 : pdpe (directPage j) = 0 := Fin.ext (by rw [pdpe_val, hnum]; show _ = 0; omega)
  have h2 : pde (directPage j) = r := Fin.ext (by rw [pde_val, hnum, hr]; omega)
  rw [path, h4, h3, h2]

theorem directPage_upper {j : Nat} (hj : j < 2 ^ 18) :
    pml4e (directPage j) = 256 ∧ pdpe (directPage j) = 0 := by
  have hpath := directPage_path (r := ⟨j / 512, by omega⟩) hj rfl
  rw [path] at hpath
  obtain ⟨h4, hrest⟩ := List.cons.inj hpath
  exact ⟨h4, (List.cons.inj hrest).1⟩

/-- The regions with a page among the first `j` of the direct map. -/
def regionsTo (j : Nat) : Nat := (j + 511) / 512

theorem regionsTo_start {j : Nat} (h : j % 512 = 0) :
    regionsTo j = j / 512 ∧ regionsTo (j + 1) = j / 512 + 1 := by
  rw [regionsTo, regionsTo]
  omega

theorem regionsTo_inside {j : Nat} (h : j % 512 ≠ 0) :
    regionsTo (j + 1) = regionsTo j ∧ j / 512 < regionsTo j := by
  rw [regionsTo, regionsTo]
  omega

/-- What became of the space in the memory of `m` by writes to its own pages. -/
def Reached (m : Machine) (as : Space Vec) (l : List UInt64) (n : Nat)
    (S : List (Fin 512) → Prop) (r : Ram × Space Vec) : Prop :=
  ∃ (m' : Machine) (v : Vec) (l' : List UInt64), r = (m'.ram, ⟨as.pml4, v⟩) ∧
    Framed (spaceOwner listOwner) m (as, l) m' (⟨as.pml4, v⟩, l') ∧ Exact m'.ram ⟨as.pml4, v⟩ n S

section Passes
variable (func : Nat → UInt8) {k₀ : KernelMemInfo} (hk : LowFence k₀) {m : Machine} {as : Space Vec}
  {l : List UInt64} (hinv : (fence.star (spaceOwner listOwner)).inv m (k₀, (as, l))) {n : Nat}
  {S : List (Fin 512) → Prop} {r : Ram × Space Vec} (h : Reached m as l n S r)
include hk hinv h

theorem Reached.page_again {v : UInt64} (hS : S (path v)) (physAddr flags : UInt64) :
    ∃ r', r.1.mapPageEntry (memoryList func) r.2 v physAddr flags = some r' ∧
      Reached m as l n S r' := by
  obtain ⟨m₁, w, l₁, rfl, hframed₁, hexact⟩ := h
  obtain ⟨m', hmap, hframed, hexact'⟩ :=
    hexact.page_again func hk (hframed₁.right hinv).inv hS physAddr flags
  exact ⟨_, hmap, m', w, l₁, rfl, hframed₁.trans hframed, hexact'⟩

theorem Reached.page_new {v : UInt64} (h₁ : S [pml4e v]) (h₂ : S [pml4e v, pdpe v])
    (hS : ¬ S (path v)) (hn : 1 ≤ n) (hn' : n < 197) (physAddr flags : UInt64) :
    ∃ r', r.1.mapPageEntry (memoryList func) r.2 v physAddr flags = some r' ∧
      Reached m as l (n + 1) (fun q => S q ∨ q = path v) r' := by
  obtain ⟨m₁, w, l₁, rfl, hframed₁, hexact⟩ := h
  obtain ⟨m', w', l', hmap, hframed, hexact'⟩ :=
    hexact.page_new func hk (hframed₁.right hinv).inv h₁ h₂ hS hn hn' physAddr flags
  exact ⟨_, hmap, m', w', l', rfl, hframed₁.trans hframed, hexact'⟩

theorem Reached.pages_again {v k : UInt64} (physAddr flags : UInt64)
    (hS : ∀ j < k.toNat, S (path (v + pageSize * UInt64.ofNat j))) :
    ∃ r', r.1.mapPages (memoryList func) r.2 v physAddr k flags = some r' ∧
      Reached m as l n S r' := by
  refine Folds.foldlM_returns (fun r i hi hr => ?_) h
  rw [pages_offsets] at hi
  obtain ⟨j, hj, rfl⟩ := List.mem_map.mp hi
  have hlt := List.mem_range.mp hj
  exact hr.page_again func hk hinv (hS j (by omega)) _ _

end Passes

section DirectPass
variable (func : Nat → UInt8) {k₀ : KernelMemInfo} (hk : LowFence k₀) {m : Machine} {as : Space Vec}
  {l : List UInt64} (hinv : (fence.star (spaceOwner listOwner)).inv m (k₀, (as, l)))
include hk hinv

/-- One page of the first pass: a new page table at the start of a region. -/
theorem Reached.direct_page {j : Nat} (hpos : 0 < j) (hj : j < 98306) {r : Ram × Space Vec}
    (h : Reached m as l (regionsTo j + 2) (DirectTables (regionsTo j)) r) (physAddr flags : UInt64) :
    ∃ r', r.1.mapPageEntry (memoryList func) r.2 (directPage j) physAddr flags = some r' ∧
      Reached m as l (regionsTo (j + 1) + 2) (DirectTables (regionsTo (j + 1))) r' := by
  obtain ⟨i, hi⟩ : ∃ i : Fin 512, i.val = j / 512 := ⟨⟨j / 512, by omega⟩, rfl⟩
  have hpath := directPage_path (by omega) hi
  obtain ⟨h4, h3⟩ := directPage_upper (j := j) (by omega)
  by_cases hstart : j % 512 = 0
  · obtain ⟨hthis, hnext⟩ := regionsTo_start hstart
    rw [hthis] at h
    obtain ⟨r', hr', m', v, l', heq, hframed, hexact⟩ := h.page_new func hk hinv
      (Or.inl (by rw [h4])) (Or.inr (Or.inl (by rw [h4, h3])))
      (fun hin => by
        rw [hpath] at hin
        rcases hin with hin | hin | ⟨r, hr, hin⟩
        · simp at hin
        · simp at hin
        · simp only [List.cons.injEq, true_and, and_true] at hin
          rw [← hin] at hr
          omega)
      (by omega) (by omega) physAddr flags
    refine ⟨r', hr', m', v, l', heq, hframed, ?_⟩
    rw [hnext, show j / 512 + 1 + 2 = j / 512 + 2 + 1 by omega]
    exact hexact.congr_tables fun q => by rw [hpath, directTables_succ i hi]
  · obtain ⟨hsame, hlt⟩ := regionsTo_inside hstart
    rw [hsame]
    have hin : DirectTables (regionsTo j) (path (directPage j)) :=
      hpath ▸ Or.inr (Or.inr ⟨i, hi ▸ hlt, rfl⟩)
    exact h.page_again func hk hinv hin physAddr flags

theorem direct_pass {n : UInt64} (hpos : 0 < n.toNat) (hn : n.toNat ≤ 98306) {flags : UInt64}
    {r : Ram × Space Vec}
    (hfirst : m.ram.mapPageEntry (memoryList func) as (directPage 0) (0 + pageSize * UInt64.ofNat 0)
      flags = some r) (h : Reached m as l 3 (DirectTables 1) r) :
    ∃ r', m.ram.mapPages (memoryList func) as memVirtOffset 0 n flags = some r' ∧
      Reached m as l (regionsTo n.toNat + 2) (DirectTables (regionsTo n.toNat)) r' := by
  have hmod : n.toNat % 2 ^ 52 = n.toNat := by omega
  rw [Ram.mapPages, pages_offsets, hmod, List.foldlM_map]
  obtain ⟨r', hr', hP⟩ := Folds.foldlM_range
    (f := fun r j => r.1.mapPageEntry (memoryList func) r.2 (directPage j)
      (0 + pageSize * UInt64.ofNat j) flags) (n := n.toNat) (s := (m.ram, as))
    (P := fun j r => j = 0 ∧ r = (m.ram, as) ∨
      0 < j ∧ Reached m as l (regionsTo j + 2) (DirectTables (regionsTo j)) r)
    (fun j hj r hr => by
      rcases hr with ⟨rfl, rfl⟩ | ⟨hjpos, hr⟩
      · exact ⟨_, hfirst, Or.inr ⟨by decide, h⟩⟩
      · obtain ⟨r', hr', hreached⟩ := hr.direct_page func hk hinv hjpos (by omega)
          (0 + pageSize * UInt64.ofNat j) flags
        exact ⟨r', hr', Or.inr ⟨by omega, hreached⟩⟩)
    (Or.inl ⟨rfl, rfl⟩)
  refine ⟨r', hr', ?_⟩
  rcases hP with ⟨hzero, -⟩ | ⟨-, hreached⟩
  · omega
  · exact hreached

end DirectPass

/-! The first record and the first tables. -/

/-- The first element of a list takes the first free pages. -/
theorem FreeBelow.append {α : Type} {size : UInt64} {enc : α → List UInt8} (dec : List UInt8 → α)
    (func : Nat → UInt8) {m : Machine} {S : Nat → Prop} (h : FreeBelow m.kmem S)
    (hsize : 1 ≤ size.toNat) (hsmall : size.toNat ≤ 2 ^ 32)
    (henc : ∀ a, (enc a).length = size.toNat) {k₀ : KernelMemInfo} {l : List α}
    (hinv : (fence.star (vecOwner size enc)).inv m (k₀, (vectorNew, l)))
    (htwo : (numPages (size * resize) + 1).toNat = 2) {q : Nat}
    (hlim : m.kmem.physicalLimit.toNat + 2 * 4096 < 2 ^ 64)
    (hq : 4096 * (q + 2) ≤ m.kmem.physicalLimit.toNat) (hrun : ∀ p, q ≤ p → p < q + 2 → S p)
    (hbefore : ∀ a < q, ¬ S a) (x : α) (line : UInt64) :
    ∃ (k : KernelMemInfo) (mem : Memory), (vecKeeper size enc dec func).append m.ram vectorNew x line =
        some ((⟨k, mem⟩ : Machine).ram, ⟨1, size * resize, physToVirt (frame q) + pageSize⟩) ∧
      FreeBelow k fun p => S p ∧ ¬ (q ≤ p ∧ p < q + 2) := by
  obtain ⟨k, hget, -, -, hfree⟩ := h.get (n := numPages (size * resize) + 1) (q := q)
    (by rw [htwo]; decide) (by rw [htwo]; exact hlim) (by rw [htwo]; exact hq)
    (by rw [htwo]; exact hrun) (fun a ha => ⟨a, Nat.le_refl a, by rw [htwo]; omega, hbefore a ha⟩)
  obtain ⟨m₁, hgrow⟩ := @vectorGrow_first size func m hsize _ _ hget line
  obtain ⟨m₂, happ⟩ :=
    @vecKeeper_append α size enc dec func m _ hsize hsmall henc _ _ hinv _ _ _ hgrow x
  rw [htwo] at hfree
  exact ⟨k, m₂, happ, hfree⟩

/-- A PML4 with nothing mapped, and the free pages. -/
structure Fresh (c : Ram) (as : Space Vec) (S : Nat → Prop) : Prop where
  free : FreeBelow c.load S
  pml4 : as.pml4 = physToVirt (frame 0x301)
  list : as.memoryList = vectorNew
  tables : ∀ q, q ≠ [] → q.length ≤ 3 → Radix.descend (sub c.mem) as.tables.root q = none
  last : ∀ p, p / 8 = 0x2FFF → (c.load.isFree p = true ↔ 0x17FF9 ≤ p)

section First
variable (func : Nat → UInt8) {k₀ : KernelMemInfo} (hk : LowFence k₀) {m : Machine} {as : Space Vec}
  {l : List UInt64} (hinv : (fence.star (spaceOwner listOwner)).inv m (k₀, (as, l)))
  (h : Fresh m.ram as fun p => (0x203 ≤ p ∧ p < 0x20B) ∨ (0x309 ≤ p ∧ p < 0x92B))
include hk hinv h

/-- The PDPT of the direct map goes right behind the bitmap. -/
theorem Fresh.pdpt (line : UInt64) :
    ∃ (m' : Machine) (v : Vec) (l' : List UInt64),
      m.ram.nextTable (memoryList func) as as.pml4 (256 : Fin 512) line =
        some (m'.ram, ⟨as.pml4, v⟩, physToVirt (frame 0x203)) ∧
      Framed (spaceOwner listOwner) m (as, l) m' (⟨as.pml4, v⟩, l') ∧
      Exact m'.ram ⟨as.pml4, v⟩ 1 (fun q => q = [256]) ∧
      Radix.descend (sub m'.mem) as.tables.root [256] = some (frame 0x203) := by
  have hlimit := hk.limit_toNat hinv.1
  have height : defaultPages.toNat = 8 := rfl
  have hroot : as.pml4 = physToVirt as.tables.root := (physToVirt_virtToPhys as.pml4).symm
  have hnot : checkNotPresent (tableEntry m.mem (physToVirt as.tables.root) (256 : Fin 512)) = true := by
    by_contra hpres
    have hnone := h.tables [256] (by simp) (by simp)
    rw [ram_descend hinv (by simp), Radix.descend_cons,
      sub_of_present (Bool.eq_false_iff.mpr hpres)] at hnone
    cases hnone
  obtain ⟨k, hget, hlimit', -, hfree⟩ := ((freeBelow_ram m).mp h.free).get (n := defaultPages)
    (q := 0x203) (by decide) (by rw [hlimit]; decide) (by rw [hlimit]; decide)
    (fun p hlow hhigh => by rw [height] at hhigh; omega)
    (fun a ha => ⟨a, Nat.le_refl a, by rw [height]; omega, by omega⟩)
  replace hlimit' : k.physicalLimit.toNat = 0x17FF0000 :=
    (congrArg UInt64.toNat hlimit').trans hlimit
  replace hfree := hfree.congr (T := fun p => 0x309 ≤ p ∧ p < 0x92B) fun p => by rw [height]; omega
  obtain ⟨m', v, l', hnext, ⟨hfree', hlist⟩, hframed, hdesc⟩ := nextTable_new (memoryList_laws func)
    hinv (Radix.descend_nil _) (by simp) hnot hget (by decide)
    (P := fun c v => FreeBelow c.load (fun p => 0x303 + 8 * 1 ≤ p ∧ p < 0x92B) ∧ ListAt 1 v)
    (fun mem hm => by
      rw [h.list] at hm ⊢
      obtain ⟨k', mem', happ, hfree'⟩ := FreeBelow.append bytesWord func (m := ⟨k, mem⟩) hfree
        (by decide) (by decide) (fun _ => rfl) hm (by decide) (q := 0x309)
        (by dsimp only; omega) (by dsimp only; omega) (by omega) (by omega) (frame 0x203) line
      refine ⟨_, _, happ, (freeBelow_ram ⟨k', mem'⟩).mpr (hfree'.congr fun p => by omega), ?_, rfl, rfl⟩
      decide)
  have hinv' := (hframed.right hinv).inv
  have hroot' : (⟨as.pml4, v⟩ : Space Vec).tables.root = as.tables.root := rfl
  have hone := hdesc [256] (by simp)
  rw [List.nil_append, if_pos rfl] at hone
  rw [← hroot] at hnext
  refine ⟨m', v, l', hnext, hframed, ⟨hfree', h.pml4, hlist, fun q hne hq => ?_, ?_, fun p hp => ?_⟩,
    hone⟩
  · rw [ram_descend hinv' hq, hroot', hdesc q hq, List.nil_append]
    split
    · next heq => exact iff_of_true rfl heq
    · next heq =>
      rw [← ram_descend hinv hq, h.tables q hne hq]
      exact iff_of_false Bool.false_ne_true heq
  · rw [ram_descend hinv' (by simp), hroot']
    exact hone
  · rw [hk.last_framed hinv hframed hp]
    exact h.last p hp

theorem Fresh.page (physAddr flags : UInt64) :
    ∃ r, m.ram.mapPageEntry (memoryList func) as (directPage 0) physAddr flags = some r ∧
      Reached m as l 3 (DirectTables 1) r := by
  have hpath := directPage_path (j := 0) (r := 0) (by decide) rfl
  obtain ⟨m₁, v₁, l₁, h₁, hframed₁, hexact₁, hdesc₁⟩ := h.pdpt func hk hinv 263
  have hinv₁ := (hframed₁.right hinv).inv
  obtain ⟨m₂, v₂, l₂, h₂, hframed₂, hexact₂, hdesc₂⟩ := hexact₁.new func hk hinv₁ hdesc₁
    (by simp) (i := 0) (by simp) (by decide) (by decide) 276
  have hinv₂ := (hframed₂.right hinv₁).inv
  have hpd := (hdesc₂ [256, 0] (by simp)).trans (if_pos rfl)
  obtain ⟨m₃, v₃, l₃, h₃, hframed₃, hexact₃, hdesc₃⟩ := hexact₂.new func hk hinv₂ hpd
    (by simp) (i := 0) (by simp) (by decide) (by decide) 289
  have hinv₃ := (hframed₃.right hinv₂).inv
  have hpt : Radix.descend (sub m₃.mem) as.tables.root (path (directPage 0)) = _ :=
    (hdesc₃ [256, 0, 0] (by simp)).trans (if_pos rfl)
  obtain ⟨m', hram, hframed, hexact⟩ := hexact₃.leaf hk hinv₃ hpt
    (makeTableEntry (physAddr &&& ~~~0xFFF) flags)
  have hmap := ram_mapPageEntry_eq (v := directPage 0) h₁ h₂ h₃ physAddr flags
  rw [hram] at hmap
  refine ⟨_, hmap, m', v₃, l₃, rfl,
    ((hframed₁.trans hframed₂).trans hframed₃).trans hframed, hexact.congr_tables fun q => ?_⟩
  have hfirst := directTables_succ (R := 0) 0 rfl q
  have hnone : DirectTables 0 q ↔ q = [256] ∨ q = [256, 0] := by simp [DirectTables]
  rw [hfirst, hnone]
  rfl

end First

end Horizon64
