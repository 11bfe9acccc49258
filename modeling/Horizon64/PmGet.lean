import Horizon64.Lib.Search
import Horizon64.LiveBlocks

/- `pm_get`, the first fit.

   The search tries the start addresses `a`, `a + PAGE_SIZE`, ... and hands out the
   first whose run reads as free. The loop bound looks at the first page of a run
   only; what `bitmap_free` reads for the pages past the limit are bytes the bitmap
   does not own, and of a run that reaches `2^64` it reads nothing
   (`bitmapFree_visits`). So a block past the limit is handed out exactly when no
   block below the limit fits and some run across it reads as free
   (`pm_get_real_memory_iff`). Where the pages past the limit read as used, the search
   is complete: it finds the least block that fits (`pm_get_first_fit`). -/
namespace Horizon64
open Words

/-! The order of the search. -/

theorem pages_sorted (a bound : UInt64) : (pages a bound).Pairwise fun i j => i - a < j - a := by
  obtain ⟨m, hm, heq⟩ := loopValues_prefix pageSize (2 ^ 52) a bound
  have hoff : ∀ j < m, (a + pageSize * UInt64.ofNat j - a).toNat = 4096 * j := by
    intro j hj
    have hof : (UInt64.ofNat j).toNat = j := toNat_ofNat_of_lt (by omega)
    rw [UInt64.add_comm, UInt64.add_sub_cancel, toNat_mul_of_lt, hof, pageSize_toNat]
    rw [hof, pageSize_toNat]
    omega
  rw [pages, heq, List.pairwise_map]
  refine List.pairwise_lt_range.imp_of_mem ?_
  intro i j hi hj hij
  rw [UInt64.lt_iff_toNat_lt, hoff i (List.mem_range.mp hi), hoff j (List.mem_range.mp hj)]
  omega

/-- `pm_get` finds the first start address whose run reads as free. -/
theorem pmGetLoop_find (n : UInt64) (l : List UInt64) (k : KernelMemInfo) :
    (pmGetLoop n l k).map Prod.fst = l.find? fun i => bitmapFree k i n = .free := by
  induction l with
  | nil => rfl
  | cons i l ih =>
    rw [pmGetLoop, pmAllocate]
    cases hfree : bitmapFree k i n with
    | free => rw [List.find?_cons_of_pos (by simp [hfree])]; rfl
    | allocated => rw [List.find?_cons_of_neg (by simp [hfree])]; exact ih

theorem pmGet_find (k : KernelMemInfo) (n a : UInt64) :
    (pmGet k n a).map Prod.fst = (pages a k.physicalLimit).find? fun i => bitmapFree k i n = .free :=
  pmGetLoop_find n _ k

theorem offset_asymm (a i j : UInt64) (h : i - a < j - a) : ¬ j - a < i - a := UInt64.lt_asymm h

/-- What `pm_get` hands out is good, exactly when every start address that reads as free
    is good or comes after a good one. -/
theorem pmGet_good_iff (k : KernelMemInfo) (n a : UInt64) (good : UInt64 → Prop) :
    (∀ i k', pmGet k n a = some (i, k') → good i) ↔
      ∀ i ∈ pages a k.physicalLimit, bitmapFree k i n = .free → good i ∨
        ∃ j ∈ pages a k.physicalLimit, j - a < i - a ∧ bitmapFree k j n = .free ∧ good j := by
  have hfound : (∀ i k', pmGet k n a = some (i, k') → good i) ↔
      ∀ i, ((pages a k.physicalLimit).find? fun i => bitmapFree k i n = .free) = some i →
        good i := by
    simp only [← pmGet_find, Option.map_eq_some_iff, Prod.exists, exists_and_right,
      exists_eq_right, forall_exists_index]
  rw [hfound, Search.found_good_iff (pages_sorted a _) (offset_asymm a)]
  simp only [decide_eq_true_eq]

/-- If some start address reads as free, `pm_get` hands out one that does and that comes
    after no other. -/
theorem pmGet_least {k : KernelMemInfo} {n a x : UInt64} (hmem : x ∈ pages a k.physicalLimit)
    (hfree : bitmapFree k x n = .free) :
    ∃ i k', pmGet k n a = some (i, k') ∧ i ∈ pages a k.physicalLimit ∧
      bitmapFree k i n = .free ∧
      ∀ j ∈ pages a k.physicalLimit, bitmapFree k j n = .free → ¬ j - a < i - a := by
  have hsome : ((pages a k.physicalLimit).find? fun i => bitmapFree k i n = .free).isSome
      = true := List.find?_isSome.mpr ⟨x, hmem, decide_eq_true hfree⟩
  obtain ⟨i, hi⟩ := Option.isSome_iff_exists.mp hsome
  obtain ⟨himem, hifree, hleast⟩ :=
    (Search.find?_iff_least (pages_sorted a k.physicalLimit) (offset_asymm a) i).mp hi
  rw [← pmGet_find] at hi
  obtain ⟨⟨i', k'⟩, hget, hfst⟩ := Option.map_eq_some_iff.mp hi
  obtain rfl : i' = i := hfst
  refine ⟨i', k', hget, himem, of_decide_eq_true hifree, fun j hj hjfree hlt => ?_⟩
  exact absurd hjfree (of_decide_eq_false (hleast j hj hlt))

/-! The addresses tried. -/

theorem mem_pages {a bound i : UInt64} (hal : a.toNat % 4096 = 0) (hle : a ≤ i) (hlt : i < bound)
    (hmod : i.toNat % 4096 = 0) : i ∈ pages a bound := by
  rw [UInt64.le_iff_toNat_le] at hle
  rw [UInt64.lt_iff_toNat_lt] at hlt
  have hlim := i.toNat_lt
  -- `i` is reached after as many rounds as there are pages between `a` and `i`
  have hj : (i.toNat - a.toNat) / 4096 < 2 ^ 52 := by omega
  have hreach : a + pageSize * UInt64.ofNat ((i.toNat - a.toNat) / 4096) = i := by
    apply UInt64.toNat_inj.mp
    have hof : (UInt64.ofNat ((i.toNat - a.toNat) / 4096)).toNat = (i.toNat - a.toNat) / 4096 :=
      toNat_ofNat_of_lt (by omega)
    have hmul : (pageSize * UInt64.ofNat ((i.toNat - a.toNat) / 4096)).toNat =
        4096 * ((i.toNat - a.toNat) / 4096) := by
      rw [toNat_mul_of_lt (by rw [hof, pageSize_toNat]; omega), hof, pageSize_toNat]
    rw [toNat_add_of_lt (by omega), hmul]
    omega
  rw [pages, ← hreach]
  apply mem_loopValues hj
  rw [pageSize_toNat]
  omega

/-- The addresses tried are the page-aligned ones from `a` on, below the limit. -/
theorem mem_pages_iff {a bound i : UInt64} (hal : a.toNat % 4096 = 0)
    (hb : bound.toNat + 4096 ≤ 2 ^ 64) :
    i ∈ pages a bound ↔ a ≤ i ∧ i < bound ∧ i.toNat % 4096 = 0 := by
  constructor
  · intro hi
    have hmod := loopValues_mod (d := 4096) (by decide) (by simp) hi
    exact ⟨le_of_mem_loopValues (by simpa using hb) hi, loopValues_lt hi, hmod.trans hal⟩
  · rintro ⟨hle, hlt, hmod⟩
    exact mem_pages hal hle hlt hmod

/-- The block of `n` pages at `i` is one a caller asking from `a` on can be given. -/
structure FitsAt (k : KernelMemInfo) (n a i : UInt64) : Prop where
  from_start : a ≤ i
  aligned : i.toNat % 4096 = 0
  free : ∀ p, InRun i n p → k.isFree p = true

/-! Blocks past the limit. -/

/-- The loops over a run look at its first `n mod 2^52` pages when these end below `2^64`,
    and at no page when they do not. -/
theorem mem_visits (i n : UInt64) (p : Nat) :
    (∃ x ∈ pages i (i + n * pageSize), pageOf x = p) ↔
      i.toNat + n.toNat % 2 ^ 52 * 4096 < 2 ^ 64 ∧
        pageOf i ≤ p ∧ p < pageOf i + n.toNat % 2 ^ 52 := by
  have hilt := i.toNat_lt
  have hmod : (UInt64.ofNat (n.toNat % 2 ^ 52)).toNat = n.toNat % 2 ^ 52 :=
    toNat_ofNat_of_lt (by omega)
  have hmul : n * pageSize = UInt64.ofNat (n.toNat % 2 ^ 52) * pageSize := by
    apply UInt64.toNat_inj.mp
    rw [UInt64.toNat_mul, UInt64.toNat_mul, hmod, pageSize_toNat]
    omega
  by_cases hend : i.toNat + n.toNat % 2 ^ 52 * 4096 < 2 ^ 64
  · have hroom : i.toNat + (UInt64.ofNat (n.toNat % 2 ^ 52)).toNat * 4096 < 2 ^ 64 := by rwa [hmod]
    rw [hmul, mem_run_pages hroom, and_iff_right hend, InRun, hmod]
  · have hnone : pages i (i + n * pageSize) = [] := by
      apply pages_wrap
      rw [hmul, UInt64.toNat_add, UInt64.toNat_mul, hmod, pageSize_toNat]
      omega
    rw [hnone]
    exact ⟨fun h => by simp at h, fun h => absurd h.1 hend⟩

theorem bitmapFree_visits (k : KernelMemInfo) (i n : UInt64) :
    bitmapFree k i n = .free ↔ 2 ^ 64 ≤ i.toNat + n.toNat % 2 ^ 52 * 4096 ∨
      ∀ q < n.toNat % 2 ^ 52, k.isFree (pageOf i + q) = true := by
  rw [bitmapFree_iff, or_iff_not_imp_left, Nat.not_le]
  constructor
  · intro hall hend q hq
    obtain ⟨x, hx, hpage⟩ := (mem_visits i n (pageOf i + q)).mpr ⟨hend, by omega, by omega⟩
    rw [← hpage]
    exact hall x hx
  · intro hall x hx
    obtain ⟨hend, hlow, hhigh⟩ := (mem_visits i n (pageOf x)).mp ⟨x, hx, rfl⟩
    have hq := hall hend (pageOf x - pageOf i) (by omega)
    rwa [Nat.add_sub_cancel' hlow] at hq

/-- The block at `i` lies between the start address and the limit. -/
def Real (k : KernelMemInfo) (n a i : UInt64) : Prop :=
  a.toNat ≤ i.toNat ∧ i.toNat + n.toNat * 4096 ≤ k.physicalLimit.toNat

/-- No run that starts below the limit and ends past it reads as free: it ends below
    `2^64`, and one of the pages that `bitmap_free` looks at is used. -/
def NoneAcross (k : KernelMemInfo) (n a : UInt64) : Prop :=
  ∀ i : UInt64, i.toNat % 4096 = 0 → a ≤ i → i < k.physicalLimit →
    k.physicalLimit.toNat < i.toNat + n.toNat * 4096 →
    i.toNat + n.toNat % 2 ^ 52 * 4096 < 2 ^ 64 ∧
      ∃ q < n.toNat % 2 ^ 52, k.isFree (pageOf i + q) = false

/-- A search that has come to the end of the address space has passed a run of the last
    page, of which `bitmap_free` reads nothing. -/
theorem NoneAcross.limit {k : KernelMemInfo} {n a i : UInt64} (h : NoneAcross k n a)
    (hn : 0 < n.toNat) (hal : a.toNat % 4096 = 0) (hi : i ∈ pages a k.physicalLimit) : a ≤ i := by
  by_cases hlim : k.physicalLimit.toNat + 4096 ≤ 2 ^ 64
  · exact ((mem_pages_iff hal hlim).mp hi).1
  · have hlast : (0xFFFFFFFFFFFFF000 : UInt64).toNat = 2 ^ 64 - 4096 := rfl
    have halt := a.toNat_lt
    have hllt := k.physicalLimit.toNat_lt
    obtain ⟨hend, q, hq, -⟩ := h 0xFFFFFFFFFFFFF000 (by decide)
      (UInt64.le_iff_toNat_le.mpr (by omega)) (UInt64.lt_iff_toNat_lt.mpr (by omega)) (by omega)
    omega

/-- `pm_get` hands out real memory only, exactly when a block fits below the limit or no
    run across the limit reads as free. -/
theorem pm_get_real_memory_iff {k : KernelMemInfo} {n a : UInt64} (hn : 0 < n.toNat)
    (hal : a.toNat % 4096 = 0) :
    (∀ i k', pmGet k n a = some (i, k') → Real k n a i) ↔
      (∃ i, FitsAt k n a i ∧ i.toNat + n.toNat * 4096 ≤ k.physicalLimit.toNat) ∨
        NoneAcross k n a := by
  have hllt := k.physicalLimit.toNat_lt
  constructor
  · intro hreal
    by_cases hfits : ∃ i, FitsAt k n a i ∧ i.toNat + n.toNat * 4096 ≤ k.physicalLimit.toNat
    · exact Or.inl hfits
    refine Or.inr fun i hmod hle hlt hpast => ?_
    -- a run across the limit that reads as free would be found, or a block before it
    have hused : bitmapFree k i n ≠ .free := by
      intro hfree
      obtain ⟨j, k', hget, -, hjfree, -⟩ := pmGet_least (mem_pages hal hle hlt hmod) hfree
      obtain ⟨haj, hend⟩ := hreal j k' hget
      obtain ⟨-, hjmod, -⟩ := pmGet_spec hget
      have hfit : ∀ p, InRun j n p → k.isFree p = true := (bitmapFree_run (by omega)).mp hjfree
      exact hfits ⟨j, ⟨UInt64.le_iff_toNat_le.mpr haj, hjmod.trans hal, hfit⟩, hend⟩
    rw [Ne, bitmapFree_visits] at hused
    push Not at hused
    simpa using hused
  · intro h i k' hget
    have hfound := pmGet_find k n a
    rw [hget, Option.map_some] at hfound
    obtain ⟨himem, hifree, hleast⟩ :=
      (Search.find?_iff_least (pages_sorted a k.physicalLimit) (offset_asymm a) i).mp hfound.symm
    rw [decide_eq_true_eq] at hifree
    have hilt := UInt64.lt_iff_toNat_lt.mp (pmGet_spec hget).1
    rcases h with ⟨x, ⟨hax, hxmod, hxfree⟩, hxend⟩ | hnone
    · -- what is found is not after the block that fits
      have hxlt : x < k.physicalLimit := UInt64.lt_iff_toNat_lt.mpr (by omega)
      have hle : ¬ x - a < i - a := by
        intro hlt
        have hused := of_decide_eq_false (hleast x (mem_pages hal hax hxlt hxmod) hlt)
        exact hused ((bitmapFree_run (by omega)).mpr hxfree)
      rw [UInt64.le_iff_toNat_le] at hax
      rw [UInt64.lt_iff_toNat_lt, UInt64.toNat_sub, UInt64.toNat_sub] at hle
      have hxlim := x.toNat_lt
      have hilim := i.toNat_lt
      rw [Real]
      omega
    · have hai := hnone.limit hn hal himem
      refine ⟨UInt64.le_iff_toNat_le.mp hai, Nat.not_lt.mp fun hpast => ?_⟩
      have himod : i.toNat % 4096 = 0 := (pmGet_spec hget).2.1.trans hal
      obtain ⟨hend, q, hq, hqused⟩ := hnone i himod hai (pmGet_spec hget).1 hpast
      rcases (bitmapFree_visits k i n).mp hifree with hwrap | hall
      · omega
      · rw [hall q hq] at hqused
        cases hqused

/-- A limit of four pages, with pages 1 and 2 free. -/
def twoFree : KernelMemInfo := ⟨0x4000, 0x4000, 0x2000, 0, fun j => if j = 0 then 0x06 else 0⟩

theorem twoFree_fits : FitsAt twoFree 2 0 0x1000 := by
  refine ⟨by decide, by decide, fun p hp => ?_⟩
  have hrun : p = 1 ∨ p = 2 := by
    have hlow : 1 ≤ p := hp.1
    have hhigh : p < 1 + 2 := hp.2
    omega
  rcases hrun with rfl | rfl <;> decide

theorem pm_get_real_two_free :
    (pmGet twoFree 2 0).map Prod.fst = some 0x1000 ∧ Real twoFree 2 0 0x1000 := by
  have hfound : (pmGet twoFree 2 0).map Prod.fst = some 0x1000 := by decide +kernel
  obtain ⟨⟨i, k'⟩, hget, hi⟩ := Option.map_eq_some_iff.mp hfound
  have hreal := (pm_get_real_memory_iff (by decide) (by decide)).mpr
    (Or.inl ⟨0x1000, twoFree_fits, by decide⟩) i k' hget
  rw [show i = 0x1000 from hi] at hreal
  exact ⟨hfound, hreal⟩

/-- With a byte of ones after the 33 bytes of the bitmap, a request for 8 pages is
    given one that is past the limit. -/
theorem pm_get_past_limit :
    ∃ k i k', pmInit kmemZero (fun _ => 0xFF) (some smallMap) = some k ∧
      pmGet k 8 0 = some (i, k') ∧ k.physicalLimit.toNat < i.toNat + 8 * 4096 := by
  have h : ((pmInit kmemZero (fun _ => 0xFF) (some smallMap)).bind fun k =>
      (pmGet k 8 0).map fun r => (r.1, k.physicalLimit)) = some (0x101000, 0x108000) := by
    decide +kernel
  simp only [Option.bind_eq_some_iff, Option.map_eq_some_iff, Prod.mk.injEq] at h
  obtain ⟨k, hk, ⟨i, k'⟩, hget, hi, hlim⟩ := h
  refine ⟨k, i, k', hk, hget, ?_⟩
  rw [hlim, show i = 0x101000 from hi]
  decide

/-! The first fit. -/

theorem FitsAt.room {k : KernelMemInfo} {n a i : UInt64} (h : FitsAt k n a i)
    (hout : ∀ p, k.physicalLimit.toNat ≤ 4096 * p → k.isFree p = false)
    (hn : 0 < n.toNat) (hlim : k.physicalLimit.toNat + 4096 ≤ 2 ^ 64) :
    i < k.physicalLimit ∧ i.toNat + n.toNat * 4096 < 2 ^ 64 := by
  obtain ⟨_, hmod, hfree⟩ := h
  have hbelow : ∀ p, InRun i n p → 4096 * p < k.physicalLimit.toNat := by
    intro p hp
    by_contra hge
    have hused := hout p (by omega)
    rw [hfree p hp] at hused
    cases hused
  have hfirst := hbelow (pageOf i) ⟨Nat.le_refl _, by omega⟩
  have hlast := hbelow (pageOf i + n.toNat - 1) ⟨by omega, by omega⟩
  rw [pageOf] at hfirst hlast
  rw [UInt64.lt_iff_toNat_lt]
  omega

/-- When the pages from the limit on read as used: if some block fits, `pm_get` hands out
    the least one and changes the bits of its pages and no others; it halts only if
    none fits. -/
theorem pm_get_first_fit {k : KernelMemInfo} {n a : UInt64}
    (hout : ∀ p, k.physicalLimit.toNat ≤ 4096 * p → k.isFree p = false)
    (hn : 0 < n.toNat) (hlim : k.physicalLimit.toNat + 4096 ≤ 2 ^ 64)
    (hal : a.toNat % 4096 = 0) :
    ((∃ i, FitsAt k n a i) → ∃ i k', pmGet k n a = some (i, k') ∧ FitsAt k n a i ∧
      (∀ j, FitsAt k n a j → i ≤ j) ∧
      ∀ p, k'.isFree p = (k.isFree p && !decide (InRun i n p))) ∧
    (pmGet k n a = none → ∀ i, ¬ FitsAt k n a i) := by
  have hcand : ∀ x, FitsAt k n a x → x ∈ pages a k.physicalLimit ∧ bitmapFree k x n = .free := by
    intro x hx
    obtain ⟨hlt, hroom⟩ := hx.room hout hn hlim
    exact ⟨(mem_pages_iff hal hlim).mpr ⟨hx.from_start, hlt, hx.aligned⟩,
      (bitmapFree_run hroom).mpr hx.free⟩
  constructor
  · rintro ⟨x, hx⟩
    obtain ⟨hmem, hfree⟩ := hcand x hx
    obtain ⟨i, k', hget, himem, hifree, hleast⟩ := pmGet_least hmem hfree
    obtain ⟨hai, _, himod⟩ := (mem_pages_iff hal hlim).mp himem
    -- a block that fits below `i` would have been found before it
    have hle : ∀ j, FitsAt k n a j → i ≤ j := by
      intro j hj
      by_contra hlt
      rw [UInt64.not_le, UInt64.lt_iff_toNat_lt] at hlt
      obtain ⟨hjmem, hjfree⟩ := hcand j hj
      have hbefore : j - a < i - a := by
        have hja := UInt64.le_iff_toNat_le.mp hj.from_start
        rw [UInt64.lt_iff_toNat_lt, UInt64.toNat_sub_of_le _ _ hj.from_start,
          UInt64.toNat_sub_of_le _ _ hai]
        omega
      exact hleast j hjmem hjfree hbefore
    have hroom : i.toNat + n.toNat * 4096 < 2 ^ 64 := by
      have hix := UInt64.le_iff_toNat_le.mp (hle x hx)
      have hxroom := (hx.room hout hn hlim).2
      omega
    have hfit : FitsAt k n a i := ⟨hai, himod, (bitmapFree_run hroom).mp hifree⟩
    exact ⟨i, k', hget, hfit, hle, (pmGet_whole hget hroom).2.2.2.2.1⟩
  · intro hnone i hi
    obtain ⟨hmem, hfree⟩ := hcand i hi
    obtain ⟨_, _, hget, _⟩ := pmGet_least hmem hfree
    rw [hnone] at hget
    cases hget

theorem pm_get_two_free :
    ∃ i k', pmGet twoFree 2 0 = some (i, k') ∧ FitsAt twoFree 2 0 i := by
  have hout : ∀ p, twoFree.physicalLimit.toNat ≤ 4096 * p → twoFree.isFree p = false := by
    intro p hp
    have hp4 : 4 ≤ p := by
      rw [show twoFree.physicalLimit.toNat = 16384 from rfl] at hp
      omega
    by_cases hp8 : p < 8
    · have hall : ∀ q, 4 ≤ q → q < 8 → twoFree.isFree q = false := by decide
      exact hall p hp4 hp8
    · have hbyte : twoFree.bytes (p / 8) = 0 := if_neg (by omega)
      rw [KernelMemInfo.isFree, BitArray.get, hbyte]
      simp
  obtain ⟨i, k', hget, hi, _⟩ :=
    (pm_get_first_fit (n := 2) (a := 0) hout (by decide) (by decide) (by decide)).1
      ⟨_, twoFree_fits⟩
  exact ⟨i, k', hget, hi⟩

/-- With a limit inside the last page of the address space, that page is handed out and
    not marked: its run ends at `2^64`, and the loop of `bitmap_set` does not start. -/
theorem pm_get_last_page :
    ¬ ∀ (k : KernelMemInfo) (n a : UInt64),
      (∀ p, k.physicalLimit.toNat ≤ 4096 * p → k.isFree p = false) → 0 < n.toNat →
      n.toNat * 4096 ≤ k.physicalLimit.toNat → a.toNat % 4096 = 0 →
      ∀ i, FitsAt k n a i → (∀ j, FitsAt k n a j → i ≤ j) →
        ∃ k', pmGet k n a = some (i, k') ∧
          ∀ p, k'.isFree p = (k.isFree p && !decide (InRun i n p)) := by
  intro h
  obtain ⟨k, hlim, hk⟩ : ∃ k : KernelMemInfo, k.physicalLimit = 0xFFFFFFFFFFFFFFFF ∧
      ∀ p, k.isFree p = decide (p = 2 ^ 52 - 1) := by
    refine ⟨⟨0xFFFFFFFFFFFFFFFF, 0, 0, 0, BitArray.set (fun _ => 0) (2 ^ 52 - 1)⟩, rfl, ?_⟩
    intro p
    rw [KernelMemInfo.isFree, BitArray.get_set]
    simp [BitArray.get]
  have hrun : pages 0xFFFFFFFFFFFFF000 (0xFFFFFFFFFFFFF000 + 1 * pageSize) = [] :=
    pages_wrap (by decide)
  have hfree : bitmapFree k 0xFFFFFFFFFFFFF000 1 = .free := by
    rw [bitmapFree_iff, hrun]
    simp
  have hset : bitmapSet k 0xFFFFFFFFFFFFF000 1 = k := by rw [bitmapSet, hrun, List.foldl_nil]
  have hcand : pages 0xFFFFFFFFFFFFF000 k.physicalLimit =
      0xFFFFFFFFFFFFF000 :: loopValues pageSize (2 ^ 52 - 1) 0 0xFFFFFFFFFFFFFFFF := by
    rw [hlim, pages, show (2 : Nat) ^ 52 = 2 ^ 52 - 1 + 1 from rfl, loopValues,
      if_pos (by decide)]
    rfl
  have hget : pmGet k 1 0xFFFFFFFFFFFFF000 =
      some (0xFFFFFFFFFFFFF000, { k with freeSize := k.freeSize - 1 * pageSize }) := by
    rw [pmGet, hcand, pmGetLoop, pmAllocate, hfree, hset]
  have hpage : pageOf 0xFFFFFFFFFFFFF000 = 2 ^ 52 - 1 := by decide
  have hfit : FitsAt k 1 0xFFFFFFFFFFFFF000 0xFFFFFFFFFFFFF000 := by
    refine ⟨UInt64.le_refl _, by decide, fun p hp => ?_⟩
    have hp' : p = 2 ^ 52 - 1 := by
      rw [InRun, hpage, UInt64.toNat_one] at hp
      omega
    rw [hk, hp']
    decide
  obtain ⟨k', hsome, hbits⟩ := h k 1 0xFFFFFFFFFFFFF000 (fun p hp => by
      rw [hlim, show (0xFFFFFFFFFFFFFFFF : UInt64).toNat = 2 ^ 64 - 1 from rfl] at hp
      rw [hk]
      exact decide_eq_false (by omega)) (by decide) (by rw [hlim]; decide) (by decide)
    0xFFFFFFFFFFFFF000 hfit (fun j hj => hj.from_start)
  rw [hget] at hsome
  obtain ⟨_, rfl⟩ := Prod.mk.inj (Option.some.inj hsome)
  have hin : InRun 0xFFFFFFFFFFFFF000 1 (2 ^ 52 - 1) := by
    rw [InRun, hpage, UInt64.toNat_one]
    omega
  have hone := hbits (2 ^ 52 - 1)
  rw [decide_eq_true hin, show ({ k with freeSize := k.freeSize - 1 * pageSize } :
    KernelMemInfo).isFree (2 ^ 52 - 1) = k.isFree (2 ^ 52 - 1) from rfl, hk] at hone
  simp at hone

/-! A stock of free pages. -/

/-- `n` free pages in a row below the limit; page 0 is used. -/
structure Stock (k : KernelMemInfo) (n : Nat) : Prop where
  limit : k.physicalLimit.toNat + 10 * 4096 ≤ 2 ^ 64
  zero : k.isFree 0 = false
  run : ∃ a, 4096 * (a + n) ≤ k.physicalLimit.toNat ∧ ∀ p, a ≤ p → p < a + n → k.isFree p = true

theorem Stock.mono {k : KernelMemInfo} {m n : Nat} (h : Stock k n) (hmn : m ≤ n) : Stock k m := by
  obtain ⟨a, hlimit, hfree⟩ := h.run
  exact ⟨h.limit, h.zero, a, by omega, fun p hlow hhigh => hfree p hlow (by omega)⟩

/-- The first fit is no later than the stock, so it uses up at most its own size of it. -/
theorem Stock.get {k : KernelMemInfo} {m : UInt64} {n : Nat} (h : Stock k (m.toNat + n))
    (hpos : 0 < m.toNat) (hten : m.toNat ≤ 10) :
    ∃ i k', pmGet k m 0 = some (i, k') ∧ i ≠ 0 ∧ Stock k' n := by
  obtain ⟨a, hlimit, hrun⟩ := h.run
  have hlim := h.limit
  have hat := page_toNat (j := a) (by omega)
  have hblock : k.physicalLimit.toNat + m.toNat * 4096 ≤ 2 ^ 64 :=
    Nat.le_trans (Nat.add_le_add_left (Nat.mul_le_mul_right 4096 hten) _) hlim
  have hmem : pageSize * UInt64.ofNat a ∈ pages 0 k.physicalLimit := by
    have hzero : 0 + pageSize * UInt64.ofNat a ∈ pages 0 k.physicalLimit := by
      apply mem_loopValues
      · omega
      · rw [pageSize_toNat, UInt64.toNat_zero]
        omega
    rwa [UInt64.zero_add] at hzero
  have hfits : bitmapFree k (pageSize * UInt64.ofNat a) m = .free := by
    rw [bitmapFree_run (by rw [hat]; omega)]
    intro p hp
    rw [InRun, pageOf, hat] at hp
    exact hrun p (by omega) (by omega)
  -- what the search finds comes no later than the stock
  obtain ⟨j, k', hget, _, _, hleast⟩ := pmGet_least hmem hfits
  have hle : j.toNat ≤ 4096 * a := by
    have hbefore := hleast _ hmem hfits
    rw [UInt64.sub_zero, UInt64.sub_zero, UInt64.not_lt, UInt64.le_iff_toNat_le, hat] at hbefore
    exact hbefore
  obtain ⟨_, hal, _, hfree, hbits, _, hlim', _⟩ := pmGet_block hget hblock
  refine ⟨j, k', hget, fun hj0 => ?_, ?_⟩
  · have hpage : pageOf j = 0 := by rw [hj0]; rfl
    have hfree0 := hfree 0 ⟨Nat.le_of_eq hpage, by rw [hpage]; omega⟩
    rw [h.zero] at hfree0
    cases hfree0
  · refine ⟨hlim' ▸ hlim, ?_, a + m.toNat, by rw [hlim']; omega, fun p hlow hhigh => ?_⟩
    · rw [hbits, h.zero, Bool.false_and]
    · rw [hbits, hrun p (by omega) (by omega), Bool.true_and, Bool.not_eq_true',
        decide_eq_false_iff_not, InRun, pageOf]
      omega

end Horizon64
