import Horizon64.Lib.Ledger
import Horizon64.Phys

/- Free-memory accounting.

   `kmem.free_size` is 4096 times the number of free pages the bitmap counts.
   `pm_free` keeps it page by page, adding a page only when its bit was clear;
   `pm_allocate` keeps it in one subtraction, after a test that found every bit
   of the run set. Neither relies on what the caller believes about the range:
   `pm_free` may be given pages that are free already, `pm_allocate` a range that
   is partly used. -/
namespace Horizon64
open Words

/-- `free_size` counts the free pages among the first `N`. -/
def Accounted (k : KernelMemInfo) (N : Nat) : Prop :=
  k.freeSize.toNat = 4096 * BitArray.count k.bytes N

/-- The pages that the bytes `pm_init` gives the bitmap stand for. -/
def KernelMemInfo.bitmapPages (k : KernelMemInfo) : Nat :=
  8 * (k.physicalLimit / (pageSize * pagesPerByte)).toNat

theorem bitmapPages_lt (k : KernelMemInfo) : k.bitmapPages < 2 ^ 52 := by
  have h : (pageSize * pagesPerByte).toNat = 32768 := rfl
  have hlt := k.physicalLimit.toNat_lt
  rw [KernelMemInfo.bitmapPages, UInt64.toNat_div, h]
  omega

section Steps
variable {N : Nat} (hN : N < 2 ^ 52)
include hN

theorem pmFreePage_accounted {r : Status × KernelMemInfo} {i : UInt64}
    (h : Accounted r.2 N) (hp : pageOf i < N) : Accounted (pmFreePage r i).2 N := by
  have hw : i.toNat + 4096 < 2 ^ 64 := by simp only [pageOf] at hp; omega
  cases hfree : r.2.isFree (pageOf i) with
  | true => rw [pmFreePage_free hw hfree]; exact h
  | false =>
    have hcount := BitArray.count_set (b := r.2.bytes) hp hfree
    have hle := BitArray.count_le (BitArray.set r.2.bytes (pageOf i)) N
    rw [Accounted] at h ⊢
    rw [(pmFreePage_used hw hfree).2, (pmFreePage_fields r i).1, hcount,
      toNat_add_of_lt (by rw [h, pageSize_toNat]; omega), h, pageSize_toNat]
    omega

theorem pmFree_fold_accounted {l : List UInt64} {r : Status × KernelMemInfo}
    (h : Accounted r.2 N) (hp : ∀ i ∈ l, pageOf i < N) :
    Accounted (l.foldl pmFreePage r).2 N := by
  induction l generalizing r with
  | nil => exact h
  | cons i l ih =>
    rw [List.foldl_cons]
    exact ih (pmFreePage_accounted hN h (hp i List.mem_cons_self))
      (fun j hj => hp j (List.mem_cons_of_mem _ hj))

/-- `pm_free` keeps the account, whatever of its range is free already. -/
theorem pmFree_accounted {k : KernelMemInfo} {a n : UInt64} (h : Accounted k N)
    (hcov : a.toNat + n.toNat * 4096 ≤ N * 4096) : Accounted (pmFree k a n).2 N := by
  apply pmFree_fold_accounted hN h
  intro i hi
  obtain ⟨hlo, hhi⟩ := (mem_run_pages (by omega) (pageOf i)).mp ⟨i, hi, rfl⟩
  simp only [pageOf] at hhi ⊢
  omega

/-- The subtraction of a successful `pm_allocate` does not underflow, and keeps
    the account; a failed one changes nothing. -/
theorem pmAllocate_accounted {k : KernelMemInfo} {a n : UInt64} (h : Accounted k N)
    (hcov : a.toNat + n.toNat * 4096 ≤ N * 4096) :
    Accounted (pmAllocate k a n).2 N ∧
    (bitmapFree k a n = .free → (n * pageSize).toNat ≤ k.freeSize.toNat) := by
  have hmul : (n * pageSize).toNat = n.toNat * 4096 := toNat_mul_of_lt (by simp; omega)
  rcases pmAllocate_cases (k := k) (a := a) (n := n) (by omega) with
    ⟨b, hok, hfree, hbit⟩ | ⟨herr, p, hp, hused⟩
  · have hcount : BitArray.count b N + n.toNat = BitArray.count k.bytes N := by
      apply BitArray.count_clear_run (P := pageOf a)
      · simp only [pageOf]; omega
      · exact fun p hlo hhi => hfree p ⟨hlo, hhi⟩
      · exact hbit
    rw [Accounted] at h
    have hle : (n * pageSize).toNat ≤ k.freeSize.toNat := by omega
    refine ⟨?_, fun _ => hle⟩
    rw [hok, Accounted]
    simp only
    rw [UInt64.toNat_sub_of_le _ _ (UInt64.le_iff_toNat_le.mpr hle), h, hmul]
    omega
  · refine ⟨by rw [herr]; exact h, fun hf => ?_⟩
    have hp' := (bitmapFree_run (by omega)).mp hf p hp
    rw [hused] at hp'
    cases hp'

end Steps

/-! Runs of the three calls. -/

/-- `n` pages at `a` are pages the bitmap stands for. -/
def Covered (k : KernelMemInfo) (a n : UInt64) : Prop :=
  a.toNat + n.toNat * 4096 ≤ k.bitmapPages * 4096

/-- One call of the allocator on covered pages; for `pm_get`, these are the pages
    it hands out. -/
inductive PmCall : KernelMemInfo → KernelMemInfo → Prop where
  | allocate {k : KernelMemInfo} (a n : UInt64) (h : Covered k a n) :
      PmCall k (pmAllocate k a n).2
  | free {k : KernelMemInfo} (a n : UInt64) (h : Covered k a n) : PmCall k (pmFree k a n).2
  | get {k k' : KernelMemInfo} {i : UInt64} (n a : UInt64) (h : pmGet k n a = some (i, k'))
      (hcov : Covered k i n) : PmCall k k'

theorem pmCall_limit {k k' : KernelMemInfo} (h : PmCall k k') :
    k'.physicalLimit = k.physicalLimit := by
  cases h with
  | allocate a n => exact (pmAllocate_fixed k a n).1
  | free a n => exact (pmFree_fold _ _).2.1
  | @get _ i n a h =>
    have hlim := (pmAllocate_fixed k i n).1
    rw [(pmGet_spec h).2.2] at hlim
    exact hlim

theorem pmCall_accounted {k k' : KernelMemInfo} (h : Accounted k k.bitmapPages)
    (hcall : PmCall k k') : Accounted k' k'.bitmapPages := by
  have hfit := bitmapPages_lt k
  have hpages : k'.bitmapPages = k.bitmapPages := by
    rw [KernelMemInfo.bitmapPages, pmCall_limit hcall, KernelMemInfo.bitmapPages]
  rw [hpages]
  cases hcall with
  | allocate a n hcov => exact (pmAllocate_accounted hfit h hcov).1
  | free a n hcov => exact pmFree_accounted hfit h hcov
  | get n a hget hcov =>
    have hacc := (pmAllocate_accounted hfit h hcov).1
    rw [(pmGet_spec hget).2.2] at hacc
    exact hacc

/-- In every state that calls of `pm_allocate`, `pm_free` and `pm_get` on covered
    pages lead to, `free_size` is 4096 times the number of free pages, and the
    subtraction of the next successful `pm_allocate` does not underflow. -/
theorem free_size_accounted {k k' : KernelMemInfo} (h : Accounted k k.bitmapPages)
    (hrun : Relation.ReflTransGen PmCall k k') :
    k'.freeSize.toNat = 4096 * BitArray.count k'.bytes k'.bitmapPages ∧
    ∀ a n, Covered k' a n → bitmapFree k' a n = .free →
      (n * pageSize).toNat = n.toNat * 4096 ∧ n.toNat * 4096 ≤ k'.freeSize.toNat := by
  have hacc : Accounted k' k'.bitmapPages :=
    Ledger.run_preserves (fun k => Accounted k k.bitmapPages)
      (fun _ _ hk hcall => pmCall_accounted hk hcall) h hrun
  refine ⟨hacc, fun a n hcov hfree => ?_⟩
  have hfit := bitmapPages_lt k'
  have hmul : (n * pageSize).toNat = n.toNat * 4096 := by
    rw [Covered] at hcov
    exact toNat_mul_of_lt (by simp; omega)
  have hle := (pmAllocate_accounted hfit hacc hcov).2 hfree
  exact ⟨hmul, by omega⟩

/-- Eight free pages, and a bitmap of one byte. -/
def eightFree : KernelMemInfo :=
  { physicalLimit := 0x8000, totalSize := 0x8000, freeSize := 0x8000, bitmap := 0,
    bytes := fun _ => 0xFF }

theorem free_size_two_calls :
    (pmFree (pmAllocate eightFree 0 2).2 0x1000 3).2.freeSize.toNat =
      4096 * BitArray.count (pmFree (pmAllocate eightFree 0 2).2 0x1000 3).2.bytes 8 := by
  refine (free_size_accounted (k := eightFree) (by unfold Accounted; decide +kernel) ?_).1
  refine (Relation.ReflTransGen.single (PmCall.allocate 0 2 (by unfold Covered; decide))).tail ?_
  exact PmCall.free 0x1000 3 (by unfold Covered; decide)

end Horizon64
