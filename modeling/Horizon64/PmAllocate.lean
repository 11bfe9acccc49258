import Horizon64.PmInit

/- `pm_allocate` is all or nothing, and `pm_free` undoes it.

   1. What one call of each does to a range the bitmap covers, read off the lemmas
      of the page allocator.
   2. `pm_allocate_all_or_nothing`: the two of them together. Equal bits are equal
      bytes, so "restored" is equality of the whole record. -/
namespace Horizon64
open Words

/-- Every page of the range has its bit in the bitmap. -/
def KernelMemInfo.Covers (k : KernelMemInfo) (a n : UInt64) : Prop :=
  pageOf a + n.toNat ≤ 8 * k.bitmapSize.toNat

theorem KernelMemInfo.Covers.room {k : KernelMemInfo} {a n : UInt64} (h : k.Covers a n) :
    a.toNat + n.toNat * 4096 < 2 ^ 64 := by
  have hlim := k.physicalLimit.toNat_lt
  rw [KernelMemInfo.Covers, bitmapSize_toNat, pageOf] at h
  omega

theorem pmAllocate_ok_iff {k : KernelMemInfo} {a n : UInt64}
    (h : a.toNat + n.toNat * 4096 < 2 ^ 64) :
    (pmAllocate k a n).1 = .sysOk ↔ ∀ p, InRun a n p → k.isFree p = true := by
  rcases pmAllocate_cases (k := k) h with ⟨b, hok, hfree, _⟩ | ⟨herr, p, hp, hused⟩
  · rw [hok]
    exact ⟨fun _ => hfree, fun _ => rfl⟩
  · rw [herr]
    refine ⟨fun hok => (by cases hok), fun hall => ?_⟩
    rw [hall p hp] at hused
    cases hused

attribute [ext] KernelMemInfo

/-- Freeing what was just allocated gives back the record as it was. -/
theorem pmFree_pmAllocate {k : KernelMemInfo} {a n : UInt64}
    (h : a.toNat + n.toNat * 4096 < 2 ^ 64) (hok : (pmAllocate k a n).1 = .sysOk) :
    pmFree (pmAllocate k a n).2 a n = (.sysOk, k) := by
  have hfree := (pmAllocate_ok_iff h).mp hok
  rcases pmAllocate_cases (k := k) h with ⟨b, hal, _, hbits⟩ | ⟨herr, _⟩
  · obtain ⟨taken, htaken⟩ : ∃ taken : KernelMemInfo,
        taken = { k with bytes := b, freeSize := k.freeSize - n * pageSize } := ⟨_, rfl⟩
    have hbits' : ∀ p, taken.isFree p = (k.isFree p && !decide (InRun a n p)) := by
      intro p
      rw [htaken]
      exact hbits p
    have hused : ∀ p, InRun a n p → taken.isFree p = false := by
      intro p hp
      rw [hbits']
      simp [hp]
    rw [hal, ← htaken]
    dsimp only
    obtain ⟨hst, hsize⟩ := pmFree_used h hused
    obtain ⟨hset, hlimit, hmap⟩ := pmFree_run (k := taken) h
    have htotal := pmFree_total taken a n
    have hbytes : (pmFree taken a n).2.bytes = k.bytes := by
      apply BitArray.ext_get
      intro p
      have hp := hset p
      rw [hbits'] at hp
      show (pmFree taken a n).2.isFree p = k.isFree p
      rw [hp]
      -- inside the range the bit was set before, outside nothing happened to it
      by_cases hin : InRun a n p
      · simp [hin, hfree p hin]
      · simp [hin]
    have hback : (pmFree taken a n).2.freeSize = k.freeSize := by
      rw [hsize, htaken]
      exact UInt64.sub_add_cancel _ _
    have hlimit' : (pmFree taken a n).2.physicalLimit = k.physicalLimit := by rw [hlimit, htaken]
    have htotal' : (pmFree taken a n).2.totalSize = k.totalSize := by rw [htotal, htaken]
    have hmap' : (pmFree taken a n).2.bitmap = k.bitmap := by rw [hmap, htaken]
    exact Prod.ext hst (KernelMemInfo.ext hlimit' htotal' hback hmap' hbytes)
  · rw [herr] at hok
    cases hok

/-- For every state of the bitmap and every range it covers: `pm_allocate` succeeds exactly
    when every page of the range is free, and then clears those bits and no others;
    otherwise it changes nothing. `pm_free` right after it brings the record back.
    `pm_free` reports an error exactly when some page was already free, and leaves the
    range free and every other bit alone in both cases. -/
theorem pm_allocate_all_or_nothing {k : KernelMemInfo} {a n : UInt64} (h : k.Covers a n) :
    ((pmAllocate k a n).1 = .sysOk ↔ ∀ p, InRun a n p → k.isFree p = true) ∧
    ((pmAllocate k a n).1 = .sysOk →
      (∀ p, (pmAllocate k a n).2.isFree p = (k.isFree p && !decide (InRun a n p))) ∧
      pmFree (pmAllocate k a n).2 a n = (.sysOk, k)) ∧
    ((pmAllocate k a n).1 ≠ .sysOk → pmAllocate k a n = (.sysErr, k)) ∧
    ((pmFree k a n).1 = .sysErr ↔ ∃ p, InRun a n p ∧ k.isFree p = true) ∧
    (∀ p, (pmFree k a n).2.isFree p = (k.isFree p || decide (InRun a n p))) := by
  have hroom := h.room
  refine ⟨pmAllocate_ok_iff hroom, fun hok => ⟨?_, pmFree_pmAllocate hroom hok⟩, fun hno => ?_,
    pmFree_status hroom, (pmFree_run hroom).1⟩
  · rcases pmAllocate_cases (k := k) hroom with ⟨b, hal, _, hbits⟩ | ⟨herr, _⟩
    · rw [hal]
      exact hbits
    · rw [herr] at hok
      cases hok
  · rcases pmAllocate_cases (k := k) hroom with ⟨b, hal, _, _⟩ | ⟨herr, _⟩
    · rw [hal] at hno
      exact absurd rfl hno
    · exact herr

/-- Eight pages, with pages 2 to 5 free. -/
def fourFree : KernelMemInfo := ⟨0x8000, 0x8000, 0x4000, 0, fun j => if j = 0 then 0x3C else 0⟩

/-- Three pages from page 3 on: allocated, with `free_size` lowered, and given back. -/
theorem pm_allocate_three_of_four :
    (pmAllocate fourFree 0x3000 3).1 = .sysOk ∧ (pmAllocate fourFree 0x3000 3).2.freeSize = 0x1000 ∧
      pmFree (pmAllocate fourFree 0x3000 3).2 0x3000 3 = (.sysOk, fourFree) := by
  have hok : (pmAllocate fourFree 0x3000 3).1 = .sysOk := by decide +kernel
  have hcovers : fourFree.Covers 0x3000 3 := by
    unfold KernelMemInfo.Covers
    decide
  exact ⟨hok, by decide +kernel, ((pm_allocate_all_or_nothing hcovers).2.1 hok).2⟩

end Horizon64
