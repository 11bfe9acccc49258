import Horizon64.Lib.Bytes

/- `memmove` of `common/memory.c`.

   The loop goes up when the source is above the destination and down when it is below:
   either way a byte is read before it is overwritten (`down_order` for the loop down), so
   the destination gets what the source held at the beginning, however the two overlap.
   `memcpy` always goes up, which is the right direction for a destination that is not
   above the source, as in `vector_erase`. -/
namespace Horizon64
open Bytes

/-- `memmove`: the memory that it leaves, and the pointer that it returns. -/
def memmove (m : Memory) (dest src n : UInt64) : Memory × UInt64 :=
  let m :=
    if src > dest then
      Nat.fold n.toNat
        (fun i _ m => write m (dest + UInt64.ofNat i) (m (src + UInt64.ofNat i))) m
    else if src < dest then
      -- the counter of the source is one more than `i`
      Nat.foldRev n.toNat
        (fun i _ m => write m (dest + UInt64.ofNat i) (m (src + UInt64.ofNat i))) m
    else m
  (m, dest)

/-- The `n` bytes from `p` on. -/
def InRange (p n a : UInt64) : Prop := p.toNat ≤ a.toNat ∧ a.toNat < p.toNat + n.toNat

/-- Two ranges of `n` bytes, neither of which wraps. -/
structure Ranges where
  dst : UInt64
  src : UInt64
  n : UInt64
  dst_fits : dst.toNat + n.toNat ≤ 2 ^ 64
  src_fits : src.toNat + n.toNat ≤ 2 ^ 64

/-- No byte is in both ranges. -/
def Ranges.Disjoint (r : Ranges) : Prop := ∀ a, InRange r.dst r.n a → ¬ InRange r.src r.n a

/-- The destination holds what the source held, and nothing else changed. -/
structure Ranges.Moved (r : Ranges) (m m' : Memory) : Prop where
  copied : ∀ i < r.n, m' (r.dst + i) = m (r.src + i)
  rest : ∀ a, ¬ InRange r.dst r.n a → m' a = m a

theorem inRange_iff {p n : UInt64} (h : p.toNat + n.toNat ≤ 2 ^ 64) {a : UInt64} :
    InRange p n a ↔ a - p < n := by
  have hp := p.toNat_lt
  have ha := a.toNat_lt
  rw [InRange, UInt64.lt_iff_toNat_lt, UInt64.toNat_sub]
  omega

theorem range_byte {p n : UInt64} (h : p.toNat + n.toNat ≤ 2 ^ 64) {i : Nat} (hi : i < n.toNat) :
    (p + UInt64.ofNat i).toNat = p.toNat + i := by
  have hi' : (UInt64.ofNat i).toNat = i := Words.toNat_ofNat_of_lt (by omega)
  rw [Words.toNat_add_of_lt (by omega), hi']

theorem inRange_byte {p n i : UInt64} (h : p.toNat + n.toNat ≤ 2 ^ 64) (hi : i < n) :
    InRange p n (p + i) := by
  rw [inRange_iff h, Words.add_sub_left]
  exact hi

namespace Ranges
variable (r : Ranges) (m : Memory)

/-- What was moved, byte by byte: there is one such memory. -/
theorem moved_iff {m' : Memory} : r.Moved m m' ↔
    ∀ a, m' a = if a - r.dst < r.n then m (r.src + (a - r.dst)) else m a := by
  refine ⟨?_, ?_⟩
  · intro h a
    by_cases hin : a - r.dst < r.n
    · have hcopied := h.copied (a - r.dst) hin
      rw [Words.add_sub_back] at hcopied
      rw [if_pos hin, hcopied]
    · rw [if_neg hin]
      exact h.rest a fun hrange => hin ((inRange_iff r.dst_fits).mp hrange)
  · intro h
    refine ⟨fun i hi => ?_, fun a ha => ?_⟩
    · rw [h, Words.add_sub_left, if_pos hi]
    · rw [h, if_neg fun hin => ha ((inRange_iff r.dst_fits).mpr hin)]

theorem Moved.unique {r : Ranges} {m m₁ m₂ : Memory} (h₁ : r.Moved m m₁) (h₂ : r.Moved m m₂) :
    m₁ = m₂ := by
  funext a
  rw [(r.moved_iff m).mp h₁ a, (r.moved_iff m).mp h₂ a]

/-- Upwards no byte is read after it was written, when the destination is not above the
    source. -/
theorem memcpy_moved_of_le (hle : r.dst ≤ r.src) : r.Moved m (memcpy m r.dst r.src r.n) := by
  have hsrc := r.src_fits
  rw [moved_iff]
  apply memcpy_down
  rw [UInt64.toNat_sub_of_le _ _ hle]
  omega

theorem memcpy_moved_of_disjoint (hdis : r.Disjoint) : r.Moved m (memcpy m r.dst r.src r.n) := by
  rw [moved_iff]
  apply memcpy_apply
  intro i j hi hj heq
  apply hdis (r.dst + j) (inRange_byte r.dst_fits hj)
  rw [← heq]
  exact inRange_byte r.src_fits hi

/-- Downwards none is when the source is not above the destination. -/
theorem down_order (hle : r.src ≤ r.dst) :
    CopyOrder r.dst r.src (List.range r.n.toNat).reverse := by
  rw [CopyOrder, List.pairwise_reverse]
  refine List.pairwise_lt_range.imp_of_mem fun {k j} hk hj hkj heq => ?_
  rw [List.mem_range] at hk hj
  rw [UInt64.le_iff_toNat_le] at hle
  have hread := range_byte r.src_fits hk
  rw [heq, range_byte r.dst_fits hj] at hread
  omega

theorem memmove_moved : r.Moved m (memmove m r.dst r.src r.n).1 := by
  rw [memmove]
  dsimp only
  by_cases hup : r.src > r.dst
  · rw [if_pos hup]
    exact r.memcpy_moved_of_le m (UInt64.le_of_lt hup)
  · rw [if_neg hup]
    by_cases hdown : r.src < r.dst
    · rw [if_pos hdown, moved_iff, Folds.foldRev_range r.n.toNat fun m i =>
        write m (r.dst + UInt64.ofNat i) (m (r.src + UInt64.ofNat i))]
      intro a
      rw [copy_apply m (Nat.le_of_lt r.n.toNat_lt)
        (fun k => by rw [List.mem_reverse, List.mem_range]) (r.down_order (UInt64.le_of_lt hdown))]
      simp only [UInt64.lt_iff_toNat_lt]
    · -- the ranges are one
      have heq : r.src = r.dst := UInt64.le_antisymm (UInt64.not_lt.mp hup) (UInt64.not_lt.mp hdown)
      rw [if_neg hdown, moved_iff, heq]
      intro a
      rw [Words.add_sub_back, ite_self]

theorem memmove_eq_memcpy (h : r.Disjoint ∨ r.dst ≤ r.src) :
    memmove m r.dst r.src r.n = (memcpy m r.dst r.src r.n, r.dst) := by
  have hmoved : r.Moved m (memcpy m r.dst r.src r.n) := by
    rcases h with hdis | hle
    · exact r.memcpy_moved_of_disjoint m hdis
    · exact r.memcpy_moved_of_le m hle
  exact Prod.ext ((r.memmove_moved m).unique hmoved) rfl

end Ranges

/-- `memmove` moves its source for every overlap, and `memcpy`, which returns its destination
    too, does the same when the ranges are disjoint or the destination is not above the
    source. -/
theorem memmove_moves (r : Ranges) (m : Memory) :
    r.Moved m (memmove m r.dst r.src r.n).1 ∧
    (r.Disjoint ∨ r.dst ≤ r.src →
      memmove m r.dst r.src r.n = (memcpy m r.dst r.src r.n, r.dst)) :=
  ⟨r.memmove_moved m, r.memmove_eq_memcpy m⟩

/-- Three bytes up by one, and three bytes down by one. -/
theorem memmove_moves_by_one :
    (Ranges.mk 1 0 3 (by decide) (by decide)).Moved (fun a => a.toUInt8)
      (memmove (fun a => a.toUInt8) 1 0 3).1 ∧
    memmove (fun a => a.toUInt8) 0 1 3 = (memcpy (fun a => a.toUInt8) 0 1 3, 0) :=
  ⟨(memmove_moves (Ranges.mk 1 0 3 (by decide) (by decide)) _).1,
    (memmove_moves (Ranges.mk 0 1 3 (by decide) (by decide)) _).2 (Or.inr (by decide))⟩

-- up by one, `memcpy` repeats the first byte
example : (memmove (fun a => a.toUInt8) 1 0 2).1 2 = 1 ∧
    memcpy (fun a => a.toUInt8) 1 0 2 2 = 0 := by decide

end Horizon64
