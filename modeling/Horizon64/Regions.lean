import Horizon64.LiveBlocks

/- Blocks of pages as regions of memory.

   Code reaches a physical page at its address plus `MEM_VIRT_OFFSET`, and memory
   is keyed by these virtual addresses. A virtual address is held by a block when
   the page below it is one of the block's; blocks with no page in common hold no
   address in common, with no side condition on where the offset takes them.

   `Only b m m'` says that a write stayed in block `b`. -/
namespace Horizon64
open Words Bytes

/-- The page allocator and memory. -/
structure Machine where
  kmem : KernelMemInfo
  mem : Memory

/-- The virtual address `x` lies in a page of block `b`. -/
abbrev Block.Holds (b : Block) (x : UInt64) : Prop := b.Page (pageOf (virtToPhys x))

/-- Where the block is seen: its first byte, in virtual memory. -/
def Block.base (b : Block) : UInt64 := physToVirt b.address

/-- A block of whole pages that ends below `2^64`. -/
def Block.Whole (b : Block) : Prop :=
  b.address.toNat % 4096 = 0 ∧ b.address.toNat + b.n.toNat * 4096 < 2 ^ 64

/-- A whole block holds the `n * 4096` bytes from its base on. -/
theorem holds_iff {b : Block} (hb : b.Whole) (x : UInt64) :
    b.Holds x ↔ (x - b.base).toNat < b.n.toNat * 4096 := by
  obtain ⟨hal, hend⟩ := hb
  have hx := (virtToPhys x).toNat_lt
  have hsub : x - b.base = virtToPhys x - b.address := by
    simp only [Block.base, physToVirt, virtToPhys]
    grind
  rw [hsub, Block.Holds, Block.Page, InRun, pageOf, pageOf, UInt64.toNat_sub]
  have ha := b.address.toNat_lt
  by_cases hle : b.address.toNat ≤ (virtToPhys x).toNat
  · rw [show 2 ^ 64 - b.address.toNat + (virtToPhys x).toNat =
      (virtToPhys x).toNat - b.address.toNat + 2 ^ 64 by omega, Nat.add_mod_right,
      Nat.mod_eq_of_lt (by omega)]
    omega
  · rw [Nat.mod_eq_of_lt (by omega)]
    omega

theorem holds_off {b : Block} (hb : b.Whole) {x off : UInt64} {len : Nat}
    (hlen : off.toNat + len ≤ b.n.toNat * 4096) (hx : (x - (b.base + off)).toNat < len) :
    b.Holds x := by
  have hend := hb.2
  have hsplit : x - b.base = off + (x - (b.base + off)) := sub_split _ _ _
  rw [holds_iff hb, hsplit, toNat_add_of_lt (by omega)]
  omega

/-- `m'` differs from `m` only in bytes of block `b`. -/
def Only (b : Block) (m m' : Memory) : Prop := ∀ x, ¬ b.Holds x → m' x = m x

theorem Only.refl (b : Block) (m : Memory) : Only b m m := fun _ _ => rfl

theorem Only.trans {b : Block} {m m' m'' : Memory} (h : Only b m m') (h' : Only b m' m'') :
    Only b m m'' := fun x hx => (h' x hx).trans (h x hx)

section Writes
variable {b : Block} (hb : b.Whole) (m : Memory)
include hb

theorem only_store64 {off : UInt64} (v : UInt64) (h : off.toNat + 8 ≤ b.n.toNat * 4096) :
    Only b m (store64 m (b.base + off) v) := by
  intro x hx
  apply store64_off
  intro hlt
  exact hx (holds_off hb h (UInt64.lt_iff_toNat_lt.mp hlt))

theorem only_memset {off len : UInt64} (v : UInt8)
    (h : off.toNat + len.toNat ≤ b.n.toNat * 4096) :
    Only b m (memset m (b.base + off) v len) := by
  intro x hx
  rw [memset_apply, if_neg]
  intro hlt
  exact hx (holds_off hb h (UInt64.lt_iff_toNat_lt.mp hlt))

theorem only_memcpy {off len : UInt64} (src : UInt64)
    (h : off.toNat + len.toNat ≤ b.n.toNat * 4096) :
    Only b m (memcpy m (b.base + off) src len) := by
  intro x hx
  apply memcpy_off
  intro hlt
  exact hx (holds_off hb h (UInt64.lt_iff_toNat_lt.mp hlt))

end Writes

end Horizon64
