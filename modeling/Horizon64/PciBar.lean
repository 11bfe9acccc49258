import Horizon64.Lib.Words
import Horizon64.Pci

/- Base address registers (`read_bar` and `find_bar` of `sys/pci.c`).

   A device answers a write to configuration space in its own way: `onWrite a v` is what
   the register at address `a` holds after `v` was written to it. A `DeviceBar` is a base
   address register as devices have them, with a size that is a power of two and a base
   that is a multiple of it; the bits below the size cannot be changed.

   1. `read_bar` and `find_bar`.
   2. The registers of a `DeviceBar` and the `PCI_BAR` it is to be decoded to.
   3. `find_bar_iff`: which of them `find_bar` decodes. -/
namespace Horizon64

/-- `PCI_BAR_MEM_MASK`, `PCI_BAR_TYPE_64BIT` and `PCI_BAR_IO`. -/
def pciBarMemMask : UInt32 := 0xFFFFFFF0
def pciBarType64bit : UInt32 := 0x00000004
def pciBarIo : UInt32 := 0x00000001

/-- The union in `PCI_BAR`. -/
inductive BarLocation where
  | address (a : UInt64)
  | port (p : UInt16)
  deriving DecidableEq

structure PciBar where
  location : BarLocation
  size : UInt64
  flags : UInt32
  deriving DecidableEq

/-- The address `pci_ind` and `pci_outd` put on the address port. -/
def pciConfigAddr (bus slot func : UInt32) (offset : UInt8) : UInt32 :=
  bus <<< 16 ||| slot <<< 11 ||| func <<< 8 ||| (offset &&& 0xFC).toUInt32 ||| 0x80000000

theorem pciInd_eq (c : ConfigSpace) (bus slot func offset : UInt8) : pciInd c bus slot func offset =
    c (pciConfigAddr bus.toUInt32 slot.toUInt32 func.toUInt32 offset) := rfl

section FindBar
variable (onWrite : UInt32 → UInt32 → UInt32)

/-- `pci_outd` to the address: configuration space afterwards. -/
def pciOutd (c : ConfigSpace) (a data : UInt32) : ConfigSpace :=
  Function.update c a (onWrite a data)

/-- `read_bar` at the address: what it reads as `address` and `mask`, and configuration
    space afterwards. -/
def readBar (c : ConfigSpace) (a : UInt32) : UInt32 × UInt32 × ConfigSpace :=
  let address := c a
  let c := pciOutd onWrite c a 0xFFFFFFFF
  let mask := c a
  (address, mask, pciOutd onWrite c a address)

/-- `find_bar`, and configuration space afterwards. -/
def findBar (c : ConfigSpace) (bus slot func : UInt32) (bar : UInt8) : PciBar × ConfigSpace :=
  let a := pciConfigAddr bus slot func bar
  let (addrLow, maskLow, c) := readBar onWrite c a
  if addrLow &&& pciBarType64bit ≠ 0 then
    -- the high half is read from `bar` again
    let (addrHigh, maskHigh, c) := readBar onWrite c a
    ({ location := .address (addrHigh.toUInt64 <<< 32 ||| (addrLow &&& pciBarMemMask).toUInt64)
       size := (maskHigh.toUInt64 <<< 32 ||| (maskLow &&& pciBarMemMask).toUInt64) + 1
       flags := addrLow &&& 0xF }, c)
  else if addrLow &&& pciBarIo ≠ 0 then
    ({ location := .port (addrLow &&& (pciBarMemMask ||| 0xC)).toUInt16
       size := (~~~(maskLow &&& (pciBarMemMask ||| 0xC)) + 1).toUInt16.toUInt64
       flags := addrLow &&& 0x3 }, c)
  else
    ({ location := .address (addrLow &&& pciBarMemMask).toUInt64
       size := (~~~(maskLow &&& pciBarMemMask) + 1).toUInt64
       flags := addrLow &&& 0xF }, c)

end FindBar

/-! Registers of devices. -/

inductive BarKind where
  | memory32
  | io
  | memory64
  deriving DecidableEq

/-- The sizes of a kind, as powers of two. -/
def BarKind.sizes : BarKind → Nat → Prop
  | .memory32, k => 4 ≤ k ∧ k ≤ 31
  | .io, k => 2 ≤ k ∧ k ≤ 8
  | .memory64, k => 4 ≤ k ∧ k ≤ 63

/-- How far the bases of a kind go. -/
def BarKind.addressBits : BarKind → Nat
  | .memory32 => 32
  | .io => 16
  | .memory64 => 64

structure DeviceBar where
  kind : BarKind
  prefetchable : Bool
  /-- The size is `2 ^ k`. -/
  k : Nat
  base : UInt64
  sizes : kind.sizes k
  base_lt : base.toNat < 2 ^ kind.addressBits
  aligned : base.toNat % 2 ^ k = 0

namespace DeviceBar

def size (d : DeviceBar) : UInt64 := UInt64.ofNat (2 ^ d.k)

/-- The low bits of the register, which tell the kind. -/
def typeBits (d : DeviceBar) : UInt32 :=
  match d.kind with
  | .memory32 => if d.prefetchable then 0x8 else 0x0
  | .io => 0x1
  | .memory64 => if d.prefetchable then 0xC else 0x4

/-- The bits below the size, in the register at `bar` and the one after it. -/
def fixedLow (d : DeviceBar) : UInt32 := (d.size - 1).toUInt32
def fixedHigh (d : DeviceBar) : UInt32 := ((d.size - 1) >>> 32).toUInt32

def low (d : DeviceBar) : UInt32 := d.base.toUInt32 ||| d.typeBits
def high (d : DeviceBar) : UInt32 := (d.base >>> 32).toUInt32

/-- What `find_bar` is to return. -/
def decoded (d : DeviceBar) : PciBar where
  location :=
    match d.kind with
    | .io => .port d.base.toUInt16
    | .memory32 | .memory64 => .address d.base
  size := d.size
  flags := d.typeBits

end DeviceBar

/-- The device has the register at `bar`, a 64-bit one at `bar` and `bar + 4`. -/
structure HasBar (onWrite : UInt32 → UInt32 → UInt32) (c : ConfigSpace) (bus slot func : UInt32)
    (bar : UInt8) (d : DeviceBar) : Prop where
  low : c (pciConfigAddr bus slot func bar) = d.low
  onWriteLow : ∀ v, onWrite (pciConfigAddr bus slot func bar) v = (v &&& ~~~d.fixedLow) ||| d.typeBits
  high : d.kind = .memory64 → c (pciConfigAddr bus slot func (bar + 4)) = d.high
  onWriteHigh : d.kind = .memory64 →
    ∀ v, onWrite (pciConfigAddr bus slot func (bar + 4)) v = v &&& ~~~d.fixedHigh

/-! Masks: a word `x` that avoids the mask `m`, and a word `t` inside it. -/

section Masks
variable {x t m n : UInt32}

theorem or_and_distrib (x t m : UInt32) : (x ||| t) &&& m = (x &&& m) ||| (t &&& m) :=
  UInt32.toBitVec_inj.mp BitVec.and_or_distrib_right

theorem and_or_distrib (m x t : UInt32) : m &&& (x ||| t) = (m &&& x) ||| (m &&& t) :=
  UInt32.toBitVec_inj.mp BitVec.and_or_distrib_left

theorem avoids_and_not (hx : x &&& m = 0) : x &&& ~~~m = x :=
  calc x &&& ~~~m = (x &&& m) ||| (x &&& ~~~m) := by rw [hx, UInt32.zero_or]
    _ = x &&& (m ||| ~~~m) := (and_or_distrib x m _).symm
    _ = x := by simp

theorem inside_and_not (ht : t &&& m = t) : t &&& ~~~m = 0 :=
  calc t &&& ~~~m = t &&& (m &&& ~~~m) := by rw [← UInt32.and_assoc, ht]
    _ = 0 := by simp

theorem not_avoids (ht : t &&& m = t) : ~~~m &&& t = 0 := by
  rw [UInt32.and_comm, inside_and_not ht]

theorem avoids_of_inside (hx : x &&& m = 0) (hn : n &&& m = n) : x &&& n = 0 :=
  calc x &&& n = x &&& (m &&& n) := by rw [UInt32.and_comm m n, hn]
    _ = (x &&& m) &&& n := (UInt32.and_assoc x m n).symm
    _ = 0 := by rw [hx, UInt32.zero_and]

theorem or_and_not (hx : x &&& m = 0) (ht : t &&& m = t) : (x ||| t) &&& ~~~m = x := by
  rw [or_and_distrib, avoids_and_not hx, inside_and_not ht, UInt32.or_zero]

end Masks

/-! The fixed bits of a register. -/

namespace DeviceBar
variable (d : DeviceBar)

theorem k_lt : d.k < 64 := by
  have h := d.sizes
  cases hkind : d.kind <;> rw [hkind, BarKind.sizes] at h <;> omega

theorem toNat_size : d.size.toNat = 2 ^ d.k :=
  Words.toNat_ofNat_of_lt (Nat.pow_lt_pow_right (by decide) d.k_lt)

theorem toNat_fixed : (d.size - 1).toNat = 2 ^ d.k - 1 := by
  have hone : (1 : UInt64) ≤ d.size := by
    rw [UInt64.le_iff_toNat_le, d.toNat_size]
    exact Nat.one_le_two_pow
  rw [UInt64.toNat_sub_of_le _ _ hone, d.toNat_size]
  rfl

theorem base_avoids : d.base.toUInt32 &&& d.fixedLow = 0 := by
  have h : d.base &&& (d.size - 1) = 0 := by
    apply UInt64.toNat_inj.mp
    rw [UInt64.toNat_and, d.toNat_fixed, Nat.and_two_pow_sub_one_eq_mod, d.aligned]
    rfl
  rw [fixedLow, ← UInt64.toUInt32_and, h]
  rfl

theorem inside_fixedLow {t : UInt32} (h : t.toNat < 2 ^ d.k) : t &&& d.fixedLow = t := by
  have h64 : t.toUInt64 &&& (d.size - 1) = t.toUInt64 := by
    apply UInt64.toNat_inj.mp
    rw [UInt64.toNat_and, d.toNat_fixed, Nat.and_two_pow_sub_one_eq_mod, UInt32.toNat_toUInt64,
      Nat.mod_eq_of_lt h]
  calc t &&& d.fixedLow = (t.toUInt64 &&& (d.size - 1)).toUInt32 := by
        rw [UInt64.toUInt32_and, UInt32.toUInt32_toUInt64, fixedLow]
    _ = t := by rw [h64, UInt32.toUInt32_toUInt64]

theorem typeBits_lt : d.typeBits.toNat < 2 ^ d.k := by
  have h := d.sizes
  have h2 : 2 ≤ d.k → 2 ^ 2 ≤ 2 ^ d.k := Nat.pow_le_pow_right (by decide)
  have h4 : 4 ≤ d.k → 2 ^ 4 ≤ 2 ^ d.k := Nat.pow_le_pow_right (by decide)
  rw [typeBits]
  cases hkind : d.kind with
  | memory32 =>
    rw [hkind] at h
    refine Nat.lt_of_lt_of_le ?_ (h4 h.1)
    cases d.prefetchable <;> decide
  | io =>
    rw [hkind] at h
    exact Nat.lt_of_lt_of_le (show (1 : UInt32).toNat < 2 ^ 2 by decide) (h2 h.1)
  | memory64 =>
    rw [hkind] at h
    refine Nat.lt_of_lt_of_le ?_ (h4 h.1)
    cases d.prefetchable <;> decide

theorem typeBits_inside : d.typeBits &&& d.fixedLow = d.typeBits :=
  d.inside_fixedLow d.typeBits_lt

theorem fixedLow_succ (h : d.k < 32) : (d.fixedLow + 1).toNat = 2 ^ d.k := by
  have hpow : 2 ^ d.k < 2 ^ 32 := Nat.pow_lt_pow_right (by decide) h
  have hpos : 0 < 2 ^ d.k := Nat.two_pow_pos d.k
  have hfixed : d.fixedLow.toNat = 2 ^ d.k - 1 := by
    rw [fixedLow, UInt64.toNat_toUInt32, d.toNat_fixed, Nat.mod_eq_of_lt (by omega)]
  have hone : (1 : UInt32).toNat = 1 := rfl
  rw [UInt32.toNat_add, hfixed, hone, Nat.sub_add_cancel hpos, Nat.mod_eq_of_lt hpow]

end DeviceBar

/-! Reading a register. -/

section Decode
variable {onWrite : UInt32 → UInt32 → UInt32} {c : ConfigSpace} {bus slot func : UInt32}
variable {bar : UInt8} {d : DeviceBar}

/-- The probing write is undone. -/
theorem readBar_eq (h : HasBar onWrite c bus slot func bar d) :
    readBar onWrite c (pciConfigAddr bus slot func bar) =
      (d.low, ~~~d.fixedLow ||| d.typeBits, c) := by
  obtain ⟨a, ha⟩ : ∃ a, a = pciConfigAddr bus slot func bar := ⟨_, rfl⟩
  have hlow := h.low
  have hwrite := h.onWriteLow
  rw [← ha] at hlow hwrite ⊢
  have hback : onWrite a d.low = c a := by
    rw [hwrite, hlow, DeviceBar.low, or_and_not d.base_avoids d.typeBits_inside]
  have hones : onWrite a 0xFFFFFFFF = ~~~d.fixedLow ||| d.typeBits := by
    rw [hwrite, show (0xFFFFFFFF : UInt32) = -1 by rfl, UInt32.neg_one_and]
  have hsame : Function.update c a d.low = c := by rw [← hlow, Function.update_eq_self]
  simp only [readBar, pciOutd, Function.update_self, Function.update_idem, hlow, hback, hones, hsame]

/-- `find_bar` on such a register, without its side effects. -/
theorem findBar_eq (h : HasBar onWrite c bus slot func bar d) :
    findBar onWrite c bus slot func bar =
      if d.low &&& pciBarType64bit ≠ 0 then
        ({ location := .address (d.low.toUInt64 <<< 32 ||| (d.low &&& pciBarMemMask).toUInt64)
           size := ((~~~d.fixedLow ||| d.typeBits).toUInt64 <<< 32 |||
             ((~~~d.fixedLow ||| d.typeBits) &&& pciBarMemMask).toUInt64) + 1
           flags := d.low &&& 0xF }, c)
      else if d.low &&& pciBarIo ≠ 0 then
        ({ location := .port (d.low &&& (pciBarMemMask ||| 0xC)).toUInt16
           size := (~~~((~~~d.fixedLow ||| d.typeBits) &&& (pciBarMemMask ||| 0xC)) +
             1).toUInt16.toUInt64
           flags := d.low &&& 0x3 }, c)
      else
        ({ location := .address (d.low &&& pciBarMemMask).toUInt64
           size := (~~~((~~~d.fixedLow ||| d.typeBits) &&& pciBarMemMask) + 1).toUInt64
           flags := d.low &&& 0xF }, c) := by
  simp only [findBar, readBar_eq h]

theorem findBar_restores (h : HasBar onWrite c bus slot func bar d) :
    (findBar onWrite c bus slot func bar).2 = c := by
  rw [findBar_eq h]
  split_ifs <;> rfl

/-! By kinds. -/

namespace DeviceBar
variable (d : DeviceBar) {m : UInt32}

theorem low_and (hm : m.toNat < 2 ^ d.k) : d.low &&& m = d.typeBits &&& m := by
  rw [low, or_and_distrib, avoids_of_inside d.base_avoids (d.inside_fixedLow hm), UInt32.zero_or]

theorem low_and_not (hm : m.toNat < 2 ^ d.k) (ht : d.typeBits &&& m = d.typeBits) :
    d.low &&& ~~~m = d.base.toUInt32 :=
  or_and_not (avoids_of_inside d.base_avoids (d.inside_fixedLow hm)) ht

theorem mask_and_not (hm : m.toNat < 2 ^ d.k) (ht : d.typeBits &&& m = d.typeBits) :
    (~~~d.fixedLow ||| d.typeBits) &&& ~~~m = ~~~d.fixedLow :=
  or_and_not (not_avoids (d.inside_fixedLow hm)) ht

end DeviceBar

theorem memMask_eq : pciBarMemMask = ~~~0xF := by decide

theorem ioMask_eq : pciBarMemMask ||| 0xC = ~~~0x3 := by decide

theorem findBar_memory32 (h : HasBar onWrite c bus slot func bar d) (hkind : d.kind = .memory32) :
    findBar onWrite c bus slot func bar = (d.decoded, c) := by
  obtain ⟨hk4, hk31⟩ : 4 ≤ d.k ∧ d.k ≤ 31 := by simpa [hkind, BarKind.sizes] using d.sizes
  have hbase : d.base.toNat < 2 ^ 32 := by simpa [hkind, BarKind.addressBits] using d.base_lt
  have h16 : 2 ^ 4 ≤ 2 ^ d.k := Nat.pow_le_pow_right (by decide) hk4
  have hsub : ∀ m : UInt32, m.toNat < 16 → m.toNat < 2 ^ d.k := fun m hm => Nat.lt_of_lt_of_le hm h16
  have htype : d.typeBits &&& 0xF = d.typeBits ∧ d.typeBits &&& 4 = 0 ∧ d.typeBits &&& 1 = 0 := by
    rw [DeviceBar.typeBits, hkind]
    cases d.prefetchable <;> decide
  have hlocation : d.base.toUInt32.toUInt64 = d.base := by
    apply UInt64.toNat_inj.mp
    rw [UInt32.toNat_toUInt64, UInt64.toNat_toUInt32, Nat.mod_eq_of_lt hbase]
  have hsize : (d.fixedLow + 1).toUInt64 = d.size := by
    apply UInt64.toNat_inj.mp
    rw [UInt32.toNat_toUInt64, d.fixedLow_succ (by omega), d.toNat_size]
  rw [findBar_eq h, pciBarType64bit, d.low_and (hsub 4 (by decide)), if_neg (not_not.mpr htype.2.1),
    pciBarIo, d.low_and (hsub 1 (by decide)), if_neg (not_not.mpr htype.2.2), memMask_eq,
    d.low_and_not (hsub 0xF (by decide)) htype.1, d.mask_and_not (hsub 0xF (by decide)) htype.1,
    d.low_and (hsub 0xF (by decide)), htype.1, UInt32.not_not, hlocation, hsize]
  simp only [DeviceBar.decoded, hkind]

theorem findBar_io (h : HasBar onWrite c bus slot func bar d) (hkind : d.kind = .io)
    (hclear : d.base.toUInt32 &&& pciBarType64bit = 0) :
    findBar onWrite c bus slot func bar = (d.decoded, c) := by
  obtain ⟨hk2, hk8⟩ : 2 ≤ d.k ∧ d.k ≤ 8 := by simpa [hkind, BarKind.sizes] using d.sizes
  have h4 : 2 ^ 2 ≤ 2 ^ d.k := Nat.pow_le_pow_right (by decide) hk2
  have hsub : ∀ m : UInt32, m.toNat < 4 → m.toNat < 2 ^ d.k := fun m hm => Nat.lt_of_lt_of_le hm h4
  have htype : d.typeBits = 1 := by rw [DeviceBar.typeBits, hkind]
  have htest : d.low &&& pciBarType64bit = 0 := by
    rw [DeviceBar.low, or_and_distrib, hclear, htype]
    rfl
  have hsize : (d.fixedLow + 1).toUInt16.toUInt64 = d.size := by
    have h256 : 2 ^ d.k ≤ 2 ^ 8 := Nat.pow_le_pow_right (by decide) hk8
    apply UInt64.toNat_inj.mp
    rw [UInt16.toNat_toUInt64, UInt32.toNat_toUInt16, d.fixedLow_succ (by omega), d.toNat_size,
      Nat.mod_eq_of_lt (by omega)]
  have h3 : d.typeBits &&& 0x3 = d.typeBits := by
    rw [htype]
    rfl
  rw [findBar_eq h, if_neg (not_not.mpr htest), ioMask_eq, d.low_and_not (hsub 0x3 (by decide)) h3,
    d.mask_and_not (hsub 0x3 (by decide)) h3, d.low_and (hsub 0x3 (by decide)), h3, pciBarIo,
    d.low_and (hsub 1 (by decide)), htype, if_pos (by decide), UInt32.not_not, hsize]
  simp only [DeviceBar.decoded, hkind, htype, UInt64.toUInt16_toUInt32]

/-- The sum that is to be the size of a 64-bit register. -/
theorem odd_of_memMask (high low : UInt32) :
    ((high.toUInt64 <<< 32 ||| (low &&& pciBarMemMask).toUInt64) + 1).toNat % 2 = 1 := by
  obtain ⟨z, hz⟩ : ∃ z, z = high.toUInt64 <<< 32 ||| (low &&& pciBarMemMask).toUInt64 := ⟨_, rfl⟩
  have hbit : z.toNat.testBit 0 = false := by
    rw [hz, UInt64.toNat_or, Nat.testBit_or, UInt64.toNat_shiftLeft, Nat.testBit_mod_two_pow,
      Nat.testBit_shiftLeft, UInt32.toNat_toUInt64, UInt32.toNat_toUInt64, UInt32.toNat_and,
      Nat.testBit_and]
    have hmask : pciBarMemMask.toNat.testBit 0 = false := by decide
    rw [hmask]
    simp
  have heven : z.toNat % 2 = 0 := by simpa [Nat.testBit_zero] using hbit
  have hone : (1 : UInt64).toNat = 1 := rfl
  rw [← hz, UInt64.toNat_add, hone]
  omega

/-- A register with the bit of a 64-bit one is decoded to an address and an odd size. -/
theorem findBar_type64bit (h : HasBar onWrite c bus slot func bar d)
    (htest : d.low &&& pciBarType64bit ≠ 0) :
    ∃ a size, (findBar onWrite c bus slot func bar).1 = ⟨.address a, size, d.low &&& 0xF⟩ ∧
      size.toNat % 2 = 1 := by
  rw [findBar_eq h, if_pos htest]
  exact ⟨_, _, rfl, odd_of_memMask _ _⟩

/-- For every register of a device: `find_bar` leaves configuration space as it was, and it
    returns the base, the size and the kind exactly when the register is a 32-bit memory one,
    or an I/O one whose base has bit 2 clear. -/
theorem find_bar_iff (h : HasBar onWrite c bus slot func bar d) :
    (findBar onWrite c bus slot func bar).2 = c ∧
    (findBar onWrite c bus slot func bar = (d.decoded, c) ↔
      d.kind = .memory32 ∨ (d.kind = .io ∧ d.base.toUInt32 &&& pciBarType64bit = 0)) := by
  refine ⟨findBar_restores h, fun hdecoded => ?_, fun hcond => ?_⟩
  · cases hkind : d.kind with
    | memory32 => exact Or.inl rfl
    | io =>
      right
      refine ⟨rfl, by_contra fun hset => ?_⟩
      have htype : d.typeBits = 1 := by rw [DeviceBar.typeBits, hkind]
      have htest : d.low &&& pciBarType64bit ≠ 0 := by
        have hbit : (1 : UInt32) &&& pciBarType64bit = 0 := rfl
        rw [DeviceBar.low, or_and_distrib, htype, hbit, UInt32.or_zero]
        exact hset
      obtain ⟨a, size, hbar, _⟩ := findBar_type64bit h htest
      rw [hdecoded] at hbar
      have hlocation := congrArg PciBar.location hbar
      simp [DeviceBar.decoded, hkind] at hlocation
    | memory64 =>
      obtain ⟨hk4, hk63⟩ : 4 ≤ d.k ∧ d.k ≤ 63 := by simpa [hkind, BarKind.sizes] using d.sizes
      have htest : d.low &&& pciBarType64bit ≠ 0 := by
        have h16 : 2 ^ 4 ≤ 2 ^ d.k := Nat.pow_le_pow_right (by decide) hk4
        rw [d.low_and (Nat.lt_of_lt_of_le (by decide) h16), DeviceBar.typeBits, hkind]
        cases d.prefetchable <;> decide
      obtain ⟨a, size, hbar, hodd⟩ := findBar_type64bit h htest
      rw [hdecoded] at hbar
      have hsize : d.size = size := congrArg PciBar.size hbar
      have heven : 2 ^ d.k % 2 = 0 := Nat.mod_eq_zero_of_dvd (dvd_pow_self 2 (by omega))
      rw [← hsize, d.toNat_size, heven] at hodd
      cases hodd
  · rcases hcond with hkind | ⟨hkind, hclear⟩
    · exact findBar_memory32 h hkind
    · exact findBar_io h hkind hclear

end Decode

/-- A device 3 on bus 0 with the register as its first one. -/
def barSpace (d : DeviceBar) : ConfigSpace := fun a =>
  if a = pciConfigAddr 0 3 0 0x10 then d.low
  else if a = pciConfigAddr 0 3 0 0x14 then d.high
  else 0xFFFFFFFF

def barWrites (d : DeviceBar) (a v : UInt32) : UInt32 :=
  if a = pciConfigAddr 0 3 0 0x10 then (v &&& ~~~d.fixedLow) ||| d.typeBits
  else if a = pciConfigAddr 0 3 0 0x14 then v &&& ~~~d.fixedHigh
  else v

theorem hasBar_barSpace (d : DeviceBar) : HasBar (barWrites d) (barSpace d) 0 3 0 0x10 d where
  low := if_pos rfl
  onWriteLow _ := if_pos rfl
  high _ := rfl
  onWriteHigh _ _ := rfl

/-- 4 KiB at 0xFEB00000; 4 KiB at 0x100000000; four ports at 0xC004. -/
def registers32 : DeviceBar :=
  ⟨.memory32, false, 12, 0xFEB00000, ⟨by decide, by decide⟩, by decide, by decide⟩
def registers64 : DeviceBar :=
  ⟨.memory64, false, 12, 0x100000000, ⟨by decide, by decide⟩, by decide, by decide⟩
def fourPorts : DeviceBar :=
  ⟨.io, false, 2, 0xC004, ⟨by decide, by decide⟩, by decide, by decide⟩

theorem find_bar_registers32 : findBar (barWrites registers32) (barSpace registers32) 0 3 0 0x10 =
    (⟨.address 0xFEB00000, 0x1000, 0⟩, barSpace registers32) :=
  (find_bar_iff (hasBar_barSpace registers32)).2.mpr (Or.inl rfl)

/-- The 64-bit register gets base 0x400000000 and an odd size, the ports an address. -/
theorem find_bar_wrong :
    (findBar (barWrites registers64) (barSpace registers64) 0 3 0 0x10).1 =
      ⟨.address 0x400000000, 0xFFFFF004FFFFF001, 0x4⟩ ∧
    (findBar (barWrites fourPorts) (barSpace fourPorts) 0 3 0 0x10).1 =
      ⟨.address 0xC0050000C000, 0xFFFFFFFDFFFFFFF1, 0x5⟩ ∧
    ¬ ∀ onWrite c bus slot func bar d, HasBar onWrite c bus slot func bar d →
      findBar onWrite c bus slot func bar = (d.decoded, c) := by
  have h64 : (findBar (barWrites registers64) (barSpace registers64) 0 3 0 0x10).1 =
      ⟨.address 0x400000000, 0xFFFFF004FFFFF001, 0x4⟩ := by decide
  refine ⟨h64, by decide, fun h => ?_⟩
  have hdecoded := congrArg Prod.fst (h _ _ _ _ _ _ _ (hasBar_barSpace registers64))
  rw [h64] at hdecoded
  exact absurd hdecoded (by decide)

end Horizon64
