import Horizon64.Acpi
import Horizon64.Lib.Layout

/- The HPET description table and the structure it is read through (`structs/hpet_str.h`,
   `structs/generic_addr_structure_str.h`, `structs/rsdt_str.h`).

   `HPET_SDT` is packed, but the generic address structure in it is not: it has size 16
   and its address at offset 8, where the table has a 12-byte structure with the address
   at offset 4.

   1. The structures, and the fields `hpet_init` reads.
   2. The table, byte by byte.
   3. `hpet_table_iff`: when the fields are the ones in the table. -/
namespace Horizon64
open Bytes Layout

/-! Structures. -/

inductive SdtHeaderField where
  | signature | length | revision | checksum | oemid | oemTableId | oemRevision | creatorId
  | creatorRevision
  deriving DecidableEq

/-- `ACPI_SDT_HEADER`, packed. -/
def acpiSdtHeader : List (SdtHeaderField × Member) :=
  [(.signature, .plain (array 4 (scalar 1))), (.length, .plain (scalar 4)),
    (.revision, .plain (scalar 1)), (.checksum, .plain (scalar 1)),
    (.oemid, .plain (array 6 (scalar 1))), (.oemTableId, .plain (array 8 (scalar 1))),
    (.oemRevision, .plain (scalar 4)), (.creatorId, .plain (scalar 4)),
    (.creatorRevision, .plain (scalar 4))]

inductive GenericAddrField where
  | addressSpace | bitWidth | bitOffset | accessSize | address
  deriving DecidableEq

/-- `GENERIC_ADDR_STRUCT`, not packed. -/
def genericAddrStruct : List (GenericAddrField × Member) :=
  [(.addressSpace, .plain (scalar 1)), (.bitWidth, .plain (scalar 1)),
    (.bitOffset, .plain (scalar 1)), (.accessSize, .plain (scalar 1)),
    (.address, .plain (scalar 8))]

inductive HpetSdtField where
  | header | hwRevId | comparatorCount | counterSize | reserved | legacyReplacement
  | pciVendorId | address | hpetNumber | minimumTick | pageProtection
  deriving DecidableEq

/-- `HPET_SDT`, packed. -/
def hpetSdt : List (HpetSdtField × Member) :=
  [(.header, .plain (structLayout true acpiSdtHeader)), (.hwRevId, .plain (scalar 1)),
    (.comparatorCount, .bits (scalar 1) 5), (.counterSize, .bits (scalar 1) 1),
    (.reserved, .bits (scalar 1) 1), (.legacyReplacement, .bits (scalar 1) 1),
    (.pciVendorId, .plain (scalar 2)), (.address, .plain (structLayout false genericAddrStruct)),
    (.hpetNumber, .plain (scalar 1)), (.minimumTick, .plain (scalar 2)),
    (.pageProtection, .plain (scalar 1))]

/-- A position in bits as an offset in bytes. -/
def byteOffset (pos : Nat) : UInt64 := UInt64.ofNat (pos / 8)

section Read
variable (mem : Memory) (sdt : UInt64)

/-- `hpet_sdt->hw_rev_id`. -/
def hpetSdtHwRevId : UInt8 := mem (sdt + byteOffset (offsetOf true hpetSdt .hwRevId))

/-- `hpet_sdt->comparator_count`, a bit-field of 5 bits. -/
def hpetSdtComparatorCount : UInt8 :=
  let pos := offsetOf true hpetSdt .comparatorCount
  mem (sdt + byteOffset pos) >>> UInt8.ofNat (pos % 8) &&& 0x1F

/-- `hpet_sdt->address.address`. -/
def hpetSdtAddress : UInt64 :=
  load64 mem (sdt + byteOffset (offsetOf true hpetSdt .address) +
    byteOffset (offsetOf false genericAddrStruct .address))

end Read

theorem acpiSdtHeader_layout : structLayout true acpiSdtHeader = ⟨sizeofAcpiSdtHeader.toNat, 1⟩ ∧
    byteOffset (offsetOf true acpiSdtHeader .length) = 4 := by decide

theorem genericAddrStruct_layout : structLayout false genericAddrStruct = ⟨16, 8⟩ ∧
    byteOffset (offsetOf false genericAddrStruct .address) = 8 := by decide

theorem hpetSdt_layout : byteOffset (offsetOf true hpetSdt .hwRevId) = 36 ∧
    offsetOf true hpetSdt .comparatorCount = 8 * 37 ∧
    byteOffset (offsetOf true hpetSdt .address) = 40 := by decide

/-! The table. -/

/-- The values in an HPET description table; the low 5 bits of the capability byte are the
    comparator count. -/
structure HpetTable where
  header : Vector UInt8 36
  hwRevId : UInt8
  capability : UInt8
  pciVendorId : UInt16
  addressSpace : UInt8
  bitWidth : UInt8
  bitOffset : UInt8
  accessSize : UInt8
  address : UInt64
  hpetNumber : UInt8
  minimumTick : UInt16
  pageProtection : UInt8

/-- What stands behind the header. -/
def HpetTable.fields (t : HpetTable) : List UInt8 :=
  [t.hwRevId, t.capability, t.pciVendorId.toUInt8, (t.pciVendorId >>> 8).toUInt8,
    t.addressSpace, t.bitWidth, t.bitOffset, t.accessSize,
    byteOf t.address 0, byteOf t.address 1, byteOf t.address 2, byteOf t.address 3,
    byteOf t.address 4, byteOf t.address 5, byteOf t.address 6, byteOf t.address 7,
    t.hpetNumber, t.minimumTick.toUInt8, (t.minimumTick >>> 8).toUInt8, t.pageProtection]

/-- The 56 bytes of the table. -/
def HpetTable.bytes (t : HpetTable) : List UInt8 :=
  t.header.toList ++ t.fields

/-- The last four bytes as a number. -/
def HpetTable.tail (t : HpetTable) : Nat :=
  t.hpetNumber.toNat + t.minimumTick.toNat * 2 ^ 8 + t.pageProtection.toNat * 2 ^ 24

section Decode
variable {mem : Memory} {sdt : UInt64} {t : HpetTable}

/-- The memory at `sdt` is the table. -/
def HoldsTable (mem : Memory) (sdt : UInt64) (t : HpetTable) : Prop :=
  loadBytes mem sdt 56 = t.bytes

theorem tableByte (h : HoldsTable mem sdt t) {k : Nat} (hk : k < 20) :
    mem (sdt + UInt64.ofNat (36 + k)) = t.fields.getD k 0 := by
  have hget := congrArg (fun l => l.getD (36 + k) 0) h
  have hleft : (loadBytes mem sdt 56).getD (36 + k) 0 = mem (sdt + UInt64.ofNat (36 + k)) := by
    simp [loadBytes, show 36 + k < 56 by omega]
  have hright : t.bytes.getD (36 + k) 0 = t.fields.getD k 0 := by
    simp [HpetTable.bytes, HpetTable.fields, List.getElem?_append_right]
  rw [← hleft, ← hright]
  exact hget

theorem hwRevId_eq (h : HoldsTable mem sdt t) : hpetSdtHwRevId mem sdt = t.hwRevId := by
  rw [hpetSdtHwRevId, hpetSdt_layout.1]
  exact @tableByte mem sdt t h 0 (by decide)

theorem comparatorCount_eq (h : HoldsTable mem sdt t) :
    hpetSdtComparatorCount mem sdt = t.capability &&& 0x1F := by
  have hbyte : mem (sdt + byteOffset (8 * 37)) = t.capability := @tableByte mem sdt t h 1 (by decide)
  have hshift : t.capability >>> UInt8.ofNat (8 * 37 % 8) = t.capability := UInt8.shiftRight_zero
  rw [hpetSdtComparatorCount, hpetSdt_layout.2.1]
  simp only [hbyte, hshift]

/-- The address is read four bytes behind the one in the table. -/
theorem hpetSdtAddress_eq (h : HoldsTable mem sdt t) :
    (hpetSdtAddress mem sdt).toNat = t.address.toNat / 2 ^ 32 + t.tail * 2 ^ 32 := by
  have hat : ∀ k : UInt64, sdt + 40 + 8 + k = sdt + (48 + k) := by
    intro k
    rw [UInt64.add_assoc, UInt64.add_assoc, ← UInt64.add_assoc 40 8 k]
    rfl
  have h48 : mem (sdt + 40 + 8) = byteOf t.address 4 := by
    have hzero := hat 0
    rw [UInt64.add_zero] at hzero
    rw [hzero]
    exact @tableByte mem sdt t h 12 (by decide)
  have h49 : mem (sdt + (48 + 1)) = byteOf t.address 5 := @tableByte mem sdt t h 13 (by decide)
  have h50 : mem (sdt + (48 + 2)) = byteOf t.address 6 := @tableByte mem sdt t h 14 (by decide)
  have h51 : mem (sdt + (48 + 3)) = byteOf t.address 7 := @tableByte mem sdt t h 15 (by decide)
  have h52 : mem (sdt + (48 + 4)) = t.hpetNumber := @tableByte mem sdt t h 16 (by decide)
  have h53 : mem (sdt + (48 + 5)) = t.minimumTick.toUInt8 := @tableByte mem sdt t h 17 (by decide)
  have h54 : mem (sdt + (48 + 6)) = (t.minimumTick >>> 8).toUInt8 :=
    @tableByte mem sdt t h 18 (by decide)
  have h55 : mem (sdt + (48 + 7)) = t.pageProtection := @tableByte mem sdt t h 19 (by decide)
  have hlow : t.minimumTick.toUInt8.toNat = t.minimumTick.toNat % 256 := UInt16.toNat_toUInt8 _
  have hhigh : (t.minimumTick >>> 8).toUInt8.toNat = t.minimumTick.toNat / 256 := by
    have htick := t.minimumTick.toNat_lt
    rw [UInt16.toNat_toUInt8, UInt16.toNat_shiftRight, Nat.shiftRight_eq_div_pow]
    have height : (8 : UInt16).toNat % 16 = 8 := rfl
    rw [height]
    omega
  have hbyte : ∀ k, (byteOf t.address k).toNat = t.address.toNat / 2 ^ (8 * k) % 256 := by
    intro k
    rw [byteOf, UInt8.toNat_ofNat']
  have haddress := t.address.toNat_lt
  have hnumber := t.hpetNumber.toNat_lt
  have htick := t.minimumTick.toNat_lt
  have hprot := t.pageProtection.toNat_lt
  rw [hpetSdtAddress, hpetSdt_layout.2.2, genericAddrStruct_layout.2]
  simp only [load64, hat, h48, h49, h50, h51, h52, h53, h54, h55, hbyte, hlow, hhigh]
  rw [UInt64.toNat_ofNat', HpetTable.tail]
  omega

/-- For every HPET description table: the hardware revision and the comparator count are
    read as they stand in the table, and the address exactly when both its halves are the
    number that the last four bytes of the table make. -/
theorem hpet_table_iff (h : HoldsTable mem sdt t) :
    (hpetSdtHwRevId mem sdt = t.hwRevId ∧ hpetSdtComparatorCount mem sdt = t.capability &&& 0x1F ∧
        hpetSdtAddress mem sdt = t.address) ↔
      t.address.toNat % 2 ^ 32 = t.tail ∧ t.address.toNat / 2 ^ 32 = t.tail := by
  have hvalue := hpetSdtAddress_eq h
  have hlt := t.address.toNat_lt
  rw [hwRevId_eq h, comparatorCount_eq h, ← UInt64.toNat_inj, hvalue]
  simp only [true_and]
  omega

end Decode

/-- The table of an HPET at 0xFED00000. -/
def usualTable : HpetTable where
  header := Vector.replicate 36 0
  hwRevId := 1
  capability := 0xA2
  pciVendorId := 0x8086
  addressSpace := 0
  bitWidth := 64
  bitOffset := 0
  accessSize := 0
  address := 0xFED00000
  hpetNumber := 0
  minimumTick := 0x80
  pageProtection := 0

/-- Memory with the table at 0x6000. -/
def tableMemory (t : HpetTable) : Memory := fun x => t.bytes.getD (x - 0x6000).toNat 0

theorem tableMemory_holds (t : HpetTable) : HoldsTable (tableMemory t) 0x6000 t := by
  have hlen : t.bytes.length = 56 := by simp [HpetTable.bytes, HpetTable.fields]
  apply List.ext_getElem
  · rw [loadBytes, List.length_map, List.length_range, hlen]
  · intro k hk hk'
    have hoff : (0x6000 + UInt64.ofNat k - 0x6000).toNat = k := by
      rw [Words.add_sub_left, Words.toNat_ofNat_of_lt (by omega)]
    simp only [loadBytes, List.getElem_map, List.getElem_range, tableMemory, hoff]
    rw [List.getD_eq_getElem?_getD, List.getElem?_eq_getElem hk', Option.getD_some]

theorem hpet_table_repeated :
    hpetSdtAddress (tableMemory { usualTable with address := 0x800000008000 }) 0x6000 =
      0x800000008000 :=
  ((hpet_table_iff (tableMemory_holds _)).mpr ⟨by decide, by decide⟩).2.2

/-- The address 0xFED00000 is read as 0x800000000000. -/
theorem hpet_table_shifted :
    hpetSdtAddress (tableMemory usualTable) 0x6000 = 0x800000000000 ∧
    ¬ ∀ mem sdt t, HoldsTable mem sdt t →
      hpetSdtHwRevId mem sdt = t.hwRevId ∧
      hpetSdtComparatorCount mem sdt = t.capability &&& 0x1F ∧ hpetSdtAddress mem sdt = t.address := by
  have hread : hpetSdtAddress (tableMemory usualTable) 0x6000 = 0x800000000000 := by
    apply UInt64.toNat_inj.mp
    rw [hpetSdtAddress_eq (tableMemory_holds usualTable)]
    decide
  refine ⟨hread, fun h => ?_⟩
  have haddress := (h _ _ _ (tableMemory_holds usualTable)).2.2
  rw [hread] at haddress
  exact absurd haddress (by decide)

end Horizon64
