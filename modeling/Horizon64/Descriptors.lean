import Horizon64.Lib.Packed

/- The descriptor tables of `gdt/gdt.c` and `interrupts/idt.c`, and how the processor reads
   them.

   An entry is a packed record of pieces; the processor cuts its bits elsewhere.
   1. `segmentOf`, `gateOf`: what the processor makes of the bits of an entry.
   2. `segmentOf_init`, `gateOf_init`: it gets back what `gdt_init_entry` and
      `idt_init_entry` were given, as far as the entry has room for it.
   3. `gateOf_enable`, `gateOf_disable`: the present bit, and nothing else.
   4. `gdt_selectors`: what the selectors of `gdt_load` and of the gates find in the table
      of `gdt_init`. -/
namespace Horizon64
open Packed

/-! Segments. -/

/-- `GDT_ENTRY`. -/
structure GdtEntry where
  limitLow : UInt16
  baseLow : UInt16
  baseMiddle : UInt8
  access : UInt8
  flagsLimitHigh : UInt8
  baseHigh : UInt8
  deriving DecidableEq, Repr

/-- The packed entry as one number. -/
def GdtEntry.bits (e : GdtEntry) : Nat :=
  pack [(16, e.limitLow.toNat), (16, e.baseLow.toNat), (8, e.baseMiddle.toNat),
    (8, e.access.toNat), (8, e.flagsLimitHigh.toNat), (8, e.baseHigh.toNat)]

def gdtInitEntry (base limit : UInt64) (access flags : UInt8) : GdtEntry where
  limitLow := (limit &&& 0xFFFF).toUInt16
  flagsLimitHigh := (((limit >>> 16) &&& 0xF) ||| (flags &&& 0xF0).toUInt64).toUInt8
  baseLow := (base &&& 0xFFFF).toUInt16
  baseMiddle := ((base >>> 16) &&& 0xFF).toUInt8
  baseHigh := ((base >>> 24) &&& 0xFF).toUInt8
  access := access

/-- A segment as the processor reads its descriptor. -/
structure Segment where
  base : Nat
  limit : Nat
  access : Nat
  flags : Nat
  deriving DecidableEq, Repr

def segmentOf (n : Nat) : Segment where
  base := field n 16 24 + 2 ^ 24 * field n 56 8
  limit := field n 0 16 + 2 ^ 16 * field n 48 4
  access := field n 40 8
  flags := field n 52 4

/-- The last byte of a segment: with the granularity bit the limit counts pages. -/
def Segment.last (s : Segment) : Nat :=
  if s.flags.testBit 3 then s.limit * 4096 + 4095 else s.limit

/-! Gates. -/

/-- `IDT_ENTRY`. -/
structure IdtEntry where
  baseLow : UInt16
  segmentSelector : UInt16
  ist : UInt8
  type : UInt8
  baseMid : UInt16
  baseHigh : UInt32
  reserved : UInt32
  deriving DecidableEq, Repr

def IdtEntry.bits (e : IdtEntry) : Nat :=
  pack [(16, e.baseLow.toNat), (16, e.segmentSelector.toNat), (8, e.ist.toNat), (8, e.type.toNat),
    (16, e.baseMid.toNat), (32, e.baseHigh.toNat), (32, e.reserved.toNat)]

def idtFlagPresent : UInt8 := 0x80

/-- `idt_init_entry`: the reserved word keeps its value. -/
def idtInitEntry (e : IdtEntry) (base : UInt64) (segment : UInt16) (type : UInt8) : IdtEntry :=
  { e with
    segmentSelector := segment
    baseLow := (base &&& 0xFFFF).toUInt16
    baseMid := ((base >>> 16) &&& 0xFFFF).toUInt16
    baseHigh := ((base >>> 32) &&& 0xFFFFFFFF).toUInt32
    ist := 0
    type := type }

def idtEnableGate (e : IdtEntry) : IdtEntry := { e with type := e.type ||| idtFlagPresent }

def idtDisableGate (e : IdtEntry) : IdtEntry := { e with type := e.type &&& ~~~idtFlagPresent }

/-- A gate as the processor reads it. -/
structure Gate where
  offset : Nat
  selector : Nat
  ist : Nat
  type : Nat
  dpl : Nat
  present : Bool
  deriving DecidableEq, Repr

def gateOf (n : Nat) : Gate where
  offset := field n 0 16 + 2 ^ 16 * field n 48 48
  selector := field n 16 16
  ist := field n 32 3
  type := field n 40 4
  dpl := field n 45 2
  present := field n 47 1 = 1

/-! The members where the processor looks for them. -/

section Members
variable (e : GdtEntry)

theorem gdt_limitLow : field e.bits 0 16 = e.limitLow.toNat := by
  rw [GdtEntry.bits, field_head _ _ _ (Nat.le_refl _), Nat.mod_eq_of_lt e.limitLow.toNat_lt]

theorem gdt_base : field e.bits 16 24 = e.baseLow.toNat + 2 ^ 16 * e.baseMiddle.toNat := by
  rw [show (24 : Nat) = 16 + 8 from rfl, field_split, GdtEntry.bits, field_skip 16 _ _ 0,
    field_head _ _ _ (Nat.le_refl _), field_skip 16 _ _ 16, field_skip 16 _ _ 0,
    field_head _ _ _ (Nat.le_refl _), Nat.mod_eq_of_lt e.baseLow.toNat_lt,
    Nat.mod_eq_of_lt e.baseMiddle.toNat_lt]

theorem gdt_access : field e.bits 40 8 = e.access.toNat := by
  rw [GdtEntry.bits, field_skip 16 _ _ 24, field_skip 16 _ _ 8, field_skip 8 _ _ 0,
    field_head _ _ _ (Nat.le_refl _), Nat.mod_eq_of_lt e.access.toNat_lt]

theorem gdt_flagsLimitHigh : field e.bits 48 8 = e.flagsLimitHigh.toNat := by
  rw [GdtEntry.bits, field_skip 16 _ _ 32, field_skip 16 _ _ 16, field_skip 8 _ _ 8,
    field_skip 8 _ _ 0, field_head _ _ _ (Nat.le_refl _),
    Nat.mod_eq_of_lt e.flagsLimitHigh.toNat_lt]

theorem gdt_baseHigh : field e.bits 56 8 = e.baseHigh.toNat := by
  rw [GdtEntry.bits, field_skip 16 _ _ 40, field_skip 16 _ _ 24, field_skip 8 _ _ 16,
    field_skip 8 _ _ 8, field_skip 8 _ _ 0, field_head _ _ _ (Nat.le_refl _),
    Nat.mod_eq_of_lt e.baseHigh.toNat_lt]

end Members

section IdtMembers
variable (e : IdtEntry)

theorem idt_baseLow : field e.bits 0 16 = e.baseLow.toNat := by
  rw [IdtEntry.bits, field_head _ _ _ (Nat.le_refl _), Nat.mod_eq_of_lt e.baseLow.toNat_lt]

theorem idt_selector : field e.bits 16 16 = e.segmentSelector.toNat := by
  rw [IdtEntry.bits, field_skip 16 _ _ 0, field_head _ _ _ (Nat.le_refl _),
    Nat.mod_eq_of_lt e.segmentSelector.toNat_lt]

theorem idt_ist {k : Nat} (hk : k ≤ 8) : field e.bits 32 k = e.ist.toNat % 2 ^ k := by
  rw [IdtEntry.bits, field_skip 16 _ _ 16, field_skip 16 _ _ 0, field_head _ _ _ hk]

theorem idt_type : field e.bits 40 8 = e.type.toNat := by
  rw [IdtEntry.bits, field_skip 16 _ _ 24, field_skip 16 _ _ 8, field_skip 8 _ _ 0,
    field_head _ _ _ (Nat.le_refl _), Nat.mod_eq_of_lt e.type.toNat_lt]

theorem idt_baseHigh : field e.bits 48 48 = e.baseMid.toNat + 2 ^ 16 * e.baseHigh.toNat := by
  rw [show (48 : Nat) = 16 + 32 from rfl, field_split, IdtEntry.bits, field_skip 16 _ _ 32,
    field_skip 16 _ _ 16, field_skip 8 _ _ 8, field_skip 8 _ _ 0, field_head _ _ _ (Nat.le_refl _),
    field_skip 16 _ _ 48, field_skip 16 _ _ 32, field_skip 8 _ _ 24, field_skip 8 _ _ 16,
    field_skip 16 _ _ 0, field_head _ _ _ (Nat.le_refl _), Nat.mod_eq_of_lt e.baseMid.toNat_lt,
    Nat.mod_eq_of_lt e.baseHigh.toNat_lt]

end IdtMembers

/-! The pieces of a value. -/

theorem piece16 (v : UInt64) (k : UInt64) (hk : k.toNat < 64) :
    ((v >>> k) &&& 0xFFFF).toUInt16.toNat = v.toNat / 2 ^ k.toNat % 2 ^ 16 := by
  rw [UInt64.toNat_toUInt16, UInt64.toNat_and, UInt64.toNat_shiftRight, Nat.mod_eq_of_lt hk,
    Nat.shiftRight_eq_div_pow, show (0xFFFF : UInt64).toNat = 2 ^ 16 - 1 from rfl,
    Nat.and_two_pow_sub_one_eq_mod, Nat.mod_mod]

theorem piece8 (v : UInt64) (k : UInt64) (hk : k.toNat < 64) :
    ((v >>> k) &&& 0xFF).toUInt8.toNat = v.toNat / 2 ^ k.toNat % 2 ^ 8 := by
  rw [UInt64.toNat_toUInt8, UInt64.toNat_and, UInt64.toNat_shiftRight, Nat.mod_eq_of_lt hk,
    Nat.shiftRight_eq_div_pow, show (0xFF : UInt64).toNat = 2 ^ 8 - 1 from rfl,
    Nat.and_two_pow_sub_one_eq_mod, Nat.mod_mod]

theorem piece32 (v : UInt64) (k : UInt64) (hk : k.toNat < 64) :
    ((v >>> k) &&& 0xFFFFFFFF).toUInt32.toNat = v.toNat / 2 ^ k.toNat % 2 ^ 32 := by
  rw [UInt64.toNat_toUInt32, UInt64.toNat_and, UInt64.toNat_shiftRight, Nat.mod_eq_of_lt hk,
    Nat.shiftRight_eq_div_pow, show (0xFFFFFFFF : UInt64).toNat = 2 ^ 32 - 1 from rfl,
    Nat.and_two_pow_sub_one_eq_mod, Nat.mod_mod]

theorem low16 (v : UInt64) : (v &&& 0xFFFF).toUInt16.toNat = v.toNat % 2 ^ 16 := by
  simpa using piece16 v 0 (by decide)

theorem high_nibble (b : UInt8) : (b &&& 0xF0).toNat = 2 ^ 4 * (b.toNat / 2 ^ 4) := by
  have hall : ∀ i : Fin 256, i.val &&& 0xF0 = 2 ^ 4 * (i.val / 2 ^ 4) := by decide +kernel
  exact (UInt8.toNat_and b 0xF0).trans (hall ⟨b.toNat, b.toNat_lt⟩)

theorem flagsLimitHigh_toNat (base limit : UInt64) (access flags : UInt8) :
    (gdtInitEntry base limit access flags).flagsLimitHigh.toNat =
      2 ^ 4 * (flags.toNat / 2 ^ 4) + limit.toNat / 2 ^ 16 % 2 ^ 4 := by
  have hlimit : ((limit >>> 16) &&& 0xF).toNat = limit.toNat / 2 ^ 16 % 2 ^ 4 := by
    rw [UInt64.toNat_and, UInt64.toNat_shiftRight, Nat.shiftRight_eq_div_pow,
      show (0xF : UInt64).toNat = 2 ^ 4 - 1 from rfl, Nat.and_two_pow_sub_one_eq_mod]
    rfl
  have hlow : limit.toNat / 2 ^ 16 % 2 ^ 4 < 2 ^ 4 := Nat.mod_lt _ (by decide)
  have hflags := flags.toNat_lt
  simp only [gdtInitEntry, UInt64.toNat_toUInt8, UInt64.toNat_or, hlimit, UInt8.toNat_toUInt64,
    high_nibble]
  rw [Nat.or_comm, ← Nat.two_pow_add_eq_or_of_lt hlow, Nat.mod_eq_of_lt (by omega)]

/-! What the processor gets back. -/

/-- A segment keeps 32 bits of its base and 20 bits of its limit; of the flags the high
    half is stored. -/
theorem segmentOf_init (base limit : UInt64) (access flags : UInt8) :
    segmentOf (gdtInitEntry base limit access flags).bits =
      ⟨base.toNat % 2 ^ 32, limit.toNat % 2 ^ 20, access.toNat, flags.toNat / 2 ^ 4⟩ := by
  generalize he : gdtInitEntry base limit access flags = e
  have hbase : field e.bits 16 24 + 2 ^ 24 * field e.bits 56 8 = base.toNat % 2 ^ 32 := by
    have hlow : e.baseLow.toNat + 2 ^ 16 * e.baseMiddle.toNat = base.toNat % 2 ^ 24 := by
      rw [← he]
      exact (congrArg₂ (· + 2 ^ 16 * ·) (low16 base) (piece8 base 16 (by decide))).trans
        (join_mod base.toNat 16 8)
    have hhigh : e.baseHigh.toNat = base.toNat / 2 ^ 24 % 2 ^ 8 := by
      rw [← he]
      exact piece8 base 24 (by decide)
    rw [gdt_base, gdt_baseHigh, hlow, hhigh, join_mod]
  have hnibbles := flagsLimitHigh_toNat base limit access flags
  rw [he] at hnibbles
  have hlimit : field e.bits 0 16 + 2 ^ 16 * field e.bits 48 4 = limit.toNat % 2 ^ 20 := by
    have hlow : e.limitLow.toNat = limit.toNat % 2 ^ 16 := by
      rw [← he]
      exact low16 limit
    have hhigh : field e.bits 48 4 = limit.toNat / 2 ^ 16 % 2 ^ 4 := by
      rw [← field_field e.bits 48 (k := 8) (i := 0) (by decide), gdt_flagsLimitHigh, hnibbles,
        field]
      omega
    rw [gdt_limitLow, hlow, hhigh, join_mod]
  have hflags : field e.bits 52 4 = flags.toNat / 2 ^ 4 := by
    have hbound := flags.toNat_lt
    rw [← field_field e.bits 48 (k := 8) (i := 4) (by decide), gdt_flagsLimitHigh, hnibbles, field]
    omega
  have haccess : field e.bits 40 8 = access.toNat := by
    rw [gdt_access, ← he]
    rfl
  rw [segmentOf, hbase, hlimit, haccess, hflags]

/-- A gate in terms of the members. -/
theorem gateOf_bits (e : IdtEntry) :
    gateOf e.bits =
      ⟨e.baseLow.toNat + 2 ^ 16 * (e.baseMid.toNat + 2 ^ 16 * e.baseHigh.toNat),
        e.segmentSelector.toNat, e.ist.toNat % 2 ^ 3, e.type.toNat % 2 ^ 4,
        e.type.toNat / 2 ^ 5 % 2 ^ 2, e.type.toNat.testBit 7⟩ := by
  have htype : ∀ i w, i + w ≤ 8 → field e.bits (40 + i) w = e.type.toNat / 2 ^ i % 2 ^ w := by
    intro i w hw
    rw [← field_field e.bits 40 hw, idt_type, field]
  have hpresent : decide (field e.bits 47 1 = 1) = e.type.toNat.testBit 7 := by
    rw [htype 7 1 (by decide), Nat.testBit_eq_decide_div_mod_eq, Nat.pow_one]
  rw [gateOf, idt_baseLow, idt_baseHigh, idt_selector, idt_ist e (by decide),
    htype 0 4 (by decide), htype 5 2 (by decide), hpresent, Nat.pow_zero, Nat.div_one]

/-- A gate leads to the whole base, through the segment it was given. -/
theorem gateOf_init (e : IdtEntry) (base : UInt64) (segment : UInt16) (type : UInt8) :
    gateOf (idtInitEntry e base segment type).bits =
      ⟨base.toNat, segment.toNat, 0, type.toNat % 2 ^ 4, type.toNat / 2 ^ 5 % 2 ^ 2,
        type.toNat.testBit 7⟩ := by
  have hbase : (base &&& 0xFFFF).toUInt16.toNat + 2 ^ 16 *
      (((base >>> 16) &&& 0xFFFF).toUInt16.toNat +
        2 ^ 16 * ((base >>> 32) &&& 0xFFFFFFFF).toUInt32.toNat) = base.toNat := by
    have hlt := base.toNat_lt
    rw [low16, piece16 base 16 (by decide), piece32 base 32 (by decide)]
    simp only [show (16 : UInt64).toNat = 16 from rfl, show (32 : UInt64).toNat = 32 from rfl]
    omega
  rw [gateOf_bits]
  exact congrArg (Gate.mk · segment.toNat 0 _ _ _) hbase

theorem gateOf_enable (e : IdtEntry) :
    gateOf (idtEnableGate e).bits = { gateOf e.bits with present := true } := by
  have hall : ∀ i : Fin 256, (i.val ||| 0x80) % 2 ^ 4 = i.val % 2 ^ 4 ∧
      (i.val ||| 0x80) / 2 ^ 5 % 2 ^ 2 = i.val / 2 ^ 5 % 2 ^ 2 ∧ (i.val ||| 0x80).testBit 7 = true := by
    decide +kernel
  obtain ⟨htype, hdpl, hpresent⟩ := hall ⟨e.type.toNat, e.type.toNat_lt⟩
  have hor : (e.type ||| idtFlagPresent).toNat = e.type.toNat ||| 0x80 := UInt8.toNat_or ..
  rw [gateOf_bits, gateOf_bits]
  simp only [idtEnableGate, hor, htype, hdpl, hpresent]

theorem gateOf_disable (e : IdtEntry) :
    gateOf (idtDisableGate e).bits = { gateOf e.bits with present := false } := by
  have hall : ∀ i : Fin 256, (i.val &&& 0x7F) % 2 ^ 4 = i.val % 2 ^ 4 ∧
      (i.val &&& 0x7F) / 2 ^ 5 % 2 ^ 2 = i.val / 2 ^ 5 % 2 ^ 2 ∧
      (i.val &&& 0x7F).testBit 7 = false := by
    decide +kernel
  obtain ⟨htype, hdpl, hpresent⟩ := hall ⟨e.type.toNat, e.type.toNat_lt⟩
  have hand : (e.type &&& ~~~idtFlagPresent).toNat = e.type.toNat &&& 0x7F := UInt8.toNat_and ..
  rw [gateOf_bits, gateOf_bits]
  simp only [idtDisableGate, hand, htype, hdpl, hpresent]

/-- `idt_enable_gate` and `idt_disable_gate` by turns. -/
def idtTurnGate (e : IdtEntry) (enable : Bool) : IdtEntry :=
  if enable then idtEnableGate e else idtDisableGate e

theorem gateOf_turns (turns : List Bool) (e : IdtEntry) :
    gateOf (turns.foldl idtTurnGate e).bits =
      { gateOf e.bits with present := turns.getLastD (gateOf e.bits).present } := by
  induction turns generalizing e with
  | nil => rfl
  | cons enable turns ih =>
    have hturn : gateOf (idtTurnGate e enable).bits = { gateOf e.bits with present := enable } := by
      cases enable with
      | true => exact gateOf_enable e
      | false => exact gateOf_disable e
    rw [List.foldl_cons, ih, hturn, List.getLastD_cons]

/-- The processor gets back what a descriptor was made from: of a segment 32 bits of the base,
    20 bits of the limit, the access byte and the high half of the flags, and of a gate all of
    the base, however often it was enabled and disabled since. -/
theorem descriptors_decode (base limit : UInt64) (access flags : UInt8) (e : IdtEntry)
    (segment : UInt16) (type : UInt8) (turns : List Bool) :
    segmentOf (gdtInitEntry base limit access flags).bits =
      ⟨base.toNat % 2 ^ 32, limit.toNat % 2 ^ 20, access.toNat, flags.toNat / 2 ^ 4⟩ ∧
    gateOf (turns.foldl idtTurnGate (idtInitEntry e base segment type)).bits =
      ⟨base.toNat, segment.toNat, 0, type.toNat % 2 ^ 4, type.toNat / 2 ^ 5 % 2 ^ 2,
        turns.getLastD (type.toNat.testBit 7)⟩ :=
  ⟨segmentOf_init .., by rw [gateOf_turns, gateOf_init]⟩

/-! The table of `gdt_init`. -/

def gdtFlag64Bit : UInt8 := 0x20
def gdtFlag32Bit : UInt8 := 0x40
def gdtFlag16Bit : UInt8 := 0x00
def gdtFlagGranularity1B : UInt8 := 0x00
def gdtFlagGranularity4K : UInt8 := 0x80

def gdtAccessCodeReadable : UInt8 := 0x02
def gdtAccessDataWriteable : UInt8 := 0x02
def gdtAccessExecutable : UInt8 := 0x08
def gdtAccessDataSegment : UInt8 := 0x10
def gdtAccessCodeSegment : UInt8 := 0x10
def gdtAccessRing0 : UInt8 := 0x00
def gdtAccessRing3 : UInt8 := 0x60
def gdtAccessPresent : UInt8 := 0x80

def gdtKernelCode64Bit : UInt16 := 0x28
def gdtKernelData64Bit : UInt16 := 0x30

/-- A code segment of `gdt_init`, and a data segment. -/
def codeSegment (limit : UInt64) (ring flags : UInt8) : GdtEntry :=
  gdtInitEntry 0 limit
    (gdtAccessPresent ||| ring ||| gdtAccessExecutable ||| gdtAccessCodeSegment |||
      gdtAccessCodeReadable) flags

def dataSegment (limit : UInt64) (ring flags : UInt8) : GdtEntry :=
  gdtInitEntry 0 limit
    (gdtAccessPresent ||| ring ||| gdtAccessDataSegment ||| gdtAccessDataWriteable) flags

/-- `GDT_TABLE`, in the order of its members. -/
def gdtTable : List GdtEntry :=
  [gdtInitEntry 0 0 0 0,
    codeSegment 0xFFFF gdtAccessRing0 (gdtFlag16Bit ||| gdtFlagGranularity1B),
    dataSegment 0xFFFF gdtAccessRing0 (gdtFlag16Bit ||| gdtFlagGranularity1B),
    codeSegment 0xFFFFFFFF gdtAccessRing0 (gdtFlag32Bit ||| gdtFlagGranularity4K),
    dataSegment 0xFFFFFFFF gdtAccessRing0 (gdtFlag32Bit ||| gdtFlagGranularity4K),
    codeSegment 0xFFFFFFFF gdtAccessRing0 (gdtFlag64Bit ||| gdtFlagGranularity4K),
    dataSegment 0xFFFFFFFF gdtAccessRing0 (gdtFlag64Bit ||| gdtFlagGranularity4K),
    codeSegment 0xFFFFFFFF gdtAccessRing3 (gdtFlag64Bit ||| gdtFlagGranularity4K),
    dataSegment 0xFFFFFFFF gdtAccessRing3 (gdtFlag64Bit ||| gdtFlagGranularity4K)]

/-- `NUM_CPUS`. -/
def numCpus : Nat := 1

/-- `gdt_init`: the table and the `size` of the descriptor that `gdt_load` is given, and
    `num_gdt`; `none` is the halt. -/
def gdtInit (numGdt : Nat) : Option (List GdtEntry × Nat × Nat) :=
  if numGdt + 1 > numCpus then none else some (gdtTable, 8 * gdtTable.length - 1, numGdt + 1)

/-- The segment that a selector selects: its descriptor lies within the table, and is not
    the first one. -/
def segmentAt (table : List GdtEntry) (size : Nat) (selector : UInt16) : Option Segment :=
  let index := selector.toNat / 8
  if index = 0 ∨ size < 8 * index + 7 then none
  else table[index]?.map fun e => segmentOf e.bits

/-- A present code segment of ring 0 for 64-bit code, and a present writable data
    segment. -/
def Segment.KernelCode (s : Segment) : Prop :=
  s.access = 0x9A ∧ s.flags.testBit 1 = true ∧ s.flags.testBit 2 = false

def Segment.KernelData (s : Segment) : Prop := s.access = 0x92

theorem gdt_selectors {numGdt : Nat} {table : List GdtEntry} {size numGdt' : Nat}
    (h : gdtInit numGdt = some (table, size, numGdt')) :
    (∃ s, segmentAt table size gdtKernelCode64Bit = some s ∧ s.KernelCode) ∧
    ∃ s, segmentAt table size gdtKernelData64Bit = some s ∧ s.KernelData := by
  rw [gdtInit] at h
  split at h
  · cases h
  · cases h
    exact ⟨⟨_, congrArg some (segmentOf_init ..), rfl, rfl, rfl⟩,
      _, congrArg some (segmentOf_init ..), rfl⟩

end Horizon64
