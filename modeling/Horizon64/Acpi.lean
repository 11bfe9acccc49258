import Horizon64.Madt
import Horizon64.Phys

/- ACPI initialization in the boot sequence (`sys/acpi/acpi.c`, `sys/acpi/rsdp.c`,
   `init/init.c`).

   `acpi_init` checks the RSDP, remembers the root table in `sdt` and `use_xsdt`, and
   calls `madt_init`, which halts when there is no MADT. `system_init` is the chain of
   the steps before the point where `apic_init` reads the base address out of the MADT;
   of the other steps only whether they return is of interest, and that is left to the
   hardware (`returns`).

   1. The checks and the search for a table.
   2. `acpi_init` and `system_init`.
   3. What a rejected RSDP leaves behind. -/
namespace Horizon64
open Bytes

/-! The RSDP. -/

/-- `sizeof(RSDP)` and the offsets of the fields of `XSDP`. -/
def sizeofRsdp : UInt64 := 20
def rsdpRevision : UInt64 := 15
def rsdpRsdtAddress : UInt64 := 16
def rsdpLength : UInt64 := 20
def rsdpXsdtAddress : UInt64 := 24

/-- `sizeof(ACPI_SDT_HEADER)`. -/
def sizeofAcpiSdtHeader : UInt64 := 36

/-- The characters of a C string, without the 0 at its end. -/
def cString (s : List Char) : List UInt8 := s.map fun c => UInt8.ofNat c.toNat

def rsdpSignature : List UInt8 := cString ['R', 'S', 'D', ' ', 'P', 'T', 'R', ' ']
def apicSignature : List UInt8 := cString ['A', 'P', 'I', 'C']
def hpetSignature : List UInt8 := cString ['H', 'P', 'E', 'T']

/-- `memcmp` of memory with a string, over the length of the string: 0 when equal. -/
def memcmpString (mem : Memory) : UInt64 → List UInt8 → Nat
  | _, [] => 0
  | p, b :: s => if mem p ≠ b then 1 else memcmpString mem (p + 1) s

/-- The bytes of a region added up modulo 2^8. -/
def calculateChecksum (mem : Memory) (addr length : UInt64) : UInt8 :=
  Nat.fold length.toNat (fun i _ sum => sum + mem (addr + UInt64.ofNat i)) 0

/-- `rsdp_checksum_check`. -/
def rsdpChecksumCheck (mem : Memory) (rsdp : UInt64) : Status :=
  if calculateChecksum mem rsdp sizeofRsdp ≠ 0 then .sysErr
  else if mem (rsdp + rsdpRevision) ≥ 2 then
    if calculateChecksum mem rsdp (load32 mem (rsdp + rsdpLength)).toUInt64 ≠ 0 then .sysErr
    else .sysOk
  else .sysOk

/-! Tables. -/

/-- The statics of `acpi.c`, and `madt`. -/
structure AcpiStatics where
  sdt : UInt64
  useXsdt : Bool
  madt : UInt64
  deriving DecidableEq

def acpiStart : AcpiStatics := { sdt := 0, useXsdt := false, madt := 0 }

/-- Entry `i` of the root table. -/
def sdtEntry (mem : Memory) (st : AcpiStatics) (i : UInt64) : UInt64 :=
  if st.useXsdt then load64 mem (st.sdt + sizeofAcpiSdtHeader + 8 * i)
  else (load32 mem (st.sdt + sizeofAcpiSdtHeader + 4 * i)).toUInt64

/-- The loop of `acpi_get_sdt`, with `n` entries left from entry `i` on. -/
def acpiFindSdt (mem : Memory) (st : AcpiStatics) (signature : List UInt8) : Nat → UInt64 → UInt64
  | 0, _ => 0
  | n + 1, i =>
    let table := physToVirt (sdtEntry mem st i)
    if memcmpString mem table signature = 0 then table
    else acpiFindSdt mem st signature n (i + 1)

/-- `acpi_get_sdt`; `none` is a `NULL` signature. -/
def acpiGetSdt (mem : Memory) (st : AcpiStatics) : Option (List UInt8) → UInt64
  | none => 0
  | some signature =>
    if st.sdt = 0 then 0
    else
      let length := ((load32 mem (st.sdt + 4)).toUInt64 - sizeofAcpiSdtHeader) /
        (if st.useXsdt then 8 else 4)
      acpiFindSdt mem st signature length.toNat 0

/-! The boot sequence. -/

/-- `acpi_init`, for the RSDP in the response of Limine; `none` when it halts or when
    the record loop of `madt_init` takes more than `fuel` rounds. -/
def acpiInit (mem : Memory) (response : Option UInt64) (fuel : Nat) (st : AcpiStatics) :
    Option AcpiStatics :=
  match response with
  | none => none
  | some rsdp =>
    if rsdpChecksumCheck mem rsdp = .sysErr then some st
    else
      let st :=
        if mem (rsdp + rsdpRevision) = 2 then
          { st with sdt := physToVirt (load64 mem (rsdp + rsdpXsdtAddress)), useXsdt := true }
        else
          { st with sdt := physToVirt (load32 mem (rsdp + rsdpRsdtAddress)).toUInt64,
                    useXsdt := false }
      if memcmpString mem rsdp rsdpSignature ≠ 0 then some st
      else
        let st := { st with madt := acpiGetSdt mem st (some apicSignature) }
        (madtInit mem st.madt fuel).map fun _ => st

/-- The other steps of `system_init` up to the read of the MADT in `apic_init`. -/
inductive InitStep where
  | limineBaseRevision | printBootInfo | serialInit | gdtInit | idtInit | cpuInit | isrInit
  | pmInit | vmInit | hpetWithTable | cmosInit | pciInit | fbInit | psf1FontInit
  | initTerminal | irqInit | keyboardInit | apicFeatures
  deriving DecidableEq

def stepsBeforeAcpi : List InitStep :=
  [.limineBaseRevision, .printBootInfo, .serialInit, .gdtInit, .idtInit, .cpuInit, .isrInit,
    .pmInit, .vmInit]

def stepsAfterHpet : List InitStep :=
  [.cmosInit, .pciInit, .fbInit, .psf1FontInit, .initTerminal, .irqInit, .keyboardInit,
    .apicFeatures]

/-- `hpet_init` returns: at once without a table, and else when the hardware lets it. -/
def hpetReturns (returns : InitStep → Bool) (mem : Memory) (st : AcpiStatics) : Bool :=
  acpiGetSdt mem st (some hpetSignature) = 0 ∨ returns .hpetWithTable

/-- `system_init` up to the call of `madt_get_local_apic_base`: the statics there. -/
def systemInit (returns : InitStep → Bool) (mem : Memory) (response : Option UInt64)
    (fuel : Nat) : Option AcpiStatics :=
  if stepsBeforeAcpi.all returns then
    match acpiInit mem response fuel acpiStart with
    | none => none
    | some st =>
      if hpetReturns returns mem st ∧ stepsAfterHpet.all returns then some st else none
  else none

/-! A rejected RSDP. -/

/-- `acpi_init` returns early: the checksum or the signature is bad. -/
def RsdpRejected (mem : Memory) (rsdp : UInt64) : Prop :=
  rsdpChecksumCheck mem rsdp = .sysErr ∨ memcmpString mem rsdp rsdpSignature ≠ 0

/-- ACPI is uninitialised, and no table is found. -/
def AcpiUninitialised (st : AcpiStatics) : Prop :=
  st.sdt = 0 ∧ st.useXsdt = false ∧ ∀ mem signature, acpiGetSdt mem st signature = 0

variable {mem : Memory} {rsdp : UInt64}

theorem acpiGetSdt_null {st : AcpiStatics} (h : st.sdt = 0) (mem : Memory)
    (signature : Option (List UInt8)) : acpiGetSdt mem st signature = 0 := by
  cases signature with
  | none => rfl
  | some s => rw [acpiGetSdt, if_pos h]

theorem acpiInit_rejected (h : RsdpRejected mem rsdp) (fuel : Nat) :
    ∃ st, acpiInit mem (some rsdp) fuel acpiStart = some st ∧ st.madt = 0 := by
  rw [acpiInit]
  by_cases hcheck : rsdpChecksumCheck mem rsdp = .sysErr
  · rw [if_pos hcheck]
    exact ⟨acpiStart, rfl, rfl⟩
  · rw [if_neg hcheck, if_pos (h.resolve_left hcheck)]
    refine ⟨_, rfl, ?_⟩
    split <;> rfl

theorem acpiInit_accepted (h : ¬ RsdpRejected mem rsdp) {fuel : Nat} {st : AcpiStatics}
    (hst : acpiInit mem (some rsdp) fuel acpiStart = some st) : st.madt ≠ 0 := by
  have hcheck : rsdpChecksumCheck mem rsdp ≠ .sysErr := fun hc => h (Or.inl hc)
  have hsig : ¬ memcmpString mem rsdp rsdpSignature ≠ 0 := fun hs => h (Or.inr hs)
  rw [acpiInit, if_neg hcheck, if_neg hsig] at hst
  obtain ⟨_, hmadt, rfl⟩ := Option.map_eq_some_iff.mp hst
  intro hnull
  rw [madtInit, if_pos hnull] at hmadt
  cases hmadt

/-- `system_init` reaches the read of the MADT with the statics that `acpi_init` left. -/
theorem systemInit_some {returns : InitStep → Bool} {fuel : Nat} {st : AcpiStatics}
    (h : systemInit returns mem (some rsdp) fuel = some st) :
    acpiInit mem (some rsdp) fuel acpiStart = some st := by
  unfold systemInit at h
  split at h
  · split at h
    · cases h
    · rename_i hacpi
      split at h
      · rw [hacpi, h]
      · cases h
  · cases h

theorem systemInit_all {fuel : Nat} {st : AcpiStatics}
    (h : acpiInit mem (some rsdp) fuel acpiStart = some st) :
    systemInit (fun _ => true) mem (some rsdp) fuel = some st := by
  have hhpet : hpetReturns (fun _ => true) mem st = true := by simp [hpetReturns]
  rw [systemInit, h]
  simp [hhpet, stepsBeforeAcpi, stepsAfterHpet]

theorem physToVirt_ne_zero (x : UInt32) : physToVirt x.toUInt64 ≠ 0 := by
  intro h
  have hx := x.toNat_lt
  have hsum : (physToVirt x.toUInt64).toNat = x.toNat + memVirtOffset.toNat := by
    rw [physToVirt, Words.toNat_add_of_lt]
    · rw [UInt32.toNat_toUInt64]
    · rw [UInt32.toNat_toUInt64]
      exact Nat.lt_of_lt_of_le (Nat.add_lt_add_right hx _) (by decide)
  rw [h] at hsum
  have hoff : 0 < memVirtOffset.toNat := by decide
  have hzero : (0 : UInt64).toNat = 0 := rfl
  omega

/-- A rejected RSDP leaves ACPI uninitialised exactly when its checksum is bad: the
    signature is looked at after `sdt` and `use_xsdt` are set. -/
theorem rejected_uninitialised_iff (h : RsdpRejected mem rsdp) :
    (∀ fuel st, acpiInit mem (some rsdp) fuel acpiStart = some st → AcpiUninitialised st) ↔
      rsdpChecksumCheck mem rsdp = .sysErr := by
  constructor
  · intro hall
    by_contra hcheck
    have hrun := hall 0
    simp only [acpiInit, if_neg hcheck, if_pos (h.resolve_left hcheck)] at hrun
    obtain ⟨hsdt, hxsdt, _⟩ := hrun _ rfl
    split at hsdt
    · rename_i hrev
      rw [if_pos hrev] at hxsdt
      cases hxsdt
    · exact physToVirt_ne_zero _ hsdt
  · intro hcheck fuel st hst
    rw [acpiInit, if_pos hcheck] at hst
    obtain rfl : acpiStart = st := Option.some.inj hst
    exact ⟨rfl, rfl, acpiGetSdt_null rfl⟩

/-- A rejected RSDP leaves ACPI uninitialised and no run of `system_init` reads a MADT
    at `NULL`, exactly when the RSDP is not rejected: after a rejection the boot goes on
    to `apic_init` without a MADT. -/
theorem rsdp_rejection_safe_iff (mem : Memory) (rsdp : UInt64) :
    ((RsdpRejected mem rsdp → ∀ fuel st,
        acpiInit mem (some rsdp) fuel acpiStart = some st → AcpiUninitialised st) ∧
      ∀ returns fuel st, systemInit returns mem (some rsdp) fuel = some st → st.madt ≠ 0) ↔
    ¬ RsdpRejected mem rsdp := by
  constructor
  · intro h hrej
    obtain ⟨st, hst, hnull⟩ := acpiInit_rejected hrej 0
    exact h.2 _ 0 st (systemInit_all hst) hnull
  · intro h
    refine ⟨fun hrej => absurd hrej h, fun returns fuel st hst => ?_⟩
    exact acpiInit_accepted h (systemInit_some hst)

/-- An RSDP at 0x1000 with the signature "RSD PTX ", a checksum that is right, and the
    address 0x2000 of a root table without entries. -/
def mislabelledRsdp : Memory := fun x =>
  if x = physToVirt 0x2004 then 36
  else (cString ['R', 'S', 'D', ' ', 'P', 'T', 'X', ' '] ++ [0xBB] ++ List.replicate 8 0 ++
    [0x20]).getD (x - 0x1000).toNat 0

/-- It is rejected with `sdt` set, and the boot reaches `apic_init` without a MADT. -/
theorem mislabelled_rsdp_unsafe :
    RsdpRejected mislabelledRsdp 0x1000 ∧
      (∃ st, acpiInit mislabelledRsdp (some 0x1000) 0 acpiStart = some st ∧ st.sdt ≠ 0) ∧
      ∃ st, systemInit (fun _ => true) mislabelledRsdp (some 0x1000) 0 = some st ∧
        st.madt = 0 := by
  have hinit : acpiInit mislabelledRsdp (some 0x1000) 0 acpiStart =
      some ⟨physToVirt 0x2000, false, 0⟩ := by decide
  exact ⟨Or.inr (by decide), ⟨_, hinit, by decide⟩, _, systemInit_all hinit, rfl⟩

end Horizon64
