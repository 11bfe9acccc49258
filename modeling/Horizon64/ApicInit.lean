import Horizon64.Mirror
import Horizon64.ApicTimer

/- Bringing up the local APIC: `apic_init` of `acpi/apic.c`, on the tables that `vm_init`
   left.

   The registers are memory at the direct map's address of the page the MADT names, and no
   entry of the memory map has to cover that page. `hpet_init` maps the page of its device
   before it reads it; `apic_init` resets the error register first and maps then. So
   whether it comes to an end is up to the memory map (`apic_init_iff`).

   1. The functions. Each access goes through the tables and is recorded as the bus sees it.
   2. `apicInit_leaf`, `apicInit_fault`: what `apic_init` does to a kernel that has, or has not,
      the page mapped.
   3. `vmInit_direct`: the pages that `vm_init` leaves in the direct map. -/
namespace Horizon64
open Words Bytes

/-! `check_cpu_support` (`sys/cpu.c`). -/

inductive CpuidRegister where
  | eax | ebx | ecx | edx
  deriving DecidableEq, Repr

/-- `CPUID_FEATURE`. -/
structure CpuidFeature where
  feature : UInt32
  registers : CpuidRegister
  mask : UInt32

/-- `check_cpu_support`, where `cpuid` answers for the processor. -/
def checkCpuSupport (cpuid : UInt32 → CpuidRegister → UInt32) (feature : CpuidFeature) : Status :=
  if cpuid feature.feature feature.registers &&& feature.mask ≠ 0 then .sysOk else .sysErr

def cpuidFeatureApic : CpuidFeature := ⟨0x00000001, .edx, 0x200⟩
def cpuidFeature2xapic : CpuidFeature := ⟨0x00000001, .ecx, 0x200000⟩

def checkApicExists (cpuid : UInt32 → CpuidRegister → UInt32) : Status :=
  checkCpuSupport cpuid cpuidFeatureApic

def check2xapicExists (cpuid : UInt32 → CpuidRegister → UInt32) : Status :=
  checkCpuSupport cpuid cpuidFeature2xapic

/-! The registers of the APIC. -/

def vmWriteThrough : UInt64 := 8
def vmCacheDisable : UInt64 := 16
def vmMmio : UInt64 := vmDefault ||| vmCacheDisable ||| vmWriteThrough

def apicLapicVersionReg : UInt16 := 0x030
def apicSpuriousIntVecReg : UInt16 := 0x0F0
def apicEnableBit : UInt32 := 0x100
def apicSpuriousIntNum : UInt32 := 0x027
def ia32ApicBaseMsrEnable : UInt32 := 0x800
def ia32ApicBaseMsrX2apic : UInt32 := 0x400

/-- An access as it leaves the processor: the physical address, the flags of the leaf it went
    through, and the value of a write. -/
structure BusAccess where
  phys : UInt64
  flags : UInt64
  written : Option UInt32
  deriving DecidableEq, Repr

/-- The kernel, the statics of the file, and the accesses so far. -/
structure ApicBoot where
  kernel : Kernel Vec Vec
  localApicBase : UInt64
  twoAcpiEnabled : UInt32
  bus : List BusAccess

/-- Why the kernel does not go on: an address without a leaf, or `halt`. -/
inductive KernelStop where
  | pageFault (address : UInt64)
  | halt
  deriving DecidableEq, Repr

/-- What the processor makes of an address with the leaf `entry`. -/
def busAccess (entry address : UInt64) (written : Option UInt32) : BusAccess :=
  ⟨(entry &&& ~~~0xFFF) ||| (address &&& 0xFFF), entry &&& 0xFFF, written⟩

/-- An access to an address with this leaf, or with none. -/
def ApicBoot.through (s : ApicBoot) (address : UInt64) (written : Option UInt32) :
    Option UInt64 → Except KernelStop ApicBoot
  | none => .error (.pageFault address)
  | some entry => .ok { s with bus := s.bus ++ [busAccess entry address written] }

/-- An access to `local_apic_base + offset`. -/
def ApicBoot.access (s : ApicBoot) (offset : UInt16) (written : Option UInt32) :
    Except KernelStop ApicBoot :=
  s.through (s.localApicBase + offset.toUInt64) written
    (s.kernel.walk (s.localApicBase + offset.toUInt64))

/-- `apic_write_reg`. -/
def ApicBoot.writeReg (s : ApicBoot) (offset : UInt16) (value : UInt32) :
    Except KernelStop ApicBoot :=
  if s.localApicBase = 0 then .ok s else s.access offset (some value)

/-- `apic_read_reg`; what answers is a function of all the accesses up to this one. -/
def ApicBoot.readReg (device : List BusAccess → UInt32) (s : ApicBoot) (offset : UInt16) :
    Except KernelStop (UInt32 × ApicBoot) :=
  if s.localApicBase = 0 then .ok (0xFFFFFFFF, s)
  else (s.access offset none).map fun s => (device s.bus, s)

/-- `apic_reset_error_reg`, with the status that `apic_init` does not look at. -/
def apicResetErrorReg (device : List BusAccess → UInt32) (s : ApicBoot) :
    Except KernelStop (Status × ApicBoot) := do
  let s ← s.writeReg apicErrorStatusReg 0x1
  let (value, s) ← s.readReg device apicErrorStatusReg
  return (if (value >>> 1) &&& 0x1 = 0 then .sysOk else .sysErr, s)

/-- `apic_enable`. -/
def apicEnable (s : ApicBoot) : Except KernelStop ApicBoot :=
  s.writeReg apicSpuriousIntVecReg (apicEnableBit ||| apicSpuriousIntNum)

/-- `apic_init` after `vm_map`, which gives the kernel or halts. -/
def apicInitMapped (device : List BusAccess → UInt32) (s : ApicBoot) :
    Option (Kernel Vec Vec) → Except KernelStop ApicBoot
  | none => .error .halt
  | some kernel => do
    let s ← apicEnable { s with kernel := kernel }
    let (_, s) ← s.readReg device apicLapicVersionReg
    let (value, s) ← s.readReg device apicErrorStatusReg
    if apicCheckErrorReg value then .ok s else .error .halt

/-- `apic_init`; `lapicAddress` is what `madt_get_local_apic_base` returns, `msr` the low word of
    `IA32_APIC_BASE`, and `func` what the vectors pass to `krealloc`. -/
def apicInit (func : Nat → UInt8) (cpuid : UInt32 → CpuidRegister → UInt32) (msr : UInt32)
    (device : List BusAccess → UInt32) (lapicAddress : UInt32) (kernel : Kernel Vec Vec) :
    Except KernelStop ApicBoot :=
  if check2xapicExists cpuid = .sysErr ∧ checkApicExists cpuid = .sysErr then .error .halt
  else
    let twoAcpiEnabled :=
      if msr &&& ia32ApicBaseMsrEnable ≠ 0 then msr &&& ia32ApicBaseMsrX2apic else 0
    if twoAcpiEnabled ≠ 0 then .error .halt
    else do
      let base := physToVirt lapicAddress.toUInt64
      let (_, s) ← apicResetErrorReg device ⟨kernel, base, twoAcpiEnabled, []⟩
      apicInitMapped device s
        ((vmMap (memoryList func) (memMaps func) s.kernel none base (virtToPhys base) 1
          vmMmio).map Prod.fst)

/-! Accesses within the page. -/

theorem walk_page (s : Kernel Vec Vec) {v w : UInt64} (h : pageNum v = pageNum w) :
    s.walk v = s.walk w := by
  obtain ⟨hpath, hpte⟩ := (index_eq_iff w v).mpr h
  rw [Kernel.walk, walk_eq, walk_eq, hpath, hpte]

theorem physToVirt_direct (a : UInt64) : physToVirt a = directAddr a := UInt64.add_comm a _

theorem ok_bind {α β : Type} (a : α) (f : α → Except KernelStop β) :
    ((Except.ok a : Except KernelStop α) >>= f) = f a := rfl

theorem error_bind {α β : Type} (e : KernelStop) (f : α → Except KernelStop β) :
    ((Except.error e : Except KernelStop α) >>= f) = .error e := rfl

section Registers
variable {lapic : UInt64} (hal : lapic.toNat % 4096 = 0) (hlow : lapic.toNat < 2 ^ 32)
  {offset : UInt16} (hoff : offset.toNat < 4096)

include hlow in
theorem direct_toNat : (directAddr lapic).toNat = 2 ^ 64 - 2 ^ 47 + lapic.toNat := by
  have hoffset : memVirtOffset.toNat = 2 ^ 64 - 2 ^ 47 := rfl
  rw [directAddr, toNat_add_of_lt (by omega), hoffset]

include hlow in
theorem direct_ne_zero : directAddr lapic ≠ 0 := by
  intro hzero
  have hnat := direct_toNat hlow
  rw [hzero, UInt64.toNat_zero] at hnat
  omega

include hlow hoff

theorem reg_toNat : (directAddr lapic + offset.toUInt64).toNat =
    2 ^ 64 - 2 ^ 47 + lapic.toNat + offset.toNat := by
  have hbase := direct_toNat hlow
  rw [toNat_add_of_lt (by rw [hbase, UInt16.toNat_toUInt64]; omega), hbase,
    UInt16.toNat_toUInt64]

include hal

theorem reg_page : pageNum (directAddr lapic + offset.toUInt64) = pageNum (directAddr lapic) := by
  rw [pageNum, pageNum, reg_toNat hlow hoff, direct_toNat hlow]
  omega

theorem busAccess_reg {frame flags : UInt64} (hframe : frame.toNat % 4096 = 0)
    (hflags : flags.toNat < 4096) (written : Option UInt32) :
    busAccess (frame ||| flags) (directAddr lapic + offset.toUInt64) written =
      ⟨frame + offset.toUInt64, flags, written⟩ := by
  have hframelt := frame.toNat_lt
  have hor : (frame ||| flags).toNat = frame.toNat + flags.toNat :=
    or_low_toNat (k := 12) hframe hflags
  have hmask : (0xFFF : UInt64).toNat = 2 ^ 12 - 1 := rfl
  have hhigh : (frame ||| flags) &&& ~~~0xFFF = frame := by
    apply UInt64.toNat_inj.mp
    rw [and_not_low_toNat (k := 12) _ (by decide) rfl, hor]
    omega
  have hlowbits : (directAddr lapic + offset.toUInt64) &&& 0xFFF = offset.toUInt64 := by
    apply UInt64.toNat_inj.mp
    rw [UInt64.toNat_and, hmask, Nat.and_two_pow_sub_one_eq_mod, reg_toNat hlow hoff,
      UInt16.toNat_toUInt64]
    omega
  have hphys : frame ||| offset.toUInt64 = frame + offset.toUInt64 := by
    apply UInt64.toNat_inj.mp
    rw [or_low_toNat (k := 12) hframe (by rw [UInt16.toNat_toUInt64]; exact hoff),
      toNat_add_of_lt (by rw [UInt16.toNat_toUInt64]; omega)]
  have hleaf : (frame ||| flags) &&& 0xFFF = flags := by
    apply UInt64.toNat_inj.mp
    rw [UInt64.toNat_and, hmask, Nat.and_two_pow_sub_one_eq_mod, hor]
    omega
  rw [busAccess, hhigh, hlowbits, hphys, hleaf]

end Registers

/-- `local_apic_base` is the page's, and the page has a leaf. -/
structure ApicBoot.OnPage (s : ApicBoot) (lapic frame flags : UInt64) : Prop where
  base : s.localApicBase = directAddr lapic
  leaf : s.kernel.walk (directAddr lapic) = some (frame ||| flags)
  aligned : lapic.toNat % 4096 = 0
  low : lapic.toNat < 2 ^ 32
  frame : frame.toNat % 4096 = 0
  flags : flags.toNat < 4096

/-- One more access to the register. -/
def ApicBoot.log (s : ApicBoot) (frame flags : UInt64) (offset : UInt16) (written : Option UInt32) :
    ApicBoot :=
  { s with bus := s.bus ++ [⟨frame + offset.toUInt64, flags, written⟩] }

/-- What `apic_init` asks the registers for after the mapping. -/
def ApicBoot.logInit (s : ApicBoot) (lapic flags : UInt64) : ApicBoot :=
  ((s.log lapic flags apicSpuriousIntVecReg (some (apicEnableBit ||| apicSpuriousIntNum))).log
    lapic flags apicLapicVersionReg none).log lapic flags apicErrorStatusReg none

section OnPage
variable {s : ApicBoot} {lapic frame flags : UInt64} (h : s.OnPage lapic frame flags)
include h

theorem ApicBoot.OnPage.log (offset : UInt16) (written : Option UInt32) :
    (s.log frame flags offset written).OnPage lapic frame flags :=
  ⟨h.base, h.leaf, h.aligned, h.low, h.frame, h.flags⟩

theorem access_leaf {offset : UInt16} (hoff : offset.toNat < 4096) (written : Option UInt32) :
    s.access offset written = .ok (s.log frame flags offset written) := by
  have hreg := busAccess_reg h.aligned h.low hoff h.frame h.flags written
  have hleaf : s.kernel.walk (directAddr lapic + offset.toUInt64) = some (frame ||| flags) := by
    rw [walk_page s.kernel (reg_page h.aligned h.low hoff), h.leaf]
  rw [ApicBoot.access, h.base, hleaf, ApicBoot.through, hreg, ApicBoot.log]

theorem writeReg_leaf {offset : UInt16} (hoff : offset.toNat < 4096) (value : UInt32) :
    s.writeReg offset value = .ok (s.log frame flags offset (some value)) := by
  rw [ApicBoot.writeReg, if_neg (by rw [h.base]; exact direct_ne_zero h.low),
    access_leaf h hoff]

theorem readReg_leaf {offset : UInt16} (hoff : offset.toNat < 4096)
    (device : List BusAccess → UInt32) :
    s.readReg device offset = .ok (device (s.log frame flags offset none).bus,
      s.log frame flags offset none) := by
  rw [ApicBoot.readReg, if_neg (by rw [h.base]; exact direct_ne_zero h.low), access_leaf h hoff,
    Except.map]

theorem resetErrorReg_leaf (device : List BusAccess → UInt32) :
    ∃ status, apicResetErrorReg device s = .ok (status,
      (s.log frame flags apicErrorStatusReg (some 0x1)).log frame flags apicErrorStatusReg
        none) := by
  have hesr : apicErrorStatusReg.toNat < 4096 := by decide
  rw [apicResetErrorReg, writeReg_leaf h hesr, ok_bind, readReg_leaf (h.log _ _) hesr, ok_bind]
  exact ⟨_, rfl⟩

omit h in
theorem initMapped_leaf (h : s.OnPage lapic lapic flags) {r : ApicBoot} {kernel : Kernel Vec Vec}
    (hs : s = { r with kernel := kernel }) (device : List BusAccess → UInt32) :
    apicInitMapped device r (some kernel) =
      if apicCheckErrorReg (device (s.logInit lapic flags).bus) then .ok (s.logInit lapic flags)
      else .error .halt := by
  have hsvr : apicSpuriousIntVecReg.toNat < 4096 := by decide
  have hversion : apicLapicVersionReg.toNat < 4096 := by decide
  have hesr : apicErrorStatusReg.toNat < 4096 := by decide
  rw [apicInitMapped, ← hs, apicEnable, writeReg_leaf h hsvr, ok_bind,
    readReg_leaf (h.log _ _) hversion, ok_bind]
  dsimp only
  rw [readReg_leaf ((h.log _ _).log _ _) hesr, ok_bind]
  rfl

end OnPage

/-! What `apic_init` does to a kernel. -/

/-- The processor has an APIC, and it is not in x2APIC mode. -/
def ApicUsable (cpuid : UInt32 → CpuidRegister → UInt32) (msr : UInt32) : Prop :=
  ¬ (check2xapicExists cpuid = .sysErr ∧ checkApicExists cpuid = .sysErr) ∧
    (msr &&& ia32ApicBaseMsrEnable = 0 ∨ msr &&& ia32ApicBaseMsrX2apic = 0)

/-- The accesses of `apic_init`: the first two through a leaf for `frame` with `flags`, the
    others uncached. -/
def apicAccesses (lapic frame flags : UInt64) : List BusAccess :=
  [⟨frame + apicErrorStatusReg.toUInt64, flags, some 0x1⟩,
    ⟨frame + apicErrorStatusReg.toUInt64, flags, none⟩,
    ⟨lapic + apicSpuriousIntVecReg.toUInt64, vmMmio, some (apicEnableBit ||| apicSpuriousIntNum)⟩,
    ⟨lapic + apicLapicVersionReg.toUInt64, vmMmio, none⟩,
    ⟨lapic + apicErrorStatusReg.toUInt64, vmMmio, none⟩]

theorem mapUpdates_one (v a flags : UInt64) :
    mapUpdates v a 1 flags = [(v, pageEntry a flags)] := by
  rw [mapUpdates, pages_single, List.map_singleton, UInt64.add_zero, UInt64.add_zero]

theorem vmMap_page {func : Nat → UInt8} {k₀ : KernelMemInfo} {maps : List MemMap}
    {s : Kernel Vec Vec} (h : s.Ready k₀ maps) {v a flags : UInt64} {r : Kernel Vec Vec × Space Vec}
    (hmap : vmMap (memoryList func) (memMaps func) s none v a 1 flags = some r) :
    r.1.Ready k₀ (maps ++ [⟨v, a, flags, 1⟩]) ∧
      r.1.walk = FlatMap.assign pageNum s.walk v (pageEntry a flags) := by
  obtain ⟨hready, hwalk⟩ := h.map ⟨v, a, flags, 1⟩ hmap
  refine ⟨hready, ?_⟩
  rw [hwalk, replay_singleton, MemMap.updates, mapUpdates_one]
  rfl

theorem apicInit_unusable {func : Nat → UInt8} {cpuid : UInt32 → CpuidRegister → UInt32} {msr : UInt32}
    (h : ¬ ApicUsable cpuid msr) (device : List BusAccess → UInt32) (lapicAddress : UInt32)
    (kernel : Kernel Vec Vec) :
    apicInit func cpuid msr device lapicAddress kernel = .error .halt := by
  rw [apicInit]
  by_cases hexists : check2xapicExists cpuid = .sysErr ∧ checkApicExists cpuid = .sysErr
  · rw [if_pos hexists]
  · rw [if_neg hexists]
    have hmode : msr &&& ia32ApicBaseMsrEnable ≠ 0 ∧ msr &&& ia32ApicBaseMsrX2apic ≠ 0 := by
      rw [ApicUsable] at h
      tauto
    dsimp only
    rw [if_pos hmode.1, if_pos hmode.2]

section Usable
variable (func : Nat → UInt8) {cpuid : UInt32 → CpuidRegister → UInt32} {msr : UInt32}
  (husable : ApicUsable cpuid msr) (lapicAddress : UInt32) (device : List BusAccess → UInt32)
  (kernel : Kernel Vec Vec)

include husable in
theorem apicInit_usable : apicInit func cpuid msr device lapicAddress kernel =
    (apicResetErrorReg device ⟨kernel, directAddr lapicAddress.toUInt64, 0, []⟩ >>= fun r =>
      apicInitMapped device r.2 ((vmMap (memoryList func) (memMaps func) r.2.kernel none
        (directAddr lapicAddress.toUInt64) lapicAddress.toUInt64 1 vmMmio).map Prod.fst)) := by
  obtain ⟨hexists, hmode⟩ := husable
  have htwo : (if msr &&& ia32ApicBaseMsrEnable ≠ 0 then msr &&& ia32ApicBaseMsrX2apic else 0) =
      0 := by
    rcases hmode with h | h <;> simp [h]
  rw [apicInit, if_neg hexists]
  dsimp only
  rw [htwo, if_neg (fun h => h rfl), virtToPhys_physToVirt, physToVirt_direct]

section Page
variable {func lapicAddress kernel} {lapic : UInt64} (hlapic : lapicAddress.toUInt64 = lapic)
include husable hlapic

/-- Without a leaf for the page, the reset of the error register faults. -/
theorem apicInit_fault (hal : lapic.toNat % 4096 = 0) (hlow : lapic.toNat < 2 ^ 32)
    (hnone : kernel.walk (directAddr lapic) = none) :
    apicInit func cpuid msr device lapicAddress kernel =
      .error (.pageFault (directAddr lapic + apicErrorStatusReg.toUInt64)) := by
  have hoff : apicErrorStatusReg.toNat < 4096 := by decide
  have hfault : kernel.walk (directAddr lapic + apicErrorStatusReg.toUInt64) = none := by
    rw [walk_page kernel (reg_page hal hlow hoff), hnone]
  rw [apicInit_usable func husable, hlapic, apicResetErrorReg, ApicBoot.writeReg,
    if_neg (direct_ne_zero hlow), ApicBoot.access]
  dsimp only
  rw [hfault, ApicBoot.through, error_bind, error_bind]

/-- With a leaf for the page, the reset goes to the frame of the leaf. `vm_map` halts when its
    record finds no memory; from the mapping on, every access goes to the registers, uncached. -/
theorem apicInit_leaf {k₀ : KernelMemInfo} {maps : List MemMap} (hready : kernel.Ready k₀ maps)
    {frame flags : UInt64} (hal : lapic.toNat % 4096 = 0) (hlow : lapic.toNat < 2 ^ 32)
    (hframe : frame.toNat % 4096 = 0) (hflags : flags.toNat < 4096)
    (hleaf : kernel.walk (directAddr lapic) = some (frame ||| flags)) :
    (vmMap (memoryList func) (memMaps func) kernel none (directAddr lapic) lapic 1 vmMmio = none →
      apicInit func cpuid msr device lapicAddress kernel = .error .halt) ∧
    ∀ r, vmMap (memoryList func) (memMaps func) kernel none (directAddr lapic) lapic 1 vmMmio =
        some r →
      r.1.walk = FlatMap.assign pageNum kernel.walk (directAddr lapic) (some (lapic ||| vmMmio)) ∧
      apicInit func cpuid msr device lapicAddress kernel =
        if apicCheckErrorReg (device (apicAccesses lapic frame flags)) then
          .ok ⟨r.1, directAddr lapic, 0, apicAccesses lapic frame flags⟩
        else .error .halt := by
  have hmmio : vmMmio.toNat < 4096 := by decide
  have hpage : ApicBoot.OnPage ⟨kernel, directAddr lapic, 0, []⟩ lapic frame flags :=
    ⟨rfl, hleaf, hal, hlow, hframe, hflags⟩
  obtain ⟨status, hreset⟩ := resetErrorReg_leaf hpage device
  have hkernel : ((ApicBoot.log ⟨kernel, directAddr lapic, 0, []⟩ frame flags apicErrorStatusReg
      (some 0x1)).log frame flags apicErrorStatusReg none).kernel = kernel := rfl
  have hrun := apicInit_usable func husable lapicAddress device kernel
  rw [hlapic, hreset, ok_bind] at hrun
  dsimp only at hrun
  rw [hkernel] at hrun
  refine ⟨fun hnone => ?_, fun r hr => ?_⟩
  · rw [hrun, hnone]
    rfl
  · obtain ⟨-, hwalk⟩ := vmMap_page hready hr
    rw [pageEntry_aligned hal hmmio (by decide)] at hwalk
    have hleaf' : r.1.walk (directAddr lapic) = some (lapic ||| vmMmio) := by
      rw [hwalk, FlatMap.assign, if_pos rfl]
    have hpage' : ApicBoot.OnPage ⟨r.1, directAddr lapic, 0,
        [⟨frame + apicErrorStatusReg.toUInt64, flags, some 0x1⟩,
          ⟨frame + apicErrorStatusReg.toUInt64, flags, none⟩]⟩ lapic lapic vmMmio :=
      ⟨rfl, hleaf', hal, hlow, hal, hmmio⟩
    refine ⟨hwalk, ?_⟩
    rw [hrun, hr, Option.map_some, initMapped_leaf hpage' rfl]
    rfl

end Page
end Usable

/-! The pages that `vm_init` leaves in the direct map. -/

/-- The frame is below the limit, or in an entry that `vm_init` puts into the direct map. -/
def InDirectMap (limit : UInt64) (entries : List LimineMemmapEntry) (a : UInt64) : Prop :=
  a.toNat < 4096 * (numPages limit).toNat ∨
    ∃ e ∈ entries, e.type ∈ [.framebuffer, .usable, .acpiReclaimable, .bootloaderReclaimable] ∧
      e.base.toNat ≤ a.toNat ∧ a.toNat < e.endAddr

section DirectMap
variable {s s₁ : Kernel Vec Vec} {entries : List LimineMemmapEntry} {kernel : LimineKAddrRes}
  (hentries : ∀ e ∈ entries, e.Valid) (hkernel : kernel.Valid)
  {c c' : Ram} (hpm : c.pmInit (some entries) = some c')
  (hlimit : s.ram.kmem.physicalLimit = c'.kmem.physicalLimit) (hguarded : s.ram.Guarded)
  (hlist : s.kernelAddrSpace.memoryList = vectorNew) (hrecords : s.globalMemMap = vectorNew)
  {func : Nat → UInt8} {line : UInt64}
  (hinit : vmInit (memoryList func) (memMaps func) s (some entries) (some kernel) func line = some s₁)
  {a : UInt64} (hlow : a.toNat < 2 ^ 45) (hal : a.toNat % 4096 = 0)

include hentries hkernel hlow hal in
theorem assigned_direct {limit : UInt64} (hlim : limit.toNat ≤ 2 ^ 45)
    {x : UInt64 × Option UInt64}
    (hx : x ∈ (userMap limit :: frameMap limit :: entries.filterMap (entryMap kernel)).flatMap
      MemMap.updates) (hpage : pageNum (directAddr a) = pageNum x.1) :
    InDirectMap limit entries a := by
  have hnum : (numPages limit).toNat = (limit.toNat + 4095) / 4096 := numPages_toNat (by omega)
  have hinj : ∀ {b : UInt64}, b.toNat < 2 ^ 45 → b.toNat % 4096 = 0 → x.1 = directAddr b →
      a = b := by
    intro b hb hbl heq
    rw [heq] at hpage
    exact direct_page_inj hlow hal hb hbl hpage
  rw [List.flatMap_cons, List.flatMap_cons, List.mem_append, List.mem_append] at hx
  rcases hx with hx | hx | hx
  · have hless : (userMap limit).numPages.toNat ≤ (numPages limit).toNat := by
      show (if _ then _ else _ : UInt64).toNat ≤ _
      split
      · exact Nat.le_refl _
      · next hge => exact UInt64.le_iff_toNat_le.mp (UInt64.not_lt.mp hge)
    have hbound := numPages_lt limit
    have huser : vmUsermode.toNat < 4096 := by decide
    obtain ⟨b, hbl, hlt, rfl⟩ :=
      (mem_direct_updates (Nat.lt_of_le_of_lt hless hbound) huser (by decide) x).mp hx
    obtain rfl := hinj (by omega) hbl rfl
    exact Or.inl (by omega)
  · obtain ⟨b, hbl, hlt, rfl⟩ :=
      (mem_direct_updates (numPages_lt limit) (by decide) (by decide) x).mp hx
    obtain rfl := hinj (by omega) hbl rfl
    exact Or.inl hlt
  · obtain ⟨map, hmap, hx⟩ := List.mem_flatMap.mp hx
    obtain ⟨e, he, hmap⟩ := List.mem_filterMap.mp hmap
    have hvalid := hentries e he
    obtain ⟨b, hbl, hbase, hlt, rfl⟩ := (mem_entry_updates hvalid hmap x).mp hx
    have hb : b.toNat < 2 ^ 45 := Nat.lt_of_lt_of_le hlt hvalid.below
    by_cases hk : e.type = .kernelAndModules
    · rw [LimineMemmapEntry.place, if_pos hk] at hpage
      exact absurd hpage (direct_ne_kernel hkernel hlow hal hb hbl)
    · rw [LimineMemmapEntry.place, if_neg hk] at hpage
      obtain rfl := direct_page_inj hlow hal hb hbl hpage
      refine Or.inr ⟨e, he, ?_, hbase, hlt⟩
      cases ht : e.type <;> simp [entryMap, ht] at hmap hk ⊢

include hentries hal in
theorem direct_assigned {limit : UInt64} (h : InDirectMap limit entries a) :
    (directAddr a, some (a ||| vmDefault)) ∈
      (frameMap limit :: entries.filterMap (entryMap kernel)).flatMap MemMap.updates := by
  rw [List.flatMap_cons, List.mem_append]
  rcases h with hlt | ⟨e, he, htype, hbase, hend⟩
  · exact Or.inl ((mem_direct_updates (numPages_lt limit) (by decide) (by decide) _).mpr
      ⟨a, hal, hlt, rfl⟩)
  · obtain ⟨map, hmap⟩ : ∃ map, entryMap kernel e = some map := by
      cases ht : e.type <;> simp [ht] at htype <;> exact ⟨_, by rw [entryMap, ht]⟩
    have hk : e.type ≠ .kernelAndModules := by
      intro ht
      simp [ht] at htype
    refine Or.inr (List.mem_flatMap.mpr ⟨map, List.mem_filterMap.mpr ⟨e, he, hmap⟩, ?_⟩)
    refine (mem_entry_updates (hentries e he) hmap _).mpr ⟨a, hal, hbase, hend, ?_⟩
    rw [LimineMemmapEntry.place, if_neg hk]

include hentries hkernel hpm hlimit hguarded hlist hrecords hinit hlow hal

/-- What `vm_init` leaves in the direct map: the frames that are there, for the kernel only. -/
theorem vmInit_direct : (∃ k₀ maps, s₁.Ready k₀ maps) ∧
    (InDirectMap c'.kmem.physicalLimit entries a →
      s₁.walk (directAddr a) = some (a ||| vmDefault)) ∧
    (¬ InDirectMap c'.kmem.physicalLimit entries a → s₁.walk (directAddr a) = none) := by
  have hlim : s.ram.kmem.physicalLimit.toNat ≤ 2 ^ 45 := hlimit ▸ pmInit_limit hpm hentries
  obtain ⟨hready, hwalk⟩ := vmInit_spec ⟨by omega, hguarded, hlist, hrecords⟩ hinit
  rw [← hlimit, hwalk]
  refine ⟨⟨_, _, hready⟩, fun h => ?_, fun h => ?_⟩
  · exact replay_placed hkernel hentries hlim _ (direct_assigned hentries hal h)
  · rw [replay]
    refine FlatMap.assignAll_off (fun x hx hpage => h ?_) noPages
    exact assigned_direct hentries hkernel hlow hal hlim hx hpage

end DirectMap

/-! The boot. -/

/-- The mapping of `hpet_init`, for the address it reads; `none` is no table. -/
def hpetMap (func : Nat → UInt8) (s : Kernel Vec Vec) : Option UInt64 → Option (Kernel Vec Vec)
  | none => some s
  | some address => (vmMap (memoryList func) (memMaps func) s none (physToVirt address) address 1
      vmMmio).map Prod.fst

/-- The page that `hpet_init` maps is the one of the registers. -/
def HpetCovers (hpet : Option UInt64) (lapic : UInt64) : Prop :=
  ∃ a ∈ hpet, pageNum (directAddr lapic) = pageNum (directAddr a)

theorem pageEntry_frame (a flags : UInt64) : pageEntry a flags = pageEntry (a &&& ~~~0xFFF) flags := by
  rw [pageEntry, pageEntry, UInt64.and_assoc, UInt64.and_self]

theorem frame_aligned (a : UInt64) : (a &&& ~~~0xFFF).toNat % 4096 = 0 := by
  rw [and_not_low_toNat (k := 12) a (by decide) rfl]
  omega

theorem hpetMap_walk {func : Nat → UInt8} {k₀ : KernelMemInfo} {maps : List MemMap}
    {s s' : Kernel Vec Vec} (h : s.Ready k₀ maps) {hpet : Option UInt64}
    (hmap : hpetMap func s hpet = some s') (lapic : UInt64) :
    (¬ HpetCovers hpet lapic → s'.walk (directAddr lapic) = s.walk (directAddr lapic)) ∧
    ∀ a ∈ hpet, pageNum (directAddr lapic) = pageNum (directAddr a) →
      s'.walk (directAddr lapic) = some ((a &&& ~~~0xFFF) ||| vmMmio) := by
  cases hpet with
  | none =>
    rw [hpetMap, Option.some.injEq] at hmap
    exact ⟨fun _ => by rw [hmap], fun a ha => by cases ha⟩
  | some address =>
    obtain ⟨r, hr, rfl⟩ := Option.map_eq_some_iff.mp hmap
    obtain ⟨-, hwalk⟩ := vmMap_page h hr
    rw [physToVirt_direct] at hwalk
    rw [hwalk, FlatMap.assign]
    refine ⟨fun hout => if_neg fun hpage => hout ⟨address, rfl, hpage⟩, fun a ha hpage => ?_⟩
    obtain rfl : address = a := Option.some.inj ha
    rw [if_pos hpage, pageEntry_frame,
      pageEntry_aligned (frame_aligned address) (by decide) (by decide)]

/-- `apic_init` after `pm_init`, `vm_init` and the mapping of `hpet_init`, with whatever runs
    in between that leaves the kernel's tables: without an APIC, or in x2APIC mode, it halts.
    When neither the memory map nor `hpet_init` has mapped the page of the registers, it
    faults at the reset of the error register, before it maps the page. Otherwise the reset
    goes through the mapping that is there; then it halts, when the record of the mapping finds
    no memory, or the other accesses go through its own mapping, and no other page changes. -/
theorem apic_init_iff {func : Nat → UInt8} {s s₁ s₂ s₃ : Kernel Vec Vec}
    {entries : List LimineMemmapEntry} {kernel : LimineKAddrRes} (hentries : ∀ e ∈ entries, e.Valid)
    (hkernel : kernel.Valid) {c c' : Ram} (hpm : c.pmInit (some entries) = some c')
    (hlimit : s.ram.kmem.physicalLimit = c'.kmem.physicalLimit) (hguarded : s.ram.Guarded)
    (hlist : s.kernelAddrSpace.memoryList = vectorNew) (hrecords : s.globalMemMap = vectorNew)
    {line : UInt64}
    (hinit : vmInit (memoryList func) (memMaps func) s (some entries) (some kernel) func line =
      some s₁)
    {lapicAddress : UInt32} {lapic : UInt64} (hlapic : lapicAddress.toUInt64 = lapic)
    (hal : lapic.toNat % 4096 = 0) {hpet : Option UInt64} (hmap : hpetMap func s₁ hpet = some s₂)
    (hready : ∃ k₀ maps, s₃.Ready k₀ maps) (hsame : s₃.walk = s₂.walk)
    (cpuid : UInt32 → CpuidRegister → UInt32) (msr : UInt32) (device : List BusAccess → UInt32) :
    (¬ ApicUsable cpuid msr → apicInit func cpuid msr device lapicAddress s₃ = .error .halt) ∧
    (ApicUsable cpuid msr → ¬ InDirectMap c'.kmem.physicalLimit entries lapic →
      ¬ HpetCovers hpet lapic → apicInit func cpuid msr device lapicAddress s₃ =
        .error (.pageFault (directAddr lapic + apicErrorStatusReg.toUInt64))) ∧
    (ApicUsable cpuid msr → ∀ frame flags,
      (InDirectMap c'.kmem.physicalLimit entries lapic ∧ ¬ HpetCovers hpet lapic ∧
          frame = lapic ∧ flags = vmDefault) ∨
        (∃ a ∈ hpet, pageNum (directAddr lapic) = pageNum (directAddr a) ∧
          frame = a &&& ~~~0xFFF ∧ flags = vmMmio) →
      (vmMap (memoryList func) (memMaps func) s₃ none (directAddr lapic) lapic 1 vmMmio = none →
        apicInit func cpuid msr device lapicAddress s₃ = .error .halt) ∧
      ∀ r, vmMap (memoryList func) (memMaps func) s₃ none (directAddr lapic) lapic 1 vmMmio =
          some r →
        (∀ w, r.1.walk w = if pageNum w = pageNum (directAddr lapic) then some (lapic ||| vmMmio)
          else s₃.walk w) ∧
        apicInit func cpuid msr device lapicAddress s₃ =
          if apicCheckErrorReg (device (apicAccesses lapic frame flags)) then
            .ok ⟨r.1, directAddr lapic, 0, apicAccesses lapic frame flags⟩
          else .error .halt) := by
  have hlow : lapic.toNat < 2 ^ 32 := by
    rw [← hlapic, UInt32.toNat_toUInt64]
    exact lapicAddress.toNat_lt
  obtain ⟨⟨k₁, maps₁, hready₁⟩, hthere, habsent⟩ :=
    vmInit_direct hentries hkernel hpm hlimit hguarded hlist hrecords hinit
      (a := lapic) (by omega) hal
  obtain ⟨hout, hcovered⟩ := hpetMap_walk hready₁ hmap lapic
  obtain ⟨k₃, maps₃, hready₃⟩ := hready
  rw [← hsame] at hout hcovered
  refine ⟨fun h => apicInit_unusable h device lapicAddress s₃, fun h hnot hnone => ?_,
    fun h frame flags hleaf => ?_⟩
  · exact apicInit_fault h device hlapic hal hlow ((hout hnone).trans (habsent hnot))
  · obtain ⟨hwalk, hframe, hflags⟩ : s₃.walk (directAddr lapic) = some (frame ||| flags) ∧
        frame.toNat % 4096 = 0 ∧ flags.toNat < 4096 := by
      rcases hleaf with ⟨hin, hnone, rfl, rfl⟩ | ⟨a, ha, hpage, rfl, rfl⟩
      · exact ⟨(hout hnone).trans (hthere hin), hal, by decide⟩
      · exact ⟨hcovered a ha hpage, frame_aligned a, by decide⟩
    obtain ⟨hhalt, hgoes⟩ := apicInit_leaf h device hlapic hready₃ hal hlow hframe hflags hwalk
    refine ⟨hhalt, fun r hr => ?_⟩
    obtain ⟨hmapped, hrun⟩ := hgoes r hr
    refine ⟨fun w => ?_, hrun⟩
    rw [hmapped, FlatMap.assign]

/-- On 2 MiB of memory, with the table of an HPET at `0xFED00000`, which `hpet_init` reads as
    `0x800000000000`, the registers at `0xFEE00000` are not mapped. -/
theorem apic_init_small : ∃ c s₁ s₂, ramZero.pmInit (some (lowMap 0)) = some c ∧
    vmInit (memoryList fun _ => 0) (memMaps fun _ => 0) (bootKernel c) (some (lowMap 0))
      (some bootAddr) (fun _ => 0) 0 = some s₁ ∧
    hpetMap (fun _ => 0) s₁ (some 0x800000000000) = some s₂ ∧
    apicInit (fun _ => 0) (fun _ _ => 0xFFFFFFFF) 0x900 (fun _ => 0) 0xFEE00000 s₂ =
      .error (.pageFault (directAddr 0xFEE00000 + apicErrorStatusReg.toUInt64)) := by
  obtain ⟨c, s₁, hpm, hlim, hstart, hinit, hsupplied⟩ := lowMap_init (Or.inl (Eq.refl (0 : UInt64)))
  have hready := (vmInit_spec hstart hinit).1
  have hentries : ∀ e ∈ lowMap 0, e.Valid := by
    intro e he
    rw [List.mem_singleton.mp he]
    exact ⟨by decide, by decide, by decide⟩
  have hregion : MemMap.OneRegion ⟨physToVirt 0x800000000000, 0x800000000000, vmMmio, 1⟩ :=
    oneRegion_of (by decide) (by decide)
  obtain ⟨r, hr, -⟩ := hready.map_returns (fun _ => 0) (j := 19) (i := 87) (n := 368)
    hsupplied hregion
  have hmap : hpetMap (fun _ => 0) s₁ (some 0x800000000000) = some r.1 := by
    rw [hpetMap, hr, Option.map_some]
  have husable : ApicUsable (fun _ _ => 0xFFFFFFFF) 0x900 := by
    rw [ApicUsable]
    decide
  have hout : ¬ InDirectMap c.kmem.physicalLimit (lowMap 0) 0xFEE00000 := by
    rw [hlim]
    rintro (hlt | ⟨e, he, -, -, hlt⟩)
    · exact absurd hlt (by decide)
    · rw [List.mem_singleton.mp he] at hlt
      exact absurd hlt (by decide)
  have hhpet : ¬ HpetCovers (some 0x800000000000) 0xFEE00000 := by
    rintro ⟨a, ha, hpage⟩
    rw [← Option.some.inj ha] at hpage
    exact absurd hpage (by decide)
  refine ⟨c, s₁, r.1, hpm, hinit, hmap, ?_⟩
  exact (apic_init_iff hentries ⟨by decide, by decide, by decide, by decide⟩ hpm rfl
    hstart.guarded rfl rfl hinit rfl (by decide) hmap ⟨_, _, (vmMap_page hready hr).1⟩ rfl _ _
    _).2.1 husable hout hhpet

end Horizon64
