import Mathlib.Algebra.Group.Nat.Defs
import Mathlib.Data.List.Count
import Mathlib.Logic.Relation
import Horizon64.Lib.Folds

/- PCI enumeration (`sys/pci.c`).

   Configuration space answers every 32-bit address with a 32-bit value; the macros
   of `sys/pci_io.h` pick the fields out of them. `scan_device` and `pci_scan_bus`
   call each other without a bound, so they take the depth of the recursion as fuel,
   and `none` says that the fuel ran out.

   1. The macros and the scan, as the source has them: the class test compares the
      class and the subclass with 6, and the bus number of a bridge comes out of
      `&& 0xFF` as 0 or 1.
   2. What a scan appends to `device_list`.
   3. When the recursion ends, and when the list is right. -/
namespace Horizon64

/-! Configuration space. -/

/-- The value that the data port gives for an address. -/
abbrev ConfigSpace := UInt32 → UInt32

def maxBusNum : Nat := 1
def maxDeviceNum : Nat := 32
def maxFunctionNum : Nat := 8

section Macros
variable (c : ConfigSpace) (bus slot func : UInt8)

/-- `pci_ind`. -/
def pciInd (offset : UInt8) : UInt32 :=
  c (bus.toUInt32 <<< 16 ||| slot.toUInt32 <<< 11 ||| func.toUInt32 <<< 8 |||
    (offset &&& 0xFC).toUInt32 ||| 0x80000000)

def pciFunctionExists : Bool := (pciInd c bus slot func 0x0 &&& 0xFFFF).toUInt16 ≠ 0xFFFF

def pciReadVendorId : UInt32 := pciInd c bus slot func 0x0 &&& 0xFFFF

def pciReadDeviceId : UInt32 := pciInd c bus slot func 0x0 >>> 16 &&& 0xFFFF

/-- `PCI_READ_HEADER`, at `PCI_CLASS_SERIAL_BUS`. -/
def pciReadHeader : UInt32 := pciInd c bus slot func 0x0C >>> 16 &&& 0xFF

/-- `PCI_READ_CLASS`, at `PCI_CLASS_SYSTEM_PERIPHERAL`: class and subclass. -/
def pciReadClass : UInt32 := pciInd c bus slot func 0x08 >>> 16

/-- `PCI_DEV_IS_BRIDGE`, with `PCI_CLASS_BRIDGE_DEVICE`. -/
def pciDevIsBridge : Bool := pciReadHeader c bus slot func = 0x1 ∧ pciReadClass c bus slot func = 0x06

/-- `PCI_READ_SUBBUS_ID`: `(x >> 24) && 0xFF` is 0 or 1. -/
def pciReadSubbusId : UInt8 := if pciInd c bus slot func 0x18 >>> 24 ≠ 0 then 1 else 0

/-- `PCI_IS_DEV_MULTIFUNCTION`, as stored in a `uint8_t`. -/
def pciIsDevMultifunction : UInt8 := (pciInd c bus slot func 0x0C >>> 16 &&& 0x80).toUInt8

end Macros

/-- The fields of `PCI_DEVICE` that the scan fills in; the others stay 0. -/
structure PciDevice where
  bus : UInt8
  func : UInt8
  device : UInt8
  deviceId : UInt16
  vendorId : UInt16
  multifunction : UInt8
  deriving DecidableEq

/-! The scan. -/

/-- `for (size_t i = 0; i < MAX_DEVICE_NUM; i++)`, converted to `uint8_t`. -/
def slots : List UInt8 := (List.range maxDeviceNum).map UInt8.ofNat

/-- `for (uint8_t i = 1; i < MAX_FUNCTION_NUM; i++)`. -/
def laterFunctions : List UInt8 := (List.range' 1 (maxFunctionNum - 1)).map UInt8.ofNat

section Scan
variable (c : ConfigSpace)

/-- The entry for a function; `multifunction` is set for function 0 only. -/
def pciEntry (bus deviceId func multifunction : UInt8) : PciDevice :=
  { bus := bus, func := func, device := deviceId
    deviceId := (pciReadDeviceId c bus deviceId func).toUInt16
    vendorId := (pciReadVendorId c bus deviceId func).toUInt16
    multifunction := multifunction }

/-- `scan_device`, with `pci_scan_bus` as a parameter. -/
def scanDevice (pciScanBus : UInt8 → List PciDevice → Option (List PciDevice))
    (bus deviceId : UInt8) (deviceList : List PciDevice) : Option (List PciDevice) := do
  let functionExists := pciFunctionExists c bus deviceId 0
  let isBridge := pciDevIsBridge c bus deviceId 0
  let hasMultiFunction := pciIsDevMultifunction c bus deviceId 0
  if functionExists then
    let deviceList ←
      if isBridge ∧ pciReadSubbusId c bus deviceId 0 ≠ bus then
        pciScanBus (pciReadSubbusId c bus deviceId 0) deviceList
      else some deviceList
    let deviceList := deviceList ++ [pciEntry c bus deviceId 0 hasMultiFunction]
    if hasMultiFunction ≠ 0 then
      return laterFunctions.foldl (fun l i =>
        if pciFunctionExists c bus deviceId i then l ++ [pciEntry c bus deviceId i 0] else l)
        deviceList
    else return deviceList
  else return deviceList

/-- `pci_scan_bus`; `none` when the recursion is deeper than `fuel`. -/
def pciScanBus : Nat → UInt8 → List PciDevice → Option (List PciDevice)
  | 0, _, _ => none
  | fuel + 1, bus, deviceList =>
    slots.foldlM (fun l i => scanDevice c (pciScanBus fuel) bus i l) deviceList

/-- `pci_init`: `device_list` afterwards. -/
def pciInit (fuel : Nat) : Option (List PciDevice) :=
  ((List.range maxBusNum).map UInt8.ofNat).foldlM (fun l bus =>
    slots.foldlM (fun l device => scanDevice c (pciScanBus c fuel) bus device l) l) []

/-! What a scan appends. -/

/-- The functions of a slot, in the order the scan finds them. -/
def slotEntries (bus d : UInt8) : List PciDevice :=
  if pciFunctionExists c bus d 0 then
    pciEntry c bus d 0 (pciIsDevMultifunction c bus d 0) ::
      if pciIsDevMultifunction c bus d 0 ≠ 0 then
        (laterFunctions.filter fun i => pciFunctionExists c bus d i).map
          fun i => pciEntry c bus d i 0
      else []
  else []

/-- The functions of a bus. -/
def busEntries (bus : UInt8) : List PciDevice := slots.flatMap (slotEntries c bus)

/-- The scan takes the device for a bridge to another bus. -/
def Hops (bus d : UInt8) : Prop :=
  pciFunctionExists c bus d 0 = true ∧ pciDevIsBridge c bus d 0 = true ∧
    pciReadSubbusId c bus d 0 ≠ bus

instance (bus d : UInt8) : Decidable (Hops c bus d) := inferInstanceAs (Decidable (_ ∧ _ ∧ _))

end Scan

variable {c : ConfigSpace}

theorem laterFunctions_fold (bus d : UInt8) (l : List UInt8) (acc : List PciDevice) :
    l.foldl (fun l i =>
      if pciFunctionExists c bus d i then l ++ [pciEntry c bus d i 0] else l) acc =
      acc ++ (l.filter fun i => pciFunctionExists c bus d i).map fun i => pciEntry c bus d i 0 := by
  induction l generalizing acc with
  | nil => simp
  | cons i l ih =>
    rw [List.foldl_cons, ih, List.filter_cons]
    split <;> simp

theorem scanDevice_eq (scanBus : UInt8 → List PciDevice → Option (List PciDevice))
    (bus d : UInt8) (l : List PciDevice) :
    scanDevice c scanBus bus d l =
      (if Hops c bus d then scanBus (pciReadSubbusId c bus d 0) l else some l).map
        (· ++ slotEntries c bus d) := by
  unfold scanDevice slotEntries
  cases hex : pciFunctionExists c bus d 0 with
  | false =>
    have hno : ¬ Hops c bus d := fun h => by
      have h1 := h.1
      rw [hex] at h1
      cases h1
    simp [hno]
  | true =>
    have hiff : Hops c bus d ↔
        pciDevIsBridge c bus d 0 = true ∧ pciReadSubbusId c bus d 0 ≠ bus := by
      rw [Hops, hex]
      exact and_iff_right rfl
    simp only [hiff, if_true]
    split
    · cases scanBus (pciReadSubbusId c bus d 0) l with
      | none => rfl
      | some l' => by_cases hm : pciIsDevMultifunction c bus d 0 = 0 <;>
          simp [hm, laterFunctions_fold]
    · by_cases hm : pciIsDevMultifunction c bus d 0 = 0 <;> simp [hm, laterFunctions_fold]

/-! When the recursion ends. -/

theorem pciReadSubbusId_cases (bus d : UInt8) :
    pciReadSubbusId c bus d 0 = 0 ∨ pciReadSubbusId c bus d 0 = 1 := by
  unfold pciReadSubbusId
  split
  · exact Or.inr rfl
  · exact Or.inl rfl

theorem Hops.zero_to_one {d : UInt8} (h : Hops c 0 d) : pciReadSubbusId c 0 d 0 = 1 :=
  (pciReadSubbusId_cases 0 d).resolve_left h.2.2

theorem Hops.one_to_zero {d : UInt8} (h : Hops c 1 d) : pciReadSubbusId c 1 d 0 = 0 :=
  (pciReadSubbusId_cases 1 d).resolve_right h.2.2

/-- The two buses that a scan can visit are scanned for each other. -/
def ScanCycle (c : ConfigSpace) : Prop := (∃ d ∈ slots, Hops c 0 d) ∧ ∃ d ∈ slots, Hops c 1 d

/-- On a cycle no depth of the recursion is enough. -/
theorem ScanCycle.pciScanBus_none (h : ScanCycle c) (fuel : Nat) (l : List PciDevice) :
    pciScanBus c fuel 0 l = none ∧ pciScanBus c fuel 1 l = none := by
  obtain ⟨⟨d, hd, hhop⟩, e, he, hback⟩ := h
  induction fuel generalizing l with
  | zero => exact ⟨rfl, rfl⟩
  | succ fuel ih =>
    constructor
    · rw [pciScanBus]
      apply Folds.foldlM_halts hd
      intro s
      rw [scanDevice_eq, if_pos hhop, hhop.zero_to_one, (ih s).2, Option.map_none]
    · rw [pciScanBus]
      apply Folds.foldlM_halts he
      intro s
      rw [scanDevice_eq, if_pos hback, hback.one_to_zero, (ih s).1, Option.map_none]

/-- `pci_init` scans bus 0 only, as `MAX_BUS_NUM` is 1. -/
theorem pciInit_eq_scan (c : ConfigSpace) (fuel : Nat) :
    pciInit c fuel = pciScanBus c (fuel + 1) 0 [] := by
  have hbuses : (List.range maxBusNum).map UInt8.ofNat = [0] := rfl
  rw [pciInit, hbuses, List.foldlM_cons, Option.bind_eq_bind, pciScanBus]
  cases slots.foldlM (fun l i => scanDevice c (pciScanBus c fuel) 0 i l) [] <;> rfl

/-- Where no device is taken for a bridge, the scan lists the functions of the bus. -/
theorem pciScanBus_leaf {bus : UInt8} (h : ∀ d ∈ slots, ¬ Hops c bus d) (fuel : Nat)
    (l : List PciDevice) : pciScanBus c (fuel + 1) bus l = some (l ++ busEntries c bus) := by
  rw [pciScanBus, busEntries]
  apply Folds.foldlM_appends
  intro s d hd
  rw [scanDevice_eq, if_neg (h d hd), Option.map_some]

/-- What `device_list` holds after `pci_init`: the functions of bus 0, each slot after
    the functions of the bus behind it. -/
def foundEntries (c : ConfigSpace) : List PciDevice :=
  slots.flatMap fun d => (if Hops c 0 d then busEntries c 1 else []) ++ slotEntries c 0 d

theorem pciInit_some (h : ¬ ScanCycle c) (fuel : Nat) :
    pciInit c (fuel + 1) = some (foundEntries c) := by
  rw [pciInit_eq_scan, pciScanBus, foundEntries, ← List.nil_append (List.flatMap _ _)]
  apply Folds.foldlM_appends
  intro s d hd
  rw [scanDevice_eq]
  by_cases hhop : Hops c 0 d
  · have hleaf : ∀ e ∈ slots, ¬ Hops c 1 e := fun e he hback => h ⟨⟨d, hd, hhop⟩, e, he, hback⟩
    rw [if_pos hhop, if_pos hhop, hhop.zero_to_one, pciScanBus_leaf hleaf, Option.map_some,
      List.append_assoc]
  · rw [if_neg hhop, if_neg hhop, Option.map_some, List.nil_append]

theorem pciInit_unique (h : ¬ ScanCycle c) {fuel : Nat} {l : List PciDevice}
    (hl : pciInit c fuel = some l) : l = foundEntries c := by
  cases fuel with
  | succ fuel => exact Option.some.inj (hl.symm.trans (pciInit_some h fuel))
  | zero =>
    -- without fuel no bus but the first can have been scanned
    have hleaf : ∀ d ∈ slots, ¬ Hops c 0 d := by
      intro d hd hhop
      rw [pciInit_eq_scan, pciScanBus, Folds.foldlM_halts hd] at hl
      · cases hl
      · intro s
        rw [scanDevice_eq, if_pos hhop, pciScanBus, Option.map_none]
    have hfound := pciInit_some h 0
    rw [pciInit_eq_scan, pciScanBus_leaf hleaf] at hl hfound
    exact Option.some.inj (hl.symm.trans hfound)

theorem no_cycle_of_pciInit {fuel : Nat} {l : List PciDevice} (hl : pciInit c fuel = some l) :
    ¬ ScanCycle c := by
  intro hcycle
  rw [pciInit_eq_scan, (hcycle.pciScanBus_none _ _).1] at hl
  cases hl

/-- The scan ends exactly when it does not run around a cycle. -/
theorem pci_init_ends_iff (c : ConfigSpace) :
    (∃ fuel l, pciInit c fuel = some l) ↔ ¬ ScanCycle c := by
  constructor
  · intro h
    obtain ⟨fuel, l, hl⟩ := h
    exact no_cycle_of_pciInit hl
  · intro h
    exact ⟨1, _, pciInit_some h 0⟩

/-- Bridges on bus 0 and bus 1 whose register 0x18 points at the other bus. -/
def crossedBridges : ConfigSpace := fun addr =>
  if addr = 0x80000000 ∨ addr = 0x80010000 then 0x12348086
  else if addr = 0x80000008 ∨ addr = 0x80010008 then 0x00060000
  else if addr = 0x8000000C ∨ addr = 0x8001000C then 0x00010000
  else if addr = 0x80000018 then 0x01000000
  else if addr = 0x80010018 then 0
  else 0xFFFFFFFF

/-- The scan of these never ends. -/
theorem pci_init_crossed_bridges : ¬ ∃ fuel l, pciInit crossedBridges fuel = some l := by
  have hcycle : ScanCycle crossedBridges := ⟨⟨0, by decide, by decide⟩, 0, by decide, by decide⟩
  intro h
  obtain ⟨fuel, l, hl⟩ := h
  exact no_cycle_of_pciInit hl hcycle

/-! When the list is right. -/

/-- Function `f` of slot `d` is there: function 0 is, and the others count on devices
    with several functions only. -/
def Present (c : ConfigSpace) (bus d f : UInt8) : Prop :=
  d ∈ slots ∧ pciFunctionExists c bus d 0 = true ∧
    (f = 0 ∨ pciIsDevMultifunction c bus d 0 ≠ 0 ∧ f ∈ laterFunctions ∧
      pciFunctionExists c bus d f = true)

/-- A PCI-to-PCI bridge to `bus'`: header type 1 whatever the multifunction bit, class
    0x06, subclass 0x04, and the secondary bus number in byte 0x19. -/
def Bridge (c : ConfigSpace) (bus d f bus' : UInt8) : Prop :=
  Present c bus d f ∧ pciReadHeader c bus d f &&& 0x7F = 1 ∧
    pciReadClass c bus d f = 0x0604 ∧ bus' = (pciInd c bus d f 0x18 >>> 8).toUInt8

/-- The buses that the bridges lead to from bus 0. -/
def Reachable (c : ConfigSpace) (bus : UInt8) : Prop :=
  Relation.ReflTransGen (fun bus bus' => ∃ d f, Bridge c bus d f bus') 0 bus

/-- The buses are a tree under bus 0: each of the others has one bridge that leads to it. -/
def BusTree (c : ConfigSpace) : Prop :=
  ∀ bus d f bus', Reachable c bus → Bridge c bus d f bus' → bus' ≠ 0 ∧
    ∀ bus₂ d₂ f₂, Reachable c bus₂ → Bridge c bus₂ d₂ f₂ bus' → bus₂ = bus ∧ d₂ = d ∧ f₂ = f

/-- The entry is about function `f` of slot `d`. -/
def PciDevice.At (bus d f : UInt8) (e : PciDevice) : Prop :=
  e.bus = bus ∧ e.device = d ∧ e.func = f

instance (bus d f : UInt8) (e : PciDevice) : Decidable (e.At bus d f) :=
  inferInstanceAs (Decidable (_ ∧ _ ∧ _))

/-- The list has one entry for the function, with the ids that register 0 holds. -/
def FoundOnce (c : ConfigSpace) (l : List PciDevice) (bus d f : UInt8) : Prop :=
  ∃ e, l.filter (·.At bus d f) = [e] ∧ e.vendorId = (pciInd c bus d f 0).toUInt16 ∧
    e.deviceId = (pciInd c bus d f 0 >>> 16).toUInt16

theorem slots_nodup : slots.Nodup := by decide

theorem laterFunctions_nodup : laterFunctions.Nodup := by decide

theorem zero_not_later : (0 : UInt8) ∉ laterFunctions := by decide

theorem mem_slotEntries {bus d : UInt8} {e : PciDevice} (h : e ∈ slotEntries c bus d) :
    e.bus = bus ∧ e.device = d := by
  unfold slotEntries at h
  split at h
  · rcases List.mem_cons.mp h with rfl | h
    · exact ⟨rfl, rfl⟩
    · split at h
      · obtain ⟨i, _, rfl⟩ := List.mem_map.mp h
        exact ⟨rfl, rfl⟩
      · cases h
  · cases h

/-- The entry that the scan makes for a function. -/
def entryOf (c : ConfigSpace) (bus d f : UInt8) : PciDevice :=
  pciEntry c bus d f (if f = 0 then pciIsDevMultifunction c bus d 0 else 0)

theorem laterEntries_at (bus d f : UInt8) :
    ((laterFunctions.filter fun i => pciFunctionExists c bus d i).map
      fun i => pciEntry c bus d i 0).filter (·.At bus d f) =
      if f ∈ laterFunctions ∧ pciFunctionExists c bus d f = true
      then [pciEntry c bus d f 0] else [] := by
  have hat : ((fun e : PciDevice => decide (e.At bus d f)) ∘ fun i => pciEntry c bus d i 0) =
      fun i => i == f := by
    funext i
    simp [PciDevice.At, pciEntry, beq_eq_decide]
  have hnodup : (laterFunctions.filter fun i => pciFunctionExists c bus d i).Nodup :=
    laterFunctions_nodup.filter _
  rw [List.filter_map, hat, List.filter_beq, hnodup.count, List.map_replicate]
  simp only [List.mem_filter]
  split <;> rfl

theorem slotEntries_at {bus d f : UInt8} (h : Present c bus d f) :
    (slotEntries c bus d).filter (·.At bus d f) = [entryOf c bus d f] := by
  obtain ⟨_, hex, hf⟩ := h
  have hzero : (pciEntry c bus d 0 (pciIsDevMultifunction c bus d 0)).At bus d f ↔ f = 0 := by
    simp [PciDevice.At, pciEntry, eq_comm]
  rw [slotEntries, if_pos hex]
  rcases hf with rfl | ⟨hmulti, hlater, hexf⟩
  · rw [List.filter_cons_of_pos (by simp [hzero]), entryOf, if_pos rfl]
    split
    · rw [laterEntries_at, if_neg fun h => zero_not_later h.1]
    · rfl
  · have hne : f ≠ 0 := fun h => zero_not_later (h ▸ hlater)
    rw [List.filter_cons_of_neg (by simp [hzero, hne]), if_pos hmulti, laterEntries_at,
      if_pos ⟨hlater, hexf⟩, entryOf, if_neg hne]

theorem slotEntries_other {bus d bus' d' f : UInt8} (h : ¬ (bus' = bus ∧ d' = d)) :
    (slotEntries c bus' d').filter (·.At bus d f) = [] := by
  apply List.filter_eq_nil_iff.mpr
  intro e he hat
  obtain ⟨hb, hd⟩ := mem_slotEntries he
  obtain ⟨hb', hd', _⟩ := of_decide_eq_true hat
  exact h ⟨hb.symm.trans hb', hd.symm.trans hd'⟩

theorem busEntries_at {bus d f : UInt8} (h : Present c bus d f) :
    (busEntries c bus).filter (·.At bus d f) = [entryOf c bus d f] := by
  rw [busEntries, List.filter_flatMap, ← slotEntries_at h]
  apply Folds.flatMap_single slots_nodup h.1
  intro d' _ hne
  exact slotEntries_other fun hh => hne hh.2

theorem busEntries_other {bus bus' d f : UInt8} (h : bus' ≠ bus) :
    (busEntries c bus').filter (·.At bus d f) = [] := by
  rw [busEntries, List.filter_flatMap]
  exact List.flatMap_eq_nil_iff.mpr fun d' _ => slotEntries_other fun hh => h hh.1

/-- The list has a function of bus 1 once for each device of bus 0 that the scan takes
    for a bridge, a function of bus 0 once, and no others. -/
theorem foundEntries_at {bus d f : UInt8} (h : Present c bus d f) :
    (foundEntries c).filter (·.At bus d f) =
      if bus = 0 then [entryOf c bus d f]
      else if bus = 1 then List.replicate (slots.countP fun d => Hops c 0 d) (entryOf c bus d f)
      else [] := by
  rw [foundEntries, List.filter_flatMap]
  simp only [List.filter_append]
  by_cases h0 : bus = 0
  · subst h0
    rw [if_pos rfl]
    have hbus1 : ∀ d', (if Hops c 0 d' then busEntries c 1 else []).filter (·.At 0 d f) = [] := by
      intro d'
      split
      · exact busEntries_other (by decide)
      · rfl
    simp only [hbus1, List.nil_append]
    rw [← List.filter_flatMap]
    exact busEntries_at h
  · have hbus0 : ∀ d', (slotEntries c 0 d').filter (·.At bus d f) = [] :=
      fun d' => slotEntries_other fun hh => h0 hh.1.symm
    simp only [hbus0, List.append_nil]
    rw [if_neg h0]
    by_cases h1 : bus = 1
    · subst h1
      rw [if_pos rfl]
      induction slots with
      | nil => rfl
      | cons d' l ih =>
        rw [List.flatMap_cons, ih, List.countP_cons]
        by_cases hhop : Hops c 0 d'
        · simp [hhop, busEntries_at h, List.replicate_succ]
        · simp [hhop]
    · rw [if_neg h1]
      apply List.flatMap_eq_nil_iff.mpr
      intro d' _
      split
      · exact busEntries_other (Ne.symm h1)
      · rfl

theorem entryOf_ids (bus d f : UInt8) :
    (entryOf c bus d f).vendorId = (pciInd c bus d f 0).toUInt16 ∧
      (entryOf c bus d f).deviceId = (pciInd c bus d f 0 >>> 16).toUInt16 := by
  have hmask : ∀ x : UInt32, (x &&& 0xFFFF).toUInt16 = x.toUInt16 := by
    intro x
    apply UInt16.toNat_inj.mp
    simp only [UInt32.toNat_toUInt16, UInt32.toNat_and]
    exact (Nat.and_two_pow_sub_one_eq_mod x.toNat 16).symm ▸ Nat.mod_mod _ _
  exact ⟨hmask _, hmask _⟩

theorem foundOnce_iff {bus d f : UInt8} (h : Present c bus d f) :
    FoundOnce c (foundEntries c) bus d f ↔
      bus = 0 ∨ bus = 1 ∧ slots.countP (fun d => Hops c 0 d) = 1 := by
  rw [FoundOnce, foundEntries_at h]
  by_cases h0 : bus = 0
  · simp only [h0, if_true, true_or, iff_true]
    exact ⟨_, rfl, entryOf_ids _ _ _⟩
  · by_cases h1 : bus = 1
    · subst h1
      rw [if_neg h0, if_pos rfl]
      simp only [h0, false_or, true_and]
      constructor
      · intro hex
        obtain ⟨e, he, _⟩ := hex
        have hlen := congrArg List.length he
        rwa [List.length_replicate] at hlen
      · intro hone
        rw [hone]
        exact ⟨_, rfl, entryOf_ids _ _ _⟩
    · simp [h0, h1]

/-- `pci_init` ends with every function of every bus listed once, exactly when it does
    not run around a cycle and the buses that have functions are bus 0 and, behind one
    device that the scan takes for a bridge, bus 1. -/
theorem pci_init_complete_iff (c : ConfigSpace) :
    (∃ fuel l, pciInit c fuel = some l ∧
      ∀ bus d f, Reachable c bus → Present c bus d f → FoundOnce c l bus d f) ↔
    ¬ ScanCycle c ∧ ∀ bus d f, Reachable c bus → Present c bus d f →
      bus = 0 ∨ bus = 1 ∧ slots.countP (fun d => Hops c 0 d) = 1 := by
  constructor
  · intro h
    obtain ⟨fuel, l, hl, honce⟩ := h
    have hends : ¬ ScanCycle c := no_cycle_of_pciInit hl
    obtain rfl : l = foundEntries c := pciInit_unique hends hl
    exact ⟨hends, fun bus d f hr hp => (foundOnce_iff hp).mp (honce bus d f hr hp)⟩
  · intro h
    obtain ⟨hends, hbuses⟩ := h
    exact ⟨1, _, pciInit_some hends 0,
      fun bus d f hr hp => (foundOnce_iff hp).mpr (hbuses bus d f hr hp)⟩

/-- A PCI-to-PCI bridge at 00:00.0, with one device on bus 1 behind it. -/
def oneBridge : ConfigSpace := fun addr =>
  if addr = 0x80000000 ∨ addr = 0x80010000 then 0x12348086
  else if addr = 0x80000008 then 0x06040000
  else if addr = 0x8000000C then 0x00010000
  else if addr = 0x80000018 then 0x00010100
  else if addr = 0x80010008 ∨ addr = 0x8001000C then 0
  else 0xFFFFFFFF

theorem pciInd_toNat (bus slot : UInt8) (h : slot.toNat < 32) :
    (bus.toUInt32 <<< 16 ||| slot.toUInt32 <<< 11 ||| (0 : UInt8).toUInt32 <<< 8 |||
      ((0 : UInt8) &&& 0xFC).toUInt32 ||| 0x80000000).toNat =
      2 ^ 31 + (bus.toNat * 2 ^ 16 + slot.toNat * 2 ^ 11) := by
  have hb := bus.toNat_lt
  have hb32 : bus.toNat <<< 16 < 2 ^ 32 := by
    rw [Nat.shiftLeft_eq]
    omega
  have hs32 : slot.toNat <<< 11 < 2 ^ 32 := by
    rw [Nat.shiftLeft_eq]
    omega
  have hlow : bus.toNat <<< 16 ||| slot.toNat <<< 11 = bus.toNat * 2 ^ 16 + slot.toNat * 2 ^ 11 := by
    rw [← Nat.shiftLeft_add_eq_or_of_lt, Nat.shiftLeft_eq, Nat.shiftLeft_eq]
    rw [Nat.shiftLeft_eq]
    omega
  have hhigh : bus.toNat * 2 ^ 16 + slot.toNat * 2 ^ 11 < 2 ^ 31 := by omega
  have htop := Nat.shiftLeft_add_eq_or_of_lt hhigh 1
  simp only [UInt32.toNat_or, UInt32.toNat_shiftLeft, UInt8.toNat_toUInt32]
  calc bus.toNat <<< 16 % 2 ^ 32 ||| slot.toNat <<< 11 % 2 ^ 32 ||| 0 ||| 0 ||| 2 ^ 31
      = bus.toNat * 2 ^ 16 + slot.toNat * 2 ^ 11 ||| 2 ^ 31 := by
        rw [Nat.mod_eq_of_lt hb32, Nat.mod_eq_of_lt hs32, Nat.or_zero, Nat.or_zero, hlow]
    _ = 2 ^ 31 ||| bus.toNat * 2 ^ 16 + slot.toNat * 2 ^ 11 := Nat.or_comm _ _
    _ = 2 ^ 31 + (bus.toNat * 2 ^ 16 + slot.toNat * 2 ^ 11) := htop.symm

theorem oneBridge_exists {bus d : UInt8} (hd : d ∈ slots)
    (h : pciFunctionExists oneBridge bus d 0 = true) : (bus = 0 ∨ bus = 1) ∧ d = 0 := by
  have hlt : d.toNat < 32 := by
    obtain ⟨n, hn, rfl⟩ := List.mem_map.mp hd
    have h32 : n < 32 := List.mem_range.mp hn
    rw [UInt8.toNat_ofNat']
    omega
  have haddr := pciInd_toNat bus d hlt
  have hb := bus.toNat_lt
  rw [pciFunctionExists, pciInd] at h
  generalize (bus.toUInt32 <<< 16 ||| d.toUInt32 <<< 11 ||| (0 : UInt8).toUInt32 <<< 8 |||
      ((0 : UInt8) &&& 0xFC).toUInt32 ||| 0x80000000) = addr at h haddr
  by_cases hknown : addr = 0x80000000 ∨ addr = 0x80010000
  · have hz : bus.toNat * 2 ^ 16 + d.toNat * 2 ^ 11 = 0 ∨
        bus.toNat * 2 ^ 16 + d.toNat * 2 ^ 11 = 2 ^ 16 := by
      rcases hknown with rfl | rfl
      · exact Or.inl (Nat.add_left_cancel haddr.symm)
      · exact Or.inr (Nat.add_left_cancel haddr.symm)
    refine ⟨?_, UInt8.toNat_inj.mp (show d.toNat = 0 by omega)⟩
    rcases hz with hz | hz
    · exact Or.inl (UInt8.toNat_inj.mp (show bus.toNat = 0 by omega))
    · exact Or.inr (UInt8.toNat_inj.mp (show bus.toNat = 1 by omega))
  · -- the other registers of the two devices are not at offset 0
    have hother : oneBridge addr = 0xFFFFFFFF := by
      have hne : ∀ k : UInt32, k.toNat % 2 ^ 11 ≠ 0 → addr ≠ k := by
        intro k hk heq
        rw [← heq, haddr] at hk
        omega
      rw [oneBridge, if_neg hknown, if_neg (hne _ (by decide)), if_neg (hne _ (by decide)),
        if_neg (hne _ (by decide)), if_neg]
      rintro (h | h)
      · exact hne _ (by decide) h
      · exact hne _ (by decide) h
    rw [hother] at h
    exact absurd h (by decide)

theorem oneBridge_present {bus d f : UInt8} (h : Present oneBridge bus d f) :
    (bus = 0 ∨ bus = 1) ∧ d = 0 ∧ f = 0 := by
  obtain ⟨hd, hex, hf⟩ := h
  obtain ⟨hbus, rfl⟩ := oneBridge_exists hd hex
  refine ⟨hbus, rfl, hf.resolve_right fun hf => hf.1 ?_⟩
  rcases hbus with rfl | rfl
  · rfl
  · rfl

theorem oneBridge_bridge {bus d f bus' : UInt8} (h : Bridge oneBridge bus d f bus') :
    bus = 0 ∧ d = 0 ∧ f = 0 ∧ bus' = 1 := by
  obtain ⟨hp, _, hclass, rfl⟩ := h
  obtain ⟨rfl | rfl, rfl, rfl⟩ := oneBridge_present hp
  · exact ⟨rfl, rfl, rfl, by decide⟩
  · exact absurd hclass (by decide)

/-- The class test does not know the bridge for one, and its bus is not scanned. -/
theorem pci_init_misses_bus :
    BusTree oneBridge ∧ Reachable oneBridge 1 ∧ Present oneBridge 1 0 0 ∧
      ¬ ∃ fuel l, pciInit oneBridge fuel = some l ∧ FoundOnce oneBridge l 1 0 0 := by
  have hp : Present oneBridge 1 0 0 := ⟨by decide, by decide, Or.inl rfl⟩
  refine ⟨?_, .single ⟨0, 0, ⟨by decide, by decide, Or.inl rfl⟩, by decide, by decide, by decide⟩,
    hp, ?_⟩
  · intro bus d f bus' _ hb
    obtain ⟨rfl, rfl, rfl, rfl⟩ := oneBridge_bridge hb
    refine ⟨by decide, fun bus₂ d₂ f₂ _ hb₂ => ?_⟩
    obtain ⟨rfl, rfl, rfl, _⟩ := oneBridge_bridge hb₂
    exact ⟨rfl, rfl, rfl⟩
  · intro h
    obtain ⟨fuel, l, hl, honce⟩ := h
    rw [pciInit_unique (no_cycle_of_pciInit hl) hl, foundOnce_iff hp] at honce
    have hcount : slots.countP (fun d => Hops oneBridge 0 d) = 0 := by decide
    rw [hcount] at honce
    revert honce
    decide

end Horizon64
