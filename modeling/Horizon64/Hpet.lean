import Horizon64.HpetTable

/- The HPET driver (`sys/acpi/hpet.c`, `sys/acpi/hpet.h`, `structs/hpet_str.h`).

   The registers are read and written like memory. `hpet_init` maps their page first,
   which is left out here; `HPET_LONG_MODE` and `HPET_LONE_MODE` are not defined, so what
   stands under them is left out too. `none` is a division by zero.

   1. The registers, the macros and the functions.
   2. `hpet_config_iff`: what the clear operations leave of a register.
   3. `hpet_init_iff`: which tables and capabilities `hpet_init` handles right. -/
namespace Horizon64
open Bytes Layout

/-! Registers. -/

inductive HpetTimerField where
  | configAndCapabilities | comparatorValue | fsbInterruptRoute | unused
  deriving DecidableEq

/-- `HPET_TIMER`, packed. -/
def hpetTimer : List (HpetTimerField × Member) :=
  [(.configAndCapabilities, .plain (scalar 8)), (.comparatorValue, .plain (scalar 8)),
    (.fsbInterruptRoute, .plain (scalar 8)), (.unused, .plain (scalar 8))]

inductive HpetField where
  | generalCapabilities | unused0 | generalConfig | unused1 | generalIntStatus | unused2
  | mainCounterValue | unused3 | timers
  deriving DecidableEq

/-- `HPET`, packed. -/
def hpetRegs : List (HpetField × Member) :=
  [(.generalCapabilities, .plain (scalar 8)), (.unused0, .plain (scalar 8)),
    (.generalConfig, .plain (scalar 8)), (.unused1, .plain (scalar 8)),
    (.generalIntStatus, .plain (scalar 8)), (.unused2, .plain (array 200 (scalar 1))),
    (.mainCounterValue, .plain (scalar 8)), (.unused3, .plain (scalar 8)),
    (.timers, .plain (array 0 (structLayout true hpetTimer)))]

/-- The address of a field of `*hpet`. -/
def hpetReg (hpet : UInt64) (f : HpetField) : UInt64 :=
  hpet + byteOffset (offsetOf true hpetRegs f)

/-- `(hpet->timers) + i`. -/
def hpetTimerAt (hpet : UInt64) (i : Nat) : UInt64 :=
  hpetReg hpet .timers + UInt64.ofNat (element (structLayout true hpetTimer) i)

/-- The address of `timer->config_and_capabilities`. -/
def timerConfig (timer : UInt64) : UInt64 :=
  timer + byteOffset (offsetOf true hpetTimer .configAndCapabilities)

/-! Functions. -/

def enableCnf : UInt64 := 0
def legRtCap : UInt64 := 15
def hpetMinComparator : UInt16 := 3
def hpetMaxComparator : UInt16 := 32
def tmrFsbEnCnf : UInt64 := 14
def tmrIntEnbCnf : UInt64 := 2

/-- `GEN_CONFIG_SET`. -/
def genConfigSet (bit : UInt64) (mem : Memory) (hpet : UInt64) : Memory :=
  if hpet ≠ 0 then
    store64 mem (hpetReg hpet .generalConfig)
      (load64 mem (hpetReg hpet .generalConfig) ||| (1 <<< bit))
  else mem

/-- `GEN_CONFIG_UNSET`: the mask is `0 << bit`. -/
def genConfigUnset (bit : UInt64) (mem : Memory) (hpet : UInt64) : Memory :=
  if hpet ≠ 0 then
    store64 mem (hpetReg hpet .generalConfig)
      (load64 mem (hpetReg hpet .generalConfig) &&& (0 <<< bit))
  else mem

def hpetHalt (mem : Memory) (hpet : UInt64) : Memory := genConfigUnset enableCnf mem hpet

def hpetEnable (mem : Memory) (hpet : UInt64) : Memory := genConfigSet enableCnf mem hpet

/-- `HPET_TIMER_READ_CONFIG_CAP`. -/
def hpetTimerReadConfigCap (bit : UInt64) (mem : Memory) (timer : UInt64) : UInt64 :=
  load64 mem (timerConfig timer) &&& (1 <<< bit)

/-- `GEN_CAPABILITIES_READ`. -/
def genCapabilitiesRead (bit : UInt64) (mem : Memory) (hpet : UInt64) : UInt64 :=
  load64 mem (hpetReg hpet .generalCapabilities) &&& (1 <<< bit)

/-- The read, the test and the `&=` that clear one bit of a timer; the mask is `0 << bit`. -/
def clearTimerBit (bit : UInt64) (mem : Memory) (timer : UInt64) : Memory :=
  if hpetTimerReadConfigCap bit mem timer ≠ 0 then
    store64 mem (timerConfig timer) (load64 mem (timerConfig timer) &&& (0 <<< bit))
  else mem

/-- The body of the loop of `hpet_reset_comparators`, without the tests that only print. -/
def hpetResetComparator (mem : Memory) (timer : UInt64) : Memory :=
  clearTimerBit tmrIntEnbCnf (clearTimerBit tmrFsbEnCnf mem timer) timer

/-- `hpet_reset_comparators`: memory afterwards, and the status. -/
def hpetResetComparators (mem : Memory) (hpet : UInt64) (numHpetComparators : UInt16) :
    Memory × Status :=
  if hpet = 0 then (mem, .sysErr)
  else
    (Nat.fold numHpetComparators.toNat
      (fun i _ mem => hpetResetComparator mem (hpetTimerAt hpet i)) mem, .sysOk)

/-- `HPET_NUM_COMPARATOR_CHECK`. -/
def hpetNumComparatorCheck (num : UInt16) : Bool := num < hpetMaxComparator ∧ num > hpetMinComparator

/-- The globals and statics of `hpet.c`. -/
structure HpetStatics where
  hpet : UInt64
  hpetSdt : UInt64
  numHpetComparators : UInt16
  hpetPeriod : UInt64
  deriving DecidableEq

def hpetStart : HpetStatics :=
  { hpet := 0, hpetSdt := 0, numHpetComparators := hpetMaxComparator, hpetPeriod := 0 }

/-- `hpet_init`: memory and the statics afterwards, and the status. -/
def hpetInit (mem : Memory) (acpi : AcpiStatics) (s : HpetStatics) :
    Option (Memory × HpetStatics × Status) :=
  let s : HpetStatics := { s with hpetSdt := acpiGetSdt mem acpi (some hpetSignature) }
  if s.hpetSdt = 0 then some (mem, { s with hpetSdt := 0 }, .sysErr)
  else
    let s := { s with hpet := physToVirt (hpetSdtAddress mem s.hpetSdt) }
    if genCapabilitiesRead legRtCap mem s.hpet = 0 then
      some (mem, { s with hpet := 0, hpetSdt := 0 }, .sysErr)
    else
      let s := { s with
        numHpetComparators := (hpetSdtComparatorCount mem s.hpetSdt).toUInt16 + 1 }
      -- the check says that the number is in range
      if hpetNumComparatorCheck s.numHpetComparators then
        some (mem, { s with hpet := 0, hpetSdt := 0 }, .sysErr)
      else
        let mem := (hpetResetComparators mem s.hpet s.numHpetComparators).1
        let counterClkPeriod := load64 mem (hpetReg s.hpet .generalCapabilities) >>> 32
        -- `1000000000000000 / counter_clk_period`, which is only printed
        if counterClkPeriod = 0 then none
        else
          some (hpetEnable mem s.hpet, { s with hpetPeriod := counterClkPeriod / 1000000 }, .sysOk)

/-! Where the registers are. -/

theorem hpetRegs_layout : byteOffset (offsetOf true hpetRegs .generalCapabilities) = 0 ∧
    byteOffset (offsetOf true hpetRegs .generalConfig) = 0x10 ∧
    byteOffset (offsetOf true hpetRegs .mainCounterValue) = 0xF0 ∧
    byteOffset (offsetOf true hpetRegs .timers) = 0x100 := by decide

theorem hpetTimer_layout : structLayout true hpetTimer = ⟨32, 1⟩ ∧
    byteOffset (offsetOf true hpetTimer .configAndCapabilities) = 0 := by decide

/-- The offset of the first register of timer `i`. -/
def timerOffset (i : Nat) : Nat := 0x100 + element (structLayout true hpetTimer) i

theorem timerConfig_eq (hpet : UInt64) (i : Nat) :
    timerConfig (hpetTimerAt hpet i) = hpet + UInt64.ofNat (timerOffset i) := by
  rw [timerConfig, hpetTimer_layout.2, UInt64.add_zero, hpetTimerAt, hpetReg,
    hpetRegs_layout.2.2.2, UInt64.add_assoc, timerOffset, UInt64.ofNat_add]
  rfl

theorem timerOffset_apart {i j : Nat} (h : i < j) : timerOffset i + 8 ≤ timerOffset j := by
  have helement := element_disjoint (structLayout true hpetTimer) h
  have hsize : (structLayout true hpetTimer).size = 32 := by rw [hpetTimer_layout.1]
  rw [hsize] at helement
  rw [timerOffset, timerOffset]
  omega

theorem timerOffset_bounds {i : Nat} (h : i < 2 ^ 16) :
    0x100 ≤ timerOffset i ∧ timerOffset i < 2 ^ 32 := by
  have hsize : (structLayout true hpetTimer).size = 32 := by rw [hpetTimer_layout.1]
  rw [timerOffset, element, hsize]
  omega

theorem offsets_apart {p x : UInt64} {m n : Nat} (hm : m < 2 ^ 32) (hn : n < 2 ^ 32)
    (h : m + 8 ≤ n ∨ n + 8 ≤ m) (hx : x - (p + UInt64.ofNat m) < 8) :
    ¬ x - (p + UInt64.ofNat n) < 8 := by
  obtain ⟨d, hd⟩ : ∃ d, d = x - p := ⟨_, rfl⟩
  have hat : ∀ k : Nat, k < 2 ^ 32 →
      (x - (p + UInt64.ofNat k)).toNat = (2 ^ 64 - k + d.toNat) % 2 ^ 64 := by
    intro k hk
    rw [Words.sub_add_eq, ← hd, UInt64.toNat_sub, Words.toNat_ofNat_of_lt (by omega)]
  have height : (8 : UInt64).toNat = 8 := rfl
  have hlt := d.toNat_lt
  rw [UInt64.lt_iff_toNat_lt, hat m hm, height] at hx
  rw [UInt64.lt_iff_toNat_lt, hat n hn, height]
  omega

/-! One timer. -/

/-- The two bits of a timer that are to be cleared. -/
def timerMask : UInt64 := (1 <<< tmrFsbEnCnf) ||| (1 <<< tmrIntEnbCnf)

/-- What the loop makes of a configuration: all of it is cleared with one of the bits. -/
def resetValue (c : UInt64) : UInt64 := if c &&& timerMask = 0 then c else 0

theorem and_timerMask_iff (c : UInt64) : c &&& timerMask = 0 ↔
    c &&& (1 <<< tmrFsbEnCnf) = 0 ∧ c &&& (1 <<< tmrIntEnbCnf) = 0 := by
  have hdistrib : c &&& timerMask =
      (c &&& (1 <<< tmrFsbEnCnf)) ||| (c &&& (1 <<< tmrIntEnbCnf)) :=
    UInt64.toBitVec_inj.mp BitVec.and_or_distrib_left
  rw [hdistrib, UInt64.or_eq_zero_iff]

/-- The bits of the mask are clear and every other bit is as it was. -/
def BitsCleared (mask before after : UInt64) : Prop :=
  after &&& mask = 0 ∧ after &&& ~~~mask = before &&& ~~~mask

/-- Only those bits are cleared exactly when neither is set, or nothing else is. -/
theorem resetValue_iff (c : UInt64) : BitsCleared timerMask c (resetValue c) ↔
    c &&& timerMask = 0 ∨ c &&& ~~~timerMask = 0 := by
  rw [resetValue, BitsCleared]
  by_cases h : c &&& timerMask = 0
  · simp [h]
  · simp [h, eq_comm]

section Timer
variable {mem : Memory} {timer : UInt64}

theorem clearTimerBit_eq (bit : UInt64) (mem : Memory) (timer : UInt64) :
    clearTimerBit bit mem timer =
      if load64 mem (timerConfig timer) &&& (1 <<< bit) = 0 then mem
      else store64 mem (timerConfig timer) 0 := by
  have hmask : (0 : UInt64) <<< bit = 0 := by simp
  rw [clearTimerBit, hpetTimerReadConfigCap, hmask, UInt64.and_zero]
  by_cases h : load64 mem (timerConfig timer) &&& (1 <<< bit) = 0 <;> simp [h]

theorem hpetResetComparator_eq (mem : Memory) (timer : UInt64) : hpetResetComparator mem timer =
    if load64 mem (timerConfig timer) &&& timerMask = 0 then mem
    else store64 mem (timerConfig timer) 0 := by
  simp only [hpetResetComparator, clearTimerBit_eq, and_timerMask_iff]
  by_cases hfsb : load64 mem (timerConfig timer) &&& (1 <<< tmrFsbEnCnf) = 0
  · simp [hfsb]
  · simp [hfsb, load64_store64_self]

theorem hpetResetComparator_value :
    load64 (hpetResetComparator mem timer) (timerConfig timer) =
      resetValue (load64 mem (timerConfig timer)) := by
  rw [hpetResetComparator_eq, resetValue]
  by_cases h : load64 mem (timerConfig timer) &&& timerMask = 0
  · rw [if_pos h, if_pos h]
  · rw [if_neg h, if_neg h, load64_store64_self]

theorem ite_store64_off {P : Prop} [Decidable P] {p v x : UInt64} (h : ¬ x - p < 8) :
    (if P then store64 mem p v else mem) x = mem x := by
  by_cases hP : P
  · rw [if_pos hP, store64_off h]
  · rw [if_neg hP]

theorem hpetResetComparator_off {x : UInt64} (h : ¬ x - timerConfig timer < 8) :
    hpetResetComparator mem timer x = mem x := by
  rw [hpetResetComparator, clearTimerBit, ite_store64_off h, clearTimerBit, ite_store64_off h]

end Timer

/-! The loop over the timers. -/

/-- The first `n` timers are reset, and nothing else has changed. -/
structure ResetDone (mem mem' : Memory) (hpet : UInt64) (n : Nat) : Prop where
  timers : ∀ i < n, load64 mem' (timerConfig (hpetTimerAt hpet i)) =
    resetValue (load64 mem (timerConfig (hpetTimerAt hpet i)))
  frame : ∀ x, (∀ i < n, ¬ x - timerConfig (hpetTimerAt hpet i) < 8) → mem' x = mem x

theorem timers_apart {hpet x : UInt64} {i j : Nat} (hi : i < 2 ^ 16) (hj : j < 2 ^ 16) (hne : i ≠ j)
    (hx : x - timerConfig (hpetTimerAt hpet i) < 8) :
    ¬ x - timerConfig (hpetTimerAt hpet j) < 8 := by
  rw [timerConfig_eq] at hx ⊢
  refine offsets_apart (timerOffset_bounds hi).2 (timerOffset_bounds hj).2 ?_ hx
  rcases Nat.lt_or_gt_of_ne hne with hlt | hlt
  · exact Or.inl (timerOffset_apart hlt)
  · exact Or.inr (timerOffset_apart hlt)

theorem hpetResetComparator_other {mem : Memory} {hpet : UInt64} {i j : Nat} (hi : i < 2 ^ 16)
    (hj : j < 2 ^ 16) (hne : i ≠ j) :
    load64 (hpetResetComparator mem (hpetTimerAt hpet j)) (timerConfig (hpetTimerAt hpet i)) =
      load64 mem (timerConfig (hpetTimerAt hpet i)) :=
  load64_congr fun _ hx => hpetResetComparator_off (timers_apart hi hj hne hx)

theorem resetDone_fold (mem : Memory) (hpet : UInt64) {n : Nat} (hn : n ≤ 2 ^ 16) :
    ResetDone mem (Nat.fold n (fun i _ mem => hpetResetComparator mem (hpetTimerAt hpet i)) mem)
      hpet n := by
  induction n with
  | zero => exact ⟨fun i hi => absurd hi (Nat.not_lt_zero i), fun _ _ => rfl⟩
  | succ n ih =>
    have hrest := ih (by omega)
    rw [Nat.fold_succ]
    refine ⟨fun i hi => ?_, fun x hx => ?_⟩
    · by_cases hlast : i = n
      · subst hlast
        -- no round before this one has changed the register
        have hsame := load64_congr fun x hx => hrest.frame x fun j hj =>
          timers_apart (by omega) (by omega) (Nat.ne_of_gt hj) hx
        rw [hpetResetComparator_value, hsame]
      · have hi' : i < n := by omega
        rw [hpetResetComparator_other (by omega) (by omega) hlast, hrest.timers i hi']
    · rw [hpetResetComparator_off (hx n (Nat.lt_succ_self n))]
      exact hrest.frame x fun i hi => hx i (Nat.lt_succ_of_lt hi)

theorem resetDone (mem : Memory) {hpet : UInt64} (h : hpet ≠ 0) (num : UInt16) :
    ResetDone mem (hpetResetComparators mem hpet num).1 hpet num.toNat := by
  rw [hpetResetComparators, if_neg h]
  exact resetDone_fold mem hpet (Nat.le_of_lt num.toNat_lt)

theorem hpetResetComparators_frame (mem : Memory) (hpet : UInt64) (num : UInt16) {x : UInt64}
    (hx : ∀ i < num.toNat, ¬ x - timerConfig (hpetTimerAt hpet i) < 8) :
    (hpetResetComparators mem hpet num).1 x = mem x := by
  by_cases h : hpet = 0
  · rw [hpetResetComparators, if_pos h]
  · exact (resetDone mem h num).frame x hx

/-! Halting and enabling. -/

/-- The mask of `ENABLE_CNF`. -/
def enableMask : UInt64 := 1 <<< enableCnf

section Enable
variable (mem : Memory) {hpet : UInt64}

/-- All of the register is lost but the bit that is set again. -/
theorem halt_enable_value (h : hpet ≠ 0) :
    load64 (hpetEnable (hpetHalt mem hpet) hpet) (hpetReg hpet .generalConfig) = enableMask := by
  have hmask : (0 : UInt64) <<< enableCnf = 0 := by simp
  have hhalt : hpetHalt mem hpet = store64 mem (hpetReg hpet .generalConfig) 0 := by
    rw [hpetHalt, genConfigUnset, if_pos h, hmask, UInt64.and_zero]
  rw [hpetEnable, genConfigSet, if_pos h, load64_store64_self, hhalt, load64_store64_self,
    UInt64.zero_or, enableMask]

theorem halt_enable_off {x : UInt64} (hx : ¬ x - hpetReg hpet .generalConfig < 8) :
    hpetEnable (hpetHalt mem hpet) hpet x = mem x := by
  rw [hpetEnable, genConfigSet, ite_store64_off hx, hpetHalt, genConfigUnset, ite_store64_off hx]

end Enable

/-! `hpet_config_iff`. -/

/-- The bits that are cleared stand alone in the register, or are clear already. -/
def Apart (mask c : UInt64) : Prop := c &&& mask = 0 ∨ c &&& ~~~mask = 0

/-- `hpet_reset_comparators` clears only its two bits in each timer exactly when in each of
    them the two are clear already, or nothing else is set; it touches no other register.
    Halting and enabling bring `general_config` back exactly when nothing but `ENABLE_CNF`
    was set in it. -/
theorem hpet_config_iff (mem : Memory) (hpet : UInt64) (num : UInt16) :
    (((hpet ≠ 0 → ∀ i < num.toNat, BitsCleared timerMask
          (load64 mem (timerConfig (hpetTimerAt hpet i)))
          (load64 (hpetResetComparators mem hpet num).1 (timerConfig (hpetTimerAt hpet i)))) ∧
        ∀ x, (∀ i < num.toNat, ¬ x - timerConfig (hpetTimerAt hpet i) < 8) →
          (hpetResetComparators mem hpet num).1 x = mem x) ↔
      hpet = 0 ∨ ∀ i < num.toNat, Apart timerMask (load64 mem (timerConfig (hpetTimerAt hpet i)))) ∧
    ((load64 (hpetEnable (hpetHalt mem hpet) hpet) (hpetReg hpet .generalConfig) &&& ~~~enableMask =
          load64 mem (hpetReg hpet .generalConfig) &&& ~~~enableMask ∧
        ∀ x, ¬ x - hpetReg hpet .generalConfig < 8 →
          hpetEnable (hpetHalt mem hpet) hpet x = mem x) ↔
      hpet = 0 ∨ load64 mem (hpetReg hpet .generalConfig) &&& ~~~enableMask = 0) := by
  refine ⟨?_, ?_⟩
  · have hframe := fun x => @hpetResetComparators_frame mem hpet num x
    rw [and_iff_left hframe]
    by_cases h : hpet = 0
    · simp [h]
    · have hreset := (resetDone mem h num).timers
      simp only [h, ne_eq, not_false_eq_true, forall_const, false_or]
      refine forall₂_congr fun i hi => ?_
      rw [hreset i hi, resetValue_iff, Apart]
  · have hframe := fun x => @halt_enable_off mem hpet x
    rw [and_iff_left hframe]
    by_cases h : hpet = 0
    · simp [h, hpetEnable, hpetHalt, genConfigSet, genConfigUnset]
    · have hvalue := halt_enable_value mem h
      simp [h, hvalue, eq_comm]

/-- Memory with the registers at 0x1000, where timer 0 has interrupts enabled in 32-bit mode
    and legacy replacement is on. -/
def hpetMemory : Memory :=
  store64 (store64 (fun _ => 0) (timerConfig (hpetTimerAt 0x1000 0)) 0x104)
    (hpetReg 0x1000 .generalConfig) 0x3

/-- The mode of the timer and the legacy replacement are lost. -/
theorem hpet_config_wiped :
    load64 (hpetResetComparators hpetMemory 0x1000 1).1 (timerConfig (hpetTimerAt 0x1000 0)) = 0 ∧
    load64 (hpetEnable (hpetHalt hpetMemory 0x1000) 0x1000) (hpetReg 0x1000 .generalConfig) = 1 ∧
    (¬ ∀ mem hpet num, hpet ≠ 0 → ∀ i < UInt16.toNat num, BitsCleared timerMask
      (load64 mem (timerConfig (hpetTimerAt hpet i)))
      (load64 (hpetResetComparators mem hpet num).1 (timerConfig (hpetTimerAt hpet i)))) ∧
    ¬ ∀ mem hpet,
      load64 (hpetEnable (hpetHalt mem hpet) hpet) (hpetReg hpet .generalConfig) &&& ~~~enableMask =
        load64 mem (hpetReg hpet .generalConfig) &&& ~~~enableMask := by
  have htimer : load64 hpetMemory (timerConfig (hpetTimerAt 0x1000 0)) = 0x104 := by decide
  have hconfig : load64 hpetMemory (hpetReg 0x1000 .generalConfig) = 0x3 := by decide
  have hreset : load64 (hpetResetComparators hpetMemory 0x1000 1).1
      (timerConfig (hpetTimerAt 0x1000 0)) = 0 := by
    rw [(resetDone hpetMemory (by decide) 1).timers 0 (by decide), htimer]
    decide
  have henable := @halt_enable_value hpetMemory 0x1000 (by decide)
  refine ⟨hreset, henable, fun h => ?_, fun h => ?_⟩
  · have hkept := (h hpetMemory 0x1000 1 (by decide) 0 (by decide)).2
    rw [hreset, htimer] at hkept
    exact absurd hkept (by decide)
  · have hkept := h hpetMemory 0x1000
    rw [henable, hconfig] at hkept
    exact absurd hkept (by decide)

/-! What `hpet_init` finds. -/

section Found
variable (mem : Memory) (acpi : AcpiStatics)

/-- The table. -/
def hpetTableAt : UInt64 := acpiGetSdt mem acpi (some hpetSignature)

/-- The registers, by the table. -/
def hpetAt : UInt64 := physToVirt (hpetSdtAddress mem (hpetTableAt mem acpi))

/-- The number of comparators, by the table. -/
def comparators : Nat := (hpetSdtComparatorCount mem (hpetTableAt mem acpi)).toNat + 1

/-- `LEG_RT_CAP` is set. -/
def LegacyCapable : Prop := genCapabilitiesRead legRtCap mem (hpetAt mem acpi) ≠ 0

/-- The period of the counter. -/
def counterPeriod : UInt64 := load64 mem (hpetReg (hpetAt mem acpi) .generalCapabilities) >>> 32

structure HpetUsable : Prop where
  found : hpetTableAt mem acpi ≠ 0
  legacy : LegacyCapable mem acpi
  least : hpetMinComparator.toNat ≤ comparators mem acpi
  most : comparators mem acpi ≤ hpetMaxComparator.toNat

/-- An outcome of `hpet_init` is the right one: success exactly for a usable HPET, and
    after an error nothing is left behind and nothing has been written. -/
structure InitRight (mem' : Memory) (s' : HpetStatics) (r : Status) : Prop where
  accepted : r = .sysOk ↔ HpetUsable mem acpi
  clean : r = .sysErr → s'.hpet = 0 ∧ s'.hpetSdt = 0 ∧ mem' = mem

end Found

section Init
variable {mem : Memory} {acpi : AcpiStatics}

theorem initRight_err {mem' : Memory} {s' : HpetStatics} : InitRight mem acpi mem' s' .sysErr ↔
    ¬ HpetUsable mem acpi ∧ s'.hpet = 0 ∧ s'.hpetSdt = 0 ∧ mem' = mem := by
  constructor
  · intro h
    exact ⟨fun husable => Status.noConfusion (h.accepted.mpr husable), h.clean rfl⟩
  · rintro ⟨hunusable, hclean⟩
    exact ⟨⟨Status.noConfusion, fun husable => absurd husable hunusable⟩, fun _ => hclean⟩

theorem initRight_ok {mem' : Memory} {s' : HpetStatics} : InitRight mem acpi mem' s' .sysOk ↔
    HpetUsable mem acpi := by
  constructor
  · intro h
    exact h.accepted.mp rfl
  · intro husable
    exact ⟨iff_of_true rfl husable, Status.noConfusion⟩

theorem comparators_bounds : 1 ≤ comparators mem acpi ∧ comparators mem acpi ≤ 32 := by
  have hcount : (hpetSdtComparatorCount mem (hpetTableAt mem acpi)).toNat ≤ 31 := by
    rw [hpetSdtComparatorCount, UInt8.toNat_and]
    exact Nat.and_le_right
  rw [comparators]
  omega

/-- The number as `hpet_init` counts it. -/
theorem toNat_numHpetComparators :
    ((hpetSdtComparatorCount mem (hpetTableAt mem acpi)).toUInt16 + 1).toNat =
      comparators mem acpi := by
  have hbounds := (@comparators_bounds mem acpi).2
  rw [comparators] at hbounds ⊢
  have hone : (1 : UInt16).toNat = 1 := rfl
  rw [UInt16.toNat_add, UInt8.toNat_toUInt16, hone]
  omega

theorem hpetNumComparatorCheck_iff (num : UInt16) :
    hpetNumComparatorCheck num = true ↔ 3 < num.toNat ∧ num.toNat < 32 := by
  have hmin : hpetMinComparator.toNat = 3 := rfl
  have hmax : hpetMaxComparator.toNat = 32 := rfl
  rw [hpetNumComparatorCheck, decide_eq_true_iff, UInt16.lt_iff_toNat_lt, gt_iff_lt,
    UInt16.lt_iff_toNat_lt, hmin, hmax, and_comm]

/-- The timers are behind the capabilities. -/
theorem capabilities_kept (mem : Memory) (hpet : UInt64) (num : UInt16) :
    load64 (hpetResetComparators mem hpet num).1 (hpetReg hpet .generalCapabilities) =
      load64 mem (hpetReg hpet .generalCapabilities) := by
  refine load64_congr fun x hx => hpetResetComparators_frame mem hpet num fun i hi => ?_
  have hbounds := timerOffset_bounds (Nat.lt_trans hi num.toNat_lt)
  have hzero : hpetReg hpet .generalCapabilities = hpet + UInt64.ofNat 0 := by
    rw [hpetReg, hpetRegs_layout.1]
    rfl
  rw [hzero] at hx
  rw [timerConfig_eq]
  exact offsets_apart (by decide) hbounds.2 (Or.inl (by omega)) hx

/-! The ways through `hpet_init`. -/

theorem hpetInit_absent (s : HpetStatics) (h : hpetTableAt mem acpi = 0) :
    hpetInit mem acpi s = some (mem, { s with hpetSdt := 0 }, .sysErr) := by
  rw [hpetTableAt] at h
  simp only [hpetInit, h, if_true]

theorem hpetInit_notLegacy (s : HpetStatics) (h : hpetTableAt mem acpi ≠ 0)
    (hleg : ¬ LegacyCapable mem acpi) :
    hpetInit mem acpi s = some (mem, { s with hpet := 0, hpetSdt := 0 }, .sysErr) := by
  rw [hpetTableAt] at h
  rw [LegacyCapable, hpetAt, hpetTableAt, not_not] at hleg
  simp only [hpetInit, if_neg h, hleg, if_true]

/-- More than 3 and fewer than 32 comparators are refused. -/
theorem hpetInit_refused (s : HpetStatics) (h : hpetTableAt mem acpi ≠ 0)
    (hleg : LegacyCapable mem acpi) (hnum : 3 < comparators mem acpi ∧ comparators mem acpi < 32) :
    ∃ s', s'.hpet = 0 ∧ s'.hpetSdt = 0 ∧ hpetInit mem acpi s = some (mem, s', .sysErr) := by
  rw [← toNat_numHpetComparators, ← hpetNumComparatorCheck_iff, hpetTableAt] at hnum
  rw [hpetTableAt] at h
  rw [LegacyCapable, hpetAt, hpetTableAt] at hleg
  simp only [hpetInit, if_neg h, if_neg hleg, hnum, if_true]
  exact ⟨_, rfl, rfl, rfl⟩

theorem hpetInit_divides (s : HpetStatics) (h : hpetTableAt mem acpi ≠ 0)
    (hleg : LegacyCapable mem acpi)
    (hnum : ¬ (3 < comparators mem acpi ∧ comparators mem acpi < 32)) :
    ∃ mem' s', hpetInit mem acpi s =
      if counterPeriod mem acpi = 0 then none else some (mem', s', .sysOk) := by
  rw [← toNat_numHpetComparators, ← hpetNumComparatorCheck_iff, hpetTableAt] at hnum
  rw [hpetTableAt] at h
  rw [LegacyCapable, hpetAt, hpetTableAt] at hleg
  rw [counterPeriod, hpetAt, hpetTableAt]
  simp only [hpetInit, if_neg h, if_neg hleg, if_neg hnum, capabilities_kept]
  exact ⟨_, _, rfl⟩

/-- For every memory, root table and statics: `hpet_init` divides by nothing that is 0,
    accepts exactly the usable HPETs and leaves nothing behind after an error exactly when
    there is no table and `hpet` is still `NULL`, or `LEG_RT_CAP` is clear, or there are
    3 or 32 comparators and the period of the counter is not 0. -/
theorem hpet_init_iff (mem : Memory) (acpi : AcpiStatics) (s : HpetStatics) :
    (∃ mem' s' r, hpetInit mem acpi s = some (mem', s', r) ∧ InitRight mem acpi mem' s' r) ↔
      hpetTableAt mem acpi = 0 ∧ s.hpet = 0 ∨
      hpetTableAt mem acpi ≠ 0 ∧ (¬ LegacyCapable mem acpi ∨
        (comparators mem acpi = 3 ∨ comparators mem acpi = 32) ∧ counterPeriod mem acpi ≠ 0) := by
  have hmin : hpetMinComparator.toNat = 3 := rfl
  have hmax : hpetMaxComparator.toNat = 32 := rfl
  have hbounds := @comparators_bounds mem acpi
  by_cases htable : hpetTableAt mem acpi = 0
  · have hunusable : ¬ HpetUsable mem acpi := fun husable => husable.found htable
    simp [hpetInit_absent s htable, htable, initRight_err, hunusable]
  · by_cases hleg : LegacyCapable mem acpi
    · by_cases hnum : 3 < comparators mem acpi ∧ comparators mem acpi < 32
      · obtain ⟨s', hhpet, hsdt, hinit⟩ := hpetInit_refused s htable hleg hnum
        -- the HPET is refused though it is usable
        have husable : HpetUsable mem acpi := ⟨htable, hleg, by omega, by omega⟩
        have hne : ¬ (comparators mem acpi = 3 ∨ comparators mem acpi = 32) := by omega
        simp [hinit, htable, hleg, initRight_err, husable, hne]
      · obtain ⟨mem', s', hinit⟩ := hpetInit_divides s htable hleg hnum
        have husable : HpetUsable mem acpi ↔
            comparators mem acpi = 3 ∨ comparators mem acpi = 32 := by
          constructor
          · intro h
            have hleast := h.least
            omega
          · intro h
            exact ⟨htable, hleg, by omega, by omega⟩
        by_cases hperiod : counterPeriod mem acpi = 0
        · simp [hinit, htable, hleg, hperiod]
        · simp [hinit, htable, hleg, hperiod, initRight_ok, husable]
    · have hunusable : ¬ HpetUsable mem acpi := fun husable => hleg husable.legacy
      simp [hpetInit_notLegacy s htable hleg, htable, hleg, initRight_err, hunusable]

end Init

/-- A root table at 0x5000 that lists an HPET table at the physical address 0, whose
    registers are at 0x1000: capable of legacy replacement, with the comparator count and
    the lowest byte of the period as given. -/
def hpetMachine (count period : UInt8) : Memory := fun x =>
  if x = 0x5004 then 40
  else
    match x - physToVirt 0 with
    | 37 => count
    | 49 => 0x10
    | 0x1001 => 0x80
    | 0x1004 => period
    | off => hpetSignature.getD off.toNat 0

def hpetMachineRoot : AcpiStatics := ⟨0x5000, false, 0⟩

/-- An HPET with 4 comparators is refused, and with a period of 0 there is a division by 0. -/
theorem hpet_init_refuses_four :
    (HpetUsable (hpetMachine 3 1) hpetMachineRoot ∧ ∃ s',
      hpetInit (hpetMachine 3 1) hpetMachineRoot hpetStart = some (hpetMachine 3 1, s', .sysErr)) ∧
    hpetInit (hpetMachine 2 0) hpetMachineRoot hpetStart = none ∧
    ¬ ∀ mem acpi, ∃ mem' s' r, hpetInit mem acpi hpetStart = some (mem', s', r) ∧
      InitRight mem acpi mem' s' r := by
  have hfour : comparators (hpetMachine 3 1) hpetMachineRoot = 4 := by decide
  have hfound : hpetTableAt (hpetMachine 3 1) hpetMachineRoot ≠ 0 := by decide
  have hlegacy : LegacyCapable (hpetMachine 3 1) hpetMachineRoot := by
    rw [LegacyCapable]
    decide
  have husable : HpetUsable (hpetMachine 3 1) hpetMachineRoot :=
    ⟨hfound, hlegacy, by rw [hfour]; decide, by rw [hfour]; decide⟩
  obtain ⟨s', _, _, hrefused⟩ := hpetInit_refused hpetStart hfound hlegacy (by rw [hfour]; decide)
  obtain ⟨mem', t', hdivides⟩ := @hpetInit_divides (hpetMachine 2 0) hpetMachineRoot hpetStart
    (by decide) (by rw [LegacyCapable]; decide) (by decide)
  have hperiod : counterPeriod (hpetMachine 2 0) hpetMachineRoot = 0 := by decide
  rw [if_pos hperiod] at hdivides
  refine ⟨⟨husable, s', hrefused⟩, hdivides, fun h => ?_⟩
  obtain ⟨_, _, _, hinit, hright⟩ := h (hpetMachine 3 1) hpetMachineRoot
  rw [hrefused] at hinit
  cases hinit
  exact (initRight_err.mp hright).1 husable

end Horizon64
