import Horizon64.Pic

/- The APIC as the system timer: `apic_timer_start`, `apic_timer_stop` and
   `apic_timer_init` of `acpi/apic.c`.

   The start saves the mask of the PIC in `g_pic_mask` and then masks line 0, which
   writes `g_pic_mask` again. So the word that the stop restores has bit 0 set
   (`masked_after_start`), and no call on another line clears it.

   The initialization measures a frequency in 32 bits and then asks for that frequency: the
   initial count is the frequency divided by a multiple of itself
   (`apicTimerSetFreq_self`). -/
namespace Horizon64

inductive IrqHandler where
  | clkhandler
  | kbhandler
  | clkhandlerTwo
  deriving DecidableEq, Repr

/-- The PIC, the registers at `local_apic_base` (none while it is `NULL`), and the
    globals of the two functions. -/
structure Tick where
  pics : Pics
  localApic : Option (UInt16 → UInt32)
  apicTimerEnabled : UInt8
  gIrqHandler : Nat → Option IrqHandler

def apicLvtTmrReg : UInt16 := 0x320
def apicTimerMasked : UInt32 := 0x10000

def apicReadReg (s : Tick) (offset : UInt16) : UInt32 :=
  match s.localApic with
  | none => 0xFFFFFFFF
  | some regs => regs offset

def apicWriteReg (s : Tick) (offset : UInt16) (value : UInt32) : Tick :=
  { s with localApic := s.localApic.map fun regs => Function.update regs offset value }

def irqRegisterHandler (s : Tick) (irq : Nat) (handler : IrqHandler) : Tick :=
  { s with gIrqHandler := Function.update s.gIrqHandler irq (some handler) }

def apicTimerStop (s : Tick) : Tick :=
  let value := apicReadReg s apicLvtTmrReg
  let s := apicWriteReg s apicLvtTmrReg (value ||| apicTimerMasked)
  let s := { s with pics := picRestoreMask s.pics }
  { s with apicTimerEnabled := 0 }

def apicTimerStart (s : Tick) : Tick :=
  let s := if picGetMask s.pics ≠ 0xFFFF then { s with pics := picMask (picSaveMask s.pics) 0 }
    else s
  let s := irqRegisterHandler s 0 .clkhandlerTwo
  let value := apicReadReg s apicLvtTmrReg
  let s := apicWriteReg s apicLvtTmrReg (value &&& ~~~apicTimerMasked)
  { s with apicTimerEnabled := 1 }

/-- `pic_mask` and `pic_unmask` called one after the other. -/
def Tick.calls (s : Tick) (calls : List MaskCall) : Tick :=
  { s with pics := calls.foldl Pics.call s.pics }

theorem apicTimerStart_pics (s : Tick) :
    (apicTimerStart s).pics =
      if picGetMask s.pics ≠ 0xFFFF then picMask (picSaveMask s.pics) 0 else s.pics := by
  simp only [apicTimerStart, irqRegisterHandler, apicWriteReg]
  split <;> rfl

theorem picSaveMask_eq {s : Pics} (h : s.Agree) : picSaveMask s = s := by
  rw [picSaveMask, picGetMask_eq h]

theorem picRestoreMask_eq {s : Pics} (h : s.Agree) : picRestoreMask s = s := by
  rw [picRestoreMask, picSetMask_eq h, ← h.master, ← h.slave]

/-- After the start line 0 is masked: it was masked before, or `pic_mask` did it. -/
theorem masked_after_start {s : Tick} (h : s.pics.Agree) :
    (apicTimerStart s).pics.Agree ∧ (apicTimerStart s).pics.masked 0 = true := by
  rw [apicTimerStart_pics, picSaveMask_eq h]
  by_cases hall : picGetMask s.pics = 0xFFFF
  · rw [if_neg (not_not.mpr hall)]
    refine ⟨h, ?_⟩
    rw [h.masked_eq (by decide), ← picGetMask_eq h, hall]
    rfl
  · rw [if_pos hall]
    refine ⟨agree_call h (.mask 0), ?_⟩
    have hline := masked_call h (.mask 0) (by decide : 0 < 16)
    simpa [MaskCall.irq, Pics.call] using hline

/-- Line 0 gets its mask bit back from `apic_timer_stop` exactly when it was masked before
    `apic_timer_start`; the other lines stay as the calls between left them. -/
theorem apic_timer_gives_back_iff {s : Tick} (h : s.pics.Agree) {calls : List MaskCall}
    (hcalls : ∀ c ∈ calls, c.irq ≠ 0) :
    ((apicTimerStop ((apicTimerStart s).calls calls)).pics.masked 0 = s.pics.masked 0 ∧
      ∀ irq, irq ≠ 0 → irq < 16 →
        (apicTimerStop ((apicTimerStart s).calls calls)).pics.masked irq =
          ((apicTimerStart s).calls calls).pics.masked irq) ↔
    s.pics.masked 0 = true := by
  obtain ⟨hstart, hmasked⟩ := masked_after_start h
  obtain ⟨hagree, hline⟩ := masked_calls (by decide : 0 < 16) hcalls hstart
  have hstop : (apicTimerStop ((apicTimerStart s).calls calls)).pics =
      calls.foldl Pics.call (apicTimerStart s).pics := picRestoreMask_eq hagree
  rw [hstop, hline, hmasked]
  exact ⟨fun hback => hback.1.symm, fun hbefore => ⟨hbefore.symm, fun _ _ _ => rfl⟩⟩

/-- A PIC with a mask, and no APIC mapped. -/
def tickWith (mask : UInt16) : Tick :=
  ⟨⟨⟨mask.toUInt8, .mask⟩, ⟨(mask >>> 8).toUInt8, .mask⟩, mask⟩, none, 0, fun _ => none⟩

/-- Line 0 masked, and the keyboard unmasked between the two calls. -/
theorem apic_timer_masked_line :
    (apicTimerStop ((apicTimerStart (tickWith 0xFFFB)).calls [.unmask 1])).pics.masked 0 =
      (tickWith 0xFFFB).pics.masked 0 :=
  ((apic_timer_gives_back_iff ⟨rfl, rfl⟩ (by decide)).mpr (by decide)).1

/-- The mask that `pit_init` leaves: line 0 unmasked. -/
theorem apic_timer_system_tick :
    (apicTimerStop (apicTimerStart (tickWith 0xFFFE))).pics.masked 0 ≠
      (tickWith 0xFFFE).pics.masked 0 := by
  decide

/-! The calibration: `apic_timer_init`. -/

def apicErrorStatusReg : UInt16 := 0x280
def apicInitCountReg : UInt16 := 0x380
def apicCurrentCountReg : UInt16 := 0x390
def apicDivideConfigReg : UInt16 := 0x3E0
def apicTimerPeriodic : UInt32 := 0x20000
def apicHwIntNum : UInt32 := 32

inductive ApicTmrMode where
  | oneShot
  | periodic
  deriving DecidableEq, Repr

/-- The statics of the timer, on top of the others. -/
structure ApicTimer where
  tick : Tick
  baseFrequency : UInt64
  divisor : UInt8

def apicTimerEnable (s : Tick) : Tick :=
  let s := apicWriteReg s apicLvtTmrReg (apicTimerMasked ||| apicHwIntNum)
  let s := apicWriteReg s apicDivideConfigReg 0x1
  apicWriteReg s apicInitCountReg 0xFFFFFFFF

/-- `apic_timer_set_freq`; `none` is a division by zero. -/
def apicTimerSetFreq (s : ApicTimer) (freq : UInt64) : Option ApicTimer :=
  let d := freq * s.divisor.toUInt64
  if d = 0 then none
  else some { s with tick := apicWriteReg s.tick apicInitCountReg (s.baseFrequency / d).toUInt32 }

def apicTimerSetMode (s : Tick) (mode : ApicTmrMode) : Tick :=
  let value := apicReadReg s apicLvtTmrReg
  match mode with
  | .periodic => apicWriteReg s apicLvtTmrReg (value ||| apicTimerPeriodic)
  | .oneShot => apicWriteReg s apicLvtTmrReg (value &&& ~~~apicTimerPeriodic)

/-- `apic_check_error_reg` returns, for this value of the register; it halts on an error. -/
def apicCheckErrorReg (value : UInt32) : Bool :=
  (List.range 8).all fun i => (value >>> UInt32.ofNat i) &&& 1 = 0

/-- The part of `apic_timer_init` that measures the frequency. What happens during the sleep
    is `sleep`. -/
def apicTimerMeasure (sleep : Tick → Tick) (s : ApicTimer) : ApicTimer :=
  let s := { s with tick := apicWriteReg s.tick apicErrorStatusReg 0x1 }
  let s := { s with divisor := 4 }
  let s := { s with tick := sleep (apicTimerEnable s.tick) }
  -- the product is one of 32-bit numbers
  { s with baseFrequency :=
    ((0xFFFFFFFF - apicReadReg s.tick apicCurrentCountReg) * 2 * s.divisor.toUInt32).toUInt64 }

/-- `apic_timer_init`: the statics afterwards, and whether the last check returns; `none` is
    a division by zero. The error register, which a write clears, has the value
    `errorStatus` at the end. -/
def apicTimerInit (sleep : Tick → Tick) (errorStatus : UInt32) (s : ApicTimer) :
    Option (ApicTimer × Bool) :=
  let s := apicTimerMeasure sleep s
  (apicTimerSetFreq s s.baseFrequency).map fun s =>
    let s := { s with tick := apicTimerSetMode s.tick .periodic }
    let s := { s with tick := apicTimerStart s.tick }
    (s, apicCheckErrorReg errorStatus)

section Calibration
variable (sleep : Tick → Tick) (s : ApicTimer)

/-- The APIC after the sleep. -/
def slept : Tick := sleep (apicTimerEnable (apicWriteReg s.tick apicErrorStatusReg 0x1))

/-- The ticks that have elapsed then. -/
def elapsed : Nat := 2 ^ 32 - 1 - (apicReadReg (slept sleep s) apicCurrentCountReg).toNat

/-- `base_frequency` as it is computed. -/
def calibrated : UInt32 :=
  (0xFFFFFFFF - apicReadReg (slept sleep s) apicCurrentCountReg) * 2 * (4 : UInt8).toUInt32

/-- The product is not cut off, nothing is divided by zero, and when ticks have elapsed the
    initial count is not 0. -/
def CalibrationRight (errorStatus : UInt32) : Prop :=
  ∃ s' r, apicTimerInit sleep errorStatus s = some (s', r) ∧
    s'.baseFrequency.toNat = elapsed sleep s * 2 * s'.divisor.toNat ∧
    (1 ≤ elapsed sleep s → ∃ regs, s'.tick.localApic = some regs ∧ regs apicInitCountReg ≠ 0)

theorem toNat_calibrated : (calibrated sleep s).toNat = elapsed sleep s * 8 % 2 ^ 32 := by
  obtain ⟨c, hc⟩ : ∃ c, c = apicReadReg (slept sleep s) apicCurrentCountReg := ⟨_, rfl⟩
  have hle : c ≤ 0xFFFFFFFF := by
    have hlt := c.toNat_lt
    rw [UInt32.le_iff_toNat_le]
    exact Nat.le_of_lt_succ hlt
  rw [calibrated, elapsed, ← hc, UInt32.toNat_mul, UInt32.toNat_mul, UInt32.toNat_sub_of_le _ _ hle]
  have hfour : (4 : UInt8).toUInt32.toNat = 4 := rfl
  simp only [UInt32.reduceToNat, hfour]
  omega

/-- A frequency below 2^32 is divided by four times itself. -/
theorem apicTimerSetFreq_self (t : Tick) (b : UInt32) :
    apicTimerSetFreq ⟨t, b.toUInt64, 4⟩ b.toUInt64 =
      if b = 0 then none else some ⟨apicWriteReg t apicInitCountReg 0, b.toUInt64, 4⟩ := by
  have hproduct : (b.toUInt64 * (4 : UInt8).toUInt64).toNat = b.toNat * 4 := by
    have hlt := b.toNat_lt
    rw [UInt64.toNat_mul, UInt32.toNat_toUInt64]
    exact Nat.mod_eq_of_lt (by simp; omega)
  rw [apicTimerSetFreq]
  by_cases hb : b = 0
  · subst hb
    rfl
  · have hpos : 0 < b.toNat := Nat.pos_of_ne_zero fun h => hb (UInt32.toNat_inj.mp h)
    have hne : b.toUInt64 * (4 : UInt8).toUInt64 ≠ 0 := by
      intro h
      have hzero := congrArg UInt64.toNat h
      rw [hproduct, UInt64.toNat_zero] at hzero
      omega
    have hquot : b.toUInt64 / (b.toUInt64 * (4 : UInt8).toUInt64) = 0 := by
      apply UInt64.toNat_inj.mp
      rw [UInt64.toNat_div, hproduct, UInt32.toNat_toUInt64, UInt64.toNat_zero]
      exact Nat.div_eq_of_lt (by omega)
    simp only [hne, hb, if_false, hquot]
    rfl

theorem start_initCount (t : Tick) : (apicTimerStart (apicTimerSetMode t .periodic)).localApic.map
    (· apicInitCountReg) = t.localApic.map (· apicInitCountReg) := by
  have hne : apicInitCountReg ≠ apicLvtTmrReg := by decide
  have hstart : ∀ t : Tick, (apicTimerStart t).localApic = (apicWriteReg t apicLvtTmrReg
      (apicReadReg t apicLvtTmrReg &&& ~~~apicTimerMasked)).localApic := by
    intro t
    by_cases hmask : picGetMask t.pics = 0xFFFF <;>
      simp [apicTimerStart, irqRegisterHandler, apicWriteReg, apicReadReg, hmask]
  rw [hstart, apicTimerSetMode]
  cases hregs : t.localApic <;> simp [apicWriteReg, hregs, Function.update_of_ne hne]

/-- What `apic_timer_init` comes to: a division by zero, or the initial count 0. -/
theorem apicTimerInit_spec (errorStatus : UInt32) :
    (apicTimerInit sleep errorStatus s = none ↔ calibrated sleep s = 0) ∧
    ∀ s' r, apicTimerInit sleep errorStatus s = some (s', r) →
      s'.baseFrequency = (calibrated sleep s).toUInt64 ∧ s'.divisor = 4 ∧
      ∀ regs, s'.tick.localApic = some regs → regs apicInitCountReg = 0 := by
  have hmeasure : apicTimerMeasure sleep s =
      ⟨slept sleep s, (calibrated sleep s).toUInt64, 4⟩ := by
    simp only [apicTimerMeasure, slept, calibrated]
  have hinit := apicTimerInit.eq_1 sleep errorStatus s
  simp only [hmeasure, apicTimerSetFreq_self] at hinit
  rw [hinit]
  by_cases hzero : calibrated sleep s = 0
  · simp [hzero]
  · simp only [hzero, if_false, Option.map_some, reduceCtorEq, Option.some.injEq, true_and]
    rintro s' r h
    obtain ⟨rfl, _⟩ := Prod.mk.inj h
    refine ⟨rfl, rfl, fun regs hregs => ?_⟩
    have hcount := start_initCount (apicWriteReg (slept sleep s) apicInitCountReg 0)
    rw [hregs, apicWriteReg] at hcount
    cases hbase : (slept sleep s).localApic with
    | none => simp [hbase] at hcount
    | some before => simpa [hbase] using hcount

end Calibration

/-- Whatever count the register has after the sleep, the calibration is not right: either
    the frequency comes to 0 and is divided by, or the initial count is written as 0. The
    first happens exactly when the elapsed ticks are a multiple of 2^29, and high bits are
    lost exactly from 2^29 ticks on. -/
theorem apic_timer_init_never (sleep : Tick → Tick) (errorStatus : UInt32) (s : ApicTimer) :
    ¬ CalibrationRight sleep s errorStatus ∧
    (apicTimerInit sleep errorStatus s = none ↔ 2 ^ 29 ∣ elapsed sleep s) ∧
    ∀ s' r, apicTimerInit sleep errorStatus s = some (s', r) →
      (s'.baseFrequency.toNat = elapsed sleep s * 2 * s'.divisor.toNat ↔ elapsed sleep s < 2 ^ 29) ∧
      ∀ regs, s'.tick.localApic = some regs → regs apicInitCountReg = 0 := by
  obtain ⟨hnone, hsome⟩ := apicTimerInit_spec sleep s errorStatus
  have hvalue := toNat_calibrated sleep s
  have hlt : elapsed sleep s < 2 ^ 32 := by
    rw [elapsed]
    omega
  have hzero : calibrated sleep s = 0 ↔ 2 ^ 29 ∣ elapsed sleep s := by
    rw [← UInt32.toNat_inj, hvalue, UInt32.toNat_zero]
    omega
  have hexact : ∀ s' r, apicTimerInit sleep errorStatus s = some (s', r) →
      (s'.baseFrequency.toNat = elapsed sleep s * 2 * s'.divisor.toNat ↔
        elapsed sleep s < 2 ^ 29) := by
    intro s' r h
    obtain ⟨hbase, hdiv, _⟩ := hsome s' r h
    have hfour : (4 : UInt8).toNat = 4 := rfl
    rw [hbase, hdiv, UInt32.toNat_toUInt64, hvalue, hfour]
    omega
  refine ⟨?_, hnone.trans hzero, fun s' r h => ⟨hexact s' r h, (hsome s' r h).2.2⟩⟩
  rintro ⟨s', r, h, _, hcount⟩
  have hne : calibrated sleep s ≠ 0 := by
    intro heq
    rw [hnone.mpr heq] at h
    cases h
  have hpos : 1 ≤ elapsed sleep s :=
    Nat.one_le_iff_ne_zero.mpr fun heq => hne (hzero.mpr (heq ▸ Nat.dvd_zero _))
  obtain ⟨regs, hregs, hcountne⟩ := hcount hpos
  exact hcountne ((hsome s' r h).2.2 regs hregs)

/-- The timer of a machine with the APIC mapped. -/
def timerStart : ApicTimer := ⟨{ tickWith 0xFFFE with localApic := some fun _ => 0 }, 0, 0⟩

/-- The count goes down by 1000 in the sleep. -/
def sleepThousand (t : Tick) : Tick := apicWriteReg t apicCurrentCountReg (0xFFFFFFFF - 1000)

theorem apic_timer_init_thousand :
    elapsed sleepThousand timerStart = 1000 ∧
    (apicTimerInit sleepThousand 0 timerStart).map (fun r =>
      r.1.tick.localApic.map (· apicInitCountReg)) = some (some 0) ∧
    ¬ ∀ sleep s errorStatus, CalibrationRight sleep s errorStatus := by
  have helapsed : elapsed sleepThousand timerStart = 1000 := by decide
  have hcount : (apicTimerInit sleepThousand 0 timerStart).map (fun r =>
      r.1.tick.localApic.map (· apicInitCountReg)) = some (some 0) := by decide
  refine ⟨helapsed, hcount, fun h => ?_⟩
  obtain ⟨s', r, hinit, _, hright⟩ := h sleepThousand timerStart 0
  obtain ⟨regs, hregs, hne⟩ := hright (by rw [helapsed]; decide)
  rw [hinit, Option.map_some, hregs, Option.map_some, Option.some.injEq, Option.some.injEq] at hcount
  exact hne hcount

end Horizon64
