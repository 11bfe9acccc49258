import Horizon64.ApicTimer
import Horizon64.Lib.Folds
import Horizon64.Lib.While
import Horizon64.Lib.Words
import Mathlib.Data.List.Induction

/- The system clock: `tick/clkhandler.c`, and the hand-over from the PIC's timer to the
   APIC's in `acpi/apic.c`, with interrupts between any two steps.

   `apic_timer_start` unmasks the timer before it sets `apic_timer_enabled`, and
   `apic_timer_stop` clears it after it masks the timer. A timer interrupt that is taken
   while the flag is clear is counted but not acknowledged.
   1. `Clock`: the code's statics, the local APIC as far as the timer's vector goes, and the
      rest of the call that the main program is in.
   2. `clock_stands_iff`: the vector stays in service exactly when such an interrupt has been
      taken, and then the clock stands still for good; otherwise the next interrupt counts.
   3. `clock_counts`: every clock interrupt that is taken is one unit of `system_time`, and
      every fifth one ends a quantum.
   4. `sleep_iff`: when `system_timer_sleep` returns. -/
namespace Horizon64

/-! The main program. -/

/-- The steps of `apic_timer_start` and `apic_timer_stop`, between which interrupts are
    taken. -/
inductive TimerStep where
  | saveMask
  | registerTwo
  | unmaskTimer
  | setEnabled
  | maskTimer
  | restoreMask
  | clearEnabled
  deriving DecidableEq, Repr

def TimerStep.run (s : Tick) : TimerStep → Tick
  | .saveMask =>
    if picGetMask s.pics ≠ 0xFFFF then { s with pics := picMask (picSaveMask s.pics) 0 } else s
  | .registerTwo => irqRegisterHandler s 0 .clkhandlerTwo
  | .unmaskTimer =>
    apicWriteReg s apicLvtTmrReg (apicReadReg s apicLvtTmrReg &&& ~~~apicTimerMasked)
  | .setEnabled => { s with apicTimerEnabled := 1 }
  | .maskTimer => apicWriteReg s apicLvtTmrReg (apicReadReg s apicLvtTmrReg ||| apicTimerMasked)
  | .restoreMask => { s with pics := picRestoreMask s.pics }
  | .clearEnabled => { s with apicTimerEnabled := 0 }

def startSteps : List TimerStep := [.saveMask, .registerTwo, .unmaskTimer, .setEnabled]

def stopSteps : List TimerStep := [.maskTimer, .restoreMask, .clearEnabled]

theorem startSteps_eq (s : Tick) : startSteps.foldl TimerStep.run s = apicTimerStart s := rfl

theorem stopSteps_eq (s : Tick) : stopSteps.foldl TimerStep.run s = apicTimerStop s := rfl

/-- The statics of `clkhandler.c`, the request and the in-service bit of the timer's vector,
    and what is left of the call of the main program. -/
structure Clock where
  tick : Tick
  systemTime : UInt64
  preemptQuantum : UInt8
  irr : Bool
  isr : Bool
  rest : List TimerStep

/-! The handlers. -/

/-- `QUANTUM`. -/
def quantum : UInt8 := 5

def apicEoiReg : UInt16 := 0x0B0

def clkhandler (s : Clock) : Clock :=
  let s := { s with systemTime := s.systemTime + 1 }
  let left := s.preemptQuantum - 1
  { s with preemptQuantum := if left ≤ 0 then quantum else left }

/-- `apic_send_end_of_interrupt`: the register takes the vector out of service. -/
def apicSendEndOfInterrupt (s : Clock) : Clock :=
  if s.tick.apicTimerEnabled ≠ 0 then
    { s with
      tick := apicWriteReg s.tick apicEoiReg 0
      isr := if s.tick.localApic.isSome then false else s.isr }
  else s

def clkhandlerTwo (s : Clock) : Clock := apicSendEndOfInterrupt (clkhandler s)

/-- The handler of line 0, which the PIC's line and the APIC's vector share. -/
def Clock.handle (s : Clock) : Clock :=
  match s.tick.gIrqHandler 0 with
  | some .clkhandler => clkhandler s
  | some .clkhandlerTwo => clkhandlerTwo s
  | _ => s

/-! What happens. -/

inductive ClockEvent where
  | start
  | stop
  | next
  | expire
  | apicInterrupt
  | picInterrupt
  deriving DecidableEq, Repr

/-- The mask bit of the timer's entry in the local vector table. -/
def Tick.timerMasked (s : Tick) : Bool :=
  match s.localApic with
  | none => true
  | some regs => regs apicLvtTmrReg &&& apicTimerMasked ≠ 0

/-- A request is accepted when its vector is not in service. -/
def Clock.apicTaken (s : Clock) : Bool := s.irr && !s.isr

def Clock.picTaken (s : Clock) : Bool := !s.tick.pics.masked 0

/-- The main program begins a call or takes its next step; the APIC's timer runs out; the
    processor takes an interrupt of the APIC's timer or of the PIC's line 0, and runs its
    handler to the end. What cannot happen changes nothing. -/
def Clock.step (s : Clock) : ClockEvent → Clock
  | .start => if s.rest.isEmpty then { s with rest := startSteps } else s
  | .stop => if s.rest.isEmpty then { s with rest := stopSteps } else s
  | .next =>
    match s.rest with
    | [] => s
    | t :: rest => { s with tick := t.run s.tick, rest := rest }
  | .expire => if s.tick.timerMasked then s else { s with irr := true }
  | .apicInterrupt => if s.apicTaken then { s with irr := false, isr := true }.handle else s
  | .picInterrupt => if s.picTaken then s.handle else s

/-! The invariant. -/

/-- Line 0 belongs to the APIC: its handler is `clkhandler_two`, and the PIC does not pass
    it on. -/
structure Tick.Handed (s : Tick) : Prop where
  handler : s.gIrqHandler 0 = some .clkhandlerTwo
  masked : s.pics.masked 0 = true

/-- Where the main program is, and that the APIC's timer interrupts only after line 0 is
    handed over. -/
structure Clock.Inv (s : Clock) : Prop where
  agree : s.tick.pics.Agree
  mapped : s.tick.localApic.isSome = true
  program : s.rest <:+ startSteps ∨ s.rest <:+ stopSteps
  saved : s.rest = [.registerTwo, .unmaskTimer, .setEnabled] → s.tick.pics.masked 0 = true
  registered : s.rest = [.unmaskTimer, .setEnabled] → s.tick.Handed
  live : s.tick.timerMasked = false ∨ s.irr = true ∨ s.isr = true → s.tick.Handed

/-- No call has begun, and the timer is masked and quiet. -/
structure Clock.Quiet (s : Clock) : Prop where
  agree : s.tick.pics.Agree
  mapped : s.tick.localApic.isSome = true
  rest : s.rest = []
  masked : s.tick.timerMasked = true
  irr : s.irr = false
  isr : s.isr = false

theorem Clock.Quiet.inv {s : Clock} (h : s.Quiet) : s.Inv := by
  refine ⟨h.agree, h.mapped, Or.inl ?_, ?_, ?_, ?_⟩
  · rw [h.rest]
    exact List.nil_suffix
  · rw [h.rest]
    intro hrest
    cases hrest
  · rw [h.rest]
    intro hrest
    cases hrest
  · rw [h.masked, h.irr, h.isr]
    intro hlive
    rcases hlive with hlive | hlive | hlive <;> cases hlive

theorem handle_keeps (s : Clock) :
    s.handle.tick.pics = s.tick.pics ∧ s.handle.tick.gIrqHandler = s.tick.gIrqHandler ∧
    s.handle.tick.localApic.isSome = s.tick.localApic.isSome ∧
    s.handle.tick.apicTimerEnabled = s.tick.apicTimerEnabled ∧
    s.handle.tick.timerMasked = s.tick.timerMasked ∧ s.handle.irr = s.irr ∧
    s.handle.rest = s.rest ∧ (s.handle.isr = true → s.isr = true) := by
  have heoi : apicLvtTmrReg ≠ apicEoiReg := by decide
  rw [Clock.handle]
  split
  · exact ⟨rfl, rfl, rfl, rfl, rfl, rfl, rfl, id⟩
  · rw [clkhandlerTwo, apicSendEndOfInterrupt]
    split
    · refine ⟨rfl, rfl, Option.isSome_map .., rfl, ?_, rfl, rfl, ?_⟩
      · simp only [Tick.timerMasked, apicWriteReg, clkhandler]
        cases s.tick.localApic with
        | none => rfl
        | some regs => simp [Function.update_of_ne heoi]
      · simp only [clkhandler]
        split
        · exact fun h => absurd h (by decide)
        · exact id
    · exact ⟨rfl, rfl, rfl, rfl, rfl, rfl, rfl, id⟩
  · exact ⟨rfl, rfl, rfl, rfl, rfl, rfl, rfl, id⟩

/-! One step of the main program. -/

theorem saveMask_masked {s : Tick} (h : s.pics.Agree) :
    (TimerStep.run s .saveMask).pics.Agree ∧
    (TimerStep.run s .saveMask).pics.masked 0 = true := by
  have hpics : (TimerStep.run s .saveMask).pics = (apicTimerStart s).pics := by
    rw [apicTimerStart_pics, TimerStep.run]
    split <;> rfl
  rw [hpics]
  exact masked_after_start h

/-- The steps but the first one of a start leave the PIC as it is. -/
theorem run_pics {s : Tick} (h : s.pics.Agree) {t : TimerStep} (ht : t ≠ .saveMask) :
    (t.run s).pics = s.pics := by
  cases t with
  | saveMask => exact absurd rfl ht
  | restoreMask => exact picRestoreMask_eq h
  | _ => rfl

theorem run_handler (s : Tick) {t : TimerStep} (ht : t ≠ .registerTwo) :
    (t.run s).gIrqHandler = s.gIrqHandler := by
  cases t with
  | registerTwo => exact absurd rfl ht
  | saveMask =>
    rw [TimerStep.run]
    split <;> rfl
  | _ => rfl

theorem run_timerMasked {s : Tick} {t : TimerStep} (ht : t ≠ .unmaskTimer)
    (h : s.timerMasked = true) : (t.run s).timerMasked = true := by
  cases t with
  | unmaskTimer => exact absurd rfl ht
  | saveMask =>
    rw [TimerStep.run]
    split <;> exact h
  | maskTimer =>
    have hbit : ∀ v : UInt32, (v ||| apicTimerMasked) &&& apicTimerMasked ≠ 0 := by
      intro v hv
      have hself : (v ||| apicTimerMasked) &&& apicTimerMasked = apicTimerMasked := by
        apply UInt32.toBitVec_inj.mp
        ext i hi
        simp only [UInt32.toBitVec_and, UInt32.toBitVec_or, BitVec.getElem_and, BitVec.getElem_or]
        cases v.toBitVec[i] <;> cases apicTimerMasked.toBitVec[i] <;> rfl
      rw [hself] at hv
      exact absurd hv (by decide)
    simp only [Tick.timerMasked, TimerStep.run, apicWriteReg]
    cases s.localApic with
    | none => rfl
    | some regs => simp [hbit]
  | registerTwo => exact h
  | setEnabled => exact h
  | restoreMask => exact h
  | clearEnabled => exact h

theorem Tick.Handed.run {s : Tick} (hagree : s.pics.Agree) (h : s.Handed) (t : TimerStep) :
    (t.run s).Handed := by
  refine ⟨?_, ?_⟩
  · by_cases ht : t = .registerTwo
    · subst ht
      simp [TimerStep.run, irqRegisterHandler]
    · rw [run_handler s ht]
      exact h.handler
  · by_cases ht : t = .saveMask
    · subst ht
      exact (saveMask_masked hagree).2
    · rw [run_pics hagree ht]
      exact h.masked

theorem run_agree {s : Tick} (h : s.pics.Agree) (t : TimerStep) : (t.run s).pics.Agree := by
  by_cases ht : t = .saveMask
  · subst ht
    exact (saveMask_masked h).1
  · rw [run_pics h ht]
    exact h

theorem run_mapped (s : Tick) (t : TimerStep) :
    (t.run s).localApic.isSome = s.localApic.isSome := by
  cases t with
  | saveMask =>
    rw [TimerStep.run]
    split <;> rfl
  | unmaskTimer => exact Option.isSome_map ..
  | maskTimer => exact Option.isSome_map ..
  | _ => rfl

theorem suffix_cases {rest : List TimerStep} (h : rest <:+ startSteps ∨ rest <:+ stopSteps) :
    (rest = [] ∨ rest = startSteps ∨ rest = [.registerTwo, .unmaskTimer, .setEnabled] ∨
      rest = [.unmaskTimer, .setEnabled] ∨ rest = [.setEnabled]) ∨
    (rest = stopSteps ∨ rest = [.restoreMask, .clearEnabled] ∨ rest = [.clearEnabled]) := by
  simp only [startSteps, stopSteps, List.suffix_cons_iff, List.suffix_nil] at h ⊢
  grind

theorem step_before {t : TimerStep} {rest : List TimerStep}
    (h : t :: rest <:+ startSteps ∨ t :: rest <:+ stopSteps) :
    (rest = [.registerTwo, .unmaskTimer, .setEnabled] → t = .saveMask) ∧
    (rest = [.unmaskTimer, .setEnabled] → t = .registerTwo) ∧
    (t = .unmaskTimer → rest = [.setEnabled]) := by
  rcases suffix_cases h with (h0 | h0 | h0 | h0 | h0) | (h0 | h0 | h0) <;>
    simp only [startSteps, stopSteps, reduceCtorEq, List.cons.injEq] at h0 <;>
    obtain ⟨rfl, rfl⟩ := h0 <;> simp

theorem next_inv {s : Clock} (h : s.Inv) : (s.step .next).Inv := by
  cases hrest : s.rest with
  | nil =>
    have hsame : s.step .next = s := by simp only [Clock.step, hrest]
    rw [hsame]
    exact h
  | cons t rest =>
    have hstep : s.step .next = { s with tick := t.run s.tick, rest := rest } := by
      simp only [Clock.step, hrest]
    have hprogram := h.program
    rw [hrest] at hprogram
    -- the timer interrupts already, or the step unmasks it, line 0 being handed over
    have hlive : (t = .unmaskTimer → s.tick.Handed) →
        ((t.run s.tick).timerMasked = false ∨ s.irr = true ∨ s.isr = true →
          (t.run s.tick).Handed) := by
      intro hunmask hactive
      have hhanded : s.tick.Handed := by
        by_cases ht : t = .unmaskTimer
        · exact hunmask ht
        · apply h.live
          rcases hactive with hmasked | hirq
          · refine Or.inl ?_
            by_contra hno
            rw [Bool.not_eq_false] at hno
            rw [run_timerMasked ht hno] at hmasked
            cases hmasked
          · exact Or.inr hirq
      exact hhanded.run h.agree t
    obtain ⟨hsave, hregister, hunmask⟩ := step_before hprogram
    rw [hstep]
    refine ⟨run_agree h.agree t, (run_mapped s.tick t).trans h.mapped, ?_, fun hnext => ?_,
      fun hnext => ?_, hlive fun ht => ?_⟩
    · exact hprogram.imp (fun hs => (List.suffix_cons t rest).trans hs)
        fun hs => (List.suffix_cons t rest).trans hs
    · obtain rfl := hsave hnext
      exact (saveMask_masked h.agree).2
    · obtain rfl := hregister hnext
      obtain rfl := hnext
      exact ⟨by simp [TimerStep.run, irqRegisterHandler], h.saved hrest⟩
    · obtain rfl := hunmask ht
      exact h.registered (ht ▸ hrest)

theorem handle_inv {s : Clock} (h : s.Inv) : s.handle.Inv := by
  obtain ⟨hpics, hhandler, hmapped, -, hmasked, hirr, hrest, hisr⟩ := handle_keeps s
  have hhanded : s.tick.Handed → s.handle.tick.Handed := fun hh =>
    ⟨by rw [hhandler]; exact hh.handler, by rw [hpics]; exact hh.masked⟩
  refine ⟨?_, hmapped.trans h.mapped, ?_, fun hnext => ?_, fun hnext => ?_,
    fun hactive => hhanded (h.live ?_)⟩
  · rw [hpics]
    exact h.agree
  · rw [hrest]
    exact h.program
  · rw [hpics]
    exact h.saved (hrest ▸ hnext)
  · exact hhanded (h.registered (hrest ▸ hnext))
  · rw [hmasked, hirr] at hactive
    exact hactive.imp_right (Or.imp_right hisr)

theorem step_inv {s : Clock} (h : s.Inv) (e : ClockEvent) : (s.step e).Inv := by
  have hempty : s.rest.isEmpty = true → s.rest = [] := List.isEmpty_iff.mp
  cases e with
  | start =>
    simp only [Clock.step]
    split
    · refine ⟨h.agree, h.mapped, Or.inl (List.suffix_refl _), ?_, ?_, h.live⟩
      · intro hnext
        cases hnext
      · intro hnext
        cases hnext
    · exact h
  | stop =>
    simp only [Clock.step]
    split
    · refine ⟨h.agree, h.mapped, Or.inr (List.suffix_refl _), ?_, ?_, h.live⟩
      · intro hnext
        cases hnext
      · intro hnext
        cases hnext
    · exact h
  | next => exact next_inv h
  | expire =>
    simp only [Clock.step]
    split
    · exact h
    · rename_i hmasked
      exact { h with live := fun _ => h.live (Or.inl (by simpa using hmasked)) }
  | apicInterrupt =>
    simp only [Clock.step]
    split
    · rename_i htaken
      rw [Clock.apicTaken, Bool.and_eq_true] at htaken
      exact handle_inv { h with live := fun _ => h.live (Or.inr (Or.inl htaken.1)) }
    · exact h
  | picInterrupt =>
    simp only [Clock.step]
    split
    · exact handle_inv h
    · exact h

/-! Runs. -/

def Clock.run (s : Clock) (es : List ClockEvent) : Clock := es.foldl Clock.step s

@[simp] theorem Clock.run_nil (s : Clock) : s.run [] = s := rfl

@[simp] theorem Clock.run_cons (s : Clock) (e : ClockEvent) (es : List ClockEvent) :
    s.run (e :: es) = (s.step e).run es := rfl

theorem Clock.run_append (s : Clock) (es es' : List ClockEvent) :
    s.run (es ++ es') = (s.run es).run es' := List.foldl_append

theorem run_inv {s : Clock} (h : s.Inv) (es : List ClockEvent) : (s.run es).Inv := by
  induction es generalizing s with
  | nil => exact h
  | cons e es ih => exact ih (step_inv h e)

/-- An interrupt of the APIC's timer is counted; the vector stays in service when the flag
    is clear. -/
theorem apicInterrupt_taken {s : Clock} (h : s.Inv) (htaken : s.apicTaken = true) :
    (s.step .apicInterrupt).isr = decide (s.tick.apicTimerEnabled = 0) ∧
    (s.step .apicInterrupt).systemTime = s.systemTime + 1 := by
  have hirr : s.irr = true := by
    rw [Clock.apicTaken, Bool.and_eq_true] at htaken
    exact htaken.1
  have hhanded := h.live (Or.inr (Or.inl hirr))
  simp only [Clock.step, htaken, if_true, Clock.handle, hhanded.handler, clkhandlerTwo,
    apicSendEndOfInterrupt, clkhandler]
  split
  · rename_i henabled
    exact ⟨by rw [h.mapped, decide_eq_false henabled]; rfl, rfl⟩
  · rename_i henabled
    exact ⟨(decide_eq_true (not_not.mp henabled)).symm, rfl⟩

/-- With the vector in service no interrupt of the clock is taken: the APIC holds its own
    back, and the PIC's line is masked. -/
theorem step_stands {s : Clock} (h : s.Inv) (hisr : s.isr = true) (e : ClockEvent) :
    (s.step e).isr = true ∧ (s.step e).systemTime = s.systemTime := by
  have hhanded := h.live (Or.inr (Or.inr hisr))
  cases e with
  | start =>
    simp only [Clock.step]
    split <;> exact ⟨hisr, rfl⟩
  | stop =>
    simp only [Clock.step]
    split <;> exact ⟨hisr, rfl⟩
  | next =>
    simp only [Clock.step]
    split <;> exact ⟨hisr, rfl⟩
  | expire =>
    simp only [Clock.step]
    split <;> exact ⟨hisr, rfl⟩
  | apicInterrupt =>
    have hheld : s.apicTaken = false := by rw [Clock.apicTaken, hisr, Bool.not_true, Bool.and_false]
    simp only [Clock.step, hheld]
    exact ⟨hisr, rfl⟩
  | picInterrupt =>
    have hheld : s.picTaken = false := by rw [Clock.picTaken, hhanded.masked, Bool.not_true]
    simp only [Clock.step, hheld]
    exact ⟨hisr, rfl⟩

theorem run_stands {s : Clock} (h : s.Inv) (hisr : s.isr = true) (es : List ClockEvent) :
    (s.run es).isr = true ∧ (s.run es).systemTime = s.systemTime := by
  induction es generalizing s with
  | nil => exact ⟨hisr, rfl⟩
  | cons e es ih =>
    obtain ⟨hstep, htime⟩ := step_stands h hisr e
    obtain ⟨hend, hrest⟩ := ih (step_inv h e) hstep
    exact ⟨hend, hrest.trans htime⟩

/-- What puts the vector into service for good. -/
def Clock.Unacknowledged (s : Clock) : Prop :=
  s.apicTaken = true ∧ s.tick.apicTimerEnabled = 0

theorem step_isr {s : Clock} (h : s.Inv) (hisr : s.isr = false) {e : ClockEvent}
    (hstep : (s.step e).isr = true) : e = .apicInterrupt ∧ s.Unacknowledged := by
  have hne : s.isr ≠ true := by simp [hisr]
  cases e with
  | start =>
    simp only [Clock.step] at hstep
    split at hstep <;> exact absurd hstep hne
  | stop =>
    simp only [Clock.step] at hstep
    split at hstep <;> exact absurd hstep hne
  | next =>
    simp only [Clock.step] at hstep
    split at hstep <;> exact absurd hstep hne
  | expire =>
    simp only [Clock.step] at hstep
    split at hstep <;> exact absurd hstep hne
  | apicInterrupt =>
    cases htaken : s.apicTaken with
    | true =>
      rw [(apicInterrupt_taken h htaken).1] at hstep
      exact ⟨rfl, htaken, of_decide_eq_true hstep⟩
    | false =>
      simp only [Clock.step, htaken] at hstep
      exact absurd hstep hne
  | picInterrupt =>
    obtain ⟨-, -, -, -, -, -, -, hkept⟩ := handle_keeps s
    simp only [Clock.step] at hstep
    split at hstep
    · exact absurd (hkept hstep) hne
    · exact absurd hstep hne

/-- The vector stays in service exactly when an interrupt of the APIC's timer has been taken
    while `apic_timer_enabled` was clear: between the write that unmasks the timer and the
    assignment, or between a stop's assignment and the acceptance of a request from before
    it. The clock then stands still whatever happens; otherwise the next interrupt of a timer
    that is started counts, and is acknowledged. -/
theorem clock_stands_iff {s : Clock} (h : s.Quiet) (es : List ClockEvent) :
    ((s.run es).isr = true ↔
      ∃ es₁ es₂, es = es₁ ++ .apicInterrupt :: es₂ ∧ (s.run es₁).Unacknowledged) ∧
    ((s.run es).isr = true → ∀ es', (s.run (es ++ es')).systemTime = (s.run es).systemTime) ∧
    ((s.run es).isr = false → (s.run es).tick.apicTimerEnabled ≠ 0 →
      (s.run es).tick.timerMasked = false →
      (s.run (es ++ [.expire, .apicInterrupt])).systemTime = (s.run es).systemTime + 1 ∧
      (s.run (es ++ [.expire, .apicInterrupt])).isr = false) := by
  refine ⟨⟨fun hisr => ?_, fun hlate => ?_⟩, fun hisr es' => ?_, fun hisr henabled hmasked => ?_⟩
  · -- the last event either found the vector in service or put it there
    induction es using List.reverseRecOn with
    | nil =>
      rw [Clock.run_nil, h.isr] at hisr
      cases hisr
    | append_singleton es e ih =>
      rw [Clock.run_append] at hisr
      cases hbefore : (s.run es).isr with
      | true =>
        obtain ⟨es₁, es₂, hes, hlate⟩ := ih hbefore
        refine ⟨es₁, es₂ ++ [e], ?_, hlate⟩
        rw [hes, List.append_assoc, List.cons_append]
      | false =>
        obtain ⟨rfl, hlate⟩ := step_isr (run_inv h.inv es) hbefore hisr
        exact ⟨es, [], rfl, hlate⟩
  · obtain ⟨es₁, es₂, rfl, htaken, henabled⟩ := hlate
    have hinv := run_inv h.inv es₁
    have hstays := (apicInterrupt_taken hinv htaken).1
    rw [decide_eq_true henabled] at hstays
    rw [Clock.run_append, Clock.run_cons]
    exact (run_stands (step_inv hinv _) hstays es₂).1
  · rw [Clock.run_append]
    exact (run_stands (run_inv h.inv es) hisr es').2
  · have hinv := run_inv h.inv es
    have hexpire : (s.run es).step .expire = { s.run es with irr := true } := by
      simp only [Clock.step, hmasked]
      rfl
    have htaken : ((s.run es).step .expire).apicTaken = true := by
      rw [hexpire, Clock.apicTaken, hisr]
      rfl
    obtain ⟨hend, htime⟩ := apicInterrupt_taken (step_inv hinv .expire) htaken
    rw [Clock.run_append, Clock.run_cons, Clock.run_cons, Clock.run_nil]
    rw [hexpire] at hend htime ⊢
    exact ⟨htime, hend.trans (decide_eq_false henabled)⟩

/-- The APIC is mapped, its timer masked; the PIC's line 0 runs the clock. -/
def clockAtStart : Clock where
  tick := { tickWith 0xFFFC with
    localApic := some fun _ => 0x30020
    gIrqHandler := fun irq => if irq = 0 then some .clkhandler else none }
  systemTime := 100
  preemptQuantum := 5
  irr := false
  isr := false
  rest := []

/-- The timer runs out between the unmasking and the assignment. -/
def earlyTick : List ClockEvent :=
  [.start, .next, .next, .next, .expire, .apicInterrupt, .next]

theorem clock_stands_early :
    (clockAtStart.run (earlyTick ++ [.expire, .apicInterrupt])).systemTime = 101 := by
  obtain ⟨hiff, hstands, -⟩ := clock_stands_iff (s := clockAtStart)
    ⟨⟨rfl, rfl⟩, rfl, rfl, by decide, rfl, rfl⟩ earlyTick
  have hlate : (clockAtStart.run [.start, .next, .next, .next, .expire]).Unacknowledged :=
    ⟨by decide, by decide⟩
  have hisr := hiff.mpr ⟨[.start, .next, .next, .next, .expire], [.next], rfl, hlate⟩
  exact (hstands hisr _).trans (by decide)

/-! Counting. -/

/-- The interrupts of the clock that are taken. -/
def Clock.taken (s : Clock) : ClockEvent → List ClockEvent
  | .apicInterrupt => if s.apicTaken then [.apicInterrupt] else []
  | .picInterrupt => if s.picTaken then [.picInterrupt] else []
  | _ => []

/-- The clock interrupts taken in a run. -/
def Clock.ticks (s : Clock) (es : List ClockEvent) : List ClockEvent :=
  Folds.trace Clock.step Clock.taken s es

/-- Line 0 has one of the handlers of the clock, and some of the quantum is left. -/
structure Clock.Running (s : Clock) : Prop where
  handler : s.tick.gIrqHandler 0 = some .clkhandler ∨ s.tick.gIrqHandler 0 = some .clkhandlerTwo
  left : 0 < s.preemptQuantum.toNat
  bound : s.preemptQuantum.toNat ≤ 5

/-- What is left of a quantum after a tick. -/
def leftAfter (q : Nat) : Nat := if q = 1 then 5 else q - 1

theorem clkhandler_left {s : Clock} (h : s.Running) :
    (clkhandler s).preemptQuantum.toNat = leftAfter s.preemptQuantum.toNat := by
  have hone : (1 : UInt8) ≤ s.preemptQuantum := UInt8.le_iff_toNat_le.mpr h.left
  have hsub : (s.preemptQuantum - 1).toNat = s.preemptQuantum.toNat - 1 :=
    UInt8.toNat_sub_of_le s.preemptQuantum 1 hone
  have hzero : s.preemptQuantum - 1 ≤ 0 ↔ s.preemptQuantum.toNat = 1 := by
    rw [UInt8.le_iff_toNat_le, hsub]
    have hleft := h.left
    change s.preemptQuantum.toNat - 1 ≤ 0 ↔ _
    omega
  simp only [clkhandler, leftAfter]
  by_cases hlast : s.preemptQuantum.toNat = 1
  · rw [if_pos (hzero.mpr hlast), if_pos hlast]
    rfl
  · rw [if_neg (mt hzero.mp hlast), if_neg hlast, hsub]

theorem handle_counts {s : Clock} (h : s.Running) :
    s.handle.systemTime = s.systemTime + 1 ∧
    s.handle.preemptQuantum.toNat = leftAfter s.preemptQuantum.toNat := by
  have heoi : ∀ t : Clock, (apicSendEndOfInterrupt t).systemTime = t.systemTime ∧
      (apicSendEndOfInterrupt t).preemptQuantum = t.preemptQuantum := by
    intro t
    rw [apicSendEndOfInterrupt]
    split <;> exact ⟨rfl, rfl⟩
  rcases h.handler with hone | htwo
  · simp only [Clock.handle, hone]
    exact ⟨rfl, clkhandler_left h⟩
  · simp only [Clock.handle, htwo, clkhandlerTwo, heoi]
    exact ⟨rfl, clkhandler_left h⟩

theorem step_handler {s : Clock}
    (h : s.tick.gIrqHandler 0 = some .clkhandler ∨ s.tick.gIrqHandler 0 = some .clkhandlerTwo)
    (e : ClockEvent) :
    (s.step e).tick.gIrqHandler 0 = some .clkhandler ∨
      (s.step e).tick.gIrqHandler 0 = some .clkhandlerTwo := by
  cases e with
  | start =>
    simp only [Clock.step]
    split <;> exact h
  | stop =>
    simp only [Clock.step]
    split <;> exact h
  | next =>
    simp only [Clock.step]
    split
    · exact h
    · rename_i t rest hrest
      by_cases ht : t = .registerTwo
      · subst ht
        exact Or.inr (by simp [TimerStep.run, irqRegisterHandler])
      · rw [run_handler s.tick ht]
        exact h
  | expire =>
    simp only [Clock.step]
    split <;> exact h
  | apicInterrupt =>
    simp only [Clock.step]
    split
    · rw [(handle_keeps _).2.1]
      exact h
    · exact h
  | picInterrupt =>
    simp only [Clock.step]
    split
    · rw [(handle_keeps _).2.1]
      exact h
    · exact h

/-- An event is a tick, or leaves the time and the quantum. -/
theorem step_counts {s : Clock} (h : s.Running) (e : ClockEvent) :
    ((s.taken e).length = 1 ∧ (s.step e).systemTime = s.systemTime + 1 ∧
      (s.step e).preemptQuantum.toNat = leftAfter s.preemptQuantum.toNat) ∨
    (s.taken e = [] ∧ (s.step e).systemTime = s.systemTime ∧
      (s.step e).preemptQuantum = s.preemptQuantum) := by
  cases e with
  | start =>
    refine Or.inr ⟨rfl, ?_⟩
    simp only [Clock.step]
    split <;> exact ⟨rfl, rfl⟩
  | stop =>
    refine Or.inr ⟨rfl, ?_⟩
    simp only [Clock.step]
    split <;> exact ⟨rfl, rfl⟩
  | next =>
    refine Or.inr ⟨rfl, ?_⟩
    simp only [Clock.step]
    split <;> exact ⟨rfl, rfl⟩
  | expire =>
    refine Or.inr ⟨rfl, ?_⟩
    simp only [Clock.step]
    split <;> exact ⟨rfl, rfl⟩
  | apicInterrupt =>
    cases htaken : s.apicTaken with
    | true =>
      have hrunning : ({ s with irr := false, isr := true } : Clock).Running := { h with }
      obtain ⟨htime, hleft⟩ := handle_counts hrunning
      simp only [Clock.taken, Clock.step, htaken, if_true]
      exact Or.inl ⟨rfl, htime, hleft⟩
    | false =>
      simp only [Clock.taken, Clock.step, htaken]
      exact Or.inr ⟨rfl, rfl, rfl⟩
  | picInterrupt =>
    cases htaken : s.picTaken with
    | true =>
      obtain ⟨htime, hleft⟩ := handle_counts h
      simp only [Clock.taken, Clock.step, htaken, if_true]
      exact Or.inl ⟨rfl, htime, hleft⟩
    | false =>
      simp only [Clock.taken, Clock.step, htaken]
      exact Or.inr ⟨rfl, rfl, rfl⟩

theorem leftAfter_bounds {q : Nat} (hleft : 0 < q) (hbound : q ≤ 5) :
    0 < leftAfter q ∧ leftAfter q ≤ 5 := by
  rw [leftAfter]
  split <;> omega

theorem Clock.Running.step {s : Clock} (h : s.Running) (e : ClockEvent) : (s.step e).Running := by
  refine ⟨step_handler h.handler e, ?_, ?_⟩
  · rcases step_counts h e with ⟨-, -, hleft⟩ | ⟨-, -, hsame⟩
    · rw [hleft]
      exact (leftAfter_bounds h.left h.bound).1
    · rw [hsame]
      exact h.left
  · rcases step_counts h e with ⟨-, -, hleft⟩ | ⟨-, -, hsame⟩
    · rw [hleft]
      exact (leftAfter_bounds h.left h.bound).2
    · rw [hsame]
      exact h.bound

theorem run_counts {s : Clock} (h : s.Running) (es : List ClockEvent) :
    (s.run es).Running ∧
    (s.run es).systemTime = s.systemTime + UInt64.ofNat (s.ticks es).length ∧
    (s.run es).preemptQuantum.toNat =
      leftAfter^[(s.ticks es).length] s.preemptQuantum.toNat := by
  induction es generalizing s with
  | nil => exact ⟨h, (UInt64.add_zero s.systemTime).symm, rfl⟩
  | cons e es ih =>
    obtain ⟨hrunning, htime, hleft⟩ := ih (h.step e)
    have hticks : s.ticks (e :: es) = s.taken e ++ (s.step e).ticks es := rfl
    rw [Clock.run_cons, hticks, List.length_append]
    refine ⟨hrunning, ?_, ?_⟩
    · rw [htime, Words.ofNat_add, ← UInt64.add_assoc]
      rcases step_counts h e with ⟨hone, hstep, -⟩ | ⟨hnone, hstep, -⟩
      · rw [hone, hstep]
        rfl
      · rw [hnone, hstep]
        exact congrArg (· + _) (UInt64.add_zero s.systemTime).symm
    · rw [hleft, Nat.add_comm, Function.iterate_add_apply]
      rcases step_counts h e with ⟨hone, -, hstep⟩ | ⟨hnone, -, hstep⟩
      · rw [hone, hstep]
        rfl
      · rw [hnone, hstep]
        rfl

theorem iterate_leftAfter (n : Nat) : leftAfter^[n] 5 = 5 - n % 5 := by
  induction n with
  | zero => rfl
  | succ n ih =>
    rw [Function.iterate_succ_apply', ih, leftAfter]
    split <;> omega

/-- Every clock interrupt that is taken is one unit of `system_time`, whichever timer it
    comes from and whatever the main program does, and every fifth one ends a quantum. -/
theorem clock_counts {s : Clock}
    (h : s.tick.gIrqHandler 0 = some .clkhandler ∨ s.tick.gIrqHandler 0 = some .clkhandlerTwo)
    (hquantum : s.preemptQuantum = quantum) (es : List ClockEvent) :
    (s.run es).systemTime = s.systemTime + UInt64.ofNat (s.ticks es).length ∧
    (s.run es).preemptQuantum.toNat = 5 - (s.ticks es).length % 5 := by
  have hfull : s.preemptQuantum.toNat = 5 := congrArg UInt8.toNat hquantum
  have hrunning : s.Running := ⟨h, by rw [hfull]; decide, by rw [hfull]⟩
  obtain ⟨-, htime, hleft⟩ := run_counts hrunning es
  rw [hfull, iterate_leftAfter] at hleft
  exact ⟨htime, hleft⟩

/-- The clock of the PIC up to the start of the APIC's. -/
theorem clock_counts_early : (clockAtStart.run (.picInterrupt :: earlyTick)).systemTime = 102 ∧
    (clockAtStart.run (.picInterrupt :: earlyTick)).preemptQuantum.toNat = 3 := by
  obtain ⟨htime, hleft⟩ :=
    clock_counts (s := clockAtStart) (Or.inl rfl) rfl (.picInterrupt :: earlyTick)
  exact ⟨htime.trans (by decide), hleft.trans (by decide)⟩

/-! Sleeping. -/

/-- `system_timer_sleep`, where the events `blocks n` happen between its checks `n` and
    `n + 1`: the number of the check that it returns at. -/
def systemTimerSleep (blocks : Nat → List ClockEvent) (s : Clock) (offset : UInt64) (fuel : Nat) :
    Option (Nat × Clock) :=
  While.run (fun p : Nat × Clock => decide (s.systemTime + offset > p.2.systemTime))
    (fun p => (p.1 + 1, p.2.run (blocks p.1))) fuel (0, s)

/-- The clock interrupts taken before check `n`. -/
def Clock.elapsed (s : Clock) (blocks : Nat → List ClockEvent) (n : Nat) : Nat :=
  (s.ticks ((List.range n).flatMap blocks)).length

theorem iterate_sleep (blocks : Nat → List ClockEvent) (s : Clock) (n : Nat) :
    (fun p : Nat × Clock => (p.1 + 1, p.2.run (blocks p.1)))^[n] (0, s) =
      (n, s.run ((List.range n).flatMap blocks)) := by
  induction n with
  | zero => rfl
  | succ n ih =>
    rw [Function.iterate_succ_apply', ih, List.range_succ, List.flatMap_append, Clock.run_append]
    simp

theorem ticks_append (s : Clock) (es es' : List ClockEvent) :
    s.ticks (es ++ es') = s.ticks es ++ (s.run es).ticks es' :=
  Folds.trace_append ..

theorem elapsed_mono (s : Clock) (blocks : Nat → List ClockEvent) {m n : Nat} (h : m ≤ n) :
    s.elapsed blocks m ≤ s.elapsed blocks n := by
  induction n, h using Nat.le_induction with
  | base => exact Nat.le_refl _
  | succ n _ ih =>
    refine Nat.le_trans ih ?_
    rw [Clock.elapsed, Clock.elapsed, List.range_succ, List.flatMap_append, ticks_append,
      List.length_append]
    exact Nat.le_add_right _ _

section Sleep
variable {s : Clock} (h : s.Running) (blocks : Nat → List ClockEvent) (offset : UInt64) {n : Nat}
  (hclock : s.systemTime.toNat + s.elapsed blocks n < 2 ^ 64)
include h hclock

theorem sleep_cond {m : Nat} (hm : m ≤ n) :
    s.systemTime + offset > (s.run ((List.range m).flatMap blocks)).systemTime ↔
      s.systemTime.toNat + offset.toNat < 2 ^ 64 ∧ s.elapsed blocks m < offset.toNat := by
  have hmono := elapsed_mono s blocks hm
  have htime : (s.run ((List.range m).flatMap blocks)).systemTime.toNat =
      s.systemTime.toNat + s.elapsed blocks m := by
    rw [(run_counts h _).2.1, ← Clock.elapsed]
    have hofNat : (UInt64.ofNat (s.elapsed blocks m)).toNat = s.elapsed blocks m :=
      Words.toNat_ofNat_of_lt (by omega)
    rw [Words.toNat_add_of_lt (by rw [hofNat]; omega), hofNat]
  have hstart := s.systemTime.toNat_lt
  have hoffset := offset.toNat_lt
  rw [gt_iff_lt, UInt64.lt_iff_toNat_lt, htime, UInt64.toNat_add]
  omega

/-- `system_timer_sleep` returns at the first check by which `offset` clock interrupts have
    been taken; when the end of the sleep is past the range of `system_time` it returns at
    once. -/
theorem sleep_iff :
    (∃ fuel t, systemTimerSleep blocks s offset fuel = some (n, t)) ↔
      if s.systemTime.toNat + offset.toNat < 2 ^ 64 then
        (∀ m < n, s.elapsed blocks m < offset.toNat) ∧ offset.toNat ≤ s.elapsed blocks n
      else n = 0 := by
  have hends : (∃ fuel t, systemTimerSleep blocks s offset fuel = some (n, t)) ↔
      (∀ m < n, s.systemTime + offset > (s.run ((List.range m).flatMap blocks)).systemTime) ∧
        ¬ s.systemTime + offset > (s.run ((List.range n).flatMap blocks)).systemTime := by
    simp only [systemTimerSleep, While.run_eq_some_iff, While.EndsAfter, iterate_sleep,
      decide_eq_true_eq, decide_eq_false_iff_not, Prod.mk.injEq]
    refine ⟨fun hsome => ?_, fun hround => ?_⟩
    · obtain ⟨fuel, t, k, -, hround, rfl, -⟩ := hsome
      exact hround
    · exact ⟨n + 1, _, n, Nat.lt_succ_self n, hround, rfl, rfl⟩
  have hcond : ∀ m ≤ n, (s.systemTime + offset >
      (s.run ((List.range m).flatMap blocks)).systemTime ↔
        s.systemTime.toNat + offset.toNat < 2 ^ 64 ∧ s.elapsed blocks m < offset.toNat) :=
    fun m hm => sleep_cond h blocks offset hclock hm
  rw [hends, hcond n (Nat.le_refl n)]
  split
  · rename_i hfits
    simp only [hfits, true_and, not_lt]
    refine and_congr_left fun _ => forall₂_congr fun m hm => ?_
    rw [hcond m (Nat.le_of_lt hm)]
    exact and_iff_right hfits
  · rename_i hover
    refine ⟨fun hround => ?_, fun hn => ?_⟩
    · by_contra hn
      have hfirst := hround.1 0 (Nat.pos_of_ne_zero hn)
      exact hover ((hcond 0 (Nat.zero_le n)).mp hfirst).1
    · subst hn
      exact ⟨fun m hm => absurd hm (Nat.not_lt_zero m), fun hin => hover hin.1⟩

end Sleep

/-- Two ticks of the PIC's timer between checks. -/
theorem sleep_three : ∃ fuel t, systemTimerSleep
    (fun _ => [ClockEvent.picInterrupt, .picInterrupt]) clockAtStart 3 fuel = some (2, t) :=
  (sleep_iff (s := clockAtStart) ⟨Or.inl rfl, by decide, by decide⟩ _ 3 (by decide)).mpr
    (by decide)

end Horizon64
