import Horizon64.ApicTimer
import Horizon64.Lib.While

/- The flush of the keyboard controller in `keyboard_init` of `dev/keyboard/keyboard.c`.

   The 8042 keeps the bytes of its devices in a queue, and takes no new ones while both ports
   are disabled, as they are during the flush. Port 0x64 gives the status when it is read and
   takes commands when it is written; `PS2_STATUS_REGISTER` and `PS2_COMMAND_REGISTER` are
   both that port. The loop reads it twice a round, so a round
   takes nothing out of the queue (`flushRound_eq`) and the loop returns only when it never
   starts. The same loop on `PS2_DATA_PORT` empties every queue (`drain_data_port`). -/
namespace Horizon64

def ps2DataPort : UInt16 := 0x60
def ps2StatusRegister : UInt16 := 0x64
def ps2CommandRegister : UInt16 := 0x64

def commandDisableFirstPs2Port : UInt8 := 0xAD
def commandDisableSecondPs2Port : UInt8 := 0xA7
def commandEnableFirstPs2Port : UInt8 := 0xAE
def commandEnableSecondPs2Port : UInt8 := 0xA8

/-- The controller: the bytes that wait, the last byte that was read, the bits of the status
    other than bit 0, and the ports that are enabled. -/
structure I8042 where
  queue : List UInt8
  last : UInt8
  status : UInt8
  firstEnabled : Bool
  secondEnabled : Bool

/-- Bit 0 says whether a byte waits. -/
def I8042.statusByte (c : I8042) : UInt8 :=
  (c.status &&& 0xFE) ||| (if c.queue = [] then 0 else 1)

def I8042.inb (c : I8042) (port : UInt16) : UInt8 × I8042 :=
  if port = 0x64 then (c.statusByte, c)
  else if port = 0x60 then
    match c.queue with
    | [] => (c.last, c)
    | b :: queue => (b, { c with queue := queue, last := b })
  else (0xFF, c)

/-- A command; the other commands are not given here. -/
def I8042.outb (c : I8042) (port : UInt16) (v : UInt8) : I8042 :=
  if port = 0x64 then
    if v = 0xAD then { c with firstEnabled := false }
    else if v = 0xA7 then { c with secondEnabled := false }
    else if v = 0xAE then { c with firstEnabled := true }
    else if v = 0xA8 then { c with secondEnabled := true }
    else c
  else c

/-- `inb(PS2_COMMAND_REGISTER) & 0x01`. -/
def flushAgain (c : I8042) : Bool := (c.inb ps2CommandRegister).1 &&& 0x01 ≠ 0

/-- A round: the test has been read, then the body reads `port`. -/
def flushRound (port : UInt16) (c : I8042) : I8042 := ((c.inb ps2CommandRegister).2.inb port).2

/-- The flush loop of `keyboard_init`. -/
def flush (fuel : Nat) (c : I8042) : Option I8042 :=
  While.run flushAgain (flushRound ps2StatusRegister) fuel c

/-- `keyboard_init`, with the interrupts it masks and the handler it registers. -/
def keyboardInit (fuel : Nat) (c : I8042) (s : Tick) : Option (I8042 × Tick) :=
  let c := c.outb ps2CommandRegister commandDisableFirstPs2Port
  let c := c.outb ps2CommandRegister commandDisableSecondPs2Port
  match flush fuel c with
  | none => none
  | some c =>
    let c := c.outb ps2CommandRegister commandEnableFirstPs2Port
    let c := c.outb ps2CommandRegister commandEnableSecondPs2Port
    let s := irqRegisterHandler s 1 .kbhandler
    some (c, { s with pics := picUnmask s.pics 1 })

/-- The loop terminates and leaves the queue empty. -/
def Drains (port : UInt16) (c : I8042) : Prop :=
  ∃ fuel c', While.run flushAgain (flushRound port) fuel c = some c' ∧ c'.queue = []

/-! A round. -/

/-- Bit 0 of the status is what the loop tests. -/
theorem flushAgain_iff (c : I8042) : flushAgain c = true ↔ c.queue ≠ [] := by
  have hbit : c.statusByte &&& 0x01 = if c.queue = [] then 0 else 1 := by
    have hlow : c.status &&& 0xFE &&& 0x01 = 0 := by
      rw [UInt8.and_assoc]
      exact UInt8.and_zero
    apply UInt8.toBitVec_inj.mp
    rw [I8042.statusByte, UInt8.toBitVec_and, UInt8.toBitVec_or, BitVec.and_or_distrib_right]
    have hzero := congrArg UInt8.toBitVec hlow
    rw [UInt8.toBitVec_and] at hzero
    rw [hzero]
    split <;> rfl
  have hread : (c.inb ps2CommandRegister).1 = c.statusByte := rfl
  rw [flushAgain, hread, hbit, decide_eq_true_iff]
  by_cases hq : c.queue = []
  · simp [hq]
  · simp [hq]

theorem flushRound_eq (c : I8042) : flushRound ps2StatusRegister c = c := rfl

theorem flushRound_iterate (c : I8042) (n : Nat) : (flushRound ps2StatusRegister)^[n] c = c :=
  Function.iterate_fixed (flushRound_eq c) n

theorem dataRound_queue (c : I8042) : (flushRound ps2DataPort c).queue = c.queue.tail := by
  obtain ⟨queue, last, status, first, second⟩ := c
  cases queue with
  | nil => rfl
  | cons b queue => rfl

/-! The loop. -/

theorem flush_returns_iff (c : I8042) : (∃ fuel c', flush fuel c = some c') ↔ c.queue = [] := by
  have hreturns := @While.returns_iff _ flushAgain (flushRound ps2StatusRegister) c
  simp only [flushRound_iterate] at hreturns
  refine hreturns.trans ?_
  rw [exists_const, ← Bool.not_eq_true, flushAgain_iff, not_not]

/-- With the data port in its place, the loop empties every queue. -/
theorem drain_data_port (c : I8042) : Drains ps2DataPort c := by
  have hends : ∃ n, flushAgain ((flushRound ps2DataPort)^[n] c) = false := by
    apply While.returns_of_measure fun c : I8042 => c.queue.length
    intro n hstarts
    have hne := (flushAgain_iff _).mp (hstarts n (Nat.le_refl n))
    rw [Function.iterate_succ_apply', dataRound_queue, List.length_tail]
    exact Nat.sub_lt (List.length_pos_iff.mpr hne) Nat.one_pos
  obtain ⟨fuel, c', hrun⟩ := While.returns_iff.mpr hends
  refine ⟨fuel, c', hrun, ?_⟩
  obtain ⟨n, _, hafter, rfl⟩ := While.run_eq_some_iff.mp hrun
  have hstop := hafter.2
  rw [← Bool.not_eq_true, flushAgain_iff, not_not] at hstop
  exact hstop

/-- The flush terminates, with an empty queue, exactly when the queue is empty before it; and
    then only does `keyboard_init` return. -/
theorem keyboard_flush_iff (c : I8042) (s : Tick) :
    (Drains ps2StatusRegister c ↔ c.queue = []) ∧
    ((∃ fuel r, keyboardInit fuel c s = some r) ↔ c.queue = []) := by
  refine ⟨?_, ?_⟩
  · rw [← flush_returns_iff]
    refine ⟨?_, ?_⟩
    · rintro ⟨fuel, c', hrun, _⟩
      exact ⟨fuel, c', hrun⟩
    · rintro ⟨fuel, c', hrun⟩
      have hempty := (flush_returns_iff c).mp ⟨fuel, c', hrun⟩
      refine ⟨fuel, c', hrun, ?_⟩
      obtain ⟨n, _, _, rfl⟩ := While.run_eq_some_iff.mp hrun
      rw [flushRound_iterate, hempty]
  · -- the two commands before the flush leave the queue
    obtain ⟨d, hd⟩ : ∃ d, d = (c.outb ps2CommandRegister commandDisableFirstPs2Port).outb
        ps2CommandRegister commandDisableSecondPs2Port := ⟨_, rfl⟩
    have hqueue : d.queue = c.queue := by
      rw [hd]
      rfl
    rw [← hqueue, ← flush_returns_iff]
    refine ⟨?_, ?_⟩
    · rintro ⟨fuel, r, hrun⟩
      rw [keyboardInit, ← hd] at hrun
      cases hflush : flush fuel d with
      | none =>
        rw [hflush] at hrun
        cases hrun
      | some c' => exact ⟨fuel, c', hflush⟩
    · rintro ⟨fuel, c', hrun⟩
      refine ⟨fuel, Option.isSome_iff_exists.mp ?_⟩
      rw [keyboardInit, ← hd, hrun]
      rfl

/-- One byte that waits, and the loop runs on. -/
theorem keyboard_flush_pending : ¬ ∀ c : I8042, Drains ps2StatusRegister c := by
  intro h
  obtain ⟨fuel, c', hrun, _⟩ := h ⟨[0x1E], 0, 0, true, true⟩
  have hempty := (flush_returns_iff _).mp ⟨fuel, c', hrun⟩
  cases hempty

end Horizon64
