import Horizon64.Descriptors
import Horizon64.Isr
import Horizon64.PicRequests

/- From an interrupt line to its handler: `idt.c`, `isr.c` and `irq.c` together.

   1. The tables, and the calls that change them: `isr_init`, `irq_init`, the registrations.
   2. `gate_after`: in every state that calls reach, the gate of a vector leads to its stub
      through the kernel's code segment; only the gate of 0x80 is ever closed.
   3. `irq_delivered`: what the controllers give the processor is the vector of a line that
      waits, and the vector runs the handler that was registered last for that line, once,
      between an entry and an exit that the interrupted program does not notice. -/
namespace Horizon64

/-- `IRQ_HANDLER`, as what it does to the machine. -/
abbrev IrqRoutine := CpuState → CpuState

/-- An entry of `g_isr_handlers`: `irq_handler`, or another one. -/
inductive IsrEntry where
  | irqHandler
  | other (run : CpuState → CpuState)

structure Interrupts where
  chips : Chips
  gIdt : UInt8 → IdtEntry
  gIsrHandlers : UInt8 → Option IsrEntry
  gIrqHandler : Fin 16 → Option IrqRoutine
  interruptFlag : Bool

/-! The tables. -/

def picRemapOffset : UInt8 := 0x20
def idtFlagRing0 : UInt8 := 0
def idtFlagGate64BitInt : UInt8 := 0x8E

def Interrupts.setGate (s : Interrupts) (v : UInt8) (f : IdtEntry → IdtEntry) : Interrupts :=
  { s with gIdt := Function.update s.gIdt v (f (s.gIdt v)) }

def idtInit (s : Interrupts) : Interrupts := { s with gIdt := fun _ => ⟨0, 0, 0, 0, 0, 0, 0⟩ }

/-- 0 to 255. -/
def allVectors : List UInt8 := (List.range 256).map UInt8.ofNat

/-- `isr_init_entries`, for the addresses of `ISR0` to `ISR255`. -/
def isrInitEntries (stub : UInt8 → UInt64) (s : Interrupts) : Interrupts :=
  allVectors.foldl (fun s v => s.setGate v fun e =>
    idtInitEntry e (stub v) gdtKernelCode64Bit (idtFlagRing0 ||| idtFlagGate64BitInt)) s

def isrInit (stub : UInt8 → UInt64) (s : Interrupts) : Interrupts :=
  let s := isrInitEntries stub s
  let s := allVectors.foldl (fun s v => s.setGate v idtEnableGate) s
  let s := s.setGate 0x80 idtDisableGate
  { s with interruptFlag := true }

def isrRegisterHandler (s : Interrupts) (interrupt : UInt8) (handler : IsrEntry) : Interrupts :=
  let s := { s with gIsrHandlers := Function.update s.gIsrHandlers interrupt (some handler) }
  s.setGate interrupt idtEnableGate

def registerIrq (s : Interrupts) (irq : Fin 16) (handler : IrqRoutine) : Interrupts :=
  { s with gIrqHandler := Function.update s.gIrqHandler irq (some handler) }

def unregisterIrq (s : Interrupts) (irq : Fin 16) : Interrupts :=
  { s with gIrqHandler := Function.update s.gIrqHandler irq none }

/-- The vector of a line. -/
def irqVector (irq : Fin 16) : UInt8 := picRemapOffset + UInt8.ofNat irq.val

/-- The loop of `irq_init` over the lines. -/
def registerAll (lines : List (Fin 16)) (s : Interrupts) : Interrupts :=
  lines.foldl (fun s i => isrRegisterHandler s (irqVector i) .irqHandler) s

def irqInit (clkhandler : IrqRoutine) (s : Interrupts) : Interrupts :=
  let s := { s with interruptFlag := false }
  let probed := s.chips.probe
  let s := { s with chips := probed.1 }
  if probed.2 then
    let s := { s with chips := s.chips.configure picRemapOffset (picRemapOffset + 8) }
    -- the timer's initialization ends with `pic_unmask(0)`
    let s := { s with chips := s.chips.unmask 0 }
    let s := registerIrq s timerLine clkhandler
    let s := registerAll (List.finRange 16) s
    { s with interruptFlag := true }
  else s

/-- `irq_handler`: the handler of the line; without one it prints. The table has an entry
    for the vectors that `irq_init` gives it. -/
def irqHandler (gIrqHandler : Fin 16 → Option IrqRoutine) (m : CpuState) : CpuState :=
  let irq := (registersAt m.mem (m.regs .rdi)).interrupt - picRemapOffset.toUInt64
  if h : irq.toNat < 16 then
    match gIrqHandler ⟨irq.toNat, h⟩ with
    | some handler => handler m
    | none => m
  else m

/-- `g_isr_handlers` as `isr_handler` looks into it. -/
def Interrupts.isrHandlers (s : Interrupts) : IsrHandlers := fun interrupt =>
  (s.gIsrHandlers interrupt.toUInt8).map fun
    | .irqHandler => irqHandler s.gIrqHandler
    | .other run => run

/-- The processor takes the gate into 64-bit code of ring 0 at an address, on the stack that
    it is on. -/
structure Gate.Enters (g : Gate) (table : List GdtEntry) (size : Nat) (a : UInt64) : Prop where
  present : g.present = true
  type : g.type = 0xE
  ring : g.dpl = 0
  stack : g.ist = 0
  offset : g.offset = a.toNat
  code : ∃ s, segmentAt table size (UInt16.ofNat g.selector) = some s ∧ s.KernelCode

/-! The calls. -/

inductive IrqCall where
  | irqRegister (irq : Fin 16) (handler : IrqRoutine)
  | irqUnregister (irq : Fin 16)
  | isrRegister (interrupt : UInt8) (handler : CpuState → CpuState)
  | pic (e : PicEvent)

def Interrupts.call (s : Interrupts) : IrqCall → Interrupts
  | .irqRegister irq handler => registerIrq s irq handler
  | .irqUnregister irq => unregisterIrq s irq
  | .isrRegister interrupt handler => isrRegisterHandler s interrupt (.other handler)
  | .pic e => { s with chips := s.chips.step e }

/-- The tables and the controllers as `system_init` leaves them. -/
def Interrupts.boot (stub : UInt8 → UInt64) (clkhandler : IrqRoutine) (s : Interrupts) :
    Interrupts :=
  irqInit clkhandler (isrInit stub (idtInit s))

/-- The handler of a line after a call. -/
def IrqCall.lineHandler (line : Fin 16) (current : Option IrqRoutine) : IrqCall → Option IrqRoutine
  | .irqRegister irq handler => if irq = line then some handler else current
  | .irqUnregister irq => if irq = line then none else current
  | _ => current

/-- The vector that a call registers a handler for. -/
def IrqCall.vector : IrqCall → Option UInt8
  | .isrRegister interrupt _ => some interrupt
  | _ => none

/-! The gates. -/

/-- The gate of a vector: an interrupt gate of ring 0 to its stub, in the kernel's code
    segment. -/
def kernelGate (stub : UInt8 → UInt64) (v : UInt8) (present : Bool) : Gate :=
  ⟨(stub v).toNat, gdtKernelCode64Bit.toNat, 0, 0xE, 0, present⟩

theorem mem_allVectors (v : UInt8) : v ∈ allVectors :=
  List.mem_map.mpr ⟨v.toNat, List.mem_range.mpr v.toNat_lt, UInt8.ofNat_toNat⟩

theorem allVectors_nodup : allVectors.Nodup := by
  refine List.Nodup.map_on (fun i hi j hj hij => ?_) List.nodup_range
  have hval := congrArg UInt8.toNat hij
  rwa [UInt8.toNat_ofNat', UInt8.toNat_ofNat', Nat.mod_eq_of_lt (List.mem_range.mp hi),
    Nat.mod_eq_of_lt (List.mem_range.mp hj)] at hval

theorem foldl_setGate (f : UInt8 → IdtEntry → IdtEntry) (l : List UInt8) (s : Interrupts) :
    l.foldl (fun s v => s.setGate v (f v)) s =
      { s with gIdt := l.foldl (fun t v => Function.update t v (f v (t v))) s.gIdt } := by
  induction l generalizing s with
  | nil => rfl
  | cons v l ih =>
    rw [List.foldl_cons, ih]
    rfl

theorem setGates (f : UInt8 → IdtEntry → IdtEntry) (s : Interrupts) :
    allVectors.foldl (fun s v => s.setGate v (f v)) s =
      { s with gIdt := fun v => f v (s.gIdt v) } := by
  have hall : allVectors.foldl (fun t v => Function.update t v (f v (t v))) s.gIdt =
      fun v => f v (s.gIdt v) := by
    funext v
    rw [Folds.fold_update f allVectors_nodup, if_pos (mem_allVectors v)]
  rw [foldl_setGate, hall]

theorem setGate_gIdt (s : Interrupts) (w : UInt8) (f : IdtEntry → IdtEntry) (v : UInt8) :
    (s.setGate w f).gIdt v = if v = w then f (s.gIdt v) else s.gIdt v := by
  by_cases hv : v = w
  · subst hv
    simp [Interrupts.setGate]
  · simp [Interrupts.setGate, hv]

theorem isrInit_keeps (stub : UInt8 → UInt64) (s : Interrupts) :
    (isrInit stub (idtInit s)).chips = s.chips ∧
    (isrInit stub (idtInit s)).gIrqHandler = s.gIrqHandler := by
  rw [isrInit, isrInitEntries, setGates, setGates]
  exact ⟨rfl, rfl⟩

theorem isrInit_gate (stub : UInt8 → UInt64) (s : Interrupts) (v : UInt8) :
    gateOf ((isrInit stub s).gIdt v).bits = kernelGate stub v (decide (v ≠ 0x80)) := by
  have hopen : ∀ e, gateOf (idtEnableGate (idtInitEntry e (stub v) gdtKernelCode64Bit
      (idtFlagRing0 ||| idtFlagGate64BitInt))).bits = kernelGate stub v true := by
    intro e
    rw [gateOf_enable, gateOf_init]
    rfl
  rw [isrInit, isrInitEntries, setGates, setGates]
  dsimp only
  rw [setGate_gIdt]
  split
  · rename_i hv
    rw [gateOf_disable, hopen, hv]
    rfl
  · rename_i hv
    rw [hopen, decide_eq_true hv]

theorem isrRegister_gate (s : Interrupts) (w : UInt8) (handler : IsrEntry) (v : UInt8) :
    gateOf ((isrRegisterHandler s w handler).gIdt v).bits =
      if v = w then { gateOf (s.gIdt v).bits with present := true }
      else gateOf (s.gIdt v).bits := by
  rw [isrRegisterHandler, setGate_gIdt]
  split
  · rw [gateOf_enable]
  · rfl

/-! `irq_init`. -/

theorem probe_found {s : Chips} (h : s.Listening) :
    s.probe.2 = true ∧ s.probe.1.pics.Agree := by
  have hprobe := probe_pics s
  have hagree : (picProbe s.pics).1.Agree :=
    agree_set (agree_set_of_next (s := s.pics) h.1 h.2 0xFFFF) 0
  have hzero : (picProbe s.pics).1.gPicMask = 0 := rfl
  have hfound : (picProbe s.pics).2 = true :=
    decide_eq_true ((picGetMask_eq hagree).trans hzero)
  have hpics : s.probe.1.pics = (picProbe s.pics).1 := congrArg Prod.fst hprobe
  exact ⟨(congrArg Prod.snd hprobe).trans hfound, hpics ▸ hagree⟩

theorem setMask_configured {o₁ o₂ : UInt8} {s : Chips} (h : Configured o₁ o₂ s) (mask : UInt16) :
    Configured o₁ o₂ (s.setMask mask) := by
  have hshadow : Configured o₁ o₂ { s with gPicMask := mask } := { h with }
  exact (step_lines (step_lines hshadow (.mask1 _)).1 (.mask2 _)).1

/-- The registrations of `irq_init`: only entries of the two tables change. -/
theorem registerAll_spec (l : List (Fin 16)) (s : Interrupts) :
    (registerAll l s).chips = s.chips ∧ (registerAll l s).gIrqHandler = s.gIrqHandler ∧
    (∀ v, (registerAll l s).gIsrHandlers v =
      if v ∈ l.map irqVector then some .irqHandler else s.gIsrHandlers v) ∧
    ∀ v, gateOf ((registerAll l s).gIdt v).bits =
      if v ∈ l.map irqVector then { gateOf (s.gIdt v).bits with present := true }
      else gateOf (s.gIdt v).bits := by
  induction l generalizing s with
  | nil => exact ⟨rfl, rfl, fun v => rfl, fun v => rfl⟩
  | cons i l ih =>
    obtain ⟨hchips, hirq, hisr, hgate⟩ := ih (isrRegisterHandler s (irqVector i) .irqHandler)
    refine ⟨hchips, hirq, fun v => (hisr v).trans ?_, fun v => (hgate v).trans ?_⟩
    · by_cases hv : v = irqVector i
      · subst hv
        simp [isrRegisterHandler, Interrupts.setGate]
      · simp [isrRegisterHandler, Interrupts.setGate, hv]
    · rw [isrRegister_gate]
      by_cases hv : v = irqVector i
      · subst hv
        simp
      · simp [hv]

theorem irqInit_spec {s : Interrupts} (h : s.chips.Listening) (clkhandler : IrqRoutine) :
    (irqInit clkhandler s).chips =
      (s.chips.probe.1.configure picRemapOffset (picRemapOffset + 8)).unmask 0 ∧
    (irqInit clkhandler s).gIrqHandler = Function.update s.gIrqHandler timerLine (some clkhandler) ∧
    (∀ line, (irqInit clkhandler s).gIsrHandlers (irqVector line) = some .irqHandler) ∧
    ∀ v, gateOf ((irqInit clkhandler s).gIdt v).bits =
      if v ∈ (List.finRange 16).map irqVector then { gateOf (s.gIdt v).bits with present := true }
      else gateOf (s.gIdt v).bits := by
  have hfound := (probe_found h).1
  simp only [irqInit, hfound, if_true]
  obtain ⟨hchips, hirq, hisr, hgate⟩ := registerAll_spec (List.finRange 16) (registerIrq
    { s with interruptFlag := false, chips := (s.chips.probe.1.configure picRemapOffset
      (picRemapOffset + 8)).unmask 0 } timerLine clkhandler)
  refine ⟨hchips, hirq, fun line => (hisr _).trans (if_pos ?_), hgate⟩
  exact List.mem_map_of_mem (List.mem_finRange line)

theorem irqVector_ne (line : Fin 16) :
    irqVector line ≠ 0x80 ∧ irqVector line ≠ 29 ∧ irqVector line ≠ 30 := by
  revert line
  decide

theorem boot_spec {s : Interrupts} (h : s.chips.Listening) (stub : UInt8 → UInt64)
    (clkhandler : IrqRoutine) :
    (s.boot stub clkhandler).chips =
      (s.chips.probe.1.configure picRemapOffset (picRemapOffset + 8)).unmask 0 ∧
    Configured picRemapOffset (picRemapOffset + 8) (s.boot stub clkhandler).chips ∧
    (∀ line, (s.boot stub clkhandler).gIrqHandler line =
      if line = timerLine then some clkhandler else s.gIrqHandler line) ∧
    (∀ line, (s.boot stub clkhandler).gIsrHandlers (irqVector line) = some .irqHandler) ∧
    ∀ v, gateOf ((s.boot stub clkhandler).gIdt v).bits =
      kernelGate stub v (decide (v ≠ 0x80)) := by
  obtain ⟨hchips, hirqs⟩ := isrInit_keeps stub s
  obtain ⟨hcontrollers, hirq, hisr, hgate⟩ :=
    irqInit_spec (s := isrInit stub (idtInit s)) (by rw [hchips]; exact h) clkhandler
  rw [hchips] at hcontrollers
  have hagree := (probe_found h).2
  have hconf := setMask_configured (configured_start (congrArg I8259.next hagree.master)
    (congrArg I8259.next hagree.slave) picRemapOffset (picRemapOffset + 8)).1
  refine ⟨hcontrollers, ?_, fun line => ?_, hisr, fun v => ?_⟩
  · rw [Interrupts.boot, hcontrollers]
    exact hconf _
  · rw [Interrupts.boot, hirq, Function.update_apply, hirqs]
  · rw [Interrupts.boot, hgate, isrInit_gate]
    split
    · rename_i hmem
      obtain ⟨line, -, rfl⟩ := List.mem_map.mp hmem
      rw [decide_eq_true (irqVector_ne line).1]
      rfl
    · rfl

/-! Runs. -/

section Runs
variable {stub : UInt8 → UInt64} {clkhandler : IrqRoutine}

theorem call_gate {s : Interrupts} {v : UInt8} {b : Bool}
    (h : gateOf (s.gIdt v).bits = kernelGate stub v b) (c : IrqCall) :
    gateOf ((s.call c).gIdt v).bits = kernelGate stub v (b || decide (c.vector = some v)) := by
  cases c with
  | isrRegister w handler =>
    by_cases hv : w = v
    · subst hv
      have hopen : (b || decide ((IrqCall.isrRegister w handler).vector = some w)) = true := by
        simp [IrqCall.vector]
      rw [Interrupts.call, isrRegister_gate, if_pos rfl, h, hopen]
      rfl
    · have hclosed : decide ((IrqCall.isrRegister w handler).vector = some v) = false := by
        simp [IrqCall.vector, hv]
      rw [Interrupts.call, isrRegister_gate, if_neg (Ne.symm hv), h, hclosed, Bool.or_false]
  | irqRegister irq handler => exact h.trans (congrArg (kernelGate stub v) (Bool.or_false b).symm)
  | irqUnregister irq => exact h.trans (congrArg (kernelGate stub v) (Bool.or_false b).symm)
  | pic e => exact h.trans (congrArg (kernelGate stub v) (Bool.or_false b).symm)

theorem calls_gate (calls : List IrqCall) {s : Interrupts} {v : UInt8} {b : Bool}
    (h : gateOf (s.gIdt v).bits = kernelGate stub v b) :
    gateOf ((calls.foldl Interrupts.call s).gIdt v).bits =
      kernelGate stub v (b || calls.any fun c => c.vector = some v) := by
  induction calls generalizing s b with
  | nil => simpa using h
  | cons c calls ih => rw [List.foldl_cons, ih (call_gate h c), List.any_cons, Bool.or_assoc]

/-- In every state that calls reach, the gate of a vector leads to the vector's stub in the
    kernel's code segment, as an interrupt gate of ring 0; it is open, but for 0x80 until
    somebody registers for it. -/
theorem gate_after {s : Interrupts} (h : s.chips.Listening) (calls : List IrqCall) (v : UInt8) :
    gateOf ((calls.foldl Interrupts.call (s.boot stub clkhandler)).gIdt v).bits =
      kernelGate stub v (decide (v ≠ 0x80) || calls.any fun c => c.vector = some v) :=
  calls_gate calls ((boot_spec h stub clkhandler).2.2.2.2 v)

/-- What the calls do to the controllers. -/
def IrqCall.event : IrqCall → Option PicEvent
  | .pic e => some e
  | _ => none

theorem calls_chips (calls : List IrqCall) (s : Interrupts) :
    (calls.foldl Interrupts.call s).chips =
      (calls.filterMap IrqCall.event).foldl Chips.step s.chips := by
  induction calls generalizing s with
  | nil => rfl
  | cons c calls ih =>
    rw [List.foldl_cons, ih]
    cases c <;> rfl

theorem call_lineHandler (s : Interrupts) (c : IrqCall) (line : Fin 16) :
    (s.call c).gIrqHandler line = c.lineHandler line (s.gIrqHandler line) := by
  cases c with
  | irqRegister irq handler =>
    by_cases hi : irq = line
    · subst hi
      simp [Interrupts.call, registerIrq, IrqCall.lineHandler]
    · simp [Interrupts.call, registerIrq, IrqCall.lineHandler, hi, Ne.symm hi]
  | irqUnregister irq =>
    by_cases hi : irq = line
    · subst hi
      simp [Interrupts.call, unregisterIrq, IrqCall.lineHandler]
    · simp [Interrupts.call, unregisterIrq, IrqCall.lineHandler, hi, Ne.symm hi]
  | _ => rfl

/-- The tables of handlers and the controllers in a run. -/
theorem calls_tables (calls : List IrqCall) {s : Interrupts}
    (hconf : Configured picRemapOffset (picRemapOffset + 8) s.chips)
    (hvectors : ∀ c ∈ calls, ∀ line, c.vector ≠ some (irqVector line)) :
    Configured picRemapOffset (picRemapOffset + 8) (calls.foldl Interrupts.call s).chips ∧
    (∀ line, (calls.foldl Interrupts.call s).gIsrHandlers (irqVector line) =
      s.gIsrHandlers (irqVector line)) ∧
    ∀ line, (calls.foldl Interrupts.call s).gIrqHandler line =
      calls.foldl (IrqCall.lineHandler line) (s.gIrqHandler line) := by
  induction calls generalizing s with
  | nil => exact ⟨hconf, fun _ => rfl, fun _ => rfl⟩
  | cons c calls ih =>
    have hstep : Configured picRemapOffset (picRemapOffset + 8) (s.call c).chips := by
      cases c with
      | pic e => exact (step_lines hconf e).1
      | _ => exact hconf
    obtain ⟨hend, hisr, hirq⟩ := ih hstep fun d hd => hvectors d (List.mem_cons_of_mem c hd)
    refine ⟨hend, fun line => (hisr line).trans ?_, fun line => (hirq line).trans ?_⟩
    · cases c with
      | isrRegister w handler =>
        have hne : w ≠ irqVector line := fun hw =>
          hvectors _ List.mem_cons_self line (congrArg some hw)
        simp [Interrupts.call, isrRegisterHandler, Interrupts.setGate, Ne.symm hne]
      | _ => rfl
    · rw [List.foldl_cons, call_lineHandler]

end Runs

/-! From the line to the handler. -/

theorem lineVector_irq (line : Fin 16) :
    lineVector picRemapOffset (picRemapOffset + 8) line = irqVector line := by
  revert line
  decide

/-- The processor is given the vector of a line that is accepted. -/
theorem acknowledge_line {s : Chips} (h : Configured picRemapOffset (picRemapOffset + 8) s)
    {v : UInt8} {s' : Chips} (hack : s.acknowledge = some (v, s')) :
    ∃ line, v = irqVector line ∧ s.lines.accepts line = true := by
  rcases acknowledge_cases h with ⟨-, hnone⟩ | ⟨i, -, hfirst, hsome⟩ | ⟨j, hfirst, hsome⟩
  · rw [hnone] at hack
    cases hack
  · rw [hsome, Option.some.injEq, Prod.mk.injEq] at hack
    exact ⟨masterLine i, hack.1.symm.trans (lineVector_irq _), (Lines.first_pending hfirst).1⟩
  · rw [hsome, Option.some.injEq, Prod.mk.injEq] at hack
    exact ⟨slaveLine j, hack.1.symm.trans (lineVector_irq _), (Lines.first_pending hfirst).1⟩

/-- `irq_handler` finds its way back from the vector to the line. -/
theorem irqHandler_atCall (table : Fin 16 → Option IrqRoutine) (m : CpuState) (line : Fin 16)
    (code top : UInt64) :
    irqHandler table (m.atCall (irqVector line) code top) =
      ((table line).getD id) (m.atCall (irqVector line) code top) := by
  have hirq : ∀ line : Fin 16, ((irqVector line).toUInt64 - picRemapOffset.toUInt64).toNat =
      line.val := by decide
  have hlt : ((irqVector line).toUInt64 - picRemapOffset.toUInt64).toNat < 16 := by
    rw [hirq line]
    exact line.isLt
  have hline : (⟨_, hlt⟩ : Fin 16) = line := Fin.ext (hirq line)
  rw [irqHandler, registersAt_interrupt, dif_pos hlt, hline]
  cases table line <;> rfl

theorem isrHandlers_irq {s : Interrupts} {line : Fin 16}
    (h : s.gIsrHandlers (irqVector line) = some .irqHandler) :
    s.isrHandlers (irqVector line).toUInt64 = some (irqHandler s.gIrqHandler) := by
  rw [Interrupts.isrHandlers, UInt8.toUInt8_toUInt64, h]
  rfl

theorem LeavesFrame.congr {f g : CpuState → CpuState} {m : CpuState} (h : f m = g m)
    (hleaves : LeavesFrame g m) : LeavesFrame f m :=
  ⟨h ▸ hleaves.rsp, h ▸ hleaves.words⟩

/-- From a line to its handler, in every state that calls reach: the processor is given the
    vector of a line that waits and is not masked; the gate of the vector is open and leads
    to its stub; the stub's interrupt runs the handler that was registered last for the line,
    and nothing when there is none; and the interrupted program goes on as it was. -/
theorem irq_delivered {s : Interrupts} (h : s.chips.Listening) {numGdt numGdt' size : Nat}
    {table : List GdtEntry} (hgdt : gdtInit numGdt = some (table, size, numGdt')) (stub : UInt8 → UInt64)
    (clkhandler : IrqRoutine) {calls : List IrqCall}
    (hvectors : ∀ c ∈ calls, ∀ line, c.vector ≠ some (irqVector line)) {v : UInt8} {chips : Chips}
    (hack : (calls.foldl Interrupts.call (s.boot stub clkhandler)).chips.acknowledge =
      some (v, chips)) :
    ∃ line : Fin 16, v = irqVector line ∧
      (calls.foldl Interrupts.call (s.boot stub clkhandler)).chips.lines.accepts line = true ∧
      (gateOf ((calls.foldl Interrupts.call (s.boot stub clkhandler)).gIdt v).bits).Enters table
        size (stub v) ∧
      ∀ handler, handler = (calls.foldl (IrqCall.lineHandler line)
          (if line = timerLine then some clkhandler else s.gIrqHandler line)).getD id →
        ∀ (m : CpuState) (code top : UInt64),
          m.atIretq (calls.foldl Interrupts.call (s.boot stub clkhandler)).isrHandlers v code top =
            some ((handler (m.atCall v code top)).run isrDispExit) ∧
          (LeavesFrame handler (m.atCall v code top) →
            Transparent m (calls.foldl Interrupts.call (s.boot stub clkhandler)).isrHandlers v
              code top) := by
  obtain ⟨-, hconf, hirq, hisr, -⟩ := boot_spec h stub clkhandler
  obtain ⟨hend, hkept, hlast⟩ := calls_tables calls hconf hvectors
  obtain ⟨line, hv, haccepts⟩ := acknowledge_line hend hack
  subst hv
  obtain ⟨hopen, hgood⟩ := irqVector_ne line
  refine ⟨line, rfl, haccepts, ?_, fun handler hhandler m code top => ?_⟩
  · rw [gate_after h, decide_eq_true hopen, Bool.true_or]
    exact ⟨rfl, rfl, rfl, rfl, rfl, (gdt_selectors hgdt).1⟩
  · have hentry := isrHandlers_irq ((hkept line).trans (hisr line))
    have hcall := irqHandler_atCall
      (calls.foldl Interrupts.call (s.boot stub clkhandler)).gIrqHandler m line code top
    rw [hlast line, hirq line, ← hhandler] at hcall
    refine ⟨by rw [atIretq_eq hentry, hcall], fun hleaves => ?_⟩
    exact (isr_transparent_iff m _ code top hentry (hleaves.congr hcall)).mpr hgood

/-- The tables before `system_init`. -/
def interruptsAtBoot : Interrupts :=
  ⟨chipsAtBoot, fun _ => ⟨0, 0, 0, 0, 0, 0, 0⟩, fun _ => none, fun _ => none, false⟩

/-- The stubs one after the other. -/
def stubsAt (v : UInt8) : UInt64 := 0xFFFFFFFF80001000 + 16 * v.toUInt64

/-- A key: the keyboard's handler is registered, its line is unmasked and requests. -/
def keyPressed : List IrqCall :=
  [.irqRegister keyboardLine clobber, .pic (.mask1 0xFC), .pic (.mask2 0xFF),
    .pic (.raise keyboardLine)]

theorem irq_delivered_key :
    Transparent running
      (keyPressed.foldl Interrupts.call (interruptsAtBoot.boot stubsAt id)).isrHandlers 0x21 0
      running.rsp := by
  have hack : ∃ chips, (keyPressed.foldl Interrupts.call
      (interruptsAtBoot.boot stubsAt id)).chips.acknowledge = some (0x21, chips) := by
    rw [calls_chips, (boot_spec (s := interruptsAtBoot) ⟨rfl, rfl⟩ stubsAt id).1]
    exact ⟨_, rfl⟩
  obtain ⟨chips, hack⟩ := hack
  have hgdt : gdtInit 0 = some (gdtTable, 71, 1) := rfl
  have hvectors : ∀ c ∈ keyPressed, ∀ line, c.vector ≠ some (irqVector line) := by decide
  obtain ⟨line, hv, -, -, hrun⟩ :=
    irq_delivered (s := interruptsAtBoot) ⟨rfl, rfl⟩ hgdt stubsAt id hvectors hack
  have hone : ∀ line : Fin 16, 0x21 = irqVector line → line = keyboardLine := by decide
  obtain rfl := hone line hv
  exact (hrun clobber rfl running 0 running.rsp).2 (clobber_leaves _)

end Horizon64
