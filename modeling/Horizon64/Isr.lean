import Horizon64.Lib.Stack

/- Interrupt entry and exit: the stubs and `isr_disp` of `isr_asm.asm`, and the
   `REGISTERS` that `isr_handler` is given.

   1. The machine, and what the CPU pushes.
   2. `isr`: the stub of a vector, as the list of `generate_isrs.sh` chooses it, and
      `isr_disp` before and after its call of `isr_handler`.
   3. The stack at the call, word by word (`atCall_stack`).
   4. `isr_transparent_iff`: the entry and the exit of a vector fit together except for
      vectors 29 and 30, whose error codes the list does not have. -/
namespace Horizon64
open Stack

/-- The general registers except `rsp`, in the order of `pushall`. -/
inductive Reg where
  | rax | rbx | rcx | rdx | rbp | rdi | rsi | r8 | r9 | r10 | r11 | r12 | r13 | r14 | r15
  deriving DecidableEq, Repr

structure CpuState where
  regs : Reg → UInt64
  rsp : UInt64
  rip : UInt64
  cs : UInt16
  rflags : UInt64
  ss : UInt16
  mem : Memory

def CpuState.push (m : CpuState) (w : UInt64) : CpuState :=
  { m with rsp := m.rsp - 8, mem := Function.update m.mem (m.rsp - 8) w }

inductive Instr where
  | push (r : Reg)
  | pushImm (n : UInt64)
  | pop (r : Reg)
  | cld
  | movRdiRsp
  | addRsp (n : UInt64)

/-- The direction flag. -/
def directionFlag : UInt64 := 0x400

def CpuState.exec (m : CpuState) : Instr → CpuState
  | .push r => m.push (m.regs r)
  | .pushImm n => m.push n
  | .pop r => { m with regs := Function.update m.regs r (m.mem m.rsp), rsp := m.rsp + 8 }
  | .cld => { m with rflags := m.rflags &&& ~~~directionFlag }
  | .movRdiRsp => { m with regs := Function.update m.regs .rdi m.rsp }
  | .addRsp n => { m with rsp := m.rsp + n }

def CpuState.run (m : CpuState) (code : List Instr) : CpuState := code.foldl CpuState.exec m

/-! The interrupt. -/

/-- The vectors with which the CPU pushes an error code. -/
def cpuErrorCodes : List UInt8 := [8, 10, 11, 12, 13, 14, 17, 21, 29, 30]

/-- What `iretq` pops. -/
def CpuState.frame (m : CpuState) : List UInt64 :=
  [m.rip, m.cs.toUInt64, m.rflags, m.rsp, m.ss.toUInt64]

/-- The address of the frame that the CPU pushes on the stack at `top`, which it aligns
    to 16 bytes. -/
def frameAddress (top : UInt64) : UInt64 := (top &&& ~~~0xF) - 40

/-- The CPU's frame, on the stack at `top`. -/
def CpuState.pushFrame (m : CpuState) (top : UInt64) : CpuState :=
  ((((({ m with rsp := top &&& ~~~0xF }.push m.ss.toUInt64).push m.rsp).push m.rflags).push
    m.cs.toUInt64).push m.rip)

/-- The CPU's part of interrupt `v`, on the stack at `top`: the interrupted one, or the
    one that the task state segment names. (It goes on at the vector's stub with a new
    CS and SS, which nothing below reads.) -/
def CpuState.interrupt (m : CpuState) (v : UInt8) (code top : UInt64) : CpuState :=
  if v ∈ cpuErrorCodes then (m.pushFrame top).push code else m.pushFrame top

/-! The stubs. -/

/-- `ISRS_WITH_ERROR_CODE` of `generate_isrs.sh`. -/
def isrsWithErrorCode : List UInt8 := [8, 10, 11, 12, 13, 14, 17, 21]

/-- `ISR_NOERRORCODE`: a dummy error code and the interrupt number. -/
def isrNoErrorCode (v : UInt8) : List Instr := [.pushImm 0, .pushImm v.toUInt64]

/-- `ISR_ERRORCODE`: the error code is on the stack. -/
def isrErrorCode (v : UInt8) : List Instr := [.pushImm v.toUInt64]

/-- The stub of vector `v`; its `jmp` goes on with `isr_disp`. -/
def isr (v : UInt8) : List Instr :=
  if v ∈ isrsWithErrorCode then isrErrorCode v else isrNoErrorCode v

def pushall : List Instr :=
  [.push .rax, .push .rbx, .push .rcx, .push .rdx, .push .rbp, .push .rdi, .push .rsi,
    .push .r8, .push .r9, .push .r10, .push .r11, .push .r12, .push .r13, .push .r14, .push .r15]

def popall : List Instr :=
  [.pop .r15, .pop .r14, .pop .r13, .pop .r12, .pop .r11, .pop .r10, .pop .r9, .pop .r8,
    .pop .rsi, .pop .rdi, .pop .rbp, .pop .rdx, .pop .rcx, .pop .rbx, .pop .rax]

/-- `isr_disp` before the call of `isr_handler`. -/
def isrDispEntry : List Instr := .cld :: pushall ++ [.movRdiRsp]

/-- `isr_disp` after the call, before `iretq`. -/
def isrDispExit : List Instr := popall ++ [.addRsp 16]

/-- `REGISTERS`. -/
structure Registers where
  r15 : UInt64
  r14 : UInt64
  r13 : UInt64
  r12 : UInt64
  r11 : UInt64
  r10 : UInt64
  r9 : UInt64
  r8 : UInt64
  rsi : UInt64
  rdi : UInt64
  rbp : UInt64
  rdx : UInt64
  rcx : UInt64
  rbx : UInt64
  rax : UInt64
  interrupt : UInt64
  errorCode : UInt64
  rip : UInt64
  cs : UInt64
  rflags : UInt64
  rsp : UInt64
  ss : UInt64
  deriving DecidableEq, Repr

/-- The `REGISTERS` at an address: packed, its fields are words one after the other. -/
def registersAt (mem : Memory) (a : UInt64) : Registers where
  r15 := word mem a 0
  r14 := word mem a 1
  r13 := word mem a 2
  r12 := word mem a 3
  r11 := word mem a 4
  r10 := word mem a 5
  r9 := word mem a 6
  r8 := word mem a 7
  rsi := word mem a 8
  rdi := word mem a 9
  rbp := word mem a 10
  rdx := word mem a 11
  rcx := word mem a 12
  rbx := word mem a 13
  rax := word mem a 14
  interrupt := word mem a 15
  errorCode := word mem a 16
  rip := word mem a 17
  cs := word mem a 18
  rflags := word mem a 19
  rsp := word mem a 20
  ss := word mem a 21

/-- `g_isr_handlers`: what calling a handler does to the machine. -/
abbrev IsrHandlers := UInt64 → Option (CpuState → CpuState)

/-- `isr_handler`: it calls the handler of the interrupt; where there is none, it prints
    the registers and halts. -/
def isrHandler (handlers : IsrHandlers) (m : CpuState) : Option CpuState :=
  (handlers (registersAt m.mem (m.regs .rdi)).interrupt).map fun handler => handler m

/-- Interrupt `v` up to the call of `isr_handler`. -/
def CpuState.atCall (m : CpuState) (v : UInt8) (code top : UInt64) : CpuState :=
  (m.interrupt v code top).run (isr v ++ isrDispEntry)

/-- Interrupt `v` up to the `iretq`. -/
def CpuState.atIretq (m : CpuState) (handlers : IsrHandlers) (v : UInt8) (code top : UInt64) :
    Option CpuState :=
  (isrHandler handlers (m.atCall v code top)).map fun m' => m'.run isrDispExit

/-- The call returns with the stack pointer where it was and does not write the saved
    registers, the 22 words above it. -/
structure LeavesFrame (handler : CpuState → CpuState) (m : CpuState) : Prop where
  rsp : (handler m).rsp = m.rsp
  words : ∀ i < 22, word (handler m).mem m.rsp i = word m.mem m.rsp i

/-- The `REGISTERS` that name the interrupted machine's registers. -/
def CpuState.saved (m : CpuState) (v : UInt8) (code : UInt64) : Registers where
  r15 := m.regs .r15
  r14 := m.regs .r14
  r13 := m.regs .r13
  r12 := m.regs .r12
  r11 := m.regs .r11
  r10 := m.regs .r10
  r9 := m.regs .r9
  r8 := m.regs .r8
  rsi := m.regs .rsi
  rdi := m.regs .rdi
  rbp := m.regs .rbp
  rdx := m.regs .rdx
  rcx := m.regs .rcx
  rbx := m.regs .rbx
  rax := m.regs .rax
  interrupt := v.toUInt64
  errorCode := if v ∈ cpuErrorCodes then code else 0
  rip := m.rip
  cs := m.cs.toUInt64
  rflags := m.rflags
  rsp := m.rsp
  ss := m.ss.toUInt64

/-- The handler sees the interrupted registers, and `iretq` runs on the CPU's frame with
    the general registers restored. -/
structure Transparent (m : CpuState) (handlers : IsrHandlers) (v : UInt8) (code top : UInt64) :
    Prop where
  registers : registersAt (m.atCall v code top).mem ((m.atCall v code top).regs .rdi) =
    m.saved v code
  exit : ∃ m', m.atIretq handlers v code top = some m' ∧ m'.rsp = frameAddress top ∧
    Holds m'.mem m'.rsp m.frame ∧ m'.regs = m.regs

/-! Pushes and pops. -/

/-- From the stack pointer up, the words `ws`. -/
abbrev CpuState.Stacked (m : CpuState) (ws : List UInt64) : Prop := Holds m.mem m.rsp ws

theorem push_stacked {m : CpuState} {ws : List UInt64} (h : m.Stacked ws)
    (hlen : ws.length < 2 ^ 61) (w : UInt64) : (m.push w).Stacked (w :: ws) :=
  h.push hlen w

@[simp] theorem push_regs (m : CpuState) (w : UInt64) : (m.push w).regs = m.regs := rfl

@[simp] theorem push_rsp (m : CpuState) (w : UInt64) : (m.push w).rsp = m.rsp - 8 := rfl

@[simp] theorem run_nil (m : CpuState) : m.run [] = m := rfl

@[simp] theorem run_cons (m : CpuState) (i : Instr) (code : List Instr) :
    m.run (i :: code) = (m.exec i).run code := rfl

@[simp] theorem run_append (m : CpuState) (code code' : List Instr) :
    m.run (code ++ code') = (m.run code).run code' := List.foldl_append

theorem run_pushes (rs : List Reg) {m : CpuState} {ws : List UInt64} (h : m.Stacked ws)
    (hlen : rs.length + ws.length < 2 ^ 61) :
    (m.run (rs.map .push)).Stacked ((rs.map m.regs).reverse ++ ws) ∧
    (m.run (rs.map .push)).regs = m.regs ∧
    (m.run (rs.map .push)).rsp + 8 * UInt64.ofNat rs.length = m.rsp := by
  induction rs generalizing m ws with
  | nil => exact ⟨h, rfl, by simp⟩
  | cons r rs ih =>
    rw [List.length_cons] at hlen
    have hpush := push_stacked h (by omega) (m.regs r)
    obtain ⟨hstack, hregs, hrsp⟩ := ih hpush (by rw [List.length_cons]; omega)
    refine ⟨by simpa [CpuState.exec] using hstack, hregs, ?_⟩
    calc (m.run ((r :: rs).map .push)).rsp + 8 * UInt64.ofNat (rs.length + 1)
        = ((m.push (m.regs r)).run (rs.map .push)).rsp + 8 * UInt64.ofNat rs.length + 8 := by
          rw [step_add, UInt64.add_assoc, UInt64.add_comm 8, ← UInt64.add_assoc]
          rfl
      _ = m.rsp := by rw [hrsp, push_rsp, UInt64.sub_add_cancel]

theorem run_pops (rs : List Reg) {m : CpuState} {f : Reg → UInt64} {ws : List UInt64}
    (h : m.Stacked (rs.map f ++ ws)) :
    ∀ r, (m.run (rs.map .pop)).regs r = if r ∈ rs then f r else m.regs r := by
  induction rs generalizing m with
  | nil => exact fun r => rfl
  | cons r rs ih =>
    intro r'
    refine (ih (m := m.exec (.pop r)) h.2 r').trans ?_
    by_cases hr' : r' = r
    · simp [CpuState.exec, hr', h.1]
    · simp [CpuState.exec, hr']

theorem run_pops_mem (rs : List Reg) (m : CpuState) : (m.run (rs.map .pop)).mem = m.mem := by
  induction rs generalizing m with
  | nil => rfl
  | cons r rs ih => exact ih (m.exec (.pop r))

/-- Pops move the stack pointer whatever they find. -/
theorem run_pops_rsp (rs : List Reg) (m : CpuState) :
    (m.run (rs.map .pop)).rsp = m.rsp + 8 * UInt64.ofNat rs.length := by
  induction rs generalizing m with
  | nil => simp
  | cons r rs ih =>
    rw [List.length_cons, step_add]
    exact ih (m.exec (.pop r))

/-! The entry. -/

/-- The registers of `pushall`. -/
def pushed : List Reg :=
  [.rax, .rbx, .rcx, .rdx, .rbp, .rdi, .rsi, .r8, .r9, .r10, .r11, .r12, .r13, .r14, .r15]

theorem pushall_eq : pushall = pushed.map .push := rfl

theorem popall_eq : popall = pushed.reverse.map .pop := rfl

theorem mem_pushed (r : Reg) : r ∈ pushed := by
  cases r <;> decide

/-- The list of `generate_isrs.sh` is the CPU's, but for vectors 29 and 30. -/
theorem mem_isrsWithErrorCode (v : UInt8) :
    v ∈ isrsWithErrorCode ↔ v ∈ cpuErrorCodes ∧ v ≠ 29 ∧ v ≠ 30 := by
  constructor
  · intro h
    simp only [isrsWithErrorCode, List.mem_cons, List.not_mem_nil, or_false] at h
    rcases h with rfl | rfl | rfl | rfl | rfl | rfl | rfl | rfl <;> decide
  · rintro ⟨h, h29, h30⟩
    simpa [cpuErrorCodes, isrsWithErrorCode, h29, h30] using h

theorem pushFrame_stack (m : CpuState) (top : UInt64) :
    (m.pushFrame top).Stacked m.frame ∧ (m.pushFrame top).regs = m.regs ∧
    (m.pushFrame top).rsp = frameAddress top := by
  have hempty : ({ m with rsp := top &&& ~~~0xF } : CpuState).Stacked [] := trivial
  refine ⟨?_, rfl, ?_⟩
  · exact push_stacked (push_stacked (push_stacked (push_stacked (push_stacked hempty
      (by simp) m.ss.toUInt64) (by simp) m.rsp) (by simp) m.rflags) (by simp) m.cs.toUInt64)
      (by simp) m.rip
  · simp only [CpuState.pushFrame, push_rsp, frameAddress, UInt64.sub_eq_add_neg,
      UInt64.add_assoc]
    rfl

/-- The words between the general registers and the CPU's frame: the vector, the dummy
    error code and the CPU's error code. -/
def stubWords (v : UInt8) (code : UInt64) : List UInt64 :=
  v.toUInt64 :: (if v ∈ isrsWithErrorCode then [] else [0]) ++
    if v ∈ cpuErrorCodes then [code] else []

/-- Two words, but for vectors 29 and 30. -/
theorem stubWords_eq {v : UInt8} (h29 : v ≠ 29) (h30 : v ≠ 30) (code : UInt64) :
    stubWords v code = [v.toUInt64, if v ∈ cpuErrorCodes then code else 0] := by
  by_cases hv : v ∈ cpuErrorCodes
  · have hlist : v ∈ isrsWithErrorCode := (mem_isrsWithErrorCode v).mpr ⟨hv, h29, h30⟩
    simp [stubWords, hv, hlist]
  · have hlist : v ∉ isrsWithErrorCode := fun h => hv ((mem_isrsWithErrorCode v).mp h).1
    simp [stubWords, hv, hlist]

theorem isr_stack (m : CpuState) (v : UInt8) (code top : UInt64) :
    ((m.interrupt v code top).run (isr v)).Stacked (stubWords v code ++ m.frame) := by
  obtain ⟨hframe, -, -⟩ := pushFrame_stack m top
  have hcpu : (m.interrupt v code top).Stacked
      ((if v ∈ cpuErrorCodes then [code] else []) ++ m.frame) := by
    by_cases hv : v ∈ cpuErrorCodes
    · simp only [CpuState.interrupt, hv, if_true]
      exact push_stacked hframe (by simp [CpuState.frame]) code
    · simpa only [CpuState.interrupt, hv, if_false, List.nil_append] using hframe
  have hlen : ((if v ∈ cpuErrorCodes then [code] else []) ++ m.frame).length ≤ 6 := by
    split <;> simp [CpuState.frame]
  by_cases hlist : v ∈ isrsWithErrorCode
  · simp only [isr, isrErrorCode, stubWords, hlist, if_true]
    exact push_stacked hcpu (by omega) v.toUInt64
  · simp only [isr, isrNoErrorCode, stubWords, hlist, if_false]
    exact push_stacked (push_stacked hcpu (by omega) 0) (by rw [List.length_cons]; omega)
      v.toUInt64

theorem isr_regs (m : CpuState) (v : UInt8) (code top : UInt64) :
    ((m.interrupt v code top).run (isr v)).regs = m.regs := by
  by_cases hv : v ∈ cpuErrorCodes <;> by_cases hlist : v ∈ isrsWithErrorCode <;>
    simp [CpuState.interrupt, isr, isrErrorCode, isrNoErrorCode, hv, hlist, CpuState.exec,
      pushFrame_stack]

/-- `isr_disp` finds two words on the CPU's frame, and a third one for vectors 29 and 30. -/
theorem isr_rsp (m : CpuState) (v : UInt8) (code top : UInt64) :
    ((m.interrupt v code top).run (isr v)).rsp + 16 =
      if v = 29 ∨ v = 30 then frameAddress top - 8 else frameAddress top := by
  have htwo : ∀ a : UInt64, a - 8 - 8 + 16 = a := fun a => by
    rw [show (16 : UInt64) = 8 + 8 from rfl, ← UInt64.add_assoc, UInt64.sub_add_cancel,
      UInt64.sub_add_cancel]
  by_cases hv : v ∈ cpuErrorCodes
  · by_cases hbad : v = 29 ∨ v = 30
    · have hlist : v ∉ isrsWithErrorCode := fun h => by
        obtain ⟨-, h29, h30⟩ := (mem_isrsWithErrorCode v).mp h
        exact hbad.elim h29 h30
      simp [CpuState.interrupt, isr, isrNoErrorCode, hv, hlist, hbad, CpuState.exec,
        pushFrame_stack, htwo]
    · obtain ⟨h29, h30⟩ := not_or.mp hbad
      have hlist : v ∈ isrsWithErrorCode := (mem_isrsWithErrorCode v).mpr ⟨hv, h29, h30⟩
      simp [CpuState.interrupt, isr, isrErrorCode, hv, hlist, h29, h30, CpuState.exec,
        pushFrame_stack, htwo]
  · have hlist : v ∉ isrsWithErrorCode := fun h => hv ((mem_isrsWithErrorCode v).mp h).1
    have hgood : ¬ (v = 29 ∨ v = 30) := by
      rintro (rfl | rfl) <;> exact hv (by decide)
    simp [CpuState.interrupt, isr, isrNoErrorCode, hv, hlist, hgood, CpuState.exec,
      pushFrame_stack, htwo]

theorem atCall_stack (m : CpuState) (v : UInt8) (code top : UInt64) :
    (m.atCall v code top).Stacked
      (pushed.reverse.map m.regs ++ (stubWords v code ++ m.frame)) := by
  have hstub := isr_stack m v code top
  have hregs := isr_regs m v code top
  have hlen : (stubWords v code ++ m.frame).length ≤ 8 := by
    simp only [stubWords, CpuState.frame]
    split <;> split <;> simp
  obtain ⟨hstack, -, -⟩ := run_pushes pushed (m := ((m.interrupt v code top).run (isr v)).exec .cld)
    hstub (by simp only [pushed, List.length_cons, List.length_nil]; omega)
  rw [← List.map_reverse] at hstack
  simpa [CpuState.atCall, isrDispEntry, pushall_eq, CpuState.exec, hregs] using hstack

theorem atCall_rdi (m : CpuState) (v : UInt8) (code top : UInt64) :
    (m.atCall v code top).regs .rdi = (m.atCall v code top).rsp := by
  simp [CpuState.atCall, isrDispEntry, CpuState.exec]

theorem atCall_rsp (m : CpuState) (v : UInt8) (code top : UInt64) :
    (m.atCall v code top).rsp + 8 * UInt64.ofNat pushed.length =
      ((m.interrupt v code top).run (isr v)).rsp := by
  have hempty : (((m.interrupt v code top).run (isr v)).exec .cld).Stacked [] := trivial
  obtain ⟨-, -, hrsp⟩ := run_pushes pushed hempty (by simp [pushed])
  simpa [CpuState.atCall, isrDispEntry, pushall_eq, CpuState.exec] using hrsp

theorem registersAt_interrupt (m : CpuState) (v : UInt8) (code top : UInt64) :
    (registersAt (m.atCall v code top).mem ((m.atCall v code top).regs .rdi)).interrupt =
      v.toUInt64 := by
  have hstack := (atCall_stack m v code top).drop
  rw [atCall_rdi]
  exact hstack.1

theorem registersAt_atCall (m : CpuState) {v : UInt8} (h29 : v ≠ 29) (h30 : v ≠ 30)
    (code top : UInt64) :
    registersAt (m.atCall v code top).mem ((m.atCall v code top).regs .rdi) = m.saved v code := by
  have hstack := atCall_stack m v code top
  rw [stubWords_eq h29 h30] at hstack
  rw [atCall_rdi]
  generalize m.atCall v code top = m' at hstack
  simp only [pushed, List.reverse_cons, List.reverse_nil, List.nil_append, List.cons_append,
    List.map_cons, List.map_nil, CpuState.frame, Holds] at hstack
  obtain ⟨h15, h14, h13, h12, h11, h10, h9, h8, hsi, hdi, hbp, hdx, hcx, hbx, hax, hv, herr,
    hip, hcs, hfl, hsp, hss, -⟩ := hstack
  simp only [registersAt, CpuState.saved, word_succ, word_zero, *]

/-! The exit. -/

theorem atIretq_eq {m : CpuState} {handlers : IsrHandlers} {v : UInt8} {code top : UInt64}
    {handler : CpuState → CpuState} (hhandler : handlers v.toUInt64 = some handler) :
    m.atIretq handlers v code top = some ((handler (m.atCall v code top)).run isrDispExit) := by
  rw [CpuState.atIretq, isrHandler, registersAt_interrupt, hhandler]
  rfl

theorem run_exit (m : CpuState) :
    m.run isrDispExit = (m.run (pushed.reverse.map .pop)).exec (.addRsp 16) := by
  rw [isrDispExit, popall_eq, run_append]
  rfl

theorem run_exit_rsp (m : CpuState) :
    (m.run isrDispExit).rsp = m.rsp + 8 * UInt64.ofNat pushed.length + 16 := by
  rw [run_exit, CpuState.exec, run_pops_rsp, List.length_reverse]

theorem exit_rsp {m : CpuState} {v : UInt8} {code top : UInt64}
    {handler : CpuState → CpuState} (hleaves : LeavesFrame handler (m.atCall v code top)) :
    ((handler (m.atCall v code top)).run isrDispExit).rsp =
      if v = 29 ∨ v = 30 then frameAddress top - 8 else frameAddress top := by
  calc ((handler (m.atCall v code top)).run isrDispExit).rsp
      = (m.atCall v code top).rsp + 8 * UInt64.ofNat pushed.length + 16 := by
        rw [run_exit_rsp, hleaves.rsp]
    _ = ((m.interrupt v code top).run (isr v)).rsp + 16 := by rw [atCall_rsp]
    _ = _ := isr_rsp m v code top

theorem exit_restores {m : CpuState} {v : UInt8} {code top : UInt64}
    {handler : CpuState → CpuState} (h29 : v ≠ 29) (h30 : v ≠ 30)
    (hleaves : LeavesFrame handler (m.atCall v code top)) :
    ((handler (m.atCall v code top)).run isrDispExit).regs = m.regs ∧
    ((handler (m.atCall v code top)).run isrDispExit).Stacked m.frame := by
  have hstack := atCall_stack m v code top
  rw [stubWords_eq h29 h30] at hstack
  generalize m.atCall v code top = m' at hstack hleaves
  have hback : (handler m').Stacked (pushed.reverse.map m.regs ++
      ([v.toUInt64, if v ∈ cpuErrorCodes then code else 0] ++ m.frame)) := by
    rw [CpuState.Stacked, hleaves.rsp]
    exact hstack.congr fun i hi => hleaves.words i (by simpa [pushed, CpuState.frame] using hi)
  constructor
  · funext r
    have hpops := run_pops pushed.reverse hback r
    rw [if_pos (List.mem_reverse.mpr (mem_pushed r))] at hpops
    rw [run_exit]
    exact hpops
  · have hframe := hback.drop.drop
    rw [List.length_map, List.length_reverse] at hframe
    rw [CpuState.Stacked, run_exit_rsp, run_exit, CpuState.exec, run_pops_mem]
    exact hframe

/-- With the extra word, `iretq` runs one slot below the frame. -/
theorem not_transparent {m : CpuState} {v : UInt8} {code top : UInt64} {handlers : IsrHandlers}
    {handler : CpuState → CpuState} (hhandler : handlers v.toUInt64 = some handler)
    (hleaves : LeavesFrame handler (m.atCall v code top)) (hbad : v = 29 ∨ v = 30) :
    ¬ Transparent m handlers v code top := by
  rintro ⟨-, m', hm', hrsp, -, -⟩
  rw [atIretq_eq hhandler, Option.some.injEq] at hm'
  rw [← hm', exit_rsp hleaves, if_pos hbad, UInt64.sub_eq_iff_eq_add] at hrsp
  exact absurd hrsp (by simp)

/-- Interrupt entry and exit are transparent for the vectors other than 29 and 30, where
    the CPU pushes an error code and the stub pushes a dummy one on top of it. -/
theorem isr_transparent_iff (m : CpuState) (v : UInt8) (code top : UInt64)
    {handlers : IsrHandlers} {handler : CpuState → CpuState}
    (hhandler : handlers v.toUInt64 = some handler)
    (hleaves : LeavesFrame handler (m.atCall v code top)) :
    Transparent m handlers v code top ↔ v ≠ 29 ∧ v ≠ 30 := by
  constructor
  · exact fun h => not_or.mp fun hbad => not_transparent hhandler hleaves hbad h
  · rintro ⟨h29, h30⟩
    obtain ⟨hregs, hframe⟩ := exit_restores h29 h30 hleaves
    refine ⟨registersAt_atCall m h29 h30 code top, _, atIretq_eq hhandler, ?_, hframe, hregs⟩
    rw [exit_rsp hleaves, if_neg (not_or.mpr ⟨h29, h30⟩)]

/-- A running program. -/
def running : CpuState := ⟨fun _ => 7, 0x8008, 0x401000, 0x28, 0x202, 0x30, fun _ => 0⟩

/-- A handler that overwrites every general register and, with its return address, the
    word below the frame. -/
def clobber (m : CpuState) : CpuState :=
  { m with regs := fun _ => 0, mem := Function.update m.mem (m.rsp - 8) 0xFFFFFFFF80000000 }

theorem clobber_leaves (m : CpuState) : LeavesFrame clobber m := by
  refine ⟨rfl, fun i hi => ?_⟩
  exact Function.update_of_ne (below_ne (by omega)) _ _

/-- A page fault. -/
theorem isr_transparent_page_fault :
    Transparent running (fun _ => some clobber) 14 2 running.rsp :=
  (isr_transparent_iff running 14 2 running.rsp rfl (clobber_leaves _)).mpr (by decide)

/-- A VMM communication exception (29) with error code 5: the handler sees error code 0
    and the code as the instruction pointer. -/
theorem isr_vmm_communication :
    (registersAt (running.atCall 29 5 running.rsp).mem
      ((running.atCall 29 5 running.rsp).regs .rdi)).errorCode = 0 ∧
    (registersAt (running.atCall 29 5 running.rsp).mem
      ((running.atCall 29 5 running.rsp).regs .rdi)).rip = 5 ∧
    ¬ Transparent running (fun _ => some clobber) 29 5 running.rsp :=
  ⟨by decide +kernel, by decide +kernel,
    not_transparent rfl (clobber_leaves _) (Or.inl rfl)⟩

end Horizon64
