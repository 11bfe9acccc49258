import Horizon64.Lib.Interleaving

/- The spin lock of `common/lock.c`.

   The two functions are sequences of instructions, and any number of CPUs runs them
   on one `LOCK`, one instruction at a time and in any order. A CPU has its own flags
   register and its own stack; `called` remembers what its flags register was when it
   called `lock`. Outside the two functions a CPU does what it likes with both.
   (`pushfq` and `popfq` move the whole register here: the bits they leave out, RF and
   VM, are 0 while instructions run one after the other in 64-bit mode.)

   1. `Cpu.exec`: one instruction.
   2. Bit 0 of the lock word guards the code from a successful `bts` to the `btr`.
   3. What each CPU knows at each instruction (`Cpu.Knows`).
   4. `spinlock_safe`: mutual exclusion, no write to the saved flags while another CPU
      holds the lock, and the flags restored. -/
namespace Horizon64
open Interleaving

/-- `LOCK`. -/
structure Lock where
  rflags : UInt64
  lock : UInt32
  deriving DecidableEq, Repr

/-- Where a CPU is: the next instruction of `lock_lock_implementation` (`pushfq` to
    `popFlags`, with `pause`, `bt` and `btsAgain` in its loop) or of
    `unlock_lock_implmentation` (`pushFlags` to `popfq`), or outside, without the lock
    (`idle`) or with it (`held`). -/
inductive Pc where
  | idle
  | pushfq
  | cli
  | bts
  | jnc
  | pause
  | bt
  | jc
  | btsAgain
  | jcAgain
  | popFlags
  | held
  | pushFlags
  | btr
  | popfq
  deriving DecidableEq, Repr

structure Cpu where
  pc : Pc
  rflags : UInt64
  stack : List UInt64
  called : UInt64
  deriving DecidableEq, Repr

def interruptFlag : UInt64 := 0x200

/-- The carry flag, bit 0 of the flags register. -/
def carry (rflags : UInt64) : Bool := rflags &&& 1 ≠ 0

def withCarry (rflags : UInt64) (c : Bool) : UInt64 :=
  if c then rflags ||| 1 else rflags &&& ~~~1

/-- Bit 0 of the lock word. -/
def Lock.bit (s : Lock) : Bool := s.lock &&& 1 ≠ 0

/-- One instruction; at `idle` the call of `lock`, at `held` the call of `unlock`. -/
def Cpu.exec (s : Lock) (c : Cpu) : Lock × Cpu :=
  match c.pc with
  | .idle => (s, { c with pc := .pushfq, called := c.rflags })
  | .pushfq => (s, { c with pc := .cli, stack := c.rflags :: c.stack })
  | .cli => (s, { c with pc := .bts, rflags := c.rflags &&& ~~~interruptFlag })
  | .bts => ({ s with lock := s.lock ||| 1 },
      { c with pc := .jnc, rflags := withCarry c.rflags s.bit })
  | .jnc => (s, { c with pc := if carry c.rflags then .pause else .popFlags })
  | .pause => (s, { c with pc := .bt })
  | .bt => (s, { c with pc := .jc, rflags := withCarry c.rflags s.bit })
  | .jc => (s, { c with pc := if carry c.rflags then .pause else .btsAgain })
  | .btsAgain => ({ s with lock := s.lock ||| 1 },
      { c with pc := .jcAgain, rflags := withCarry c.rflags s.bit })
  | .jcAgain => (s, { c with pc := if carry c.rflags then .pause else .popFlags })
  | .popFlags => ({ s with rflags := c.stack.headD 0 },
      { c with pc := .held, stack := c.stack.tail })
  | .held => (s, { c with pc := .pushFlags })
  | .pushFlags => (s, { c with pc := .btr, stack := s.rflags :: c.stack })
  | .btr => ({ s with lock := s.lock &&& ~~~1 },
      { c with pc := .popfq, rflags := withCarry c.rflags s.bit })
  | .popfq => (s, { c with pc := .idle, rflags := c.stack.headD 0, stack := c.stack.tail })

/-- An action of a CPU: an instruction of the two functions, or anything outside them. -/
inductive CpuStep (s : Lock) (c : Cpu) : Lock → Cpu → Prop where
  | exec : CpuStep s c (c.exec s).1 (c.exec s).2
  | work (rflags : UInt64) (stack : List UInt64) (h : c.pc = .idle ∨ c.pc = .held) :
      CpuStep s c s { c with rflags := rflags, stack := stack }

/-- Between its successful `bts` and its `btr`. -/
def Cpu.Inside (c : Cpu) : Prop :=
  match c.pc with
  | .jnc | .jcAgain => carry c.rflags = false
  | .popFlags | .held | .pushFlags | .btr => True
  | _ => False

/-! The flag. -/

@[simp] theorem carry_withCarry (r : UInt64) (c : Bool) : carry (withCarry r c) = c := by
  cases c with
  | true =>
    rw [withCarry, if_pos rfl, carry, decide_eq_true_eq]
    intro h
    have hbit := congrArg (fun x : UInt64 => x.toBitVec.getLsbD 0) h
    simp at hbit
  | false => simp [withCarry, carry, UInt64.and_assoc]

theorem bit_bts (s : Lock) : ({ s with lock := s.lock ||| 1 } : Lock).bit = true := by
  rw [Lock.bit, decide_eq_true_eq]
  intro h
  have hbit := congrArg (fun x : UInt32 => x.toBitVec.getLsbD 0) h
  simp at hbit

/-- Bit 0 of the lock word guards the code from a successful `bts` to the `btr`. -/
theorem lock_guards : Guards CpuStep (fun s => s.bit = true) Cpu.Inside := by
  intro s c s' c' h
  cases h with
  | work r st hpc =>
    refine Or.inr (Or.inr ⟨id, fun hin => ?_⟩)
    rcases hpc with hpc | hpc
    · simp [Cpu.Inside, hpc] at hin
    · simp [Cpu.Inside, hpc]
  | exec =>
    obtain ⟨pc, r, st, called⟩ := c
    cases pc
    -- a `bts` enters when it finds the bit clear
    case bts | btsAgain =>
      cases hbit : s.bit with
      | false => exact Or.inl ⟨by simp [hbit], bit_bts s, by simp [Cpu.exec, Cpu.Inside, hbit]⟩
      | true => exact Or.inr (Or.inr ⟨fun _ => bit_bts s, by simp [Cpu.exec, Cpu.Inside, hbit]⟩)
    case btr => exact Or.inr (Or.inl ⟨trivial, by simp [Cpu.exec, Cpu.Inside]⟩)
    case jnc | jcAgain | jc =>
      refine Or.inr (Or.inr ⟨id, ?_⟩)
      cases hc : carry r <;> simp [Cpu.exec, Cpu.Inside, hc]
    case idle | pushfq | cli | pause | bt | popFlags | held | pushFlags | popfq =>
      exact Or.inr (Or.inr ⟨id, by simp [Cpu.exec, Cpu.Inside]⟩)

/-! What each CPU knows. -/

/-- Where the value the flags register had at the call is: still in it, on the stack, or,
    with the lock, in the `LOCK`. -/
def Cpu.Knows (s : Lock) (c : Cpu) : Prop :=
  match c.pc with
  | .idle => True
  | .pushfq => c.rflags = c.called
  | .held | .pushFlags => s.rflags = c.called
  | _ => c.stack.head? = some c.called

theorem knows_own (s : Lock) (c : Cpu) (s' : Lock) (c' : Cpu) (h : CpuStep s c s' c')
    (hknows : c.Knows s) : c'.Knows s' := by
  cases h with
  | work r st hpc =>
    rcases hpc with hpc | hpc
    · simp [Cpu.Knows, hpc]
    · simpa [Cpu.Knows, hpc] using hknows
  | exec =>
    obtain ⟨pc, r, st, called⟩ := c
    cases pc
    case idle | popfq => simp [Cpu.exec, Cpu.Knows]
    case pushfq | pushFlags | held => simpa [Cpu.exec, Cpu.Knows] using hknows
    case popFlags =>
      have hstack : st.head? = some called := hknows
      simp [Cpu.exec, Cpu.Knows, List.headD_eq_head?_getD, hstack]
    case jnc | jcAgain | jc =>
      have hstack : st.head? = some called := hknows
      cases hc : carry r <;> simpa [Cpu.exec, Cpu.Knows, hc] using hstack
    case cli | bts | pause | bt | btsAgain | btr => simpa [Cpu.exec, Cpu.Knows] using hknows

theorem rflags_written {s s' : Lock} {c c' : Cpu} (h : CpuStep s c s' c')
    (hpc : c.pc ≠ .popFlags) : s'.rflags = s.rflags := by
  cases h with
  | work r st _ => rfl
  | exec =>
    obtain ⟨pc, r, st, called⟩ := c
    cases pc
    case popFlags => exact absurd rfl hpc
    all_goals rfl

/-- The end of `unlock` takes the flags register from the stack. -/
theorem popfq_restores {s s' : Lock} {c c' : Cpu} (h : CpuStep s c s' c') (hpc : c.pc = .popfq)
    (hstack : c.stack.head? = some c.called) : c'.rflags = c.called := by
  cases h with
  | work r st hout => simp [hpc] at hout
  | exec => simp [Cpu.exec, hpc, List.headD_eq_head?_getD, hstack]

/-- A CPU that is not in the guarded code together with another knows the same after a
    step of that one. -/
theorem knows_others (s : Lock) (c d : Cpu) (s' : Lock) (d' : Cpu) (h : CpuStep s d s' d')
    (hapart : ¬ (c.Inside ∧ d.Inside)) (hknows : c.Knows s) : c.Knows s' := by
  by_cases hpop : d.pc = .popFlags
  · have hd : d.Inside := by simp [Cpu.Inside, hpop]
    have hc : ¬ c.Inside := fun hc => hapart ⟨hc, hd⟩
    obtain ⟨pc, r, st, called⟩ := c
    cases pc
    case held | pushFlags => exact absurd trivial hc
    all_goals exact hknows
  · have hsame := rflags_written h hpop
    obtain ⟨pc, r, st, called⟩ := c
    cases pc
    case held | pushFlags => exact hsame.trans hknows
    all_goals exact hknows

/-- From a lock that no CPU is using, however the CPUs' instructions are interleaved: at
    most one CPU is between its successful `bts` and its `btr`; a CPU about to write the
    saved flags, and no other instruction writes them, is alone there; and a CPU that leaves
    `unlock` has the flags register it had when it called `lock`. -/
theorem spinlock_safe {ι : Type*} [DecidableEq ι] {σ₀ σ : State ι Lock Cpu}
    (hidle : ∀ i, (σ₀.locals i).pc = .idle) (hrun : Run CpuStep σ₀ σ) :
    (∀ i j, (σ.locals i).Inside → (σ.locals j).Inside → i = j) ∧
    ∀ i σ', Step CpuStep i σ σ' →
      (σ'.shared.rflags ≠ σ.shared.rflags → (σ.locals i).pc = .popFlags) ∧
      ((σ.locals i).pc = .popFlags → ∀ j, j ≠ i → ¬ (σ.locals j).Inside) ∧
      ((σ.locals i).pc = .popfq → (σ'.locals i).rflags = (σ.locals i).called) := by
  have hout : ∀ i, ¬ (σ₀.locals i).Inside := by
    intro i
    simp [Cpu.Inside, hidle i]
  have hstart : Exclusive (fun s => s.bit = true) Cpu.Inside σ₀ :=
    ⟨fun i _ hi => absurd hi (hout i), fun i hi => absurd hi (hout i)⟩
  have hex := run_exclusive lock_guards hstart hrun
  have hknows : ∀ i, (σ.locals i).Knows σ.shared := by
    apply run_local lock_guards (fun s c => knows_own s c) (fun s c d => knows_others s c d)
      hstart ?_ hrun
    intro i
    simp [Cpu.Knows, hidle i]
  refine ⟨hex.one, fun i σ' hstep => ?_⟩
  obtain ⟨c', hact, hlocals⟩ := hstep
  have hself : σ'.locals i = c' := by rw [hlocals, Function.update_self]
  refine ⟨fun hchanged => ?_, fun hpop j hj hin => ?_, fun hpop => ?_⟩
  · by_contra hpc
    exact hchanged (rflags_written hact hpc)
  · exact hj (hex.one j i hin (by simp [Cpu.Inside, hpop]))
  · have hstack : (σ.locals i).stack.head? = some (σ.locals i).called := by
      have hi := hknows i
      simpa [Cpu.Knows, hpop] using hi
    rw [hself]
    exact popfq_restores hact hpop hstack

/-! A run of two CPUs. -/

section Schedule
variable {ι : Type*} [DecidableEq ι]

/-- The next instruction of CPU `i`. -/
def execAt (σ : State ι Lock Cpu) (i : ι) : State ι Lock Cpu :=
  ⟨((σ.locals i).exec σ.shared).1, Function.update σ.locals i ((σ.locals i).exec σ.shared).2⟩

theorem schedule_run (l : List ι) (σ : State ι Lock Cpu) : Run CpuStep σ (l.foldl execAt σ) := by
  induction l generalizing σ with
  | nil => exact Relation.ReflTransGen.refl
  | cons i l ih =>
    exact Relation.ReflTransGen.head ⟨i, _, CpuStep.exec, rfl⟩ (ih (execAt σ i))

end Schedule

/-- Two CPUs, with interrupts on, and a free lock. -/
def twoCpus : State Bool Lock Cpu := ⟨⟨0, 0⟩, fun _ => ⟨.idle, 0x202, [], 0⟩⟩

/-- One CPU takes the lock while the other spins. -/
def contended : List Bool :=
  [false, false, true, false, false, true, false, true, false, true, true]

theorem spinlock_two_cpus :
    ((contended.foldl execAt twoCpus).locals false) = ⟨.held, 0x2, [], 0x202⟩ ∧
    ¬ ((contended.foldl execAt twoCpus).locals true).Inside := by
  obtain ⟨hone, _⟩ := spinlock_safe (fun _ => rfl) (schedule_run contended twoCpus)
  have hheld : (contended.foldl execAt twoCpus).locals false = ⟨.held, 0x2, [], 0x202⟩ := by
    decide +kernel
  have hinside : ((contended.foldl execAt twoCpus).locals false).Inside := by
    rw [hheld]
    trivial
  exact ⟨hheld, fun hin => absurd (hone false true hinside hin) (by decide)⟩

end Horizon64
