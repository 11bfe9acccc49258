import Horizon64.Irq
import Horizon64.Keyboard
import Horizon64.Ps2
import Horizon64.TextGrid

/- From a key to the screen: the keyboard, its controller, the interrupt and the terminal.

   A code that the keyboard has goes to the controller's data port when that is free, with a
   request on line 1; the interrupt's handler reads the port and gives the character to the
   terminal. That an interrupt finds the handler of its line is in the interrupt tables; here
   the handlers are names, and what happens between two of them is in any order.

   1. The state, the events, and `irq_init` and `keyboard_init` on it.
   2. `Waits` until `keyboard_init`, and `Tracks` from then on: nothing is lost, nothing is
      handled twice, and line 1 requests exactly while a byte is in the port.
   3. `drain_tracks`: with line 1 unmasked, a few interrupts handle whatever waits.
   4. `typed_on_screen`: the screen shows the characters of the codes, in their order. -/
namespace Horizon64
open Bytes

/-- The codes that the keyboard has not handed over, the controllers, `g_irq_handler`, and the
    state of the handler. -/
structure Typing where
  codes : List UInt8
  i8042 : I8042
  chips : Chips
  gIrqHandler : Nat → Option IrqHandler
  keyboard : Keyboard

/-- What happens: the keyboard has another code, it hands one over, the processor takes an
    interrupt, a device or the driver turns to the PIC, or a handler is registered. -/
inductive TypingEvent where
  | key (b : UInt8)
  | deliver
  | interrupt
  | pic (e : PicEvent)
  | irqRegister (irq : Nat) (handler : IrqHandler)

/-- The keyboard waits until the port is free, and requests an interrupt. -/
def Typing.deliver (s : Typing) : Typing :=
  match s.codes with
  | [] => s
  | b :: codes =>
    if s.i8042.firstEnabled = true ∧ s.i8042.queue = [] then
      { s with
        codes := codes
        i8042 := { s.i8042 with queue := [b] }
        chips := s.chips.raise keyboardLine }
    else s

/-- `irq_handler` for a vector, and what the handler gives to `terminal_putc`. The handlers of
    the timers touch nothing of this state. -/
def Typing.irqHandler (s : Typing) (v : UInt8) : Typing × List UInt8 :=
  match s.gIrqHandler (v - picRemapOffset).toNat with
  | some .kbhandler =>
    let keycode := s.i8042.inb ps2DataPort
    let handled := kbhandler s.keyboard keycode.1
    ({ s with i8042 := keycode.2, keyboard := handled.1 }, handled.2.toList)
  | _ => (s, [])

/-- The handler runs to its end: an interrupt gate leaves the interrupts disabled. -/
def Typing.interrupt (s : Typing) : Typing × List UInt8 :=
  match s.chips.acknowledge with
  | none => (s, [])
  | some (v, chips) => { s with chips := chips }.irqHandler v

def Typing.event (s : Typing) : TypingEvent → Typing × List UInt8
  | .key b => ({ s with codes := s.codes ++ [b] }, [])
  | .deliver => (s.deliver, [])
  | .interrupt => s.interrupt
  | .pic e => ({ s with chips := s.chips.step e }, [])
  | .irqRegister irq handler =>
    ({ s with gIrqHandler := Function.update s.gIrqHandler irq (some handler) }, [])

def Typing.step (s : Typing) (e : TypingEvent) : Typing := (s.event e).1

/-- The characters that go to `terminal_putc`. -/
def Typing.printed (s : Typing) (e : TypingEvent) : List UInt8 := (s.event e).2

/-- The codes that the keyboard gets during the events. -/
def keysOf (es : List TypingEvent) : List UInt8 :=
  es.filterMap fun
    | .key b => some b
    | _ => none

/-- Line 1 is the keyboard's: no other device requests on it, nobody but `keyboard_init`
    registers a handler for it or its handler, and an acknowledgement is an interrupt. -/
def TypingEvent.Allowed : TypingEvent → Prop
  | .pic e => e ≠ .acknowledge ∧ e ≠ .raise keyboardLine
  | .irqRegister irq handler => irq ≠ 1 ∧ handler ≠ .kbhandler
  | _ => True

/-- Before `irq_init`. -/
def Typing.start (codes : List UInt8) (c : I8042) (chips : Chips) : Typing :=
  ⟨codes, c, chips, fun _ => none, keyboardZero⟩

/-- `irq_init`. -/
def Typing.irqInit (s : Typing) : Typing :=
  let s := { s with chips := s.chips.probe.1 }
  let s := { s with chips := s.chips.configure picRemapOffset (picRemapOffset + 8) }
  let s := { s with chips := s.chips.unmask 0 }
  { s with gIrqHandler := Function.update s.gIrqHandler 0 (some .clkhandler) }

/-- `keyboard_init`; with a byte in the port it does not return. -/
def Typing.keyboardInit (fuel : Nat) (s : Typing) : Option Typing :=
  (Horizon64.keyboardInit fuel s.i8042 ⟨s.chips.pics, none, 0, s.gIrqHandler⟩).map fun r =>
    { s with i8042 := r.1, chips := s.chips.unmask 1, gIrqHandler := r.2.gIrqHandler }

/-! What is typed. -/

/-- The character of a code, after the codes before it, the last one first. -/
def codeText (before : List UInt8) (b : UInt8) : List UInt8 :=
  if isMake b ∧ ((heldChar before (keyOf b) ≥ 32 ∧ heldChar before (keyOf b) ≤ 126) ∨
      heldChar before (keyOf b) = 8) then [heldChar before (keyOf b)]
  else []

/-- The text of codes, the last one first. -/
def typedText : List UInt8 → List UInt8
  | [] => []
  | b :: before => typedText before ++ codeText before b

/-- Until `keyboard_init`: what is in the port stays there. -/
structure Typing.Waits (s : Typing) (typed : List UInt8) : Prop where
  configured : Configured picRemapOffset (picRemapOffset + 8) s.chips
  handlers : ∀ irq, s.gIrqHandler irq ≠ some .kbhandler
  order : s.i8042.queue ++ s.codes = typed
  line : s.chips.lines.pending keyboardLine = true → s.i8042.queue ≠ []
  keyboard : s.keyboard = keyboardZero

/-- From then on: of what was typed a part has been handled, in order, and line 1 requests
    while a byte is in the port. -/
structure Typing.Tracks (s : Typing) (handled typed : List UInt8) : Prop where
  configured : Configured picRemapOffset (picRemapOffset + 8) s.chips
  handlers : ∀ irq, s.gIrqHandler irq = some .kbhandler ↔ irq = 1
  enabled : s.i8042.firstEnabled = true
  order : handled ++ (s.i8042.queue ++ s.codes) = typed
  one : s.i8042.queue.length ≤ 1
  line : s.chips.lines.pending keyboardLine = true ↔ s.i8042.queue ≠ []
  keyboard : s.keyboard = kbRun handled

/-! The interrupts. -/

theorem acknowledge_first {s : Chips} (h : Configured picRemapOffset (picRemapOffset + 8) s) :
    (s.lines.first = none ∧ s.acknowledge = none) ∨
    ∃ line, s.lines.first = some line ∧
      s.acknowledge = some (irqVector line, s.step .acknowledge) := by
  rcases acknowledge_cases h with hnone | ⟨i, -, hfirst, hack⟩ | ⟨j, hfirst, hack⟩
  · exact Or.inl hnone
  · refine Or.inr ⟨masterLine i, hfirst, ?_⟩
    rw [Chips.step, hack, lineVector_irq]
    rfl
  · refine Or.inr ⟨slaveLine j, hfirst, ?_⟩
    rw [Chips.step, hack, lineVector_irq]
    rfl

theorem irqVector_line (line : Fin 16) : (irqVector line - picRemapOffset).toNat = line.val := by
  revert line
  decide

/-- The keyboard's line comes after the timer's. -/
theorem first_timer_or_keyboard {l : Lines} (h : l.accepts keyboardLine = true) :
    l.first = if l.accepts timerLine then some timerLine else some keyboardLine := by
  have horder : linePriority = timerLine :: keyboardLine :: linePriority.drop 2 := by decide
  rw [Lines.first, horder]
  cases htimer : l.accepts timerLine with
  | true => rw [List.find?_cons_of_pos htimer, if_pos rfl]
  | false =>
    rw [List.find?_cons_of_neg (by rw [htimer]; decide), List.find?_cons_of_pos h,
      if_neg Bool.false_ne_true]

theorem irqHandler_other {s : Typing} {line : Fin 16}
    (h : s.gIrqHandler line.val ≠ some .kbhandler) : s.irqHandler (irqVector line) = (s, []) := by
  rw [Typing.irqHandler, irqVector_line]
  cases hentry : s.gIrqHandler line.val with
  | none => rfl
  | some handler =>
    cases handler with
    | kbhandler => exact absurd hentry h
    | clkhandler => rfl
    | clkhandlerTwo => rfl

theorem irqHandler_keyboard {s : Typing} {b : UInt8} {queue : List UInt8}
    (h : s.gIrqHandler 1 = some .kbhandler) (hqueue : s.i8042.queue = b :: queue) :
    s.irqHandler (irqVector keyboardLine) =
      ({ s with
          i8042 := { s.i8042 with queue := queue, last := b }
          keyboard := (kbhandler s.keyboard b).1 }, (kbhandler s.keyboard b).2.toList) := by
  have hread : s.i8042.inb ps2DataPort = (b, { s.i8042 with queue := queue, last := b }) := by
    simp [I8042.inb, ps2DataPort, hqueue]
  rw [Typing.irqHandler, irqVector_line, show keyboardLine.val = 1 from rfl, h]
  dsimp only
  rw [hread]

/-- An interrupt: the handler of the first line runs. -/
theorem interrupt_cases {s : Typing}
    (h : Configured picRemapOffset (picRemapOffset + 8) s.chips) :
    (s.chips.lines.first = none ∧ s.interrupt = (s, [])) ∨
    ∃ line, s.chips.lines.first = some line ∧
      s.interrupt = { s with chips := s.chips.step .acknowledge }.irqHandler (irqVector line) := by
  rcases acknowledge_first h with ⟨hfirst, hack⟩ | ⟨line, hfirst, hack⟩
  · exact Or.inl ⟨hfirst, by rw [Typing.interrupt, hack]⟩
  · exact Or.inr ⟨line, hfirst, by rw [Typing.interrupt, hack]⟩

theorem pending_keyboard (l : Lines) {e : PicEvent} (hack : e ≠ .acknowledge)
    (hraise : e ≠ .raise keyboardLine) :
    (l.step e).pending keyboardLine = l.pending keyboardLine := by
  cases e with
  | acknowledge => exact absurd rfl hack
  | raise line =>
    have hne : keyboardLine ≠ line := fun he => hraise (he ▸ rfl)
    rw [Lines.step]
    split
    · rfl
    · exact Function.update_of_ne hne _ _
  | _ => rfl

theorem pending_served {l : Lines} {line : Fin 16} (hfirst : l.first = some line)
    (k : Fin 16) : (l.step .acknowledge).pending k = (decide (k ≠ line) && l.pending k) := by
  rw [Lines.step, hfirst]
  dsimp only
  by_cases hk : k = line
  · rw [hk, Function.update_self, decide_eq_false (not_not.mpr rfl), Bool.false_and]
  · rw [Function.update_of_ne hk, decide_eq_true hk, Bool.true_and]

theorem unmask_pending {o₁ o₂ : UInt8} {s : Chips} (h : Configured o₁ o₂ s) (irq : Nat) :
    (s.unmask irq).lines.pending = s.lines.pending := by
  obtain ⟨mask, hmask⟩ : ∃ mask, mask = s.gPicMask &&& ~~~(irqBit irq) := ⟨_, rfl⟩
  have hshadow : Configured o₁ o₂ { s with gPicMask := mask } := { h with }
  obtain ⟨hlow, hlow', -⟩ := step_lines hshadow (.mask1 (mask &&& 0xFF).toUInt8)
  have hhigh := (step_lines hlow (.mask2 (mask >>> 8).toUInt8)).2.1
  rw [hlow'] at hhigh
  have hpending := congrArg Lines.pending hhigh
  rw [Chips.unmask, ← hmask]
  exact hpending

/-! Until `keyboard_init`. -/

section Waits
variable {s : Typing} {typed : List UInt8}

theorem waits_step (h : s.Waits typed) {e : TypingEvent} (he : e.Allowed) :
    (s.step e).Waits (typed ++ keysOf [e]) := by
  cases e with
  | key b =>
    refine ⟨h.configured, h.handlers, ?_, h.line, h.keyboard⟩
    change s.i8042.queue ++ (s.codes ++ [b]) = typed ++ [b]
    rw [← h.order, List.append_assoc]
  | deliver =>
    rw [show keysOf [.deliver] = [] from rfl, List.append_nil]
    change s.deliver.Waits typed
    rw [Typing.deliver]
    cases hcodes : s.codes with
    | nil => exact h
    | cons b codes =>
      dsimp only
      split
      · rename_i hfree
        refine ⟨(step_lines h.configured (.raise keyboardLine)).1, h.handlers, ?_,
          fun _ => List.cons_ne_nil _ _, h.keyboard⟩
        have horder := h.order
        rwa [hcodes, hfree.2] at horder
      · exact h
  | interrupt =>
    rw [show keysOf [.interrupt] = [] from rfl, List.append_nil]
    change s.interrupt.1.Waits typed
    rcases interrupt_cases h.configured with ⟨-, hrun⟩ | ⟨line, hfirst, hrun⟩
    · rw [hrun]
      exact h
    · have hother := @irqHandler_other { s with chips := s.chips.step .acknowledge } line
        (h.handlers line.val)
      rw [hrun, hother]
      obtain ⟨hconf, hlines, -⟩ := step_lines h.configured .acknowledge
      refine ⟨hconf, h.handlers, h.order, fun hpending => h.line ?_, h.keyboard⟩
      rw [hlines, pending_served hfirst, Bool.and_eq_true] at hpending
      exact hpending.2
  | pic e =>
    rw [show keysOf [.pic e] = [] from rfl, List.append_nil]
    obtain ⟨hconf, hlines, -⟩ := step_lines h.configured e
    refine ⟨hconf, h.handlers, h.order, fun hpending => h.line ?_, h.keyboard⟩
    rwa [← pending_keyboard s.chips.lines he.1 he.2, ← hlines]
  | irqRegister irq handler =>
    rw [show keysOf [.irqRegister irq handler] = [] from rfl, List.append_nil]
    refine ⟨h.configured, fun i => ?_, h.order, h.line, h.keyboard⟩
    change Function.update s.gIrqHandler irq (some handler) i ≠ _
    rw [Function.update_apply]
    split
    · exact fun heq => he.2 (Option.some.inj heq)
    · exact h.handlers i

theorem keysOf_cons (e : TypingEvent) (es : List TypingEvent) :
    keysOf (e :: es) = keysOf [e] ++ keysOf es :=
  List.filterMap_append (l := [e])

theorem run_waits_keys {es : List TypingEvent} (hes : ∀ e ∈ es, e.Allowed) (h : s.Waits typed) :
    (es.foldl Typing.step s).Waits (typed ++ keysOf es) := by
  induction es generalizing s typed with
  | nil => simpa [keysOf] using h
  | cons e es ih =>
    rw [keysOf_cons, ← List.append_assoc]
    exact ih (fun d hd => hes d (List.mem_cons_of_mem e hd))
      (waits_step h (hes e List.mem_cons_self))

theorem waits_start {codes : List UInt8} {c : I8042} {chips : Chips} (h : chips.Listening) :
    (Typing.start codes c chips).irqInit.Waits (c.queue ++ codes) := by
  have hagree := (probe_found h).2
  obtain ⟨hconf, hlines⟩ := configured_start (congrArg I8259.next hagree.master)
    (congrArg I8259.next hagree.slave) picRemapOffset (picRemapOffset + 8)
  refine ⟨setMask_configured hconf _, fun irq => ?_, rfl, fun hpending => ?_, rfl⟩
  · change Function.update _ 0 _ irq ≠ _
    rw [Function.update_apply]
    split <;> simp [Typing.start]
  · have hnone : (chips.probe.1.configure picRemapOffset (picRemapOffset + 8)).lines.pending
        keyboardLine = false := by
      rw [hlines]
      rfl
    have hunmask := congrFun (unmask_pending hconf 0) keyboardLine
    exact absurd (hunmask.symm.trans hpending) (by rw [hnone]; decide)

end Waits

/-! `keyboard_init`. -/

/-- What `keyboard_init` does to the masks it does on the whole controllers. -/
theorem keyboardInit_pics {fuel : Nat} {s : Typing} {r : I8042 × Tick}
    (h : keyboardInit fuel s.i8042 ⟨s.chips.pics, none, 0, s.gIrqHandler⟩ = some r) :
    r.2.pics = (s.chips.unmask 1).pics := by
  rw [Chips.unmask, setMask_pics]
  rw [keyboardInit] at h
  split at h
  · cases h
  · rw [Option.some.injEq] at h
    rw [← h]
    rfl

/-- It returns with the port empty, and from then on the codes are tracked. -/
theorem keyboardInit_tracks {s s' : Typing} {typed : List UInt8} (h : s.Waits typed) {fuel : Nat}
    (hinit : s.keyboardInit fuel = some s') : s'.Tracks [] typed := by
  rw [Typing.keyboardInit, Option.map_eq_some_iff] at hinit
  obtain ⟨⟨c, t⟩, hrun, rfl⟩ := hinit
  rw [keyboardInit] at hrun
  split at hrun
  · cases hrun
  · rename_i d hflush
    rw [Option.some.injEq, Prod.mk.injEq] at hrun
    obtain ⟨hc, ht⟩ := hrun
    have hqueue : s.i8042.queue = [] :=
      (flush_returns_iff ((s.i8042.outb ps2CommandRegister commandDisableFirstPs2Port).outb
        ps2CommandRegister commandDisableSecondPs2Port)).mp ⟨fuel, d, hflush⟩
    obtain ⟨n, -, -, hd⟩ := While.run_eq_some_iff.mp hflush
    rw [flushRound_iterate] at hd
    have hempty : c.queue = [] := by
      rw [← hc, hd]
      exact hqueue
    have hline : s.chips.lines.pending keyboardLine = false := by
      cases hp : s.chips.lines.pending keyboardLine with
      | false => rfl
      | true => exact absurd hqueue (h.line hp)
    refine ⟨setMask_configured h.configured _, fun irq => ?_, ?_, ?_, ?_, ?_, h.keyboard⟩
    · have htable : t.gIrqHandler = Function.update s.gIrqHandler 1 (some .kbhandler) := by
        rw [← ht]
        rfl
      dsimp only
      rw [htable, Function.update_apply]
      by_cases hirq : irq = 1
      · simp [hirq]
      · simp [hirq, h.handlers irq]
    · rw [← hc]
      rfl
    · have horder := h.order
      rw [hqueue, List.nil_append] at horder
      rw [List.nil_append, hempty, List.nil_append, horder]
    · rw [hempty]
      exact Nat.zero_le 1
    · have hunmask := congrFun (unmask_pending h.configured 1) keyboardLine
      dsimp only
      rw [hempty, hunmask, hline]
      simp

/-! From then on. -/

section Tracks
variable {s : Typing} {handled typed : List UInt8}

/-- What is handled gives the text of the codes. -/
theorem kbhandler_text (handled : List UInt8) (b : UInt8) :
    (kbhandler (kbRun handled) b).2.toList = codeText handled.reverse b := by
  rw [kbhandler_char, codeText]
  split <;> rfl

/-- An interrupt of another line, or the one of the keyboard with the byte in the port. -/
theorem tracks_interrupt (h : s.Tracks handled typed) :
    (s.step .interrupt).chips.lines = s.chips.lines.step .acknowledge ∧
    ((s.chips.lines.first ≠ some keyboardLine ∧ (s.step .interrupt).Tracks handled typed ∧
        (s.step .interrupt).i8042 = s.i8042 ∧ s.printed .interrupt = []) ∨
      ∃ b, s.chips.lines.first = some keyboardLine ∧
        (s.step .interrupt).Tracks (handled ++ [b]) typed ∧
        s.printed .interrupt = codeText handled.reverse b) := by
  have hrun : ∀ r, s.interrupt = r → s.step .interrupt = r.1 ∧ s.printed .interrupt = r.2 :=
    fun r hr => ⟨congrArg Prod.fst hr, congrArg Prod.snd hr⟩
  obtain ⟨hconf, hlines, -⟩ := step_lines h.configured .acknowledge
  rcases interrupt_cases h.configured with ⟨hfirst, hnone⟩ | ⟨line, hfirst, hsome⟩
  · obtain ⟨hstep, hprint⟩ := hrun _ hnone
    have hsame : s.chips.lines.step .acknowledge = s.chips.lines := by
      rw [Lines.step, hfirst]
    rw [hstep, hprint, hfirst]
    exact ⟨hsame.symm, Or.inl ⟨by simp, h, rfl, rfl⟩⟩
  · by_cases hline : line = keyboardLine
    · subst hline
      have hpending : s.chips.lines.pending keyboardLine = true := (Lines.first_pending hfirst).2
      obtain ⟨b, hqueue⟩ : ∃ b, s.i8042.queue = [b] :=
        List.length_eq_one_iff.mp (Nat.le_antisymm h.one
          (List.length_pos_iff.mpr (h.line.mp hpending)))
      have hhandler := @irqHandler_keyboard { s with chips := s.chips.step .acknowledge } b []
        ((h.handlers 1).mpr rfl) hqueue
      obtain ⟨hstep, hprint⟩ := hrun _ (hsome.trans hhandler)
      rw [hstep, hprint]
      refine ⟨hlines, Or.inr ⟨b, hfirst,
        ⟨hconf, h.handlers, h.enabled, ?_, Nat.zero_le 1, ?_, ?_⟩, ?_⟩⟩
      · have horder := h.order
        rw [hqueue, ← List.append_assoc] at horder
        rw [List.nil_append]
        exact horder
      · rw [hlines, pending_served hfirst, decide_eq_false (not_not.mpr rfl)]
        simp
      · dsimp only
        rw [h.keyboard, kbRun, kbRun, List.foldl_append]
        rfl
      · dsimp only
        rw [h.keyboard, kbhandler_text]
    · have hother := @irqHandler_other { s with chips := s.chips.step .acknowledge } line
        (fun hk => hline (Fin.ext ((h.handlers line.val).mp hk)))
      obtain ⟨hstep, hprint⟩ := hrun _ (hsome.trans hother)
      rw [hstep, hprint]
      refine ⟨hlines, Or.inl ⟨fun hk => hline (Option.some.inj (hfirst.symm.trans hk)),
        ⟨hconf, h.handlers, h.enabled, h.order, h.one, ?_, h.keyboard⟩, rfl, rfl⟩⟩
      rw [hlines, pending_served hfirst, decide_eq_true (Ne.symm hline), Bool.true_and]
      exact h.line

theorem tracks_deliver (h : s.Tracks handled typed) :
    s.deliver.Tracks handled typed ∧ s.deliver.chips.lines.masked = s.chips.lines.masked ∧
    (handled ≠ typed → s.deliver.i8042.queue ≠ []) := by
  rw [Typing.deliver]
  cases hcodes : s.codes with
  | nil =>
    refine ⟨h, rfl, fun hwaits hempty => hwaits ?_⟩
    have horder := h.order
    rwa [hcodes, hempty, List.append_nil, List.append_nil] at horder
  | cons b codes =>
    dsimp only
    by_cases hfree : s.i8042.firstEnabled = true ∧ s.i8042.queue = []
    · rw [if_pos hfree]
      obtain ⟨hconf, hlines, -⟩ := step_lines h.configured (.raise keyboardLine)
      have hnot2 : ¬ keyboardLine = 2 := by decide
      have hraise : (s.chips.raise keyboardLine).lines =
          { s.chips.lines with
            pending := Function.update s.chips.lines.pending keyboardLine true } := by
        rw [Lines.step, if_neg hnot2] at hlines
        exact hlines
      refine ⟨⟨hconf, h.handlers, h.enabled, ?_, Nat.le_refl 1, ?_, h.keyboard⟩, ?_,
        fun _ => List.cons_ne_nil _ _⟩
      · have horder := h.order
        rwa [hcodes, hfree.2] at horder
      · dsimp only
        rw [hraise]
        simp
      · dsimp only
        rw [hraise]
    · rw [if_neg hfree]
      refine ⟨h, rfl, fun _ hempty => hfree ⟨h.enabled, hempty⟩⟩

/-- An event keeps track: it handles nothing, or the next code and prints its character. -/
theorem tracks_step (h : s.Tracks handled typed) {e : TypingEvent} (he : e.Allowed) :
    ∃ more, (s.step e).Tracks (handled ++ more) (typed ++ keysOf [e]) ∧
      typedText (handled ++ more).reverse = typedText handled.reverse ++ s.printed e := by
  have hquiet : ∀ {s' : Typing}, s.event e = (s', []) → s'.Tracks handled (typed ++ keysOf [e]) →
      ∃ more, (s.step e).Tracks (handled ++ more) (typed ++ keysOf [e]) ∧
        typedText (handled ++ more).reverse = typedText handled.reverse ++ s.printed e := by
    intro s' hevent htracks
    refine ⟨[], ?_, ?_⟩
    · rw [List.append_nil, Typing.step, hevent]
      exact htracks
    · rw [Typing.printed, hevent, List.append_nil, List.append_nil]
  cases e with
  | key b =>
    refine hquiet rfl ⟨h.configured, h.handlers, h.enabled, ?_, h.one, h.line, h.keyboard⟩
    change handled ++ (s.i8042.queue ++ (s.codes ++ [b])) = typed ++ [b]
    rw [← h.order, List.append_assoc, List.append_assoc]
  | deliver =>
    refine hquiet rfl ?_
    rw [show keysOf [.deliver] = [] from rfl, List.append_nil]
    exact (tracks_deliver h).1
  | interrupt =>
    rw [show keysOf [.interrupt] = [] from rfl, List.append_nil]
    obtain ⟨-, ⟨-, htracks, -, hprint⟩ | ⟨b, -, htracks, hprint⟩⟩ := tracks_interrupt h
    · exact ⟨[], by rwa [List.append_nil], by rw [hprint, List.append_nil, List.append_nil]⟩
    · refine ⟨[b], htracks, ?_⟩
      rw [hprint, List.reverse_append]
      rfl
  | pic e =>
    refine hquiet rfl ?_
    rw [show keysOf [.pic e] = [] from rfl, List.append_nil]
    obtain ⟨hconf, hlines, -⟩ := step_lines h.configured e
    refine ⟨hconf, h.handlers, h.enabled, h.order, h.one, ?_, h.keyboard⟩
    dsimp only
    rw [hlines, pending_keyboard s.chips.lines he.1 he.2]
    exact h.line
  | irqRegister irq handler =>
    refine hquiet rfl ?_
    rw [show keysOf [.irqRegister irq handler] = [] from rfl, List.append_nil]
    refine ⟨h.configured, fun i => ?_, h.enabled, h.order, h.one, h.line, h.keyboard⟩
    dsimp only
    rw [Function.update_apply]
    by_cases hi : i = irq
    · have hne : i ≠ 1 := fun h1 => he.1 (hi ▸ h1)
      simp [hi, he.1, he.2]
    · rw [if_neg hi]
      exact h.handlers i

theorem run_tracks {es : List TypingEvent} (hes : ∀ e ∈ es, e.Allowed)
    (h : s.Tracks handled typed) :
    ∃ more, (es.foldl Typing.step s).Tracks (handled ++ more) (typed ++ keysOf es) ∧
      typedText (handled ++ more).reverse =
        typedText handled.reverse ++ Folds.trace Typing.step Typing.printed s es := by
  induction es generalizing s handled typed with
  | nil => exact ⟨[], by simpa [keysOf] using h, by simp [Folds.trace]⟩
  | cons e es ih =>
    obtain ⟨more₁, htracks₁, htext₁⟩ := tracks_step h (hes e List.mem_cons_self)
    obtain ⟨more₂, htracks₂, htext₂⟩ :=
      ih (fun d hd => hes d (List.mem_cons_of_mem e hd)) htracks₁
    refine ⟨more₁ ++ more₂, ?_, ?_⟩
    · rw [keysOf_cons, ← List.append_assoc, ← List.append_assoc]
      exact htracks₂
    · rw [← List.append_assoc, htext₂, htext₁, Folds.trace, List.append_assoc]

theorem Typing.Tracks.length_le (h : s.Tracks handled typed) : handled.length ≤ typed.length := by
  rw [← h.order, List.length_append]
  exact Nat.le_add_right _ _

/-- The byte in the port is handled at the first or at the second interrupt. -/
theorem interrupts_handle (h : s.Tracks handled typed)
    (hopen : s.chips.lines.masked keyboardLine = false) (hqueue : s.i8042.queue ≠ []) :
    ∃ b, ([.interrupt, .interrupt].foldl Typing.step s).Tracks (handled ++ [b]) typed := by
  have haccepts : s.chips.lines.accepts keyboardLine = true := by
    rw [Lines.accepts, h.line.mpr hqueue, hopen]
    rfl
  have hfirst := first_timer_or_keyboard haccepts
  obtain ⟨hlines, ⟨hnot, htracks, hport, -⟩ | ⟨b, hkeyboard, htracks, -⟩⟩ := tracks_interrupt h
  · -- the timer comes first, and then the keyboard
    have htimer : s.chips.lines.accepts timerLine = true := by
      by_contra hoff
      exact hnot (hfirst.trans (if_neg hoff))
    rw [if_pos htimer] at hfirst
    have hserved : (s.step .interrupt).chips.lines.accepts timerLine = false := by
      rw [hlines, Lines.accepts, pending_served hfirst]
      rfl
    have hmasked : (s.step .interrupt).chips.lines.masked keyboardLine = false := by
      rw [hlines, Lines.step, hfirst]
      exact hopen
    have haccepts' : (s.step .interrupt).chips.lines.accepts keyboardLine = true := by
      rw [Lines.accepts, htracks.line.mpr (hport ▸ hqueue), hmasked]
      rfl
    have hfirst' := first_timer_or_keyboard haccepts'
    rw [hserved, if_neg Bool.false_ne_true] at hfirst'
    obtain ⟨-, ⟨hnot', -⟩ | ⟨b, -, htracks', -⟩⟩ := tracks_interrupt htracks
    · exact absurd hfirst' hnot'
    · exact ⟨b, htracks'⟩
  · -- the port is empty, so the second interrupt is another line's
    obtain ⟨-, ⟨-, htracks', -⟩ | ⟨c, hfirst', -⟩⟩ := tracks_interrupt htracks
    · exact ⟨b, htracks'⟩
    · have hserved : (s.step .interrupt).chips.lines.pending keyboardLine = false := by
        rw [hlines, pending_served hkeyboard]
        rfl
      exact absurd (Lines.first_pending hfirst').2 (by rw [hserved]; decide)

theorem interrupt_masked (h : s.Tracks handled typed) :
    (s.step .interrupt).chips.lines.masked = s.chips.lines.masked := by
  rw [(tracks_interrupt h).1, Lines.step]
  split <;> rfl

/-- A code is handed over, and two interrupts follow. -/
def drainRound : List TypingEvent := [.deliver, .interrupt, .interrupt]

/-- After a round another code is handled, if there is one. -/
theorem round_tracks (h : s.Tracks handled typed)
    (hopen : s.chips.lines.masked keyboardLine = false) :
    ∃ all, (drainRound.foldl Typing.step s).Tracks all typed ∧
      (drainRound.foldl Typing.step s).chips.lines.masked keyboardLine = false ∧
      all.length = min typed.length (handled.length + 1) := by
  obtain ⟨hdeliver, hmasked, hfull⟩ := tracks_deliver h
  have hopen' : s.deliver.chips.lines.masked keyboardLine = false := by
    rw [hmasked]
    exact hopen
  have hallowed : ∀ e ∈ [TypingEvent.interrupt, .interrupt], e.Allowed := by
    intro e he
    rw [List.eq_of_mem_replicate (n := 2) he]
    trivial
  have hkeep : (drainRound.foldl Typing.step s).chips.lines.masked keyboardLine = false := by
    obtain ⟨more, htracks, -⟩ := tracks_step hdeliver (hallowed _ List.mem_cons_self)
    change ((s.deliver.step .interrupt).step .interrupt).chips.lines.masked keyboardLine = false
    rw [interrupt_masked htracks, interrupt_masked hdeliver]
    exact hopen'
  have hlength := h.length_le
  by_cases hall : handled = typed
  · obtain ⟨more, htracks, -⟩ := run_tracks hallowed hdeliver
    rw [show keysOf [TypingEvent.interrupt, .interrupt] = [] from rfl, List.append_nil] at htracks
    have hmore := htracks.length_le
    rw [List.length_append] at hmore
    refine ⟨handled ++ more, htracks, hkeep, ?_⟩
    rw [List.length_append, hall] at *
    omega
  · obtain ⟨b, htracks⟩ := interrupts_handle hdeliver hopen' (hfull hall)
    have hmore := htracks.length_le
    rw [List.length_append, List.length_singleton] at hmore
    refine ⟨handled ++ [b], htracks, hkeep, ?_⟩
    rw [List.length_append, List.length_singleton]
    omega

/-- With line 1 unmasked, rounds handle what waits, a code each. -/
theorem drain_tracks (n : Nat) (h : s.Tracks handled typed)
    (hopen : s.chips.lines.masked keyboardLine = false) :
    ∃ all, ((List.replicate n drainRound).flatten.foldl Typing.step s).Tracks all typed ∧
      all.length = min typed.length (handled.length + n) := by
  induction n generalizing s handled with
  | zero => exact ⟨handled, h, (Nat.min_eq_right h.length_le).symm⟩
  | succ n ih =>
    obtain ⟨all₁, htracks₁, hopen₁, hlength₁⟩ := round_tracks h hopen
    obtain ⟨all, htracks, hlength⟩ := ih htracks₁ hopen₁
    rw [List.replicate_succ, List.flatten_cons, List.foldl_append]
    exact ⟨all, htracks, by omega⟩

end Tracks

/-! The screen. -/

/-- The cursor is on a row of the screen, or at the start of the one below. -/
def TextGrid.OnRows (size : GridSize) (g : TextGrid) : Prop :=
  g.row < size.height ∨ (g.row = size.height ∧ g.col = 1)

theorem typedText_ne_newline (codes : List UInt8) : ∀ c ∈ typedText codes, c ≠ 10 := by
  induction codes with
  | nil => exact fun c hc => absurd hc List.not_mem_nil
  | cons b before ih =>
    intro c hc
    rw [typedText, List.mem_append] at hc
    rcases hc with hc | hc
    · exact ih c hc
    · rw [codeText] at hc
      split at hc
      · rename_i hprint
        rw [List.mem_singleton.mp hc]
        rintro heq
        rw [heq] at hprint
        exact absurd hprint.2 (by decide)
      · exact absurd hc List.not_mem_nil

section Rows
variable {size : GridSize} {g : TextGrid} (hwide : 3 ≤ size.width) (hheight : 1 ≤ size.height)
include hwide hheight

theorem putc_onRows (h : g.OnRows size) {c : UInt8} (hc : c ≠ 10) :
    (g.putc size c).OnRows size := by
  rw [TextGrid.putc, if_neg hc]
  by_cases hback : c = 8
  · rw [if_pos hback]
    refine h.imp id fun hbelow => ⟨hbelow.1, ?_⟩
    change (if g.col ≤ 1 then g.col else g.col - 1) = 1
    rw [hbelow.2, if_pos (Nat.le_refl 1)]
  · rw [if_neg hback, TextGrid.push]
    have hrow : (g.draw c).row = g.row := rfl
    have hcol : (g.draw c).col = g.col := rfl
    rw [hrow, hcol]
    by_cases hend : size.width ≤ g.col + 1
    · rw [if_pos hend]
      rcases h with habove | hbelow
      · exact (Nat.lt_or_eq_of_le (Nat.succ_le_of_lt habove)).imp id fun heq => ⟨heq, rfl⟩
      · omega
    · rw [if_neg hend]
      by_cases hscroll : size.height ≤ g.row ∧ ¬ (g.row = size.height ∧ g.col = 0)
      · rw [if_pos hscroll]
        refine Or.inl ?_
        rcases h with habove | hbelow
        · omega
        · change g.row - 1 < size.height
          omega
      · rw [if_neg hscroll]
        refine Or.inl ?_
        rcases h with habove | hbelow
        · exact habove
        · omega

theorem text_staysInRange (hrange : size.height * size.charSize < 2 ^ 31) {text : List UInt8}
    (htext : ∀ c ∈ text, c ≠ 10) (h : g.OnRows size) :
    g.StaysInRange size (text.map .putc) := by
  induction text generalizing g with
  | nil => trivial
  | cons c text ih =>
    refine ⟨?_, ih (fun d hd => htext d (List.mem_cons_of_mem c hd))
      (putc_onRows hwide hheight h (htext c List.mem_cons_self))⟩
    have hrow : g.row ≤ size.height := by
      rcases h with habove | hbelow
      · exact Nat.le_of_lt habove
      · exact Nat.le_of_eq hbelow.1
    exact Nat.lt_of_le_of_lt (Nat.mul_le_mul_right _ hrow) hrange

end Rows

/-- From the keys to the screen. Whatever the devices and the driver do before and after
    `keyboard_init`, if it returns: the codes are handled in the order of the keys, each of
    them once; what is not handled waits in the port or in the keyboard; the screen shows the
    characters of what is handled; and with line 1 unmasked, codes handed over and interrupts
    handle the rest. -/
theorem typed_on_screen {chips : Chips} (hchips : chips.Listening) (codes : List UInt8) (c : I8042)
    {before after : List TypingEvent} (hbefore : ∀ e ∈ before, e.Allowed)
    (hafter : ∀ e ∈ after, e.Allowed) {fuel : Nat} {s : Typing}
    (hinit : (before.foldl Typing.step (Typing.start codes c chips).irqInit).keyboardInit fuel =
      some s) {screen : TextScreen} {file m : Memory} {t : Terminal} {g : TextGrid}
    (hsize : 0 < screen.font.header.characterSize.toNat) (hwide : 3 ≤ screen.term.width.toNat)
    (hheight : 1 ≤ screen.term.height.toNat)
    (hpixels : screen.term.framebuffer.height.toNat < 2 ^ 31) (hshows : Shows screen file t m g)
    (hrows : g.OnRows screen.size) :
    ∃ handled,
      (after.foldl Typing.step s).Tracks handled
        (c.queue ++ codes ++ keysOf before ++ keysOf after) ∧
      Folds.trace Typing.step Typing.printed s after = typedText handled.reverse ∧
      (∃ t' m', ((Folds.trace Typing.step Typing.printed s after).map TerminalCall.putc).foldlM
          (TerminalCall.run screen.font file) (t, m) = some (t', m') ∧
        Shows screen file t' m' ((typedText handled.reverse).foldl (TextGrid.putc screen.size) g) ∧
        ∀ b, ¬ screen.term.framebuffer.Holds b → m' b = m b) ∧
      ((after.foldl Typing.step s).chips.lines.masked keyboardLine = false → ∀ n, ∃ all,
        ((List.replicate n drainRound).flatten.foldl Typing.step
          (after.foldl Typing.step s)).Tracks all
            (c.queue ++ codes ++ keysOf before ++ keysOf after) ∧
        all.length =
          min (c.queue ++ codes ++ keysOf before ++ keysOf after).length (handled.length + n)) := by
  have hwaits := run_waits_keys hbefore (@waits_start codes c chips hchips)
  obtain ⟨handled, htracks, htext⟩ := run_tracks hafter (keyboardInit_tracks hwaits hinit)
  rw [List.nil_append] at htracks htext
  rw [List.reverse_nil, typedText, List.nil_append] at htext
  refine ⟨handled, htracks, htext.symm, ?_, fun hopen n => drain_tracks n htracks hopen⟩
  have hrange : screen.size.height * screen.size.charSize < 2 ^ 31 :=
    Nat.lt_of_le_of_lt screen.rows hpixels
  have hstays : g.StaysInRange screen.size ((typedText handled.reverse).map .putc) :=
    text_staysInRange hwide hheight hrange (typedText_ne_newline handled.reverse) hrows
  obtain ⟨t', m', hrun, hshows', hframe⟩ :=
    run_shows hsize hshows (Nat.le_trans (by decide) hwide) hheight _ hstays
  rw [← htext]
  refine ⟨t', m', hrun, ?_, hframe⟩
  rw [List.foldl_map] at hshows'
  exact hshows'

/-- The key of the letter h, typed after `keyboard_init`. -/
def hPressed : List TypingEvent := [.key 0x23, .deliver, .interrupt]

/-- The letter on a cleared screen, in a font without blank pixels. -/
theorem typed_on_screen_h : ∃ t' m',
    [TerminalCall.clear, .putc 104].foldlM (TerminalCall.run (smallText 1).font fun _ => 0xFF)
      ((smallText 1).term, fun _ => 0) = some (t', m') ∧
    view smallScreen m' (1, 3) = colorWhite ∧ view smallScreen m' (8, 3) = colorBlack := by
  obtain ⟨p, hp⟩ : ∃ p, p = terminalClear (smallText 1).term fun _ => 0 := ⟨_, rfl⟩
  have hrun_clear : ∀ (t : Terminal) (m : Memory),
      TerminalCall.run (smallText 1).font (fun _ => 0xFF) (t, m) .clear =
        some ((terminalClear t m).1, (terminalClear t m).2) := fun _ _ => rfl
  have hclear := (@clear_shows (smallText 1) (smallText 1).term (fun _ => 0xFF) (fun _ => 0) rfl rfl
    rfl (by decide)).1
  rw [← hp] at hclear
  have hallowed : ∀ e ∈ hPressed, e.Allowed := by simp [hPressed, TypingEvent.Allowed]
  obtain ⟨s, hinit⟩ : ∃ s,
      (Typing.start [] ⟨[], 0, 0, true, true⟩ chipsAtBoot).irqInit.keyboardInit 1 = some s :=
    ⟨_, rfl⟩
  obtain ⟨handled, htracks, htext, ⟨t', m', hrun, hshows, -⟩, -⟩ :=
    @typed_on_screen chipsAtBoot ⟨rfl, rfl⟩ [] ⟨[], 0, 0, true, true⟩ [] hPressed
      (fun e he => absurd he List.not_mem_nil) hallowed 1 s hinit _ _ _ _ _ (by decide) (by decide)
      (by decide) (by decide) hclear (Or.inl (by decide))
  have hprinted : Folds.trace Typing.step Typing.printed s hPressed = [104] := by
    cases hinit
    decide
  rw [hprinted] at hrun htext
  rw [← htext] at hshows
  refine ⟨t', m', ?_, (hshows.pixels (1, 3) (by decide)).trans (by decide),
    (hshows.pixels (8, 3) (by decide)).trans (by decide)⟩
  rw [List.foldlM_cons, hrun_clear, ← hp, Option.bind_eq_bind, Option.bind_some]
  exact hrun

end Horizon64
