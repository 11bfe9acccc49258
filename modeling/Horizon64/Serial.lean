import Horizon64.Psf
import Mathlib.Data.List.Infix

/- The serial port of `dev/serial.c`, on a 16550.

   Between any two accesses of the driver bytes may come in from the line and go out on it.

   1. The chip, its line, and `serial_init`.
   2. `serial_init_iff`: the value that `serial_init` writes to the modem control register
      has bit 4 clear, so the chip is never in loopback. What is compared with the test byte
      is what the other end sent, and the test byte itself goes out on the line.
   3. The calls after it. A poll that lets a call go on stays true until the call's access,
      since the line only empties the transmitter and fills the receiver (`Able`).
   4. `serial_in_order`: every byte written goes out once and in order, every byte that
      comes in is read once and in order, unless the receiver overruns, and no call waits
      for ever on a line that moves. After a failed `serial_init` nothing is written. -/
namespace Horizon64

def com1 : UInt16 := 0x3F8
def baudRate : UInt32 := 38400
def maxRate : UInt32 := 115200
def errNoErr : UInt8 := 1
def errSerialFaulty : UInt8 := 2

/-! The chip. -/

/-- The registers, and whether the queues are in use. -/
structure UartRegs where
  ier : UInt8
  lcr : UInt8
  mcr : UInt8
  divisorLow : UInt8
  divisorHigh : UInt8
  fifo : Bool
  deriving DecidableEq

/-- Bit 7 of the line control register: the first two ports are those of the divisor. -/
def UartRegs.dlab (r : UartRegs) : Bool := r.lcr &&& 0x80 ≠ 0

/-- Bit 4 of the modem control register: the transmitter is connected to the receiver. -/
def UartRegs.loopback (r : UartRegs) : Bool := r.mcr &&& 0x10 ≠ 0

def UartRegs.depth (r : UartRegs) : Nat := if r.fifo then 16 else 1

def UartRegs.outb (r : UartRegs) (port : UInt16) (v : UInt8) : UartRegs :=
  if port = 0x3F8 then if r.dlab then { r with divisorLow := v } else r
  else if port = 0x3F9 then
    if r.dlab then { r with divisorHigh := v } else { r with ier := v &&& 0x0F }
  else if port = 0x3FA then { r with fifo := v &&& 0x01 ≠ 0 }
  else if port = 0x3FB then { r with lcr := v }
  else if port = 0x3FC then { r with mcr := v &&& 0x1F }
  else r

/-- The chip: the bits of the line status other than 0 and 5, what an empty receiver gives, the
    bytes that wait in the receiver and in the transmitter, and what has gone out. -/
structure Uart where
  regs : UartRegs
  status : UInt8
  last : UInt8
  rx : List UInt8
  tx : List UInt8
  sent : List UInt8
  deriving DecidableEq

/-- Bytes that find no room are lost. -/
def Uart.receive (u : Uart) (b : UInt8) : Uart :=
  if u.rx.length < u.regs.depth then { u with rx := u.rx ++ [b] } else u

/-- Bit 0 says whether a byte waits, bit 5 whether the transmitter is empty. -/
def Uart.lineStatus (u : Uart) : UInt8 :=
  (u.status &&& 0xDE) ||| (if u.rx = [] then 0 else 0x01) ||| (if u.tx = [] then 0x20 else 0)

/-- The queues are emptied on command, and when their use begins or ends. -/
def Uart.outb (u : Uart) (port : UInt16) (v : UInt8) : Uart :=
  let regs := u.regs.outb port v
  if port = 0x3F8 ∧ u.regs.dlab = false ∧ u.tx.length < u.regs.depth then
    { u with regs := regs, tx := u.tx ++ [v] }
  else if port = 0x3FA then
    { u with
      regs := regs
      rx := if u.regs.fifo ≠ regs.fifo ∨ (regs.fifo = true ∧ v &&& 0x02 ≠ 0) then [] else u.rx
      tx := if u.regs.fifo ≠ regs.fifo ∨ (regs.fifo = true ∧ v &&& 0x04 ≠ 0) then [] else u.tx }
  else { u with regs := regs }

def Uart.inb (u : Uart) (port : UInt16) : UInt8 × Uart :=
  if port = 0x3F8 then
    if u.regs.dlab then (u.regs.divisorLow, u)
    else
      match u.rx with
      | [] => (u.last, u)
      | b :: rx => (b, { u with rx := rx, last := b })
  else if port = 0x3FD then (u.lineStatus, u)
  else (0xFF, u)

/-- A byte comes in, or the transmitter gets one out. -/
inductive LineEvent where
  | arrive (b : UInt8)
  | shift
  deriving DecidableEq, Repr

def Uart.line (u : Uart) : LineEvent → Uart
  | .arrive b => if u.regs.loopback then u else u.receive b
  | .shift =>
    match u.tx with
    | [] => u
    | b :: tx =>
      if u.regs.loopback then { u with tx := tx }.receive b
      else { u with tx := tx, sent := u.sent ++ [b] }

def Uart.during (u : Uart) (es : List LineEvent) : Uart := es.foldl Uart.line u

/-- What comes in. -/
def arrivals (es : List LineEvent) : List UInt8 :=
  es.filterMap fun
    | .arrive b => some b
    | .shift => none

/-! The driver. -/

/-- `serial_init`, with what the line does before each access: the chip, the status, and
    `serial_enabled`. -/
def serialInit (line : Nat → List LineEvent) (u : Uart) : Uart × UInt8 × UInt8 :=
  let u := (u.during (line 0)).outb (com1 + 1) 0x00
  let u := (u.during (line 1)).outb (com1 + 3) 0x80
  let divisor := (maxRate / baudRate).toUInt16
  let u := (u.during (line 2)).outb (com1 + 0) ((divisor >>> 0) &&& 0xFF).toUInt8
  let u := (u.during (line 3)).outb (com1 + 1) ((divisor >>> 8) &&& 0xFF).toUInt8
  let u := (u.during (line 4)).outb (com1 + 3) 0x03
  let u := (u.during (line 5)).outb (com1 + 2) 0xC7
  let u := (u.during (line 6)).outb (com1 + 4) 0x0B
  let u := (u.during (line 7)).outb (com1 + 4) 0xAE
  let u := (u.during (line 8)).outb (com1 + 0) 0xAE
  let r := (u.during (line 9)).inb (com1 + 0)
  if r.1 ≠ 0xAE then (r.2, sysErr, errSerialFaulty)
  else ((r.2.during (line 10)).outb (com1 + 4) 0x0F, sysOk, errNoErr)

/-- `serial_recieved`, `is_transmit_empty`. -/
def serialRecieved (u : Uart) : UInt8 := (u.inb (com1 + 5)).1 &&& 0x01

def isTransmitEmpty (u : Uart) : UInt8 := (u.inb (com1 + 5)).1 &&& 0x20

/-- `serial_write` and `serial_read`. -/
inductive SerialCall where
  | write (c : UInt8)
  | read
  deriving DecidableEq, Repr

/-- `serial_puts`. -/
def serialPuts (str : List UInt8) : List SerialCall := str.map .write

/-- The calls to come, the first one of which is running; whether its last poll lets it go on;
    what the reads before it returned. -/
structure Serial where
  uart : Uart
  serialEnabled : UInt8
  calls : List SerialCall
  ready : Bool
  got : List UInt8

/-- The next access of the driver. -/
def Serial.turn (s : Serial) : Serial :=
  match s.calls with
  | [] => s
  | .write c :: calls =>
    if s.serialEnabled = errSerialFaulty then { s with calls := calls }
    else if s.ready then { s with uart := s.uart.outb com1 c, calls := calls, ready := false }
    else { s with ready := isTransmitEmpty s.uart ≠ 0 }
  | .read :: calls =>
    if s.ready then
      let r := s.uart.inb com1
      { s with uart := r.2, calls := calls, ready := false, got := s.got ++ [r.1] }
    else { s with ready := serialRecieved s.uart ≠ 0 }

inductive SerialEvent where
  | turn
  | line (e : LineEvent)
  deriving DecidableEq, Repr

def Serial.step (s : Serial) : SerialEvent → Serial
  | .turn => s.turn
  | .line e => { s with uart := s.uart.line e }

/-! The chip between the accesses. -/

section Chip
variable {u : Uart}

theorem receive_keeps (u : Uart) (b : UInt8) :
    (u.receive b).regs = u.regs ∧ (u.receive b).last = u.last ∧ (u.receive b).tx = u.tx ∧
    (u.receive b).sent = u.sent := by
  rw [Uart.receive]
  split <;> exact ⟨rfl, rfl, rfl, rfl⟩

theorem line_regs (u : Uart) (e : LineEvent) :
    (u.line e).regs = u.regs ∧ (u.line e).last = u.last := by
  cases e with
  | arrive b =>
    rw [Uart.line]
    split
    · exact ⟨rfl, rfl⟩
    · exact ⟨(receive_keeps u b).1, (receive_keeps u b).2.1⟩
  | shift =>
    rw [Uart.line]
    split
    · exact ⟨rfl, rfl⟩
    · split
      · rename_i b tx _ _
        exact ⟨(receive_keeps { u with tx := tx } b).1, (receive_keeps { u with tx := tx } b).2.1⟩
      · exact ⟨rfl, rfl⟩

theorem during_regs (u : Uart) (es : List LineEvent) :
    (u.during es).regs = u.regs ∧ (u.during es).last = u.last := by
  induction es generalizing u with
  | nil => exact ⟨rfl, rfl⟩
  | cons e es ih =>
    obtain ⟨hregs, hlast⟩ := ih (u.line e)
    obtain ⟨hregs', hlast'⟩ := line_regs u e
    exact ⟨hregs.trans hregs', hlast.trans hlast'⟩

theorem line_arrive (hloop : u.regs.loopback = false) (b : UInt8) :
    u.line (.arrive b) =
      if u.rx.length < u.regs.depth then { u with rx := u.rx ++ [b] } else u := by
  rw [Uart.line, hloop, Uart.receive]
  rfl

theorem line_shift (hloop : u.regs.loopback = false) :
    u.line .shift = { u with tx := u.tx.tail, sent := u.sent ++ u.tx.head?.toList } := by
  obtain ⟨regs, status, last, rx, tx, sent⟩ := u
  cases tx with
  | nil => simp [Uart.line]
  | cons b tx => simp [Uart.line, hloop]

theorem depth_pos (r : UartRegs) : 0 < r.depth := by
  rw [UartRegs.depth]
  split <;> decide

/-- Out of loopback, bytes go out in the order of the transmitter, and the first byte that
    waits is the first that came. -/
theorem during_queues (hloop : u.regs.loopback = false) (es : List LineEvent) :
    (∃ k, (u.during es).tx = u.tx.drop k ∧ (u.during es).sent = u.sent ++ u.tx.take k) ∧
    (u.during es).rx.head? = (u.rx ++ arrivals es).head? := by
  induction es generalizing u with
  | nil => exact ⟨⟨0, by simp [Uart.during], by simp [Uart.during]⟩, by simp [Uart.during, arrivals]⟩
  | cons e es ih =>
    rw [Uart.during, List.foldl_cons, ← Uart.during]
    cases e with
    | arrive b =>
      rw [line_arrive hloop]
      have hmore : arrivals (.arrive b :: es) = b :: arrivals es := rfl
      rw [hmore]
      by_cases hroom : u.rx.length < u.regs.depth
      · rw [if_pos hroom]
        obtain ⟨hsent, hhead⟩ := @ih { u with rx := u.rx ++ [b] } hloop
        exact ⟨hsent, by rw [hhead, List.append_assoc, List.singleton_append]⟩
      · rw [if_neg hroom]
        obtain ⟨hsent, hhead⟩ := ih hloop
        refine ⟨hsent, hhead.trans ?_⟩
        have hpos := depth_pos u.regs
        obtain ⟨a, rest, hrx⟩ : ∃ a rest, u.rx = a :: rest :=
          List.exists_cons_of_ne_nil (List.length_pos_iff.mp (by omega))
        rw [hrx]
        rfl
    | shift =>
      rw [line_shift hloop]
      obtain ⟨⟨k, htx, hsent⟩, hhead⟩ :=
        @ih { u with tx := u.tx.tail, sent := u.sent ++ u.tx.head?.toList } hloop
      refine ⟨⟨k + 1, htx.trans ?_, hsent.trans ?_⟩, hhead⟩
      · exact List.drop_tail
      · cases u.tx with
        | nil => simp
        | cons b tx => simp

/-- In loopback an empty transmitter leaves the chip as it is. -/
theorem during_loopback (hloop : u.regs.loopback = true) (htx : u.tx = []) (es : List LineEvent) :
    u.during es = u := by
  induction es with
  | nil => rfl
  | cons e es ih =>
    have hline : u.line e = u := by
      cases e with
      | arrive b => rw [Uart.line, hloop, if_pos rfl]
      | shift => rw [Uart.line, htx]
    rw [Uart.during, List.foldl_cons, hline]
    exact ih

/-! The accesses of the driver. -/

theorem outb_regs (u : Uart) (port : UInt16) (v : UInt8) :
    (u.outb port v).regs = u.regs.outb port v ∧ (u.outb port v).last = u.last := by
  rw [Uart.outb]
  split
  · exact ⟨rfl, rfl⟩
  · split <;> exact ⟨rfl, rfl⟩

theorem outb_fifo (u : Uart) :
    (u.outb (com1 + 2) 0xC7).rx = [] ∧ (u.outb (com1 + 2) 0xC7).tx = [] := by
  have hon : (u.regs.outb 0x3FA 0xC7).fifo = true := rfl
  have hrx : (0xC7 : UInt8) &&& 0x02 ≠ 0 := by decide
  have htx : (0xC7 : UInt8) &&& 0x04 ≠ 0 := by decide
  have hport : com1 + 2 = 0x3FA := rfl
  simp [Uart.outb, hport, hon, hrx, htx]

theorem outb_mcr (u : Uart) (v : UInt8) :
    u.outb (com1 + 4) v = { u with regs := { u.regs with mcr := v &&& 0x1F } } := rfl

theorem outb_data {v : UInt8} (h : u.regs.dlab = false) (hroom : u.tx.length < u.regs.depth) :
    u.outb com1 v = { u with tx := u.tx ++ [v] } := by
  have hregs : u.regs.outb com1 v = u.regs := by
    rw [UartRegs.outb, if_pos (show com1 = 0x3F8 from rfl), h]
    rfl
  rw [Uart.outb, hregs, if_pos ⟨rfl, h, hroom⟩]

theorem inb_data (h : u.regs.dlab = false) :
    u.inb com1 = (u.rx.head?.getD u.last,
      { u with rx := u.rx.tail, last := u.rx.head?.getD u.last }) := by
  obtain ⟨regs, status, last, rx, tx, sent⟩ := u
  cases rx with
  | nil => simp [Uart.inb, com1, h]
  | cons b rx => simp [Uart.inb, com1, h]

end Chip

/-! `serial_init`. -/

theorem during_quiet {u : Uart} (htx : u.tx = []) (es : List LineEvent) :
    (u.during es).tx = [] ∧
    (u.during es).rx.head? = (u.rx ++ if u.regs.loopback then [] else arrivals es).head? := by
  cases hloop : u.regs.loopback with
  | true =>
    rw [during_loopback hloop htx, if_pos rfl, List.append_nil]
    exact ⟨htx, rfl⟩
  | false =>
    obtain ⟨⟨k, hrest, -⟩, hhead⟩ := during_queues hloop es
    rw [if_neg Bool.false_ne_true]
    exact ⟨by rw [hrest, htx, List.drop_nil], hhead⟩

theorem during_mcr {u : Uart} (htx : u.tx = []) (es : List LineEvent) (v : UInt8) :
    ((u.during es).outb (com1 + 4) v).regs = { u.regs with mcr := v &&& 0x1F } ∧
    ((u.during es).outb (com1 + 4) v).last = u.last ∧
    ((u.during es).outb (com1 + 4) v).tx = [] ∧
    ((u.during es).outb (com1 + 4) v).rx.head? =
      (u.rx ++ if u.regs.loopback then [] else arrivals es).head? := by
  obtain ⟨hregs, hlast⟩ := during_regs u es
  obtain ⟨hempty, hhead⟩ := during_quiet htx es
  rw [outb_mcr, hregs]
  exact ⟨rfl, hlast, hempty, hhead⟩

/-- Out of loopback nothing is lost on the way out. -/
theorem during_sent {u : Uart} (hloop : u.regs.loopback = false) (es : List LineEvent) :
    (u.during es).sent ++ (u.during es).tx = u.sent ++ u.tx ∧
    (u.during es).tx.length ≤ u.tx.length := by
  obtain ⟨⟨k, htx, hsent⟩, -⟩ := during_queues hloop es
  rw [htx, hsent, List.append_assoc, List.take_append_drop, List.length_drop]
  exact ⟨rfl, Nat.sub_le _ _⟩

section Init
variable (line : Nat → List LineEvent) (u : Uart)

/-- What has come in by the time that the test byte is compared. -/
def heard : List UInt8 :=
  (if u.regs.loopback then [] else arrivals (line 6)) ++ arrivals (line 7) ++ arrivals (line 8) ++
    arrivals (line 9)

/-- The byte that is compared with the test byte. -/
def compared : UInt8 := (heard line u).head?.getD u.last

/-- The six accesses before the modem control register is set. -/
def serialFormat : Uart :=
  ((((((((((((u.during (line 0)).outb (com1 + 1) 0x00).during (line 1)).outb (com1 + 3)
    0x80).during (line 2)).outb (com1 + 0) 0x03).during (line 3)).outb (com1 + 1) 0x00).during
    (line 4)).outb (com1 + 3) 0x03).during (line 5)).outb (com1 + 2) 0xC7)

/-- The divisor, the format and the queues. The interrupts are disabled, unless the ports of
    the divisor were left selected. -/
theorem serialFormat_spec :
    (serialFormat line u).regs =
      ⟨if u.regs.dlab then u.regs.ier else 0, 0x03, u.regs.mcr, 0x03, 0x00, true⟩ ∧
    (serialFormat line u).last = u.last ∧ (serialFormat line u).rx = [] ∧
    (serialFormat line u).tx = [] := by
  refine ⟨?_, ?_, (outb_fifo _).1, (outb_fifo _).2⟩
  · simp only [serialFormat, outb_regs, during_regs]
    have hfirst : u.regs.outb (com1 + 1) 0x00 =
        { u.regs with
          ier := if u.regs.dlab then u.regs.ier else 0
          divisorHigh := if u.regs.dlab then 0 else u.regs.divisorHigh } := by
      cases hdlab : u.regs.dlab <;> simp [UartRegs.outb, com1, hdlab]
    have hon : (0xC7 : UInt8) &&& 0x01 ≠ 0 := by decide
    rw [hfirst]
    generalize (if u.regs.dlab then u.regs.ier else 0) = ier
    simp [UartRegs.outb, com1, UartRegs.dlab, hon]
  · simp only [serialFormat, outb_regs, during_regs]

/-- The three accesses up to the test byte: nothing is in the transmitter. -/
def serialReady : Uart :=
  ((((serialFormat line u).during (line 6)).outb (com1 + 4) 0x0B).during (line 7)).outb
    (com1 + 4) 0xAE |>.during (line 8)

theorem serialReady_spec :
    (serialReady line u).regs =
      ⟨if u.regs.dlab then u.regs.ier else 0, 0x03, 0x0E, 0x03, 0x00, true⟩ ∧
    (serialReady line u).last = u.last ∧ (serialReady line u).tx = [] ∧
    (serialReady line u).rx.head? = ((if u.regs.loopback then [] else arrivals (line 6)) ++
      arrivals (line 7) ++ arrivals (line 8)).head? := by
  obtain ⟨hregs, hlast, hrx, htx⟩ := serialFormat_spec line u
  obtain ⟨hregs₁, hlast₁, htx₁, hhead₁⟩ := during_mcr htx (line 6) 0x0B
  obtain ⟨hregs₂, hlast₂, htx₂, hhead₂⟩ := during_mcr htx₁ (line 7) 0xAE
  obtain ⟨hregs₃, hlast₃⟩ := during_regs
    (((((serialFormat line u).during (line 6)).outb (com1 + 4) 0x0B).during (line 7)).outb
      (com1 + 4) 0xAE) (line 8)
  obtain ⟨htx₃, hhead₃⟩ := during_quiet htx₂ (line 8)
  have hloop : (serialFormat line u).regs.loopback = u.regs.loopback := by
    rw [hregs]
    rfl
  -- neither value has the loopback bit
  have hopen : ∀ r : UartRegs, ({ r with mcr := 0x0B &&& 0x1F } : UartRegs).loopback = false ∧
      ({ r with mcr := 0xAE &&& 0x1F } : UartRegs).loopback = false := by
    have hset : ¬ (0x0B : UInt8) &&& 0x1F &&& 0x10 ≠ 0 := by decide
    have htest : ¬ (0xAE : UInt8) &&& 0x1F &&& 0x10 ≠ 0 := by decide
    exact fun r => ⟨decide_eq_false hset, decide_eq_false htest⟩
  refine ⟨?_, ?_, htx₃, ?_⟩
  · rw [serialReady, hregs₃, hregs₂, hregs₁, hregs]
    rfl
  · rw [serialReady, hlast₃, hlast₂, hlast₁, hlast]
  · rw [serialReady, hhead₃, List.head?_append, hhead₂, List.head?_append, hhead₁, hrx, hloop,
      hregs₂, (hopen _).2, hregs₁, (hopen _).1, List.nil_append, if_neg Bool.false_ne_true,
      if_neg Bool.false_ne_true, ← List.head?_append, ← List.head?_append]

theorem serialTest {v : Uart} (hdlab : v.regs.dlab = false) (hloop : v.regs.loopback = false)
    (htx : v.tx = []) (es : List LineEvent) :
    ∃ w, ((v.outb com1 0xAE).during es).inb com1 =
        ((v.rx ++ arrivals es).head?.getD v.last, w) ∧
      w.regs = v.regs ∧ w.sent ++ w.tx = v.sent ++ [0xAE] ∧ w.tx.length ≤ 1 := by
  have hroom : v.tx.length < v.regs.depth := by
    rw [htx]
    exact depth_pos _
  rw [outb_data hdlab hroom, htx, List.nil_append]
  obtain ⟨x, hx⟩ : ∃ x : Uart, x = { v with tx := [0xAE] } := ⟨_, rfl⟩
  have hxloop : x.regs.loopback = false := by
    rw [hx]
    exact hloop
  obtain ⟨hregs, hlast⟩ := during_regs x es
  obtain ⟨hsent, hlength⟩ := during_sent hxloop es
  have hhead := (during_queues hxloop es).2
  have hfree : (x.during es).regs.dlab = false := by
    rw [hregs, hx]
    exact hdlab
  rw [← hx, inb_data hfree, hhead, hlast]
  rw [hx] at hsent hlength hregs ⊢
  exact ⟨_, rfl, hregs, hsent, hlength⟩

theorem serialInit_eq : serialInit line u =
    let r := (((serialReady line u).outb com1 0xAE).during (line 9)).inb com1
    if r.1 ≠ 0xAE then (r.2, sysErr, errSerialFaulty)
    else ((r.2.during (line 10)).outb (com1 + 4) 0x0F, sysOk, errNoErr) := rfl

/-- What `serial_init` returns, and the chip that it leaves. -/
theorem serialInit_spec :
    (serialInit line u).2 =
      (if compared line u = 0xAE then (sysOk, errNoErr) else (sysErr, errSerialFaulty)) ∧
    (serialInit line u).1.regs =
      ⟨if u.regs.dlab then u.regs.ier else 0, 0x03,
        if compared line u = 0xAE then 0x0F else 0x0E, 0x03, 0x00, true⟩ ∧
    (∃ before, (serialInit line u).1.sent ++ (serialInit line u).1.tx = before ++ [0xAE]) ∧
    (serialInit line u).1.tx.length ≤ 1 := by
  obtain ⟨hregs, hlast, htx, hhead⟩ := serialReady_spec line u
  have hdlab : (serialReady line u).regs.dlab = false := by
    have hformat : ¬ (0x03 : UInt8) &&& 0x80 ≠ 0 := by decide
    rw [hregs]
    exact decide_eq_false hformat
  have hloop : (serialReady line u).regs.loopback = false := by
    have htest : ¬ (0x0E : UInt8) &&& 0x10 ≠ 0 := by decide
    rw [hregs]
    exact decide_eq_false htest
  obtain ⟨w, hread, hwregs, hwsent, hwlength⟩ := serialTest hdlab hloop htx (line 9)
  have hbyte : ((serialReady line u).rx ++ arrivals (line 9)).head?.getD (serialReady line u).last =
      compared line u := by
    rw [List.head?_append, hhead, ← List.head?_append, hlast]
    rfl
  rw [hbyte] at hread
  rw [serialInit_eq, hread]
  dsimp only
  by_cases hsame : compared line u = 0xAE
  · have hne : ¬ compared line u ≠ 0xAE := not_not.mpr hsame
    have hwloop : w.regs.loopback = false := by
      rw [hwregs]
      exact hloop
    obtain ⟨hsent, hlength⟩ := during_sent hwloop (line 10)
    rw [if_neg hne, if_pos hsame, if_pos hsame, outb_mcr, (during_regs w (line 10)).1, hwregs,
      hregs]
    exact ⟨rfl, rfl, ⟨_, hsent.trans hwsent⟩, Nat.le_trans hlength hwlength⟩
  · rw [if_pos hsame, if_neg hsame, if_neg hsame]
    exact ⟨rfl, hwregs.trans hregs, ⟨_, hwsent⟩, hwlength⟩

/-- `serial_init` succeeds exactly when the byte that waits is the test byte. It waits there
    if the other end has sent it first: the chip is not in loopback, and the test byte is on
    its way out or gone. The port is set to 38400 baud, 8 bits, no parity and one stop bit,
    with the queues in use. -/
theorem serial_init_iff :
    ((serialInit line u).2.1 = sysOk ↔ compared line u = 0xAE) ∧
    ((serialInit line u).2.2 = errSerialFaulty ↔ compared line u ≠ 0xAE) ∧
    (serialInit line u).1.regs =
      ⟨if u.regs.dlab then u.regs.ier else 0, 0x03,
        if compared line u = 0xAE then 0x0F else 0x0E, 0x03, 0x00, true⟩ ∧
    ∃ before, (serialInit line u).1.sent ++ (serialInit line u).1.tx = before ++ [0xAE] := by
  obtain ⟨hstatus, hregs, hsent, -⟩ := serialInit_spec line u
  have herr : sysErr ≠ sysOk := by decide
  have hno : errNoErr ≠ errSerialFaulty := by decide
  rw [hstatus]
  refine ⟨?_, ?_, hregs, hsent⟩
  · split <;> simp [*]
  · split <;> simp [*]

end Init

/-! The calls after `serial_init`. -/

/-- What the calls write. -/
def writesOf (calls : List SerialCall) : List UInt8 :=
  calls.filterMap fun
    | .write c => some c
    | .read => none

/-- What is still to be written: nothing when the port is faulty. -/
def Serial.toWrite (s : Serial) : List UInt8 :=
  if s.serialEnabled = errSerialFaulty then [] else writesOf s.calls

/-- What comes in. -/
def incoming (es : List SerialEvent) : List UInt8 :=
  es.filterMap fun
    | .line (.arrive b) => some b
    | _ => none

/-- The receiver has room whenever a byte comes in. -/
def Serial.NoOverrun : Serial → List SerialEvent → Prop
  | _, [] => True
  | s, e :: es =>
    (∀ b, e = .line (.arrive b) → s.uart.rx.length < s.uart.regs.depth) ∧ (s.step e).NoOverrun es

/-- What the last poll saw still holds. -/
structure Serial.Able (s : Serial) : Prop where
  dlab : s.uart.regs.dlab = false
  loopback : s.uart.regs.loopback = false
  one : s.uart.tx.length ≤ 1
  write : ∀ c calls, s.calls = .write c :: calls → s.ready = true →
    s.uart.tx = [] ∧ s.serialEnabled ≠ errSerialFaulty
  read : ∀ calls, s.calls = .read :: calls → s.ready = true → s.uart.rx ≠ []

theorem writesOf_puts (str : List UInt8) : writesOf (serialPuts str) = str := by
  rw [writesOf, serialPuts, List.filterMap_map]
  exact List.filterMap_some

theorem incoming_cons (e : SerialEvent) (es : List SerialEvent) :
    incoming (e :: es) = incoming [e] ++ incoming es :=
  List.filterMap_append (l := [e])

theorem status_bit {s k m : UInt8} (h : k &&& m = 0) (a b : UInt8) :
    ((s &&& k) ||| a ||| b) &&& m = (a &&& m) ||| (b &&& m) := by
  have hzero : s &&& k &&& m = 0 := by
    rw [UInt8.and_assoc, h, UInt8.and_zero]
  apply UInt8.toBitVec_inj.mp
  have hzero' := congrArg UInt8.toBitVec hzero
  rw [UInt8.toBitVec_and] at hzero'
  simp only [UInt8.toBitVec_or, UInt8.toBitVec_and, BitVec.and_or_distrib_right] at hzero' ⊢
  rw [hzero']
  simp

/-- The two polls. -/
theorem isTransmitEmpty_iff (u : Uart) : isTransmitEmpty u ≠ 0 ↔ u.tx = [] := by
  have hbit : isTransmitEmpty u = ((if u.rx = [] then 0 else 0x01) &&& 0x20) |||
      ((if u.tx = [] then 0x20 else 0) &&& 0x20) := status_bit (by decide) _ _
  have hother : (0x01 : UInt8) &&& 0x20 = 0 := by decide
  rw [hbit]
  by_cases hrx : u.rx = [] <;> by_cases htx : u.tx = [] <;> simp [hrx, htx, hother]

theorem serialRecieved_iff (u : Uart) : serialRecieved u ≠ 0 ↔ u.rx ≠ [] := by
  have hbit : serialRecieved u = ((if u.rx = [] then 0 else 0x01) &&& 0x01) |||
      ((if u.tx = [] then 0x20 else 0) &&& 0x01) := status_bit (by decide) _ _
  have hother : (0x20 : UInt8) &&& 0x01 = 0 := by decide
  rw [hbit]
  by_cases hrx : u.rx = [] <;> by_cases htx : u.tx = [] <;> simp [hrx, htx, hother]

section Calls
variable {s : Serial}

theorem line_order (h : s.Able) (e : LineEvent) :
    (s.step (.line e)).Able ∧
    (s.step (.line e)).uart.sent ++ (s.step (.line e)).uart.tx = s.uart.sent ++ s.uart.tx ∧
    ∃ taken, (s.step (.line e)).uart.rx = s.uart.rx ++ taken ∧
      taken.Sublist (incoming [.line e]) ∧
      ((∀ b, e = .arrive b → s.uart.rx.length < s.uart.regs.depth) →
        taken = incoming [.line e]) := by
  have hregs := (line_regs s.uart e).1
  have hkeep : ∀ rx', s.uart.rx ≠ [] → s.uart.rx ++ rx' ≠ [] :=
    fun rx' hne hnil => hne (List.append_eq_nil_iff.mp hnil).1
  cases e with
  | arrive b =>
    have hline := line_arrive h.loopback b
    by_cases hroom : s.uart.rx.length < s.uart.regs.depth
    · rw [if_pos hroom] at hline
      refine ⟨⟨?_, ?_, ?_, ?_, ?_⟩, ?_, [b], ?_, List.Sublist.refl _, fun _ => rfl⟩ <;>
        rw [Serial.step, hline]
      · exact h.dlab
      · exact h.loopback
      · exact h.one
      · exact h.write
      · exact fun calls hcalls hready => hkeep _ (h.read calls hcalls hready)
    · rw [if_neg hroom] at hline
      have hsame : s.step (.line (.arrive b)) = s := by rw [Serial.step, hline]
      rw [hsame]
      refine ⟨h, rfl, [], (List.append_nil _).symm, List.nil_sublist _, fun hall => ?_⟩
      exact absurd (hall b rfl) hroom
  | shift =>
    have hline := line_shift h.loopback
    refine ⟨⟨?_, ?_, ?_, ?_, ?_⟩, ?_, [], ?_, List.nil_sublist _, fun _ => rfl⟩ <;>
      rw [Serial.step, hline]
    · exact h.dlab
    · exact h.loopback
    · exact Nat.le_trans (by simp) h.one
    · intro c calls hcalls hready
      obtain ⟨hempty, hworks⟩ := h.write c calls hcalls hready
      exact ⟨by rw [hempty]; rfl, hworks⟩
    · exact h.read
    · dsimp only
      cases s.uart.tx <;> simp
    · exact (List.append_nil _).symm

/-- The accesses of the driver, by what its calls are about to do. -/
theorem turn_cases (h : s.Able) :
    (s.calls = [] ∧ s.turn = s) ∨
    (∃ c calls, s.calls = .write c :: calls ∧ s.serialEnabled = errSerialFaulty ∧
      s.ready = false ∧ s.turn = { s with calls := calls }) ∨
    (∃ c calls, s.calls = .write c :: calls ∧ s.serialEnabled ≠ errSerialFaulty ∧
      s.ready = true ∧ s.uart.tx = [] ∧
      s.turn = { s with uart := { s.uart with tx := [c] }, calls := calls, ready := false }) ∨
    (∃ b rx calls, s.calls = .read :: calls ∧ s.ready = true ∧ s.uart.rx = b :: rx ∧
      s.turn = { s with
        uart := { s.uart with rx := rx, last := b }
        calls := calls
        ready := false
        got := s.got ++ [b] }) ∨
    ∃ call calls, s.calls = call :: calls ∧ s.ready = false ∧
      (call ≠ .read → s.serialEnabled ≠ errSerialFaulty) ∧
      s.turn = { s with ready :=
        if call = .read then decide (s.uart.rx ≠ []) else decide (s.uart.tx = []) } := by
  cases hcalls : s.calls with
  | nil => exact Or.inl ⟨rfl, by rw [Serial.turn, hcalls]⟩
  | cons call calls =>
    refine Or.inr ?_
    cases call with
    | write c =>
      by_cases hfaulty : s.serialEnabled = errSerialFaulty
      · refine Or.inl ⟨c, calls, rfl, hfaulty, ?_, by rw [Serial.turn, hcalls]; exact if_pos hfaulty⟩
        cases hready : s.ready with
        | false => rfl
        | true => exact absurd hfaulty (h.write c calls hcalls hready).2
      · cases hready : s.ready with
        | true =>
          have hempty := (h.write c calls hcalls hready).1
          have hout := @outb_data s.uart c h.dlab (by rw [hempty]; exact depth_pos _)
          rw [hempty, List.nil_append] at hout
          refine Or.inr (Or.inl ⟨c, calls, rfl, hfaulty, rfl, hempty, ?_⟩)
          rw [Serial.turn, hcalls]
          dsimp only
          rw [if_neg hfaulty, if_pos hready, hout]
        | false =>
          refine Or.inr (Or.inr (Or.inr ⟨.write c, calls, rfl, rfl, fun _ => hfaulty, ?_⟩))
          rw [Serial.turn, hcalls]
          dsimp only
          rw [if_neg hfaulty, hready, if_neg Bool.false_ne_true, if_neg SerialCall.noConfusion]
          simp only [isTransmitEmpty_iff]
    | read =>
      cases hready : s.ready with
      | true =>
        obtain ⟨b, rx, hrx⟩ := List.exists_cons_of_ne_nil (h.read calls hcalls hready)
        have hin := inb_data h.dlab
        rw [hrx] at hin
        refine Or.inr (Or.inr (Or.inl ⟨b, rx, calls, rfl, rfl, hrx, ?_⟩))
        rw [Serial.turn, hcalls]
        dsimp only
        rw [if_pos hready, hin]
        rfl
      | false =>
        refine Or.inr (Or.inr (Or.inr ⟨.read, calls, rfl, rfl, fun hne => absurd rfl hne, ?_⟩))
        rw [Serial.turn, hcalls]
        dsimp only
        rw [hready, if_neg Bool.false_ne_true, if_pos rfl]
        simp only [serialRecieved_iff]

/-- An access of the driver moves a byte from what is to be written to the transmitter, or from
    the receiver to what was read, or nothing. -/
theorem turn_order (h : s.Able) :
    s.turn.Able ∧
    s.turn.uart.sent ++ s.turn.uart.tx ++ s.turn.toWrite =
      s.uart.sent ++ s.uart.tx ++ s.toWrite ∧
    s.turn.got ++ s.turn.uart.rx = s.got ++ s.uart.rx ∧
    s.turn.calls.length ≤ s.calls.length := by
  rcases turn_cases h with ⟨-, hturn⟩ | ⟨c, calls, hcalls, hfaulty, hready, hturn⟩ |
    ⟨c, calls, hcalls, hworks, hready, hempty, hturn⟩ | ⟨b, rx, calls, hcalls, hready, hrx, hturn⟩ |
    ⟨call, calls, hcalls, hready, hworks, hturn⟩ <;> rw [hturn]
  · exact ⟨h, rfl, rfl, Nat.le_refl _⟩
  · refine ⟨⟨h.dlab, h.loopback, h.one, ?_, ?_⟩, ?_, rfl, ?_⟩
    · exact fun _ _ _ hon => absurd (hready.symm.trans hon) Bool.false_ne_true
    · exact fun _ _ hon => absurd (hready.symm.trans hon) Bool.false_ne_true
    · simp [Serial.toWrite, hfaulty]
    · simp [hcalls]
  · refine ⟨⟨h.dlab, h.loopback, Nat.le_refl 1, ?_, ?_⟩, ?_, rfl, ?_⟩
    · exact fun _ _ _ hon => absurd hon Bool.false_ne_true
    · exact fun _ _ hon => absurd hon Bool.false_ne_true
    · simp [Serial.toWrite, hworks, hcalls, hempty, writesOf]
    · simp [hcalls]
  · refine ⟨⟨h.dlab, h.loopback, h.one, ?_, ?_⟩, ?_, ?_, ?_⟩
    · exact fun _ _ _ hon => absurd hon Bool.false_ne_true
    · exact fun _ _ hon => absurd hon Bool.false_ne_true
    · simp [Serial.toWrite, hcalls, writesOf]
    · simp [hrx]
    · simp [hcalls]
  · refine ⟨⟨h.dlab, h.loopback, h.one, ?_, ?_⟩, rfl, rfl, Nat.le_refl _⟩
    · intro c rest hrest hon
      obtain ⟨rfl, -⟩ := List.cons.inj (hcalls.symm.trans hrest)
      dsimp only at hon
      rw [if_neg SerialCall.noConfusion, decide_eq_true_iff] at hon
      exact ⟨hon, hworks SerialCall.noConfusion⟩
    · intro rest hrest hon
      obtain ⟨rfl, -⟩ := List.cons.inj (hcalls.symm.trans hrest)
      dsimp only at hon
      rw [if_pos rfl, decide_eq_true_iff] at hon
      exact hon

/-- With room in the transmitter and a byte in the receiver, two accesses end a call. -/
theorem two_turns (h : s.Able) (htx : s.uart.tx = []) (hrx : s.uart.rx ≠ []) :
    s.turn.turn.calls.length ≤ s.calls.length - 1 := by
  obtain ⟨hable, -, -, -⟩ := turn_order h
  obtain ⟨-, -, -, hlength⟩ := turn_order hable
  rcases turn_cases h with ⟨hnil, hturn⟩ | ⟨c, calls, hcalls, -, -, hturn⟩ |
    ⟨c, calls, hcalls, -, -, -, hturn⟩ | ⟨b, rx, calls, hcalls, -, -, hturn⟩ |
    ⟨call, calls, hcalls, hready, hworks, hturn⟩
  · rw [hturn] at hlength ⊢
    rw [hturn, hnil]
    exact Nat.zero_le _
  · refine Nat.le_trans hlength ?_
    rw [hturn, hcalls]
    exact Nat.le_refl _
  · refine Nat.le_trans hlength ?_
    rw [hturn, hcalls]
    exact Nat.le_refl _
  · refine Nat.le_trans hlength ?_
    rw [hturn, hcalls]
    exact Nat.le_refl _
  · -- the poll lets the call go on, and the second access ends it
    have hgo : s.turn.ready = true := by
      rw [hturn]
      dsimp only
      split
      · exact decide_eq_true hrx
      · exact decide_eq_true htx
    have hsame : s.turn.calls = call :: calls := by
      rw [hturn]
      exact hcalls
    rcases turn_cases hable with ⟨hnil, -⟩ | ⟨c, rest, hrest, -, hoff, -⟩ |
      ⟨c, rest, hrest, -, -, -, hturn'⟩ | ⟨b, rx, rest, hrest, -, -, hturn'⟩ |
      ⟨_, rest, hrest, hoff, -⟩
    · rw [hnil] at hsame
      cases hsame
    · exact absurd (hoff.symm.trans hgo) Bool.false_ne_true
    · obtain ⟨-, rfl⟩ := List.cons.inj (hsame.symm.trans hrest)
      rw [hturn', hcalls]
      exact Nat.le_refl _
    · obtain ⟨-, rfl⟩ := List.cons.inj (hsame.symm.trans hrest)
      rw [hturn', hcalls]
      exact Nat.le_refl _
    · exact absurd (hoff.symm.trans hgo) Bool.false_ne_true

theorem step_order (h : s.Able) (e : SerialEvent) :
    (s.step e).Able ∧
    (s.step e).uart.sent ++ (s.step e).uart.tx ++ (s.step e).toWrite =
      s.uart.sent ++ s.uart.tx ++ s.toWrite ∧
    ∃ taken, (s.step e).got ++ (s.step e).uart.rx = s.got ++ s.uart.rx ++ taken ∧
      taken.Sublist (incoming [e]) ∧
      ((∀ b, e = .line (.arrive b) → s.uart.rx.length < s.uart.regs.depth) →
        taken = incoming [e]) := by
  cases e with
  | turn =>
    obtain ⟨hable, hout, hin, -⟩ := turn_order h
    exact ⟨hable, hout, [], hin.trans (List.append_nil _).symm, List.nil_sublist _, fun _ => rfl⟩
  | line e =>
    obtain ⟨hable, hout, taken, hin, hsub, hall⟩ := line_order h e
    refine ⟨hable, congrArg (· ++ s.toWrite) hout, taken, ?_, hsub, fun hroom => hall ?_⟩
    · rw [hin, ← List.append_assoc]
      rfl
    · exact fun b hb => hroom b (congrArg SerialEvent.line hb)

theorem run_order (es : List SerialEvent) (h : s.Able) :
    (es.foldl Serial.step s).Able ∧
    (es.foldl Serial.step s).uart.sent ++ (es.foldl Serial.step s).uart.tx ++
        (es.foldl Serial.step s).toWrite = s.uart.sent ++ s.uart.tx ++ s.toWrite ∧
    ∃ taken, (es.foldl Serial.step s).got ++ (es.foldl Serial.step s).uart.rx =
        s.got ++ s.uart.rx ++ taken ∧
      taken.Sublist (incoming es) ∧ (s.NoOverrun es → taken = incoming es) := by
  induction es generalizing s with
  | nil => exact ⟨h, rfl, [], (List.append_nil _).symm, List.Sublist.refl _, fun _ => rfl⟩
  | cons e es ih =>
    obtain ⟨hable₁, hout₁, taken₁, hin₁, hsub₁, hall₁⟩ := step_order h e
    obtain ⟨hable₂, hout₂, taken₂, hin₂, hsub₂, hall₂⟩ := ih hable₁
    refine ⟨hable₂, hout₂.trans hout₁, taken₁ ++ taken₂, ?_, ?_, fun hroom => ?_⟩
    · rw [List.foldl_cons, hin₂, hin₁, List.append_assoc _ taken₁]
    · rw [incoming_cons]
      exact hsub₁.append hsub₂
    · rw [incoming_cons, hall₁ hroom.1, hall₂ hroom.2]

/-- The transmitter gets its byte out, another one comes in, and the driver gets two
    accesses. -/
def serialRound (b : UInt8) : List SerialEvent := [.line .shift, .line (.arrive b), .turn, .turn]

theorem round_ends (h : s.Able) (b : UInt8) :
    ((serialRound b).foldl Serial.step s).Able ∧
    ((serialRound b).foldl Serial.step s).calls.length ≤ s.calls.length - 1 := by
  refine ⟨(run_order _ h).1, ?_⟩
  have hable₁ := (step_order h (.line .shift)).1
  have hable₂ := (step_order hable₁ (.line (.arrive b))).1
  have hshift : (s.step (.line .shift)).uart.tx = [] := by
    rw [Serial.step, line_shift h.loopback]
    refine List.length_eq_zero_iff.mp ?_
    rw [List.length_tail]
    exact Nat.sub_eq_zero_of_le h.one
  have harrive := line_arrive hable₁.loopback b
  have htx : ((s.step (.line .shift)).step (.line (.arrive b))).uart.tx = [] := by
    rw [Serial.step, harrive]
    split <;> exact hshift
  have hrx : ((s.step (.line .shift)).step (.line (.arrive b))).uart.rx ≠ [] := by
    rw [Serial.step, harrive]
    split
    · simp
    · rename_i hfull
      have hpos := depth_pos (s.step (.line .shift)).uart.regs
      exact List.length_pos_iff.mp (Nat.lt_of_lt_of_le hpos (Nat.not_lt.mp hfull))
  exact two_turns hable₂ htx hrx

theorem rounds_end (bs : List UInt8) (h : s.Able) :
    ((bs.flatMap serialRound).foldl Serial.step s).calls.length ≤ s.calls.length - bs.length := by
  induction bs generalizing s with
  | nil => exact Nat.le_refl _
  | cons b bs ih =>
    obtain ⟨hable, hlength⟩ := round_ends h b
    have hrest := ih hable
    rw [List.flatMap_cons, List.foldl_append, List.length_cons]
    omega

end Calls

/-- After `serial_init`, with calls to come. -/
def Serial.start (line : Nat → List LineEvent) (u : Uart) (calls : List SerialCall) : Serial :=
  ⟨(serialInit line u).1, (serialInit line u).2.2, calls, false, []⟩

theorem start_able (line : Nat → List LineEvent) (u : Uart) (calls : List SerialCall) :
    (Serial.start line u calls).Able := by
  obtain ⟨-, hregs, -, hone⟩ := serialInit_spec line u
  refine ⟨?_, ?_, hone, fun _ _ _ hon => absurd hon Bool.false_ne_true,
    fun _ _ hon => absurd hon Bool.false_ne_true⟩
  · have hformat : ¬ (0x03 : UInt8) &&& 0x80 ≠ 0 := by decide
    rw [Serial.start, hregs]
    exact decide_eq_false hformat
  · have hok : ¬ (0x0F : UInt8) &&& 0x10 ≠ 0 := by decide
    have htest : ¬ (0x0E : UInt8) &&& 0x10 ≠ 0 := by decide
    rw [Serial.start, hregs]
    by_cases hsame : compared line u = 0xAE
    · rw [if_pos hsame]
      exact decide_eq_false hok
    · rw [if_neg hsame]
      exact decide_eq_false htest

/-- The serial port in order, whatever the line does during `serial_init` and after it. What
    is out, what waits in the transmitter and what is still to be written are together what
    there was to write, and nothing of it when `serial_init` failed. What was read and what
    waits in the receiver are what came in, all of it when the receiver had room. And when the
    line moves every call ends. -/
theorem serial_in_order (line : Nat → List LineEvent) (u : Uart) (calls : List SerialCall)
    (es : List SerialEvent) :
    let s := es.foldl Serial.step (Serial.start line u calls)
    s.uart.sent ++ s.uart.tx ++ s.toWrite =
      (serialInit line u).1.sent ++ (serialInit line u).1.tx ++
        (if (serialInit line u).2.1 = sysOk then writesOf calls else []) ∧
    (∃ taken, s.got ++ s.uart.rx = (serialInit line u).1.rx ++ taken ∧
      taken.Sublist (incoming es) ∧
      ((Serial.start line u calls).NoOverrun es → taken = incoming es)) ∧
    ∀ bs : List UInt8, ((bs.flatMap serialRound).foldl Serial.step s).calls.length ≤
      s.calls.length - bs.length := by
  obtain ⟨hable, hout, taken, hin, hsub, hall⟩ := run_order es (start_able line u calls)
  refine ⟨hout.trans ?_, ⟨taken, ?_, hsub, hall⟩, fun bs => rounds_end bs hable⟩
  · have hstatus := (serialInit_spec line u).1
    have herr : sysErr ≠ sysOk := by decide
    have hno : errNoErr ≠ errSerialFaulty := by decide
    rw [Serial.toWrite, Serial.start, hstatus]
    by_cases hsame : compared line u = 0xAE
    · simp [hsame, hno]
    · simp [hsame, herr]
  · rw [hin]
    rfl

end Horizon64
