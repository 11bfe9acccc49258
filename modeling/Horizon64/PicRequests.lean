import Horizon64.Lib.Folds
import Horizon64.Lib.Search
import Horizon64.Pic
import Mathlib.Data.List.FinRange

/- The interrupt requests of the two 8259 controllers, as `pic_configure` of `tick/pic.c`
   leaves them.

   1. `Chip`, `Chips`: the controllers with the registers that `Pics` leaves out, and the
      rest of the driver: the two register reads and `pic_send_end_of_interrupt`.
   2. `outb_pics`, `configure_pics`: on the masks they are the controllers of `Pics`.
   3. `Lines`: one controller with 16 lines, the slave's eight in the place of line 2.
   4. `pic_refines_lines`: after `pic_configure`, in any order of requests,
      acknowledgements and writes of the driver, the two controllers are that one. What
      carries it is `Configured`: the end of interrupt is automatic, so nothing is ever in
      service and no line is held back. -/
namespace Horizon64

/-! The controllers. -/

/-- An 8259: the initialization words 2, 3 and 4 as far as they matter, the requests, what
    is in service, and the register that a read of the command port gives. -/
structure Chip where
  unit : I8259
  offset : UInt8
  icw3 : BitVec 8
  autoEoi : Bool
  irr : BitVec 8
  isr : BitVec 8
  readIsr : Bool
  deriving DecidableEq

/-- Input 0 has the highest priority. -/
def lowestBit (w : BitVec 8) : Option (Fin 8) := (List.finRange 8).find? fun i => w.getLsbD i

def clearBit (w : BitVec 8) (i : Fin 8) : BitVec 8 := w &&& ~~~BitVec.twoPow 8 i

/-- The first initialization word drops the requests; the third operation word selects a
    register; of the second ones the driver has the end of interrupt, which takes the
    highest priority out of service. -/
def Chip.command (c : Chip) (v : UInt8) : Chip :=
  if v &&& picIcw1Initialize ≠ 0 then
    { c with unit := c.unit.command v, autoEoi := false, irr := 0, isr := 0, readIsr := false }
  else if v &&& 0x08 ≠ 0 then
    if v &&& 0x02 ≠ 0 then { c with readIsr := v &&& 0x01 ≠ 0 } else c
  else if v &&& 0xE0 = 0x20 then
    match lowestBit c.isr with
    | some i => { c with isr := clearBit c.isr i }
    | none => c
  else c

def Chip.data (c : Chip) (v : UInt8) : Chip :=
  match c.unit.next with
  | .mask => { c with unit := c.unit.data v }
  | .icw2 => { c with unit := c.unit.data v, offset := v &&& 0xF8 }
  | .icw3 => { c with unit := c.unit.data v, icw3 := v.toBitVec }
  | .icw4 => { c with unit := c.unit.data v, autoEoi := v &&& picIcw4AutoEoi ≠ 0 }

/-- A read of the command port, when the requests are `irr`. -/
def Chip.status (c : Chip) (irr : BitVec 8) : UInt8 := .ofBitVec (if c.readIsr then c.isr else irr)

/-- A request that is not masked and has nothing of its priority or above in service. -/
def Chip.eligible (c : Chip) (irr : BitVec 8) (i : Fin 8) : Bool :=
  irr.getLsbD i && !c.unit.mask.toBitVec.getLsbD i &&
    (List.finRange 8).all fun j => !(decide (j ≤ i) && c.isr.getLsbD j)

/-- The request that a controller passes on, when the requests are `irr`. -/
def Chip.request (c : Chip) (irr : BitVec 8) : Option (Fin 8) :=
  (List.finRange 8).find? (c.eligible irr)

/-- An acknowledged request is in service, unless its end is automatic. -/
def Chip.accept (c : Chip) (i : Fin 8) : Chip :=
  { c with
    irr := clearBit c.irr i
    isr := if c.autoEoi then c.isr else c.isr ||| BitVec.twoPow 8 i }

/-- The controllers and `g_pic_mask`. -/
structure Chips where
  master : Chip
  slave : Chip
  gPicMask : UInt16
  deriving DecidableEq

/-- Neither controller is in an initialization. -/
def Chips.Listening (s : Chips) : Prop := s.master.unit.next = .mask ∧ s.slave.unit.next = .mask

def Chips.outb (s : Chips) (port : UInt16) (v : UInt8) : Chips :=
  if port = pic1CommandPort then { s with master := s.master.command v }
  else if port = pic1DataPort then { s with master := s.master.data v }
  else if port = pic2CommandPort then { s with slave := s.slave.command v }
  else if port = pic2DataPort then { s with slave := s.slave.data v }
  else s

/-- The slave's output is input 2 of the master. -/
def Chips.masterIrr (s : Chips) : BitVec 8 :=
  if (s.slave.request s.slave.irr).isSome then s.master.irr ||| BitVec.twoPow 8 2 else s.master.irr

def Chips.inb (s : Chips) (port : UInt16) : UInt8 :=
  if port = pic1CommandPort then s.master.status s.masterIrr
  else if port = pic1DataPort then s.master.unit.mask
  else if port = pic2CommandPort then s.slave.status s.slave.irr
  else if port = pic2DataPort then s.slave.unit.mask
  else 0xFF

/-- The lines of the timer and of the keyboard. -/
def timerLine : Fin 16 := 0
def keyboardLine : Fin 16 := 1

/-- A device requests an interrupt on its line. No device is on line 2. -/
def Chips.raise (s : Chips) (line : Fin 16) : Chips :=
  if line = 2 then s
  else if line.val < 8 then { s with master.irr := s.master.irr ||| BitVec.twoPow 8 line }
  else { s with slave.irr := s.slave.irr ||| BitVec.twoPow 8 (line.val - 8) }

/-- The processor acknowledges: the vector it is given. A controller that the master's
    third word names answers in its place. -/
def Chips.acknowledge (s : Chips) : Option (UInt8 × Chips) :=
  (s.master.request s.masterIrr).bind fun i =>
    if s.master.icw3.getLsbD i then
      if s.slave.icw3 = BitVec.ofNat 8 i then
        (s.slave.request s.slave.irr).map fun j =>
          (s.slave.offset + UInt8.ofNat j.val,
            { s with master := s.master.accept i, slave := s.slave.accept j })
      else none
    else some (s.master.offset + UInt8.ofNat i.val, { s with master := s.master.accept i })

/-! The driver. -/

def picCmdEndOfInterrupt : UInt8 := 0x20
def picCmdReadIrr : UInt8 := 0x0A
def picCmdReadIsr : UInt8 := 0x0B

/-- `pic_set_mask`. -/
def Chips.setMask (s : Chips) (mask : UInt16) : Chips :=
  (({ s with gPicMask := mask }.outb pic1DataPort (mask &&& 0xFF).toUInt8).outb
    pic2DataPort (mask >>> 8).toUInt8)

/-- `pic_configure`. -/
def Chips.configure (s : Chips) (offsetPic1 offsetPic2 : UInt8) : Chips :=
  let s := s.setMask 0xFFFF
  let s := s.outb pic1CommandPort (picIcw1Icw4 ||| picIcw1Initialize)
  let s := s.outb pic2CommandPort (picIcw1Icw4 ||| picIcw1Initialize)
  let s := s.outb pic1DataPort offsetPic1
  let s := s.outb pic2DataPort offsetPic2
  let s := s.outb pic1DataPort 0x4
  let s := s.outb pic2DataPort 0x2
  let icw4 := if gAutoEoi ≠ 0 then picIcw4Mode8086 ||| picIcw4AutoEoi else picIcw4Mode8086
  let s := s.outb pic1DataPort icw4
  let s := s.outb pic2DataPort icw4
  s.setMask 0xFFFF

def Chips.getMask (s : Chips) : UInt16 :=
  (s.inb pic1DataPort).toUInt16 ||| ((s.inb pic2DataPort).toUInt16 <<< 8)

/-- `pic_probe`. -/
def Chips.probe (s : Chips) : Chips × Bool :=
  let s := s.setMask 0xFFFF
  let s := s.setMask 0
  (s, s.getMask = 0)

/-- `pic_unmask`. -/
def Chips.unmask (s : Chips) (irq : Nat) : Chips := s.setMask (s.gPicMask &&& ~~~(irqBit irq))

/-- The two bytes that a command selects. -/
def readRegister (s : Chips) (command : UInt8) : UInt16 × Chips :=
  let s := s.outb pic1CommandPort command
  let s := s.outb pic2CommandPort command
  ((s.inb pic1CommandPort).toUInt16 ||| ((s.inb pic2CommandPort).toUInt16 <<< 8), s)

def picReadInRequestRegister (s : Chips) : UInt16 × Chips := readRegister s picCmdReadIrr

def picReadInServiceRegister (s : Chips) : UInt16 × Chips := readRegister s picCmdReadIsr

/-! On the masks these are the functions of `Pics`. -/

def Chips.pics (s : Chips) : Pics := ⟨s.master.unit, s.slave.unit, s.gPicMask⟩

theorem command_unit (c : Chip) (v : UInt8) : (c.command v).unit = c.unit.command v := by
  by_cases hinit : v &&& picIcw1Initialize ≠ 0
  · rw [Chip.command, if_pos hinit]
  · rw [Chip.command, if_neg hinit, I8259.command, if_neg hinit]
    split
    · split <;> rfl
    · split
      · split <;> rfl
      · rfl

theorem data_unit (c : Chip) (v : UInt8) : (c.data v).unit = c.unit.data v := by
  rw [Chip.data]
  split <;> rfl

theorem outb_pics (s : Chips) (port : UInt16) (v : UInt8) :
    (s.outb port v).pics = s.pics.outb port v := by
  unfold Chips.outb Pics.outb
  repeat' split
  all_goals simp [Chips.pics, command_unit, data_unit]

theorem setMask_pics (s : Chips) (mask : UInt16) : (s.setMask mask).pics = picSetMask s.pics mask := by
  rw [Chips.setMask, outb_pics, outb_pics]
  rfl

theorem configure_pics (s : Chips) (offsetPic1 offsetPic2 : UInt8) :
    (s.configure offsetPic1 offsetPic2).pics = picConfigure s.pics offsetPic1 offsetPic2 := by
  simp only [Chips.configure, picConfigure, setMask_pics, outb_pics]

theorem probe_pics (s : Chips) : (s.probe.1.pics, s.probe.2) = picProbe s.pics := by
  have hmask : ∀ t : Chips, t.getMask = picGetMask t.pics := fun t => by
    simp [Chips.getMask, picGetMask, Chips.inb, Pics.inb, pic1CommandPort, pic1DataPort,
      pic2CommandPort, pic2DataPort, Chips.pics]
  refine Prod.ext ?_ (decide_eq_decide.mpr ?_)
  · simp only [Chips.probe, picProbe, picDisable, setMask_pics]
  · simp only [hmask, setMask_pics, picDisable]

/-! What happens to the controllers. -/

inductive PicCmd where
  | endOfInterrupt
  | readIrr
  | readIsr
  deriving DecidableEq, Repr

def PicCmd.byte : PicCmd → UInt8
  | .endOfInterrupt => picCmdEndOfInterrupt
  | .readIrr => picCmdReadIrr
  | .readIsr => picCmdReadIsr

/-- A device's request, an acknowledgement of the processor, or a write of the driver
    outside of `pic_configure`: a half of the mask or a command. -/
inductive PicEvent where
  | raise (line : Fin 16)
  | acknowledge
  | mask1 (v : UInt8)
  | mask2 (v : UInt8)
  | command1 (c : PicCmd)
  | command2 (c : PicCmd)
  deriving DecidableEq, Repr

def Chips.step (s : Chips) : PicEvent → Chips
  | .raise line => s.raise line
  | .acknowledge => (s.acknowledge.map Prod.snd).getD s
  | .mask1 v => s.outb pic1DataPort v
  | .mask2 v => s.outb pic2DataPort v
  | .command1 c => s.outb pic1CommandPort c.byte
  | .command2 c => s.outb pic2CommandPort c.byte

/-- The vectors that the processor is given. -/
def Chips.vectors (s : Chips) : PicEvent → List UInt8
  | .acknowledge => (s.acknowledge.map Prod.fst).toList
  | _ => []

/-! One controller with 16 lines. -/

structure Lines where
  pending : Fin 16 → Bool
  masked : Fin 16 → Bool

def masterLine (i : Fin 8) : Fin 16 := ⟨i.val, by omega⟩

def slaveLine (j : Fin 8) : Fin 16 := ⟨8 + j.val, by omega⟩

/-- The lines behind input `i` of the master. -/
def inputLines (i : Fin 8) : List (Fin 16) :=
  if i = 2 then (List.finRange 8).map slaveLine else [masterLine i]

/-- The lines by priority. -/
def linePriority : List (Fin 16) := (List.finRange 8).flatMap inputLines

example : linePriority = [0, 1, 8, 9, 10, 11, 12, 13, 14, 15, 3, 4, 5, 6, 7] := by decide

/-- A request is passed on when its line is not masked and, for a line of the slave,
    line 2 is not either. -/
def Lines.accepts (l : Lines) (line : Fin 16) : Bool :=
  l.pending line && !l.masked line && (decide (line.val < 8) || !l.masked 2)

def Lines.first (l : Lines) : Option (Fin 16) := linePriority.find? l.accepts

/-- The vector of a line, for the two offsets. -/
def lineVector (offsetPic1 offsetPic2 : UInt8) (line : Fin 16) : UInt8 :=
  if line.val < 8 then (offsetPic1 &&& 0xF8) + UInt8.ofNat line.val
  else (offsetPic2 &&& 0xF8) + UInt8.ofNat (line.val - 8)

def Lines.step (l : Lines) : PicEvent → Lines
  | .raise line => if line = 2 then l else { l with pending := Function.update l.pending line true }
  | .acknowledge =>
    match l.first with
    | some line => { l with pending := Function.update l.pending line false }
    | none => l
  | .mask1 v => { l with masked := fun i => if i.val < 8 then v.toNat.testBit i else l.masked i }
  | .mask2 v => { l with masked := fun i => if i.val < 8 then l.masked i else v.toNat.testBit (i - 8) }
  | _ => l

def Lines.vectors (offsetPic1 offsetPic2 : UInt8) (l : Lines) : PicEvent → List UInt8
  | .acknowledge => (l.first.map (lineVector offsetPic1 offsetPic2)).toList
  | _ => []

/-- No requests, every line masked. -/
def Lines.start : Lines := ⟨fun _ => false, fun _ => true⟩

/-- The lines of the controllers. -/
def Chips.lines (s : Chips) : Lines where
  pending i := if i.val < 8 then s.master.irr.getLsbD i else s.slave.irr.getLsbD (i - 8)
  masked i := s.pics.masked i

/-- What `pic_configure` leaves and every event keeps. -/
structure Configured (offsetPic1 offsetPic2 : UInt8) (s : Chips) : Prop where
  master_next : s.master.unit.next = .mask
  slave_next : s.slave.unit.next = .mask
  master_offset : s.master.offset = offsetPic1 &&& 0xF8
  slave_offset : s.slave.offset = offsetPic2 &&& 0xF8
  cascade : s.master.icw3 = 4
  identity : s.slave.icw3 = 2
  master_eoi : s.master.autoEoi = true
  slave_eoi : s.slave.autoEoi = true
  master_idle : s.master.isr = 0
  slave_idle : s.slave.isr = 0
  wired : s.master.irr.getLsbD 2 = false

theorem eligible_eq {c : Chip} (h : c.isr = 0) (irr : BitVec 8) (i : Fin 8) :
    c.eligible irr i = (irr.getLsbD i && !c.unit.mask.toBitVec.getLsbD i) := by
  simp [Chip.eligible, h]

theorem getLsbD_clearBit (w : BitVec 8) (i j : Fin 8) :
    (clearBit w i).getLsbD j = (w.getLsbD j && decide (j ≠ i)) := by
  by_cases hij : j = i
  · subst hij
    simp [clearBit, j.isLt]
  · have hval : ¬ j.val = i.val := fun h => hij (Fin.ext h)
    simp [clearBit, j.isLt, hij, hval]

theorem getLsbD_set (w : BitVec 8) {i j : Nat} (hj : j < 8) :
    (w ||| BitVec.twoPow 8 i).getLsbD j = (w.getLsbD j || decide (i = j)) := by
  simp [hj, eq_comm]

theorem lowestBit_zero : lowestBit 0 = none := by decide

theorem configure_eq {s : Chips} (hmaster : s.master.unit.next = .mask)
    (hslave : s.slave.unit.next = .mask) (offsetPic1 offsetPic2 : UInt8) :
    s.configure offsetPic1 offsetPic2 =
      ⟨⟨⟨0xFF, .mask⟩, offsetPic1 &&& 0xF8, 4, true, 0, 0, false⟩,
        ⟨⟨0xFF, .mask⟩, offsetPic2 &&& 0xF8, 2, true, 0, 0, false⟩, 0xFFFF⟩ := by
  have hstart : (picIcw1Icw4 ||| picIcw1Initialize) &&& picIcw1Initialize ≠ 0 := by decide
  have heoi : (picIcw4Mode8086 ||| picIcw4AutoEoi) &&& picIcw4AutoEoi ≠ 0 := by decide
  simp [Chips.configure, Chips.setMask, Chips.outb, pic1CommandPort, pic1DataPort,
    pic2CommandPort, pic2DataPort, Chip.command, Chip.data, I8259.command, I8259.data, hmaster,
    hslave, hstart, heoi, gAutoEoi]
  decide

/-! The lines of the controllers. -/

theorem lines_master (s : Chips) (i : Fin 8) :
    s.lines.pending (masterLine i) = s.master.irr.getLsbD i ∧
    s.lines.masked (masterLine i) = s.master.unit.mask.toBitVec.getLsbD i :=
  ⟨if_pos i.isLt, if_pos i.isLt⟩

theorem lines_slave (s : Chips) (j : Fin 8) :
    s.lines.pending (slaveLine j) = s.slave.irr.getLsbD j ∧
    s.lines.masked (slaveLine j) = s.slave.unit.mask.toBitVec.getLsbD j := by
  have hhigh : ¬ 8 + j.val < 8 := by omega
  have hback : 8 + j.val - 8 = j.val := Nat.add_sub_cancel_left 8 j.val
  refine ⟨(if_neg hhigh).trans ?_, (if_neg hhigh).trans ?_⟩
  · exact congrArg s.slave.irr.getLsbD hback
  · exact congrArg s.slave.unit.mask.toBitVec.getLsbD hback

theorem line_cases (line : Fin 16) : (∃ i, line = masterLine i) ∨ ∃ j, line = slaveLine j := by
  by_cases hlow : line.val < 8
  · exact Or.inl ⟨⟨line.val, hlow⟩, rfl⟩
  · exact Or.inr ⟨⟨line.val - 8, by omega⟩, Fin.ext (by simp only [slaveLine]; omega)⟩

/-! An acknowledgement. -/

/-- The chip without the request of input `i`. -/
def Chip.drop (c : Chip) (i : Fin 8) : Chip := { c with irr := clearBit c.irr i }

theorem accept_eq {c : Chip} (h : c.autoEoi = true) (i : Fin 8) : c.accept i = c.drop i := by
  simp [Chip.accept, Chip.drop, h]

theorem cascade_input {i : Fin 8} (hi : i ≠ 2) : (4 : BitVec 8).getLsbD i = false := by
  revert i
  decide

section Acknowledge
variable {o₁ o₂ : UInt8} {s : Chips} (h : Configured o₁ o₂ s)
include h

theorem accepts_slave (j : Fin 8) :
    s.lines.accepts (slaveLine j) =
      (s.slave.eligible s.slave.irr j && !s.master.unit.mask.toBitVec.getLsbD 2) := by
  obtain ⟨hpending, hmasked⟩ := lines_slave s j
  have hhigh : decide ((slaveLine j).val < 8) = false := decide_eq_false (by simp [slaveLine])
  have hcascade : s.lines.masked 2 = s.master.unit.mask.toBitVec.getLsbD 2 := (lines_master s 2).2
  rw [eligible_eq h.slave_idle, Lines.accepts, hpending, hmasked, hhigh, hcascade, Bool.false_or]

theorem accepts_master {i : Fin 8} (hi : i ≠ 2) :
    s.lines.accepts (masterLine i) = s.master.eligible s.masterIrr i := by
  have hwire : s.masterIrr.getLsbD i = s.master.irr.getLsbD i := by
    have hval : ¬ 2 = i.val := fun hv => hi (Fin.ext hv.symm)
    rw [Chips.masterIrr]
    split
    · rw [getLsbD_set _ i.isLt]
      simp [hval]
    · rfl
  obtain ⟨hpending, hmasked⟩ := lines_master s i
  have hlow : decide ((masterLine i).val < 8) = true := decide_eq_true i.isLt
  rw [eligible_eq h.master_idle, hwire, Lines.accepts, hpending, hmasked, hlow, Bool.true_or,
    Bool.and_true]

theorem eligible_cascade :
    s.master.eligible s.masterIrr 2 =
      ((s.slave.request s.slave.irr).isSome && !s.master.unit.mask.toBitVec.getLsbD 2) := by
  have hwire : s.masterIrr.getLsbD 2 = (s.slave.request s.slave.irr).isSome := by
    rw [Chips.masterIrr]
    split
    case isTrue hsome => rw [getLsbD_set _ (by decide), hsome]; simp
    case isFalse hsome => rw [h.wired]; simpa using hsome
  rw [eligible_eq h.master_idle]
  exact congrArg (· && _) hwire

/-- The line that is served: the first input of the master, and at input 2 the first one of
    the slave. -/
theorem lines_first :
    s.lines.first = (s.master.request s.masterIrr).bind fun i =>
      if i = 2 then (s.slave.request s.slave.irr).map slaveLine else some (masterLine i) := by
  rw [Lines.first, linePriority, List.find?_flatMap, Chip.request]
  apply Search.findSome?_eq_bind
  · intro i hi
    by_cases h2 : i = 2
    · subst h2
      rw [eligible_cascade h, Bool.and_eq_true] at hi
      obtain ⟨hsome, hopen⟩ := hi
      have hoffer : (inputLines 2).find? s.lines.accepts =
          (s.slave.request s.slave.irr).map slaveLine := by
        rw [inputLines, if_pos rfl, List.find?_map, Chip.request]
        congr 2
        funext j
        rw [Function.comp, accepts_slave h, hopen, Bool.and_true]
      exact ⟨hoffer.trans (if_pos rfl).symm, by rw [hoffer]; simpa using hsome⟩
    · rw [← accepts_master h h2] at hi
      simp [inputLines, h2, hi]
  · intro i hi
    by_cases h2 : i = 2
    · subst h2
      rw [inputLines, if_pos rfl, List.find?_map, Option.map_eq_none_iff, List.find?_eq_none]
      intro j hj haccepts
      rw [Function.comp, accepts_slave h, Bool.and_eq_true] at haccepts
      have hsome : (s.slave.request s.slave.irr).isSome :=
        List.find?_isSome.mpr ⟨j, hj, haccepts.1⟩
      rw [eligible_cascade h, hsome, haccepts.2] at hi
      exact absurd hi (by decide)
    · rw [← accepts_master h h2] at hi
      simp [inputLines, h2, hi]

theorem clear_wired : s.master.drop 2 = s.master := by
  have hirr : clearBit s.master.irr 2 = s.master.irr := by
    apply BitVec.eq_of_getLsbD_eq
    intro k hk
    refine (getLsbD_clearBit s.master.irr 2 ⟨k, hk⟩).trans ?_
    by_cases h2 : k = 2
    · subst h2
      rw [show s.master.irr.getLsbD 2 = false from h.wired, Bool.false_and]
    · have hne : (⟨k, hk⟩ : Fin 8) ≠ 2 := fun he => h2 (congrArg Fin.val he)
      rw [decide_eq_true hne, Bool.and_true]
  rw [Chip.drop, hirr]

/-- What an acknowledgement does: nothing, or one request of the master or of the slave is
    taken and its vector given. -/
theorem acknowledge_cases :
    (s.lines.first = none ∧ s.acknowledge = none) ∨
    (∃ i, i ≠ 2 ∧ s.lines.first = some (masterLine i) ∧
      s.acknowledge = some (lineVector o₁ o₂ (masterLine i),
        { s with master := s.master.drop i })) ∨
    (∃ j, s.lines.first = some (slaveLine j) ∧
      s.acknowledge = some (lineVector o₁ o₂ (slaveLine j),
        { s with slave := s.slave.drop j })) := by
  have hfirst := lines_first h
  cases hrequest : s.master.request s.masterIrr with
  | none =>
    rw [hrequest, Option.bind_none] at hfirst
    exact Or.inl ⟨hfirst, by rw [Chips.acknowledge, hrequest, Option.bind_none]⟩
  | some i =>
    rw [hrequest, Option.bind_some] at hfirst
    by_cases h2 : i = 2
    · subst h2
      have helig : s.master.eligible s.masterIrr 2 = true := List.find?_some hrequest
      rw [eligible_cascade h, Bool.and_eq_true] at helig
      obtain ⟨j, hj⟩ := Option.isSome_iff_exists.mp helig.1
      have hvector : lineVector o₁ o₂ (slaveLine j) = s.slave.offset + UInt8.ofNat j.val := by
        rw [lineVector, if_neg (by simp [slaveLine]), h.slave_offset]
        simp [slaveLine]
      rw [if_pos rfl, hj, Option.map_some] at hfirst
      refine Or.inr (Or.inr ⟨j, hfirst, ?_⟩)
      rw [Chips.acknowledge, hrequest, Option.bind_some, h.cascade, h.identity, hj,
        accept_eq h.master_eoi, clear_wired h, hvector, Option.map_some, accept_eq h.slave_eoi]
      rfl
    · have hdirect : s.master.icw3.getLsbD i = false := by
        rw [h.cascade]
        exact cascade_input h2
      have hvector : lineVector o₁ o₂ (masterLine i) = s.master.offset + UInt8.ofNat i.val := by
        rw [lineVector, if_pos (by exact i.isLt), h.master_offset]
        rfl
      rw [if_neg h2] at hfirst
      refine Or.inr (Or.inl ⟨i, h2, hfirst, ?_⟩)
      rw [Chips.acknowledge, hrequest, Option.bind_some, hdirect, accept_eq h.master_eoi, hvector]
      rfl

end Acknowledge

/-! One event. -/

theorem masterLine_inj {i j : Fin 8} : masterLine i = masterLine j ↔ i = j := by
  simp [masterLine, Fin.ext_iff]

theorem slaveLine_inj {i j : Fin 8} : slaveLine i = slaveLine j ↔ i = j := by
  simp [slaveLine, Fin.ext_iff]

theorem masterLine_ne (i j : Fin 8) : masterLine i ≠ slaveLine j := by
  intro h
  have hval : i.val = 8 + j.val := congrArg Fin.val h
  omega

theorem pending_master {s s' : Chips} {i : Fin 8} {b : Bool}
    (hmaster : ∀ k : Fin 8, s'.master.irr.getLsbD k = if k = i then b else s.master.irr.getLsbD k)
    (hslave : s'.slave.irr = s.slave.irr) :
    s'.lines.pending = Function.update s.lines.pending (masterLine i) b := by
  funext line
  rcases line_cases line with ⟨k, rfl⟩ | ⟨k, rfl⟩
  · rw [(lines_master s' k).1, hmaster k, Function.update_apply, (lines_master s k).1]
    simp only [masterLine_inj]
  · rw [(lines_slave s' k).1, hslave, Function.update_of_ne (masterLine_ne i k).symm,
      (lines_slave s k).1]

theorem pending_slave {s s' : Chips} {j : Fin 8} {b : Bool}
    (hslave : ∀ k : Fin 8, s'.slave.irr.getLsbD k = if k = j then b else s.slave.irr.getLsbD k)
    (hmaster : s'.master.irr = s.master.irr) :
    s'.lines.pending = Function.update s.lines.pending (slaveLine j) b := by
  funext line
  rcases line_cases line with ⟨k, rfl⟩ | ⟨k, rfl⟩
  · rw [(lines_master s' k).1, hmaster, Function.update_of_ne (masterLine_ne k j),
      (lines_master s k).1]
  · rw [(lines_slave s' k).1, hslave k, Function.update_apply, (lines_slave s k).1]
    simp only [slaveLine_inj]

theorem drop_irr (c : Chip) (i k : Fin 8) :
    (c.drop i).irr.getLsbD k = if k = i then false else c.irr.getLsbD k := by
  rw [Chip.drop, getLsbD_clearBit]
  by_cases hk : k = i <;> simp [hk]

theorem set_irr (w : BitVec 8) (i k : Fin 8) :
    (w ||| BitVec.twoPow 8 i).getLsbD k = if k = i then true else w.getLsbD k := by
  rw [getLsbD_set w k.isLt]
  by_cases hk : k = i
  · simp [hk]
  · have hval : ¬ i.val = k.val := fun h => hk (Fin.ext h.symm)
    simp [hk, hval]

theorem raise_lines (s : Chips) (line : Fin 16) :
    (s.raise line).lines = s.lines.step (.raise line) := by
  by_cases h2 : line = 2
  · rw [Chips.raise, if_pos h2, Lines.step, if_pos h2]
  · rw [Lines.step, if_neg h2, Chips.raise, if_neg h2]
    rcases line_cases line with ⟨i, rfl⟩ | ⟨j, rfl⟩
    · rw [if_pos (by exact i.isLt)]
      exact congrArg (Lines.mk · _) (pending_master (set_irr s.master.irr i) rfl)
    · have hback : (slaveLine j).val - 8 = j.val := by simp [slaveLine]
      rw [if_neg (by simp [slaveLine]), hback]
      exact congrArg (Lines.mk · _) (pending_slave (set_irr s.slave.irr j) rfl)

section Step
variable {o₁ o₂ : UInt8} {s : Chips}

theorem raise_configured (h : Configured o₁ o₂ s) (line : Fin 16) :
    Configured o₁ o₂ (s.raise line) := by
  rw [Chips.raise]
  split
  · exact h
  · rename_i h2
    split
    · refine { h with wired := ?_ }
      rw [getLsbD_set _ (by decide), h.wired, Bool.false_or]
      exact decide_eq_false fun hline => h2 (Fin.ext hline)
    · exact { h with }

/-- A command of the driver selects a register; there is no interrupt to end. -/
theorem command_idle {c : Chip} (h : c.isr = 0) (cmd : PicCmd) :
    ∃ b, c.command cmd.byte = { c with readIsr := b } := by
  cases cmd with
  | endOfInterrupt =>
    have hinit : ¬ PicCmd.endOfInterrupt.byte &&& picIcw1Initialize ≠ 0 := by decide
    have hthird : ¬ PicCmd.endOfInterrupt.byte &&& 0x08 ≠ 0 := by decide
    have heoi : PicCmd.endOfInterrupt.byte &&& 0xE0 = 0x20 := by decide
    have hnone : lowestBit c.isr = none := by rw [h, lowestBit_zero]
    exact ⟨c.readIsr, by rw [Chip.command, if_neg hinit, if_neg hthird, if_pos heoi, hnone]⟩
  | readIrr => exact ⟨false, rfl⟩
  | readIsr => exact ⟨true, rfl⟩

theorem data_mask {c : Chip} (h : c.unit.next = .mask) (v : UInt8) :
    c.data v = { c with unit := ⟨v, .mask⟩ } := by
  rw [Chip.data, h, I8259.data, h]

/-- The writes of the driver, on a state that is configured. -/
theorem write_eq (h : Configured o₁ o₂ s) :
    (∀ v, s.step (.mask1 v) = { s with master.unit := ⟨v, .mask⟩ }) ∧
    (∀ v, s.step (.mask2 v) = { s with slave.unit := ⟨v, .mask⟩ }) ∧
    (∀ c, ∃ b, s.step (.command1 c) = { s with master.readIsr := b }) ∧
    ∀ c, ∃ b, s.step (.command2 c) = { s with slave.readIsr := b } := by
  refine ⟨fun v => ?_, fun v => ?_, fun c => ?_, fun c => ?_⟩
  · rw [← data_mask h.master_next]
    rfl
  · rw [← data_mask h.slave_next]
    rfl
  · obtain ⟨b, hb⟩ := command_idle h.master_idle c
    exact ⟨b, by rw [← hb]; rfl⟩
  · obtain ⟨b, hb⟩ := command_idle h.slave_idle c
    exact ⟨b, by rw [← hb]; rfl⟩

/-- Every event keeps the configuration, and the lines follow it. -/
theorem step_lines (h : Configured o₁ o₂ s) (e : PicEvent) :
    Configured o₁ o₂ (s.step e) ∧ (s.step e).lines = s.lines.step e ∧
    s.vectors e = s.lines.vectors o₁ o₂ e := by
  obtain ⟨hmask1, hmask2, hcommand1, hcommand2⟩ := write_eq h
  cases e with
  | raise line => exact ⟨raise_configured h line, raise_lines s line, rfl⟩
  | acknowledge =>
    rcases acknowledge_cases h with ⟨hfirst, hack⟩ | ⟨i, h2, hfirst, hack⟩ | ⟨j, hfirst, hack⟩
    · simp only [Chips.step, Chips.vectors, Lines.step, Lines.vectors, hack, hfirst]
      exact ⟨h, rfl, rfl⟩
    · simp only [Chips.step, Chips.vectors, Lines.step, Lines.vectors, hack, hfirst]
      refine ⟨{ h with wired := ?_ }, ?_, rfl⟩
      · rw [show (2 : Nat) = (2 : Fin 8).val from rfl]
        exact (drop_irr s.master i 2).trans (by rw [if_neg (Ne.symm h2)]; exact h.wired)
      · exact congrArg (Lines.mk · _) (pending_master (drop_irr s.master i) rfl)
    · simp only [Chips.step, Chips.vectors, Lines.step, Lines.vectors, hack, hfirst]
      refine ⟨{ h with }, ?_, rfl⟩
      exact congrArg (Lines.mk · _) (pending_slave (drop_irr s.slave j) rfl)
  | mask1 v =>
    rw [hmask1]
    refine ⟨{ h with master_next := rfl }, ?_, rfl⟩
    refine congrArg (Lines.mk _) (funext fun line => ?_)
    by_cases hlow : line.val < 8 <;> simp [Chips.lines, Pics.masked, Chips.pics, hlow]
  | mask2 v =>
    rw [hmask2]
    refine ⟨{ h with slave_next := rfl }, ?_, rfl⟩
    refine congrArg (Lines.mk _) (funext fun line => ?_)
    by_cases hlow : line.val < 8 <;> simp [Chips.lines, Pics.masked, Chips.pics, hlow]
  | command1 c =>
    obtain ⟨b, hb⟩ := hcommand1 c
    rw [hb]
    exact ⟨{ h with }, rfl, rfl⟩
  | command2 c =>
    obtain ⟨b, hb⟩ := hcommand2 c
    rw [hb]
    exact ⟨{ h with }, rfl, rfl⟩

end Step

/-! Runs. -/

section Runs
variable {o₁ o₂ : UInt8} {s : Chips}

theorem configured_start (hmaster : s.master.unit.next = .mask)
    (hslave : s.slave.unit.next = .mask) (o₁ o₂ : UInt8) :
    Configured o₁ o₂ (s.configure o₁ o₂) ∧ (s.configure o₁ o₂).lines = Lines.start := by
  rw [configure_eq hmaster hslave]
  have hwired : (0 : BitVec 8).getLsbD 2 = false := by decide
  refine ⟨⟨rfl, rfl, rfl, rfl, rfl, rfl, rfl, rfl, rfl, rfl, hwired⟩, ?_⟩
  have hpending : ∀ line : Fin 16, (if line.val < 8 then (0 : BitVec 8).getLsbD line.val
      else (0 : BitVec 8).getLsbD (line.val - 8)) = false := by decide
  have hmasked : ∀ line : Fin 16, (if line.val < 8 then (0xFF : UInt8).toNat.testBit line.val
      else (0xFF : UInt8).toNat.testBit (line.val - 8)) = true := by decide
  exact congrArg₂ Lines.mk (funext hpending) (funext hmasked)

theorem run_lines (h : Configured o₁ o₂ s) (es : List PicEvent) :
    Configured o₁ o₂ (es.foldl Chips.step s) ∧
    (es.foldl Chips.step s).lines = es.foldl Lines.step s.lines ∧
    Folds.trace Chips.step Chips.vectors s es =
      Folds.trace Lines.step (Lines.vectors o₁ o₂) s.lines es :=
  Folds.trace_sim (fun _ e h => (step_lines h e).1) (fun _ e h => (step_lines h e).2.1)
    (fun _ e h => (step_lines h e).2.2) es h

theorem testBit_joined (a b : UInt8) {i : Nat} (hi : i < 16) :
    (a.toUInt16 ||| (b.toUInt16 <<< 8)).toNat.testBit i =
      if i < 8 then a.toNat.testBit i else b.toNat.testBit (i - 8) := by
  rw [UInt16.toNat_or, Nat.testBit_or, UInt8.toNat_toUInt16, UInt16.toNat_shiftLeft,
    UInt8.toNat_toUInt16, Nat.testBit_mod_two_pow, Nat.testBit_shiftLeft]
  change (_ || (_ && (decide (8 ≤ i) && _))) = _
  by_cases hlow : i < 8
  · simp [hlow, Nat.not_le.mpr hlow]
  · have ha : a.toNat.testBit i = false :=
      Nat.testBit_lt_two_pow (lt_of_lt_of_le a.toNat_lt
        (Nat.pow_le_pow_right (by decide) (Nat.not_lt.mp hlow)))
    have hhigh : 8 ≤ i := Nat.not_lt.mp hlow
    rw [ha, if_neg hlow, decide_eq_true hi, decide_eq_true hhigh]
    rfl

/-- The two registers as the driver reads them: nothing is in service, and the requests are
    those of the lines. -/
theorem registers_configured (h : Configured o₁ o₂ s) :
    (picReadInServiceRegister s).1 = 0 ∧
    ∀ line : Fin 16, line ≠ 2 →
      (picReadInRequestRegister s).1.toNat.testBit line = s.lines.pending line := by
  have hisr : ∀ c : Chip, c.command picCmdReadIsr = { c with readIsr := true } := fun c => rfl
  have hirr : ∀ c : Chip, c.command picCmdReadIrr = { c with readIsr := false } := fun c => rfl
  refine ⟨?_, fun line h2 => ?_⟩
  · simp [picReadInServiceRegister, readRegister, Chips.outb, Chips.inb, pic1CommandPort,
      pic1DataPort, pic2CommandPort, hisr, Chip.status, h.master_idle, h.slave_idle]
  · have hread : (picReadInRequestRegister s).1 =
        (UInt8.ofBitVec s.masterIrr).toUInt16 ||| ((UInt8.ofBitVec s.slave.irr).toUInt16 <<< 8) := by
      simp only [picReadInRequestRegister, readRegister, Chips.outb, Chips.inb, pic1CommandPort,
        pic1DataPort, pic2CommandPort, pic2DataPort, hirr, Chip.status]
      rfl
    rw [hread, testBit_joined _ _ line.isLt]
    by_cases hlow : line.val < 8
    · have hwire : s.masterIrr.getLsbD line = s.master.irr.getLsbD line := by
        rw [Chips.masterIrr]
        split
        · rw [getLsbD_set _ hlow, decide_eq_false fun he => h2 (Fin.ext he.symm), Bool.or_false]
        · rfl
      rw [if_pos hlow]
      exact hwire.trans (if_pos hlow).symm
    · rw [if_neg hlow]
      exact (if_neg hlow).symm

/-- After `pic_configure` the two controllers are one controller with 16 lines: in any order
    of requests, acknowledgements and writes of the driver the processor is given the same
    vectors, nothing is ever in service, and the request register shows the lines that
    wait. -/
theorem pic_refines_lines (hmaster : s.master.unit.next = .mask)
    (hslave : s.slave.unit.next = .mask) (o₁ o₂ : UInt8) (es : List PicEvent) :
    Folds.trace Chips.step Chips.vectors (s.configure o₁ o₂) es =
      Folds.trace Lines.step (Lines.vectors o₁ o₂) Lines.start es ∧
    (picReadInServiceRegister (es.foldl Chips.step (s.configure o₁ o₂))).1 = 0 ∧
    ∀ line : Fin 16, line ≠ 2 →
      (picReadInRequestRegister (es.foldl Chips.step (s.configure o₁ o₂))).1.toNat.testBit line =
        (es.foldl Lines.step Lines.start).pending line := by
  obtain ⟨hconf, hstart⟩ := configured_start hmaster hslave o₁ o₂
  obtain ⟨hend, hlines, htrace⟩ := run_lines hconf es
  obtain ⟨hservice, hrequest⟩ := registers_configured hend
  rw [hstart] at hlines htrace
  rw [hlines] at hrequest
  exact ⟨htrace, hservice, hrequest⟩

end Runs

/-! Every request is answered once. -/

/-- The lines that are served. -/
def Lines.served (l : Lines) : PicEvent → List (Fin 16)
  | .acknowledge => l.first.toList
  | _ => []

theorem Lines.first_pending {l : Lines} {line : Fin 16} (h : l.first = some line) :
    l.accepts line = true ∧ l.pending line = true := by
  have haccepts : l.accepts line = true := List.find?_some h
  refine ⟨haccepts, ?_⟩
  rw [Lines.accepts, Bool.and_assoc, Bool.and_eq_true] at haccepts
  exact haccepts.1

/-- An event serves a line only if it waits or is requested, and then it waits no longer. -/
theorem step_count (l : Lines) (e : PicEvent) {line : Fin 16} (h2 : line ≠ 2) :
    (l.served e).count line + ((l.step e).pending line).toNat ≤
      (if e = .raise line then 1 else 0) + (l.pending line).toNat := by
  cases e with
  | raise k =>
    by_cases hk : k = line
    · subst hk
      simp [Lines.served, Lines.step, h2]
    · have hother : ((l.step (.raise k)).pending line) = l.pending line := by
        rw [Lines.step]
        split
        · rfl
        · exact Function.update_of_ne (Ne.symm hk) _ _
      simp [Lines.served, hother]
  | acknowledge =>
    cases hfirst : l.first with
    | none => simp [Lines.served, Lines.step, hfirst]
    | some k =>
      by_cases hk : k = line
      · subst hk
        simp [Lines.served, Lines.step, hfirst, (Lines.first_pending hfirst).2]
      · simp [Lines.served, Lines.step, hfirst, hk, Function.update_of_ne (Ne.symm hk)]
  | mask1 v => simp [Lines.served, Lines.step]
  | mask2 v => simp [Lines.served, Lines.step]
  | command1 c => simp [Lines.served, Lines.step]
  | command2 c => simp [Lines.served, Lines.step]

theorem run_count (es : List PicEvent) (l : Lines) {line : Fin 16} (h2 : line ≠ 2) :
    (Folds.trace Lines.step Lines.served l es).count line +
        ((es.foldl Lines.step l).pending line).toNat ≤
      es.count (.raise line) + (l.pending line).toNat := by
  induction es generalizing l with
  | nil => simp [Folds.trace]
  | cons e es ih =>
    have hstep := step_count l e h2
    have hrest := ih (l.step e)
    rw [Folds.trace, List.count_append, List.foldl_cons, List.count_cons]
    simp only [beq_iff_eq]
    omega

theorem step_waits {l : Lines} {line : Fin 16} (h : l.pending line = true) (e : PicEvent) :
    line ∈ l.served e ∨ (l.step e).pending line = true := by
  cases e with
  | raise k =>
    refine Or.inr ?_
    rw [Lines.step]
    split
    · exact h
    · change Function.update l.pending k true line = true
      rw [Function.update_apply, h, ite_self]
  | acknowledge =>
    cases hfirst : l.first with
    | none => exact Or.inr (by simp only [Lines.step, hfirst, h])
    | some k =>
      by_cases hk : line = k
      · exact Or.inl (by simp [Lines.served, hfirst, hk])
      · exact Or.inr (by simp only [Lines.step, hfirst, Function.update_of_ne hk, h])
  | mask1 v => exact Or.inr h
  | mask2 v => exact Or.inr h
  | command1 c => exact Or.inr h
  | command2 c => exact Or.inr h

theorem run_waits (es : List PicEvent) {l : Lines} {line : Fin 16} (h : l.pending line = true) :
    line ∈ Folds.trace Lines.step Lines.served l es ∨
      (es.foldl Lines.step l).pending line = true := by
  induction es generalizing l with
  | nil => exact Or.inr h
  | cons e es ih =>
    rw [Folds.trace, List.mem_append, List.foldl_cons]
    rcases step_waits h e with hserved | hwaits
    · exact Or.inl (Or.inl hserved)
    · exact (ih hwaits).imp_left Or.inr

/-- Acknowledgements in a row serve the lines that are accepted, by priority. -/
theorem served_acknowledges (n : Nat) (l : Lines) :
    Folds.trace Lines.step Lines.served l (List.replicate n .acknowledge) =
      (linePriority.filter l.accepts).take n := by
  induction n generalizing l with
  | zero => simp [Folds.trace]
  | succ n ih =>
    rw [List.replicate_succ, Folds.trace, ih]
    have hhead : l.first = (linePriority.filter l.accepts).head? := (List.head?_filter ..).symm
    cases hlist : linePriority.filter l.accepts with
    | nil =>
      rw [hlist, List.head?_nil] at hhead
      simp [Lines.served, Lines.step, hhead, hlist]
    | cons line rest =>
      rw [hlist, List.head?_cons] at hhead
      have hnodup : (line :: rest).Nodup := by
        rw [← hlist]
        exact List.Nodup.filter _ (by decide)
      have hrest : linePriority.filter (l.step .acknowledge).accepts = rest := by
        have haccepts : (l.step .acknowledge).accepts = fun k => l.accepts k && decide (k ≠ line) := by
          funext k
          by_cases hk : k = line <;>
            simp [Lines.accepts, Lines.step, hhead, hk, Function.update_of_ne]
        have hkeep : ∀ k ∈ rest, decide (k ≠ line) = true := fun k hk =>
          decide_eq_true fun he => (List.nodup_cons.mp hnodup).1 (he ▸ hk)
        rw [haccepts, ← List.filter_filter, List.filter_comm, hlist, List.filter_cons_of_neg (by simp),
          List.filter_eq_self.mpr hkeep]
      rw [hrest, Lines.served, hhead]
      rfl

theorem vectors_served (o₁ o₂ : UInt8) (es : List PicEvent) (l : Lines) :
    Folds.trace Lines.step (Lines.vectors o₁ o₂) l es =
      (Folds.trace Lines.step Lines.served l es).map (lineVector o₁ o₂) := by
  induction es generalizing l with
  | nil => rfl
  | cons e es ih =>
    rw [Folds.trace, Folds.trace, List.map_append, ih]
    congr 1
    cases e with
    | acknowledge => cases hfirst : l.first <;> simp [Lines.vectors, Lines.served, hfirst]
    | _ => rfl

/-- The lines behind the vectors: no line is served more often than it is requested, a
    request is served or seen in the request register, and acknowledgements in a row serve
    what is not masked, by priority. -/
theorem pic_answers_requests {s : Chips} (hmaster : s.master.unit.next = .mask)
    (hslave : s.slave.unit.next = .mask) (o₁ o₂ : UInt8) (es : List PicEvent) :
    ∃ served : List (Fin 16),
      Folds.trace Chips.step Chips.vectors (s.configure o₁ o₂) es =
        served.map (lineVector o₁ o₂) ∧
      (∀ line : Fin 16, line ≠ 2 →
        served.count line + ((picReadInRequestRegister
          (es.foldl Chips.step (s.configure o₁ o₂))).1.toNat.testBit line).toNat ≤
            es.count (.raise line)) ∧
      (∀ line : Fin 16, line ≠ 2 → ∀ es₁ es₂, es = es₁ ++ .raise line :: es₂ →
        lineVector o₁ o₂ line ∈ Folds.trace Chips.step Chips.vectors
            ((es₁ ++ [.raise line]).foldl Chips.step (s.configure o₁ o₂)) es₂ ∨
          (picReadInRequestRegister
            (es.foldl Chips.step (s.configure o₁ o₂))).1.toNat.testBit line = true) ∧
      ∀ n, Folds.trace Chips.step Chips.vectors (es.foldl Chips.step (s.configure o₁ o₂))
          (List.replicate n .acknowledge) =
        ((linePriority.filter (es.foldl Lines.step Lines.start).accepts).take n).map
          (lineVector o₁ o₂) := by
  obtain ⟨hconf, hstart⟩ := configured_start hmaster hslave o₁ o₂
  obtain ⟨hend, hlines, htrace⟩ := run_lines hconf es
  have hrequest := (registers_configured hend).2
  rw [hstart] at hlines htrace
  rw [hlines] at hrequest
  refine ⟨_, htrace.trans (vectors_served o₁ o₂ es _), fun line h2 => ?_,
    fun line h2 es₁ es₂ hes => ?_, fun n => ?_⟩
  · rw [hrequest line h2]
    exact run_count es Lines.start h2
  · obtain ⟨hmid, hmidlines, -⟩ := run_lines hconf (es₁ ++ [.raise line])
    have hpending : ((es₁ ++ [PicEvent.raise line]).foldl Chips.step
        (s.configure o₁ o₂)).lines.pending line = true := by
      rw [hmidlines, List.foldl_append, List.foldl_cons, List.foldl_nil, Lines.step, if_neg h2]
      exact Function.update_self ..
    have hsplit : es.foldl Lines.step Lines.start =
        es₂.foldl Lines.step ((es₁ ++ [PicEvent.raise line]).foldl Lines.step Lines.start) := by
      rw [hes, ← List.foldl_append, List.append_assoc, List.singleton_append]
    rw [hrequest line h2, (run_lines hmid es₂).2.2, vectors_served, hsplit, ← hstart, ← hmidlines]
    exact (run_waits es₂ hpending).imp_left fun hserved => List.mem_map_of_mem hserved
  · rw [(run_lines hend _).2.2, vectors_served, served_acknowledges, hlines]

/-- The controllers at power on. -/
def chipsAtBoot : Chips :=
  ⟨⟨⟨0, .mask⟩, 0, 0, false, 0, 0, false⟩, ⟨⟨0, .mask⟩, 0, 0, false, 0, 0, false⟩, 0xFFFF⟩

/-- The keyboard waits for the clock; the disk waits for line 2. -/
def picMorning : List PicEvent :=
  [.raise 1, .raise 14, .mask1 0xFC, .mask2 0xBF, .raise 0, .acknowledge, .acknowledge,
    .acknowledge]

theorem pic_refines_morning :
    Folds.trace Chips.step Chips.vectors (chipsAtBoot.configure 0x20 0x28) picMorning =
        [0x20, 0x21] ∧
      (picReadInServiceRegister
        (picMorning.foldl Chips.step (chipsAtBoot.configure 0x20 0x28))).1 = 0 := by
  obtain ⟨htrace, hservice, -⟩ := pic_refines_lines (s := chipsAtBoot) rfl rfl 0x20 0x28 picMorning
  exact ⟨htrace.trans (by decide), hservice⟩

/-- Line 2 is unmasked, too. -/
theorem pic_answers_disk :
    Folds.trace Chips.step Chips.vectors
        ((picMorning ++ [PicEvent.mask1 0xF8]).foldl Chips.step (chipsAtBoot.configure 0x20 0x28))
        (List.replicate 15 .acknowledge) = [0x2E] := by
  obtain ⟨-, -, -, -, hserves⟩ :=
    pic_answers_requests (s := chipsAtBoot) rfl rfl 0x20 0x28 (picMorning ++ [.mask1 0xF8])
  exact (hserves 15).trans (by decide)

end Horizon64
