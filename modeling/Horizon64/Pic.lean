import Mathlib.Data.Nat.Bitwise

/- The interrupt masks of `tick/pic.c` and the two 8259 controllers they are written to.

   The data port of a controller takes the mask, except in an initialization, which the
   first command word starts and in which it takes the next three. `Pics.Agree`: both
   controllers are out of initialization and hold the halves of `g_pic_mask`. Then a mask
   call is an operation on that word (`agree_set`), and a line is masked in the hardware
   when its bit is set (`Agree.masked_eq`). Every call of the file keeps it (`agree_step`),
   the ones that initialize the controllers included. -/
namespace Horizon64

/-! The hardware. -/

/-- What the next write of a data port is. -/
inductive DataWrite where
  | mask
  | icw2
  | icw3
  | icw4
  deriving DecidableEq, Repr

structure I8259 where
  mask : UInt8
  next : DataWrite
  deriving DecidableEq, Repr

def picIcw1Initialize : UInt8 := 0x10

/-- A write of the command port: the first initialization word clears the mask; the other
    commands leave it. -/
def I8259.command (c : I8259) (v : UInt8) : I8259 :=
  if v &&& picIcw1Initialize ≠ 0 then { mask := 0, next := .icw2 } else c

def I8259.data (c : I8259) (v : UInt8) : I8259 :=
  match c.next with
  | .mask => { c with mask := v }
  | .icw2 => { c with next := .icw3 }
  | .icw3 => { c with next := .icw4 }
  | .icw4 => { c with next := .mask }

def pic1CommandPort : UInt16 := 0x20
def pic1DataPort : UInt16 := 0x21
def pic2CommandPort : UInt16 := 0xA0
def pic2DataPort : UInt16 := 0xA1

/-- The controllers and `g_pic_mask`. -/
structure Pics where
  master : I8259
  slave : I8259
  gPicMask : UInt16
  deriving DecidableEq, Repr

def Pics.outb (s : Pics) (port : UInt16) (v : UInt8) : Pics :=
  if port = pic1CommandPort then { s with master := s.master.command v }
  else if port = pic1DataPort then { s with master := s.master.data v }
  else if port = pic2CommandPort then { s with slave := s.slave.command v }
  else if port = pic2DataPort then { s with slave := s.slave.data v }
  else s

/-- Reading a data port gives the mask. -/
def Pics.inb (s : Pics) (port : UInt16) : UInt8 :=
  if port = pic1DataPort then s.master.mask
  else if port = pic2DataPort then s.slave.mask
  else 0xFF

/-- The hardware's mask of a line. -/
def Pics.masked (s : Pics) (irq : Nat) : Bool :=
  if irq < 8 then s.master.mask.toNat.testBit irq else s.slave.mask.toNat.testBit (irq - 8)

/-! The mask functions. -/

def picSetMask (s : Pics) (mask : UInt16) : Pics :=
  (({ s with gPicMask := mask }.outb pic1DataPort (mask &&& 0xFF).toUInt8).outb
    pic2DataPort (mask >>> 8).toUInt8)

/-- `1 << irq`, as a word of 16 bits. -/
def irqBit (irq : Nat) : UInt16 := UInt16.ofNat (1 <<< irq)

def picMask (s : Pics) (irq : Nat) : Pics := picSetMask s (s.gPicMask ||| irqBit irq)

def picUnmask (s : Pics) (irq : Nat) : Pics := picSetMask s (s.gPicMask &&& ~~~(irqBit irq))

def picGetMask (s : Pics) : UInt16 :=
  (s.inb pic1DataPort).toUInt16 ||| ((s.inb pic2DataPort).toUInt16 <<< 8)

def picSaveMask (s : Pics) : Pics := { s with gPicMask := picGetMask s }

def picRestoreMask (s : Pics) : Pics := picSetMask s s.gPicMask

/-! The halves of a word. -/

theorem testBit_low (w : UInt16) (i : Nat) :
    w.toUInt8.toNat.testBit i = (decide (i < 8) && w.toNat.testBit i) := by
  rw [UInt16.toNat_toUInt8, Nat.testBit_mod_two_pow]

theorem testBit_high (w : UInt16) (i : Nat) :
    (w >>> 8).toUInt8.toNat.testBit i = (decide (i < 8) && w.toNat.testBit (8 + i)) := by
  rw [testBit_low, UInt16.toNat_shiftRight, Nat.testBit_shiftRight]
  rfl

theorem testBit_word (w : UInt16) {i : Nat} (hi : 16 ≤ i) : w.toNat.testBit i = false :=
  Nat.testBit_lt_two_pow (lt_of_lt_of_le w.toNat_lt (Nat.pow_le_pow_right (by decide) hi))

theorem bytes_join (w : UInt16) :
    w.toUInt8.toUInt16 ||| ((w >>> 8).toUInt8.toUInt16 <<< 8) = w := by
  apply UInt16.toNat_inj.mp
  apply Nat.eq_of_testBit_eq
  intro i
  rw [UInt16.toNat_or, Nat.testBit_or, UInt8.toNat_toUInt16, testBit_low, UInt16.toNat_shiftLeft,
    UInt8.toNat_toUInt16, Nat.testBit_mod_two_pow, Nat.testBit_shiftLeft]
  change (_ || (_ && (decide (8 ≤ i) && (w >>> 8).toUInt8.toNat.testBit (i - 8)))) = _
  rw [testBit_high]
  by_cases hlow : i < 8
  · simp [hlow, Nat.not_le.mpr hlow]
  · have hback : 8 + (i - 8) = i := Nat.add_sub_of_le (Nat.not_lt.mp hlow)
    by_cases hi : i < 16
    · have hhigh : i - 8 < 8 := by omega
      simp [hlow, hi, hhigh, hback, Nat.not_lt.mp hlow]
    · simp [hlow, hi, testBit_word w (Nat.not_lt.mp hi)]

/-! The controllers hold the halves of `g_pic_mask`. -/

structure Pics.Agree (s : Pics) : Prop where
  master : s.master = ⟨s.gPicMask.toUInt8, .mask⟩
  slave : s.slave = ⟨(s.gPicMask >>> 8).toUInt8, .mask⟩

theorem and_low (v : UInt8) : v &&& 255 = v := UInt8.and_neg_one

theorem picSetMask_eq {s : Pics} (h : s.Agree) (mask : UInt16) :
    picSetMask s mask = ⟨⟨mask.toUInt8, .mask⟩, ⟨(mask >>> 8).toUInt8, .mask⟩, mask⟩ := by
  simp [picSetMask, Pics.outb, pic1CommandPort, pic1DataPort, pic2CommandPort, pic2DataPort,
    I8259.data, h.master, h.slave, and_low]

theorem agree_set {s : Pics} (h : s.Agree) (mask : UInt16) : (picSetMask s mask).Agree := by
  rw [picSetMask_eq h]
  exact ⟨rfl, rfl⟩

theorem agree_set_of_next {s : Pics} (hmaster : s.master.next = .mask)
    (hslave : s.slave.next = .mask) (mask : UInt16) : (picSetMask s mask).Agree := by
  constructor <;> simp [picSetMask, Pics.outb, pic1CommandPort, pic1DataPort, pic2CommandPort,
    pic2DataPort, I8259.data, hmaster, hslave, and_low]

theorem picGetMask_eq {s : Pics} (h : s.Agree) : picGetMask s = s.gPicMask := by
  have hinb : s.inb pic1DataPort = s.gPicMask.toUInt8 ∧
      s.inb pic2DataPort = (s.gPicMask >>> 8).toUInt8 := by
    simp [Pics.inb, h.master, h.slave, pic1DataPort, pic2DataPort]
  rw [picGetMask, hinb.1, hinb.2, bytes_join]

theorem Pics.Agree.masked_eq {s : Pics} (h : s.Agree) {irq : Nat} (hirq : irq < 16) :
    s.masked irq = s.gPicMask.toNat.testBit irq := by
  by_cases hlow : irq < 8
  · simp only [Pics.masked, hlow, if_true, h.master, testBit_low, decide_true, Bool.true_and]
  · have hback : 8 + (irq - 8) = irq := Nat.add_sub_of_le (Nat.not_lt.mp hlow)
    have hhigh : irq - 8 < 8 := by omega
    simp only [Pics.masked, hlow, if_false, h.slave, testBit_high, hhigh, decide_true,
      Bool.true_and, hback]

/-! The calls of `pic_mask` and `pic_unmask`. -/

inductive MaskCall where
  | mask (irq : Nat)
  | unmask (irq : Nat)
  deriving DecidableEq, Repr

def MaskCall.irq : MaskCall → Nat
  | .mask irq => irq
  | .unmask irq => irq

def Pics.call (s : Pics) : MaskCall → Pics
  | .mask irq => picMask s irq
  | .unmask irq => picUnmask s irq

theorem testBit_irqBit {irq i : Nat} (hi : i < 16) :
    (irqBit irq).toNat.testBit i = decide (irq = i) := by
  rw [irqBit, UInt16.toNat_ofNat', Nat.testBit_mod_two_pow, Nat.one_shiftLeft,
    Nat.testBit_two_pow]
  simp [hi]

theorem testBit_not {w : UInt16} {i : Nat} (hi : i < 16) :
    (~~~w).toNat.testBit i = !w.toNat.testBit i := by
  have hnot : (~~~w).toNat = 2 ^ 16 - (w.toNat + 1) := by
    rw [UInt16.toNat_not, UInt16.size]
    omega
  rw [hnot, Nat.testBit_two_pow_sub_succ w.toNat_lt]
  simp [hi]

theorem agree_call {s : Pics} (h : s.Agree) (c : MaskCall) : (s.call c).Agree := by
  cases c with
  | mask irq => exact agree_set h _
  | unmask irq => exact agree_set h _

theorem masked_call {s : Pics} (h : s.Agree) (c : MaskCall) {irq : Nat} (hirq : irq < 16) :
    (s.call c).masked irq =
      if c.irq = irq then decide (c = .mask irq) else s.masked irq := by
  rw [(agree_call h c).masked_eq hirq, h.masked_eq hirq]
  cases c with
  | mask line =>
    rw [Pics.call, picMask, picSetMask_eq h, UInt16.toNat_or, Nat.testBit_or, testBit_irqBit hirq]
    by_cases hline : line = irq <;> simp [MaskCall.irq, hline]
  | unmask line =>
    rw [Pics.call, picUnmask, picSetMask_eq h, UInt16.toNat_and, Nat.testBit_and, testBit_not hirq,
      testBit_irqBit hirq]
    by_cases hline : line = irq <;> simp [MaskCall.irq, hline]

/-- Calls on other lines leave a line. -/
theorem masked_calls {calls : List MaskCall} {irq : Nat} (hirq : irq < 16)
    (hother : ∀ c ∈ calls, c.irq ≠ irq) {s : Pics} (h : s.Agree) :
    (calls.foldl Pics.call s).Agree ∧ (calls.foldl Pics.call s).masked irq = s.masked irq := by
  induction calls generalizing s with
  | nil => exact ⟨h, rfl⟩
  | cons c calls ih =>
    obtain ⟨hagree, hmasked⟩ := ih (fun d hd => hother d (List.mem_cons_of_mem c hd)) (agree_call h c)
    refine ⟨hagree, hmasked.trans ?_⟩
    rw [masked_call h c hirq, if_neg (hother c (List.mem_cons_self ..))]

/-! All functions of the driver that write a mask. -/

def picIcw1Icw4 : UInt8 := 0x01
def picIcw4Mode8086 : UInt8 := 0x01
def picIcw4AutoEoi : UInt8 := 0x02
def gAutoEoi : Int32 := 1

def picDisable (s : Pics) : Pics := picSetMask s 0xFFFF

/-- `pic_probe`: the controllers afterwards, and whether the mask is read back. -/
def picProbe (s : Pics) : Pics × Bool :=
  let s := picDisable s
  let s := picSetMask s 0
  (s, picGetMask s = 0)

def picConfigure (s : Pics) (offsetPic1 offsetPic2 : UInt8) : Pics :=
  let s := picSetMask s 0xFFFF
  let s := s.outb pic1CommandPort (picIcw1Icw4 ||| picIcw1Initialize)
  let s := s.outb pic2CommandPort (picIcw1Icw4 ||| picIcw1Initialize)
  let s := s.outb pic1DataPort offsetPic1
  let s := s.outb pic2DataPort offsetPic2
  let s := s.outb pic1DataPort 0x4
  let s := s.outb pic2DataPort 0x2
  let icw4 := if gAutoEoi ≠ 0 then picIcw4Mode8086 ||| picIcw4AutoEoi else picIcw4Mode8086
  let s := s.outb pic1DataPort icw4
  let s := s.outb pic2DataPort icw4
  picSetMask s 0xFFFF

inductive PicCall where
  | probe
  | configure (offsetPic1 offsetPic2 : UInt8)
  | setMask (mask : UInt16)
  | mask (irq : Fin 16)
  | unmask (irq : Fin 16)
  | disable
  | saveMask
  | restoreMask
  deriving DecidableEq, Repr

def Pics.step (s : Pics) : PicCall → Pics
  | .probe => (picProbe s).1
  | .configure offsetPic1 offsetPic2 => picConfigure s offsetPic1 offsetPic2
  | .setMask mask => picSetMask s mask
  | .mask irq => picMask s irq
  | .unmask irq => picUnmask s irq
  | .disable => picDisable s
  | .saveMask => picSaveMask s
  | .restoreMask => picRestoreMask s

/-- The line a call is to mask or unmask. -/
def PicCall.line : PicCall → Option MaskCall
  | .mask irq => some (.mask irq)
  | .unmask irq => some (.unmask irq)
  | _ => none

/-- The three words after the first one are taken as such, and the mask after them as the
    mask. -/
theorem agree_configure {s : Pics} (h : s.Agree) (offsetPic1 offsetPic2 : UInt8) :
    (picConfigure s offsetPic1 offsetPic2).Agree := by
  have hstart : (picIcw1Icw4 ||| picIcw1Initialize) &&& picIcw1Initialize ≠ 0 := by decide
  apply agree_set_of_next
  · simp [picSetMask_eq h, Pics.outb, pic1CommandPort, pic1DataPort, pic2CommandPort, pic2DataPort,
      I8259.command, I8259.data, hstart]
  · simp [picSetMask_eq h, Pics.outb, pic1CommandPort, pic1DataPort, pic2CommandPort, pic2DataPort,
      I8259.command, I8259.data, hstart]

theorem agree_step {s : Pics} (h : s.Agree) (c : PicCall) : (s.step c).Agree := by
  cases c with
  | probe => exact agree_set (agree_set h _) _
  | configure offsetPic1 offsetPic2 => exact agree_configure h offsetPic1 offsetPic2
  | setMask mask => exact agree_set h mask
  | mask irq => exact agree_set h _
  | unmask irq => exact agree_set h _
  | disable => exact agree_set h _
  | saveMask =>
    rw [Pics.step, picSaveMask, picGetMask_eq h]
    exact h
  | restoreMask => exact agree_set h _

theorem agree_run {s : Pics} (h : s.Agree) (calls : List PicCall) :
    (calls.foldl Pics.step s).Agree := by
  induction calls generalizing s with
  | nil => exact h
  | cons c calls ih => exact ih (agree_step h c)

/-- After every call of a run: both controllers are out of initialization and hold the
    halves of `g_pic_mask`, and a call of `pic_mask` or `pic_unmask` has changed the bit of
    its line and no other. -/
theorem pic_shadow_agrees {s : Pics} (h : s.Agree) (calls : List PicCall) (c : PicCall) :
    ((calls.foldl Pics.step s).step c).Agree ∧
    ∀ m, c.line = some m → ∀ irq < 16,
      ((calls.foldl Pics.step s).step c).gPicMask.toNat.testBit irq =
        if m.irq = irq then decide (m = .mask irq)
        else (calls.foldl Pics.step s).gPicMask.toNat.testBit irq := by
  have hrun := agree_run h calls
  have hstep := agree_step hrun c
  refine ⟨hstep, fun m hm irq hirq => ?_⟩
  have hcall : (calls.foldl Pics.step s).step c = (calls.foldl Pics.step s).call m := by
    cases c <;> cases hm <;> rfl
  rw [← hstep.masked_eq hirq, ← hrun.masked_eq hirq, hcall]
  exact masked_call hrun m hirq

/-- The controllers as the kernel starts, set up and with line 0 unmasked. -/
theorem pic_shadow_boot :
    (([.probe, .configure 0x20 0x28].foldl Pics.step
        ⟨⟨0xFF, .mask⟩, ⟨0xFF, .mask⟩, 0xFFFF⟩).step (.unmask 0)).Agree :=
  (pic_shadow_agrees ⟨rfl, rfl⟩ _ _).1

end Horizon64
