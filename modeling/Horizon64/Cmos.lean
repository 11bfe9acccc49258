import Horizon64.Lib.While

/- The real-time clock of `sys/cmos.c`.

   `rtc n` is what the registers hold during the `n`-th run of `GET_TIME`, by register
   number. `read_time` reads until two runs agree as far as its test goes, and then
   converts what it read: BCD to binary, 12-hour to 24-hour, two digits of the year
   to four.

   1. The functions.
   2. `DateTime` and what the registers hold for it in each of the four modes.
   3. `read_time_iff`: with registers that do not change, `read_time` gives the
      date-time back except for some hours of the 12-hour modes.
   4. `read_time_untorn_iff`: with registers that change, the last two runs agree
      only when the first two that do not differ in the seconds alone agree. -/
namespace Horizon64

structure Cmos where
  seconds : UInt8
  minutes : UInt8
  hours : UInt8
  weekdays : UInt8
  day : UInt8
  month : UInt8
  year : UInt16
  century : UInt8
  deriving DecidableEq, Repr

def cmosRegSec : UInt8 := 0x00
def cmosRegMin : UInt8 := 0x02
def cmosRegHrs : UInt8 := 0x04
def cmosRegWkd : UInt8 := 0x06
def cmosRegDay : UInt8 := 0x07
def cmosRegMth : UInt8 := 0x08
def cmosRegYear : UInt8 := 0x09
def cmosRegCen : UInt8 := 0x32
def cmosRegStb : UInt8 := 0x0B

def currentYear : UInt16 := 2024

/-- `century_register`, which nothing writes. -/
def centuryRegister : UInt8 := 0

/-- `GET_TIME`, after `wait` has seen no update in progress. -/
def getTime (reg : UInt8 → UInt8) : Cmos where
  seconds := reg cmosRegSec
  minutes := reg cmosRegMin
  hours := reg cmosRegHrs
  weekdays := reg cmosRegWkd
  day := reg cmosRegDay
  month := reg cmosRegMth
  year := (reg cmosRegYear).toUInt16
  century := reg cmosRegCen

/-- `!CHECK_TIME_EQ(one, two)`: the macro is not in parentheses, so the `!` belongs to the
    first of its eight comparisons. -/
def notCheckTimeEq (one two : Cmos) : Bool :=
  !(one.seconds == two.seconds) && one.minutes == two.minutes && one.hours == two.hours &&
  one.weekdays == two.weekdays && one.day == two.day && one.month == two.month &&
  one.year == two.year && one.century == two.century

/-- The locals of the loop; `next` counts the runs of `GET_TIME`. -/
structure Reading where
  next : Nat
  cur : Cmos
  prev : Cmos

/-- The body of the `do`-`while` loop. -/
def Reading.round (rtc : Nat → UInt8 → UInt8) (r : Reading) : Reading :=
  ⟨r.next + 1, getTime (rtc r.next), r.cur⟩

def Reading.again (r : Reading) : Bool := notCheckTimeEq r.cur r.prev

/-- `TO_BINARY`. -/
def toBinary (val : UInt8) : UInt8 := (val &&& 0xF) + val / 16 * 10

def toBinary16 (val : UInt16) : UInt16 := (val &&& 0xF) + val / 16 * 10

/-- The conversion when bit 2 of status register B is clear. -/
def Cmos.fromBcd (cur : Cmos) : Cmos where
  seconds := toBinary cur.seconds
  minutes := toBinary cur.minutes
  hours := toBinary cur.hours
  weekdays := toBinary cur.weekdays
  day := toBinary cur.day
  month := toBinary cur.month
  year := toBinary16 cur.year
  century := toBinary cur.century

/-- The conversion when bit 1 of status register B is clear and the hour has its bit 7 set. -/
def Cmos.fromPm (cur : Cmos) : Cmos := { cur with hours := ((cur.hours &&& 0x7F) + 12) % 24 }

/-- The full 4-digit year. -/
def Cmos.fullYear (cur : Cmos) : Cmos :=
  if cur.year < 100 then
    if centuryRegister ≠ 0 then { cur with year := cur.year + cur.century.toUInt16 * 100 }
    else
      let year := cur.year + currentYear / 100 * 100
      { cur with year := if year < currentYear then year + 100 else year }
  else cur

/-- What `read_time` does after its loop, with status register B. -/
def Cmos.convert (b : UInt8) (cur : Cmos) : Cmos :=
  let cur := if b &&& 0x04 = 0 then cur.fromBcd else cur
  let cur := if b &&& 0x02 = 0 ∧ cur.hours &&& 0x80 ≠ 0 then cur.fromPm else cur
  cur.fullYear

def cmosZero : Cmos := ⟨0, 0, 0, 0, 0, 0, 0, 0⟩

/-- `read_time`, with fuel for its loop. -/
def readTime (rtc : Nat → UInt8 → UInt8) (fuel : Nat) : Option Cmos :=
  (While.run Reading.again (Reading.round rtc) fuel
    (Reading.round rtc ⟨1, getTime (rtc 0), cmosZero⟩)).map fun r =>
    r.cur.convert (rtc r.next cmosRegStb)

/-! What the registers hold. -/

/-- A date and time the two digits of the year stand for. -/
structure DateTime where
  year : Nat
  month : Nat
  day : Nat
  weekday : Nat
  hour : Nat
  minute : Nat
  second : Nat
  year_range : 2024 ≤ year ∧ year ≤ 2123
  month_range : 1 ≤ month ∧ month ≤ 12
  day_range : 1 ≤ day ∧ day ≤ 31
  weekday_range : 1 ≤ weekday ∧ weekday ≤ 7
  hour_range : hour ≤ 23
  minute_range : minute ≤ 59
  second_range : second ≤ 59

/-- The mode bits of status register B. -/
structure Mode where
  binary : Bool
  hour24 : Bool
  deriving DecidableEq, Repr

/-- A two-digit number in a register. -/
def Mode.encode (m : Mode) (v : Nat) : UInt8 :=
  if m.binary then UInt8.ofNat v else UInt8.ofNat (v / 10 * 16 + v % 10)

/-- The hour: in 12-hour mode 1 to 12, with bit 7 set for PM. -/
def Mode.encodeHour (m : Mode) (h : Nat) : UInt8 :=
  if m.hour24 then m.encode h
  else m.encode (if h % 12 = 0 then 12 else h % 12) ||| (if h ≥ 12 then 0x80 else 0)

/-- The registers hold the date-time in the mode. -/
structure Encodes (reg : UInt8 → UInt8) (m : Mode) (d : DateTime) : Prop where
  second : reg cmosRegSec = m.encode d.second
  minute : reg cmosRegMin = m.encode d.minute
  hour : reg cmosRegHrs = m.encodeHour d.hour
  weekday : reg cmosRegWkd = m.encode d.weekday
  day : reg cmosRegDay = m.encode d.day
  month : reg cmosRegMth = m.encode d.month
  year : reg cmosRegYear = m.encode (d.year % 100)
  binary : reg cmosRegStb &&& 0x04 = 0 ↔ m.binary = false
  hour24 : reg cmosRegStb &&& 0x02 = 0 ↔ m.hour24 = false

/-- The record is the date-time, with the hour in 0 to 23 and the full year. -/
structure Cmos.Is (c : Cmos) (d : DateTime) : Prop where
  second : c.seconds.toNat = d.second
  minute : c.minutes.toNat = d.minute
  hour : c.hours.toNat = d.hour
  weekday : c.weekdays.toNat = d.weekday
  day : c.day.toNat = d.day
  month : c.month.toNat = d.month
  year : c.year.toNat = d.year

/-- The hours the conversion gives back: all of them in 24-hour mode; in 12-hour mode not
    midnight and noon, and with BCD no hour after noon. -/
def Mode.Keeps (m : Mode) (h : Nat) : Prop :=
  m.hour24 = true ∨ (h % 12 ≠ 0 ∧ (m.binary = true ∨ h < 12))

instance (m : Mode) (h : Nat) : Decidable (m.Keeps h) := by
  unfold Mode.Keeps
  infer_instance

/-! Field by field. -/

/-- The first conversion of a register, as the mode has it. -/
def Mode.decode (m : Mode) (v : UInt8) : UInt8 := if m.binary then v else toBinary v

theorem decode_encode (m : Mode) {v : Nat} (h : v < 100) : (m.decode (m.encode v)).toNat = v := by
  have hbinary : ∀ v < 100, (UInt8.ofNat v).toNat = v := by decide +kernel
  have hbcd : ∀ v < 100, (toBinary (UInt8.ofNat (v / 10 * 16 + v % 10))).toNat = v := by
    decide +kernel
  cases hm : m.binary with
  | true => simpa [Mode.decode, Mode.encode, hm] using hbinary v h
  | false => simpa [Mode.decode, Mode.encode, hm] using hbcd v h

/-- The year register as `uint16_t`. -/
def Mode.decodeYear (m : Mode) (v : UInt8) : UInt16 :=
  if m.binary then v.toUInt16 else toBinary16 v.toUInt16

/-- The hour after both conversions. -/
def Mode.decodeHour (m : Mode) (v : UInt8) : UInt8 :=
  if m.hour24 = false ∧ m.decode v &&& 0x80 ≠ 0 then ((m.decode v &&& 0x7F) + 12) % 24
  else m.decode v

theorem decodeHour_iff (m : Mode) {h : Nat} (hh : h ≤ 23) :
    (m.decodeHour (m.encodeHour h)).toNat = h ↔ m.Keeps h := by
  have hall : ∀ b₁ b₂ : Bool, ∀ h < 24,
      (Mode.decodeHour ⟨b₁, b₂⟩ (Mode.encodeHour ⟨b₁, b₂⟩ h)).toNat = h ↔
        Mode.Keeps ⟨b₁, b₂⟩ h := by decide +kernel
  exact hall m.binary m.hour24 h (by omega)

/-- The window of a hundred years from `CURRENT_YEAR` on. -/
def fullYearOf (year : UInt16) : UInt16 :=
  if year < 100 then
    if year + currentYear / 100 * 100 < currentYear then year + currentYear / 100 * 100 + 100
    else year + currentYear / 100 * 100
  else year

theorem fullYear_eq (c : Cmos) : c.fullYear = { c with year := fullYearOf c.year } := by
  unfold Cmos.fullYear fullYearOf
  by_cases h : c.year < 100
  · simp [h, centuryRegister]
  · simp [h]

theorem fullYearOf_encode (m : Mode) {y : Nat} (h : 2024 ≤ y ∧ y ≤ 2123) :
    (fullYearOf (m.decodeYear (m.encode (y % 100)))).toNat = y := by
  have hall : ∀ b : Bool, ∀ j < 100,
      (fullYearOf (Mode.decodeYear ⟨b, true⟩ (Mode.encode ⟨b, true⟩ ((2024 + j) % 100)))).toNat =
        2024 + j := by decide +kernel
  have hy := hall m.binary (y - 2024) (by omega)
  rw [show 2024 + (y - 2024) = y by omega] at hy
  exact hy

theorem convert_eq {reg : UInt8 → UInt8} {m : Mode} {d : DateTime} (h : Encodes reg m d) :
    (getTime reg).convert (reg cmosRegStb) =
      { seconds := m.decode (reg cmosRegSec)
        minutes := m.decode (reg cmosRegMin)
        hours := m.decodeHour (reg cmosRegHrs)
        weekdays := m.decode (reg cmosRegWkd)
        day := m.decode (reg cmosRegDay)
        month := m.decode (reg cmosRegMth)
        year := fullYearOf (m.decodeYear (reg cmosRegYear))
        century := m.decode (reg cmosRegCen) } := by
  have hbcd : (if reg cmosRegStb &&& 0x04 = 0 then (getTime reg).fromBcd else getTime reg) =
      { seconds := m.decode (reg cmosRegSec)
        minutes := m.decode (reg cmosRegMin)
        hours := m.decode (reg cmosRegHrs)
        weekdays := m.decode (reg cmosRegWkd)
        day := m.decode (reg cmosRegDay)
        month := m.decode (reg cmosRegMth)
        year := m.decodeYear (reg cmosRegYear)
        century := m.decode (reg cmosRegCen) } := by
    cases hm : m.binary with
    | true =>
      rw [if_neg (by simp [h.binary, hm])]
      simp [getTime, Mode.decode, Mode.decodeYear, hm]
    | false =>
      rw [if_pos (h.binary.mpr hm)]
      simp [getTime, Cmos.fromBcd, Mode.decode, Mode.decodeYear, hm]
  rw [Cmos.convert, hbcd, fullYear_eq]
  dsimp only
  by_cases hpm : m.hour24 = false ∧ m.decode (reg cmosRegHrs) &&& 0x80 ≠ 0
  · rw [if_pos ⟨h.hour24.mpr hpm.1, hpm.2⟩]
    simp only [Cmos.fromPm, Mode.decodeHour, if_pos hpm]
  · rw [if_neg (fun hc => hpm ⟨h.hour24.mp hc.1, hc.2⟩)]
    simp only [Mode.decodeHour, if_neg hpm]

/-- With registers that do not change, one round of the loop is enough. -/
theorem readTime_const (reg : UInt8 → UInt8) (fuel : Nat) :
    readTime (fun _ => reg) (fuel + 1) = some ((getTime reg).convert (reg cmosRegStb)) := by
  have hagain : (Reading.round (fun _ => reg) ⟨1, getTime reg, cmosZero⟩).again = false := by
    simp [Reading.again, Reading.round, notCheckTimeEq]
  rw [readTime, While.run, hagain]
  rfl

/-- For every date-time and every mode: when the registers hold the date-time and do not
    change, `read_time` returns it exactly when the mode keeps its hour. -/
theorem read_time_iff {reg : UInt8 → UInt8} {m : Mode} {d : DateTime} (h : Encodes reg m d) :
    (∃ c, (∀ fuel, readTime (fun _ => reg) (fuel + 1) = some c) ∧ c.Is d) ↔ m.Keeps d.hour := by
  have hread : (∃ c, (∀ fuel, readTime (fun _ => reg) (fuel + 1) = some c) ∧ c.Is d) ↔
      ((getTime reg).convert (reg cmosRegStb)).Is d := by
    simp only [readTime_const, Option.some.injEq]
    constructor
    · rintro ⟨c, hc, his⟩
      rw [hc 0]
      exact his
    · intro his
      exact ⟨_, fun _ => rfl, his⟩
  rw [hread, convert_eq h, ← decodeHour_iff m d.hour_range, ← h.hour]
  constructor
  · intro his
    exact his.hour
  · intro hhour
    have hmonth := d.month_range
    have hday := d.day_range
    have hweekday := d.weekday_range
    have hminute := d.minute_range
    have hsecond := d.second_range
    constructor
    · rw [h.second]
      exact decode_encode m (by omega)
    · rw [h.minute]
      exact decode_encode m (by omega)
    · exact hhour
    · rw [h.weekday]
      exact decode_encode m (by omega)
    · rw [h.day]
      exact decode_encode m (by omega)
    · rw [h.month]
      exact decode_encode m (by omega)
    · rw [h.year]
      exact fullYearOf_encode m d.year_range

/-- Registers that hold the date-time. -/
def registersOf (m : Mode) (d : DateTime) : UInt8 → UInt8 := fun r =>
  if r = cmosRegSec then m.encode d.second
  else if r = cmosRegMin then m.encode d.minute
  else if r = cmosRegHrs then m.encodeHour d.hour
  else if r = cmosRegWkd then m.encode d.weekday
  else if r = cmosRegDay then m.encode d.day
  else if r = cmosRegMth then m.encode d.month
  else if r = cmosRegYear then m.encode (d.year % 100)
  else if r = cmosRegStb then
    (if m.binary then 0x04 else 0) ||| (if m.hour24 then 0x02 else 0)
  else 0

theorem registersOf_encodes (m : Mode) (d : DateTime) : Encodes (registersOf m d) m d := by
  refine ⟨rfl, rfl, rfl, rfl, rfl, rfl, rfl, ?_, ?_⟩
  · have hall : ∀ b₁ b₂ : Bool, ((if b₁ then 0x04 else 0) ||| (if b₂ then 0x02 else 0) : UInt8) &&&
        0x04 = 0 ↔ b₁ = false := by decide
    exact hall m.binary m.hour24
  · have hall : ∀ b₁ b₂ : Bool, ((if b₁ then 0x04 else 0) ||| (if b₂ then 0x02 else 0) : UInt8) &&&
        0x02 = 0 ↔ b₂ = false := by decide
    exact hall m.binary m.hour24

/-- 1 February 2026, a Sunday, at noon. -/
def noon : DateTime where
  year := 2026
  month := 2
  day := 1
  weekday := 1
  hour := 12
  minute := 30
  second := 59
  year_range := by decide
  month_range := by decide
  day_range := by decide
  weekday_range := by decide
  hour_range := by decide
  minute_range := by decide
  second_range := by decide

theorem read_time_noon_24 : ∃ c, (∀ fuel, readTime (fun _ => registersOf ⟨false, true⟩ noon)
    (fuel + 1) = some c) ∧ c.Is noon :=
  (read_time_iff (registersOf_encodes ⟨false, true⟩ noon)).mpr (Or.inl rfl)

/-- In BCD and 12-hour mode noon is read as hour 92. -/
theorem read_time_noon_12 :
    (∀ fuel, (readTime (fun _ => registersOf ⟨false, false⟩ noon) (fuel + 1)).map Cmos.hours =
      some 92) ∧
    ¬ ∀ (reg : UInt8 → UInt8) (m : Mode) (d : DateTime), Encodes reg m d →
      ∃ c, (∀ fuel, readTime (fun _ => reg) (fuel + 1) = some c) ∧ c.Is d := by
  have hhours : ((getTime (registersOf ⟨false, false⟩ noon)).convert
      (registersOf ⟨false, false⟩ noon cmosRegStb)).hours = 92 := by decide +kernel
  refine ⟨fun fuel => by rw [readTime_const, Option.map_some, hhours], fun h => ?_⟩
  obtain ⟨c, hc, his⟩ := h _ _ _ (registersOf_encodes ⟨false, false⟩ noon)
  have hread := hc 0
  rw [readTime_const, Option.some.injEq] at hread
  have hhour := his.hour
  rw [← hread, hhours] at hhour
  exact absurd hhour (by decide)

/-! Registers that change while they are read. -/

section Torn
variable (rtc : Nat → UInt8 → UInt8)

/-- The loop of `read_time`: its locals when it ends. -/
def readLoop (fuel : Nat) : Option Reading :=
  While.run Reading.again (Reading.round rtc) fuel
    (Reading.round rtc ⟨1, getTime (rtc 0), cmosZero⟩)

theorem readTime_eq (fuel : Nat) : readTime rtc fuel =
    (readLoop rtc fuel).map fun r => r.cur.convert (rtc r.next cmosRegStb) := rfl

/-- Two snapshots that differ in the seconds and in no other field. -/
def Cmos.SecondsOnly (one two : Cmos) : Prop :=
  one.seconds ≠ two.seconds ∧ one = { two with seconds := one.seconds }

instance (one two : Cmos) : Decidable (one.SecondsOnly two) := by
  unfold Cmos.SecondsOnly
  infer_instance

theorem notCheckTimeEq_iff (one two : Cmos) :
    notCheckTimeEq one two = true ↔ one.SecondsOnly two := by
  cases one
  cases two
  simp [notCheckTimeEq, Cmos.SecondsOnly, and_assoc]

/-- After `n` more rounds the locals hold the snapshots `n + 1` and `n`. -/
theorem round_iterate (n : Nat) :
    (Reading.round rtc)^[n] (Reading.round rtc ⟨1, getTime (rtc 0), cmosZero⟩) =
      ⟨n + 2, getTime (rtc (n + 1)), getTime (rtc n)⟩ := by
  induction n with
  | zero => rfl
  | succ n ih => rw [Function.iterate_succ_apply', ih, Reading.round]

/-- The test fails for the first time after run `n + 1` of `GET_TIME`. -/
def FirstStop (n : Nat) : Prop :=
  (∀ k < n, (getTime (rtc (k + 1))).SecondsOnly (getTime (rtc k))) ∧
    ¬ (getTime (rtc (n + 1))).SecondsOnly (getTime (rtc n))

theorem endsAfter_iff (n : Nat) :
    While.EndsAfter Reading.again (Reading.round rtc)
      (Reading.round rtc ⟨1, getTime (rtc 0), cmosZero⟩) n ↔ FirstStop rtc n := by
  simp only [While.EndsAfter, round_iterate, Reading.again, notCheckTimeEq_iff, FirstStop,
    ← Bool.not_eq_true]

/-- The loop ends with the snapshots at the first stop. -/
theorem readLoop_eq_some_iff {fuel : Nat} {r : Reading} :
    readLoop rtc fuel = some r ↔
      ∃ n < fuel, FirstStop rtc n ∧ r = ⟨n + 2, getTime (rtc (n + 1)), getTime (rtc n)⟩ := by
  simp only [readLoop, While.run_eq_some_iff, endsAfter_iff, round_iterate]

/-- For every sequence of snapshots: whenever the loop of `read_time` ends, the last two
    agree in all eight fields, exactly when the first two successive ones that do not
    differ in the seconds alone agree. -/
theorem read_time_untorn_iff :
    (∀ fuel r, readLoop rtc fuel = some r → r.cur = r.prev) ↔
      ∀ n, (∀ k < n, (getTime (rtc (k + 1))).SecondsOnly (getTime (rtc k))) →
        (getTime (rtc (n + 1))).SecondsOnly (getTime (rtc n)) ∨
          getTime (rtc (n + 1)) = getTime (rtc n) := by
  constructor
  · intro h n hbefore
    by_cases hstop : (getTime (rtc (n + 1))).SecondsOnly (getTime (rtc n))
    · exact Or.inl hstop
    · right
      have hend := (readLoop_eq_some_iff rtc).mpr ⟨n, Nat.lt_succ_self n, ⟨hbefore, hstop⟩, rfl⟩
      exact h (n + 1) _ hend
  · intro h fuel r hr
    obtain ⟨n, _, ⟨hbefore, hstop⟩, rfl⟩ := (readLoop_eq_some_iff rtc).mp hr
    exact (h n hbefore).resolve_left hstop

end Torn

/-- The registers in BCD at 12:30:59, and from the second run on at 12:31:00. -/
def minuteRollover : Nat → UInt8 → UInt8 := fun n r =>
  if r = cmosRegSec then (if n = 0 then 0x59 else 0x00)
  else if r = cmosRegMin then (if n = 0 then 0x30 else 0x31)
  else if r = cmosRegHrs then 0x12
  else 0x01

/-- The loop ends with one snapshot of each. -/
theorem read_time_torn :
    (∃ r, readLoop minuteRollover 1 = some r ∧ r.cur.minutes = 0x31 ∧ r.prev.minutes = 0x30) ∧
    ¬ ∀ (rtc : Nat → UInt8 → UInt8) (fuel : Nat) (r : Reading),
      readLoop rtc fuel = some r → r.cur = r.prev := by
  have hend : readLoop minuteRollover 1 =
      some ⟨2, getTime (minuteRollover 1), getTime (minuteRollover 0)⟩ := rfl
  refine ⟨⟨_, hend, rfl, rfl⟩, fun h => ?_⟩
  have heq : getTime (minuteRollover 1) = getTime (minuteRollover 0) := h _ _ _ hend
  have hminutes := congrArg Cmos.minutes heq
  exact absurd hminutes (by decide)

end Horizon64
