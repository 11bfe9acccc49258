import Horizon64.Kprint
import Horizon64.Lib.Numerals

/- The number printers with their arrays: `kprint_hex` and `kprint_dec` of
   `common/kprint.c`, `terminal_hex` and `terminal_dec` of `dev/terminal.c`.

   All four write digits into a local array from its end backwards and print the array
   from the last index on. An access outside the array gives `none`. The bytes in `buf`
   at the start are those the stack happens to hold.

   1. The functions.
   2. `digitLoop_spec`: what the backwards loop leaves in the array.
   3. `kprintHexBuf_eq`, `kprintDecBuf_eq`: the printers of the kernel log as `kprintf`
      uses them.
   4. `number_printers_faithful`: the numerals that are printed. -/
namespace Horizon64
open Numerals

/-- The table of `terminal.c`; the one of `kprint.h` has capital letters. -/
def terminalConversionTable : List UInt8 := bytesOf "0123456789abcdef"

/-- `buf[i] = c`. -/
def storeAt (buf : List UInt8) (i : Nat) (c : UInt8) : Option (List UInt8) :=
  if i < buf.length then some (buf.set i c) else none

/-- `kprint` and `terminal_puts` of the rest of an array: the bytes before the NUL. -/
def printArray : List UInt8 → Option (List UInt8)
  | [] => none
  | c :: rest => if c = 0 then some [] else (printArray rest).map (c :: ·)

/-- The loop that writes the digits of `num`, and the `i++` after it; the index is `k` in
    state `k + 1`, and -1 in state 0. -/
def digitLoop (base : UInt64) (char : Nat → UInt8) (more : Int32 → Bool) :
    Nat → UInt64 → List UInt8 → Option (Nat × List UInt8)
  | 0, num, buf => if num ≠ 0 ∧ more (-1) then none else some (0, buf)
  | k + 1, num, buf =>
    if num ≠ 0 ∧ more (Int32.ofNat k) then
      match storeAt buf k (char (num % base).toNat) with
      | some buf => digitLoop base char more k (num / base) buf
      | none => none
    else some (k + 1, buf)

/-- `CONVERSION_TABLE[d]`. -/
def hexChar (table : List UInt8) (d : Nat) : UInt8 := table.getD d 0

/-- `d + 0x30` as a `char`. -/
def decChar (d : Nat) : UInt8 := UInt8.ofNat (d + 0x30)

/-- The two loops of `kprint_hex`; `i >= (16 - width)` compares unsigned numbers. -/
def kprintHexLoops (buf : List UInt8) (num : UInt64) (width : UInt32) :
    Option (Nat × List UInt8) :=
  if width ≠ 0 then
    digitLoop 16 (hexChar conversionTable) (fun i => i.toUInt32 ≥ 16 - width) 16 num buf
  else digitLoop 16 (hexChar conversionTable) (fun _ => true) 16 num buf

def kprintHexBuf (buf : List UInt8) (num : UInt64) (width : UInt32) : Option (List UInt8) :=
  if num = 0 then some (bytesOf "0x0")
  else do
    let buf ← storeAt buf 16 0
    let (i, buf) ← kprintHexLoops buf num width
    let digits ← printArray (buf.drop i)
    return bytesOf "0x" ++ digits

def kprintDecBuf (num : UInt64) : Option (List UInt8) :=
  if num = 0 then some [ascii '0']
  else do
    let (i, buf) ← digitLoop 10 decChar (fun _ => true) 20 num (List.replicate 21 0)
    printArray (buf.drop i)

/-- `terminal_hex`: what it passes to `terminal_putc`. -/
def terminalHex (buf : List UInt8) (num : UInt64) : Option (List UInt8) :=
  if num = 0 then some (bytesOf "0x0")
  else do
    let buf ← storeAt buf 16 0
    let (i, buf) ← digitLoop 16 (hexChar terminalConversionTable) (fun _ => true) 16 num buf
    let digits ← printArray (buf.drop i)
    return bytesOf "0x" ++ digits

/-- `terminal_dec`: what it passes to `terminal_putc`. -/
def terminalDec (num : UInt64) : Option (List UInt8) :=
  if num = 0 then some [ascii '0']
  else do
    let (i, buf) ← digitLoop 10 decChar (fun _ => true) 20 num (List.replicate 21 0)
    printArray (buf.drop i)

/-! The backwards loop. -/

theorem toNat_ne_zero {num : UInt64} (h : num ≠ 0) : num.toNat ≠ 0 :=
  fun hzero => h (UInt64.toNat_inj.mp hzero)

theorem toNat_div_lt_pow {base num : UInt64} {k : Nat} (h : num.toNat < base.toNat ^ (k + 1)) :
    (num / base).toNat < base.toNat ^ k := by
  rw [Nat.pow_succ, Nat.mul_comm] at h
  rw [UInt64.toNat_div]
  exact Nat.div_lt_of_lt_mul h

section DigitLoop
variable {base : UInt64} {char : Nat → UInt8} {more : Int32 → Bool} {num : UInt64}
variable {buf done : List UInt8}

theorem digitLoop_stop {k : Nat} (h : num = 0 ∨ ∃ i, k = i + 1 ∧ more (Int32.ofNat i) = false) :
    digitLoop base char more k num buf = some (k, buf) := by
  cases k with
  | zero =>
    have hnum : num = 0 := h.resolve_right (by simp)
    simp [digitLoop, hnum]
  | succ k =>
    rw [digitLoop, if_neg]
    rintro ⟨hnum, hmore⟩
    obtain ⟨i, hi, hfalse⟩ := h.resolve_left hnum
    obtain rfl : k = i := by omega
    rw [hmore] at hfalse
    cases hfalse

theorem digitLoop_write {k : Nat} (hnum : num ≠ 0) (hmore : more (Int32.ofNat k) = true)
    (hk : k < buf.length) : digitLoop base char more (k + 1) num buf =
      digitLoop base char more k (num / base) (buf.set k (char (num % base).toNat)) := by
  rw [digitLoop, if_pos ⟨hnum, hmore⟩, storeAt, if_pos hk]

theorem drop_set_self {k : Nat} (hk : k < buf.length) (c : UInt8) :
    (buf.set k c).drop k = c :: buf.drop (k + 1) := by
  rw [List.drop_eq_getElem_cons (by simpa using hk), List.getElem_set_self,
    List.drop_set_of_lt (Nat.lt_succ_self k)]

theorem printArray_set {k : Nat} (hk : k < buf.length) {c : UInt8} (hc : c ≠ 0)
    (h : printArray (buf.drop (k + 1)) = some done) :
    printArray ((buf.set k c).drop k) = some (c :: done) := by
  rw [drop_set_self hk, printArray, if_neg hc, h, Option.map_some]

/-- With `r` rounds to go at most, the first `r` digits of `num` come before what the array
    holds already. -/
theorem digitLoop_spec (hbase : 1 < base.toNat) (hchar : ∀ d < base.toNat, char d ≠ 0)
    {r k : Nat} (hrk : r ≤ k) (hk : k ≤ buf.length)
    (hmore : ∀ i, k ≤ i + r → i < k → more (Int32.ofNat i) = true)
    (hstop : num.toNat < base.toNat ^ r ∨ ∃ i, k = r + i + 1 ∧ more (Int32.ofNat i) = false)
    (hbuf : printArray (buf.drop k) = some done) :
    ∃ i buf', digitLoop base char more k num buf = some (i, buf') ∧
      printArray (buf'.drop i) =
        some (((Nat.digits base.toNat num.toNat).take r).reverse.map char ++ done) := by
  induction r generalizing k num buf done with
  | zero =>
    refine ⟨k, buf, digitLoop_stop ?_, by simpa using hbuf⟩
    rcases hstop with hlt | ⟨i, hi, hfalse⟩
    · left
      rw [Nat.pow_zero, Nat.lt_one_iff] at hlt
      exact UInt64.toNat_inj.mp hlt
    · exact Or.inr ⟨i, by omega, hfalse⟩
  | succ r ih =>
    by_cases hnum : num = 0
    · subst hnum
      exact ⟨k, buf, digitLoop_stop (Or.inl rfl), by simpa using hbuf⟩
    · obtain ⟨k, rfl⟩ : ∃ j, k = j + 1 := ⟨k - 1, by omega⟩
      have hdigit : (num % base).toNat = num.toNat % base.toNat := UInt64.toNat_mod ..
      have hquot : (num / base).toNat = num.toNat / base.toNat := UInt64.toNat_div ..
      have hpos : 0 < num.toNat :=
        Nat.pos_of_ne_zero fun h => hnum (UInt64.toNat_inj.mp h)
      have hc : char (num % base).toNat ≠ 0 := by
        apply hchar
        rw [hdigit]
        exact Nat.mod_lt _ (Nat.lt_trans Nat.zero_lt_one hbase)
      have hstop' : (num / base).toNat < base.toNat ^ r ∨
          ∃ i, k = r + i + 1 ∧ more (Int32.ofNat i) = false := by
        rcases hstop with hlt | ⟨i, hi, hfalse⟩
        · exact Or.inl (toNat_div_lt_pow hlt)
        · exact Or.inr ⟨i, by omega, hfalse⟩
      obtain ⟨i, buf', hloop, hprint⟩ := ih (by omega) (by rw [List.length_set]; omega)
        (fun i hi hik => hmore i (by omega) (by omega)) hstop' (printArray_set hk hc hbuf)
      refine ⟨i, buf', ?_, ?_⟩
      · rw [digitLoop_write hnum (hmore k (by omega) (Nat.lt_succ_self k)) hk, hloop]
      · rw [hprint, hquot, hdigit, Nat.digits_def' hbase hpos]
        simp

/-- With room for all digits and no other test, they are the numeral. -/
theorem digitLoop_numeral (hbase : 1 < base.toNat) (hchar : ∀ d < base.toNat, char d ≠ 0)
    (hnum : num ≠ 0) {k : Nat} (hk : k ≤ buf.length) (hlt : num.toNat < base.toNat ^ k)
    (hbuf : printArray (buf.drop k) = some []) :
    ∃ i buf', digitLoop base char (fun _ => true) k num buf = some (i, buf') ∧
      printArray (buf'.drop i) = some ((numeral base.toNat num.toNat).map char) := by
  obtain ⟨i, buf', hloop, hprint⟩ :=
    @digitLoop_spec base char (fun _ => true) num buf [] hbase hchar k k (Nat.le_refl k) hk
      (fun _ _ _ => rfl) (Or.inl hlt) hbuf
  refine ⟨i, buf', hloop, ?_⟩
  rw [hprint, reverse_take_digits hbase (toNat_ne_zero hnum), if_pos hlt, List.append_nil]

end DigitLoop

/-! The printers `kprintf` uses. -/

theorem ofNat_succ_sub_one (k : Nat) : Int32.ofNat (k + 1) - 1 = Int32.ofNat k := by
  rw [Int32.ofNat_add]
  exact Int32.add_sub_cancel _ _

theorem hexChar_ne_zero : ∀ d < 16, hexChar conversionTable d ≠ 0 := by decide

theorem terminalHexChar_ne_zero : ∀ d < 16, hexChar terminalConversionTable d ≠ 0 := by decide

theorem decChar_ne_zero : ∀ d < 10, decChar d ≠ 0 := by decide

theorem decChar_mod (num : UInt64) : decChar (num % 10).toNat = (num % 10).toUInt8 + 0x30 := by
  rw [decChar, UInt8.ofNat_add]
  rfl

/-- The test of both loops of `kprint_hex`. -/
def hexMore (width : UInt32) (i : Int32) : Bool := width = 0 ∨ i.toUInt32 ≥ 16 - width

theorem digitLoop_kprintHexLoop (width : UInt32) {k : Nat} {num : UInt64} {buf done : List UInt8}
    (hk : k ≤ buf.length) (hnum : num.toNat < 16 ^ k) (hbuf : printArray (buf.drop k) = some done) :
    ∃ i buf', digitLoop 16 (hexChar conversionTable) (hexMore width) k num buf = some (i, buf') ∧
      printArray (buf'.drop i) = some (kprintHexLoop width k (Int32.ofNat k - 1) num done) := by
  induction k generalizing num buf done with
  | zero =>
    have hzero : num = 0 := UInt64.toNat_inj.mp (Nat.lt_one_iff.mp hnum)
    exact ⟨0, buf, digitLoop_stop (Or.inl hzero), hbuf⟩
  | succ k ih =>
    rw [kprintHexLoop, ofNat_succ_sub_one]
    by_cases hgo : num ≠ 0 ∧ (width = 0 ∨ (Int32.ofNat k).toUInt32 ≥ 16 - width)
    · have hmore : hexMore width (Int32.ofNat k) = true := decide_eq_true hgo.2
      have hc := hexChar_ne_zero _ (Nat.mod_lt num.toNat (by decide))
      have hquot : (num / 16).toNat < 16 ^ k := toNat_div_lt_pow hnum
      rw [if_pos hgo, digitLoop_write hgo.1 hmore hk]
      exact ih (by rw [List.length_set]; omega) hquot (printArray_set hk hc hbuf)
    · rw [if_neg hgo]
      refine ⟨k + 1, buf, digitLoop_stop ?_, hbuf⟩
      by_cases hzero : num = 0
      · exact Or.inl hzero
      · exact Or.inr ⟨k, rfl, decide_eq_false fun h => hgo ⟨hzero, h⟩⟩

theorem digitLoop_kprintDecLoop {k : Nat} {num : UInt64} {buf done : List UInt8}
    (hk : k ≤ buf.length) (hnum : num.toNat < 10 ^ k) (hbuf : printArray (buf.drop k) = some done) :
    ∃ i buf', digitLoop 10 decChar (fun _ => true) k num buf = some (i, buf') ∧
      printArray (buf'.drop i) = some (kprintDecLoop k num done) := by
  induction k generalizing num buf done with
  | zero =>
    have hzero : num = 0 := UInt64.toNat_inj.mp (Nat.lt_one_iff.mp hnum)
    exact ⟨0, buf, digitLoop_stop (Or.inl hzero), hbuf⟩
  | succ k ih =>
    rw [kprintDecLoop]
    by_cases hgo : num ≠ 0
    · have hc := decChar_ne_zero _ (Nat.mod_lt num.toNat (by decide))
      have hquot : (num / 10).toNat < 10 ^ k := toNat_div_lt_pow hnum
      rw [if_pos hgo, digitLoop_write hgo rfl hk, ← decChar_mod]
      exact ih (by rw [List.length_set]; omega) hquot (printArray_set hk hc hbuf)
    · rw [if_neg hgo]
      exact ⟨k + 1, buf, digitLoop_stop (Or.inl (not_not.mp hgo)), hbuf⟩

theorem storeAt_end {buf : List UInt8} (h : buf.length = 17) :
    storeAt buf 16 0 = some (buf.set 16 0) ∧ 16 ≤ (buf.set 16 0).length ∧
      printArray ((buf.set 16 0).drop 16) = some [] := by
  refine ⟨if_pos (by omega), by rw [List.length_set]; omega, ?_⟩
  rw [drop_set_self (by omega)]
  rfl

theorem kprintHexLoops_eq (buf : List UInt8) (num : UInt64) (width : UInt32) :
    kprintHexLoops buf num width =
      digitLoop 16 (hexChar conversionTable) (hexMore width) 16 num buf := by
  rw [kprintHexLoops]
  by_cases hw : width = 0
  · have hmore : hexMore width = fun _ => true := by
      funext i
      simp [hexMore, hw]
    rw [if_neg (not_not.mpr hw), hmore]
  · have hmore : hexMore width = fun i => decide (i.toUInt32 ≥ 16 - width) := by
      funext i
      simp [hexMore, hw]
    rw [if_pos hw, hmore]

theorem kprintHexBuf_eq {buf : List UInt8} (h : buf.length = 17) (num : UInt64) (width : UInt32) :
    kprintHexBuf buf num width = some (kprintHex num width) := by
  rw [kprintHexBuf, kprintHex]
  by_cases hnum : num = 0
  · rw [if_pos hnum, if_pos hnum]
  · obtain ⟨hstore, hlen, hend⟩ := storeAt_end h
    obtain ⟨i, buf', hloop, hprint⟩ :=
      digitLoop_kprintHexLoop width hlen num.toNat_lt hend
    rw [if_neg hnum, if_neg hnum]
    simp only [hstore, Option.bind_eq_bind, Option.bind_some, kprintHexLoops_eq, hloop, hprint]
    rfl

theorem kprintDecBuf_eq (num : UInt64) : kprintDecBuf num = some (kprintDec num) := by
  rw [kprintDecBuf, kprintDec]
  by_cases hnum : num = 0
  · rw [if_pos hnum, if_pos hnum]
  · obtain ⟨i, buf', hloop, hprint⟩ := @digitLoop_kprintDecLoop 20 num (List.replicate 21 0) []
      (by simp) (Nat.lt_trans num.toNat_lt (by decide)) rfl
    rw [if_neg hnum, if_neg hnum]
    simp only [hloop, Option.bind_eq_bind, Option.bind_some, hprint]

/-! What is printed. -/

/-- The digits `kprint_hex` prints with a width of at most 16. -/
def hexDigits (width : UInt32) (n : Nat) : List Nat :=
  if width = 0 ∨ n < 16 ^ width.toNat then numeral 16 n else low 16 width.toNat n

/-- With a width, the test of the loop holds for as many indices. -/
theorem hexMore_iff {width : UInt32} (hw : width ≠ 0) (hle : width.toNat ≤ 16) {i : Nat}
    (hi : i < 16) : hexMore width (Int32.ofNat i) = true ↔ 16 ≤ i + width.toNat := by
  have hindex : (Int32.ofNat i).toUInt32.toNat = i :=
    Nat.mod_eq_of_lt (Nat.lt_trans hi (by decide))
  have hlimit : (16 - width).toNat = 16 - width.toNat := UInt32.toNat_sub_of_le 16 width hle
  have hge : (Int32.ofNat i).toUInt32 ≥ 16 - width ↔ 16 - width.toNat ≤ i := by
    rw [ge_iff_le, UInt32.le_iff_toNat_le, hindex, hlimit]
  simp only [hexMore, hw, false_or, decide_eq_true_eq, hge]
  omega

/-- What the loops of `kprint_hex` print of a number other than 0. -/
theorem kprintHexLoops_spec {num : UInt64} (hnum : num ≠ 0) {width : UInt32}
    (hle : width.toNat ≤ 16) {buf : List UInt8} (hlen : 16 ≤ buf.length)
    (hend : printArray (buf.drop 16) = some []) :
    ∃ i buf', kprintHexLoops buf num width = some (i, buf') ∧
      printArray (buf'.drop i) =
        some ((hexDigits width num.toNat).map (hexChar conversionTable)) := by
  by_cases hw : width = 0
  · obtain ⟨i, buf', hloop, hprint⟩ := @digitLoop_numeral 16 (hexChar conversionTable) num buf
      (by decide) hexChar_ne_zero hnum 16 hlen num.toNat_lt hend
    refine ⟨i, buf', by rw [kprintHexLoops, if_neg (not_not.mpr hw), hloop], ?_⟩
    rw [hprint, hexDigits, if_pos (Or.inl hw)]
    rfl
  · have hpos : 0 < width.toNat :=
      Nat.pos_of_ne_zero fun h => hw (UInt32.toNat_inj.mp h)
    have hstop : num.toNat < 16 ^ width.toNat ∨
        ∃ i, 16 = width.toNat + i + 1 ∧ hexMore width (Int32.ofNat i) = false := by
      by_cases hfull : width.toNat = 16
      · left
        rw [hfull]
        exact num.toNat_lt
      · right
        refine ⟨15 - width.toNat, by omega, ?_⟩
        rw [← Bool.not_eq_true, hexMore_iff hw hle (by omega)]
        omega
    obtain ⟨i, buf', hloop, hprint⟩ := @digitLoop_spec 16 (hexChar conversionTable)
      (hexMore width) num buf [] (by decide) hexChar_ne_zero width.toNat 16 hle hlen
      (fun i hi h16 => (hexMore_iff hw hle h16).mpr hi) hstop hend
    refine ⟨i, buf', by rw [kprintHexLoops_eq, hloop], ?_⟩
    have hbase : (16 : UInt64).toNat = 16 := rfl
    rw [hprint, hbase, reverse_take_digits (by decide) (toNat_ne_zero hnum), List.append_nil,
      hexDigits]
    simp only [hw, false_or]

theorem hexDigits_zero (width : UInt32) : hexDigits width 0 = [0] := by
  rw [hexDigits, if_pos (Or.inr (Nat.pow_pos (by decide)))]
  rfl

theorem kprintHexBuf_digits {buf : List UInt8} (h : buf.length = 17) (num : UInt64)
    {width : UInt32} (hle : width.toNat ≤ 16) : kprintHexBuf buf num width =
      some (bytesOf "0x" ++ (hexDigits width num.toNat).map (hexChar conversionTable)) := by
  rw [kprintHexBuf]
  by_cases hnum : num = 0
  · subst hnum
    rw [if_pos rfl, UInt64.toNat_zero, hexDigits_zero]
    rfl
  · obtain ⟨hstore, hlen, hend⟩ := storeAt_end h
    obtain ⟨i, buf', hloop, hprint⟩ := kprintHexLoops_spec hnum hle hlen hend
    rw [if_neg hnum]
    simp only [hstore, Option.bind_eq_bind, Option.bind_some, hloop, hprint]
    rfl

theorem terminalHex_digits {buf : List UInt8} (h : buf.length = 17) (num : UInt64) :
    terminalHex buf num =
      some (bytesOf "0x" ++ (numeral 16 num.toNat).map (hexChar terminalConversionTable)) := by
  rw [terminalHex]
  by_cases hnum : num = 0
  · subst hnum
    rfl
  · obtain ⟨hstore, hlen, hend⟩ := storeAt_end h
    obtain ⟨i, buf', hloop, hprint⟩ := @digitLoop_numeral 16 (hexChar terminalConversionTable)
      num _ (by decide) terminalHexChar_ne_zero hnum 16 hlen num.toNat_lt hend
    rw [if_neg hnum]
    simp only [hstore, Option.bind_eq_bind, Option.bind_some, hloop, hprint]
    rfl

theorem kprintDecBuf_digits (num : UInt64) :
    kprintDecBuf num = some ((numeral 10 num.toNat).map decChar) := by
  rw [kprintDecBuf]
  by_cases hnum : num = 0
  · subst hnum
    rfl
  · have hlt : num.toNat < 10 ^ 20 := Nat.lt_trans num.toNat_lt (by decide)
    obtain ⟨i, buf', hloop, hprint⟩ := @digitLoop_numeral 10 decChar num (List.replicate 21 0)
      (by decide) decChar_ne_zero hnum 20 (by simp) hlt rfl
    rw [if_neg hnum]
    simp only [Option.bind_eq_bind, Option.bind_some, hloop, hprint]
    rfl

theorem terminalDec_eq (num : UInt64) : terminalDec num = kprintDecBuf num := rfl

/-- A capital letter as a small one. -/
def lowerCase (c : UInt8) : UInt8 := if ascii 'A' ≤ c ∧ c ≤ ascii 'Z' then c + 32 else c

theorem lowerCase_hexChar :
    ∀ d < 16, lowerCase (hexChar conversionTable d) = hexChar terminalConversionTable d := by decide

/-- For every number and whatever the arrays held before: both decimal printers give the
    canonical numeral of the number; `kprint_hex` without a width and `terminal_hex` give
    `0x` and its canonical hexadecimal numeral, equal up to letter case; and with a width
    of 1 to 9 `kprint_hex` gives `0x` and the canonical numeral when it is that short, and
    else as many digits of lowest order. -/
theorem number_printers_faithful {buf tbuf : List UInt8} (h : buf.length = 17)
    (ht : tbuf.length = 17) (num : UInt64) :
    (∃ ds, Canonical 10 ds num.toNat ∧ kprintDecBuf num = some (ds.map decChar) ∧
      terminalDec num = some (ds.map decChar)) ∧
    ∃ ds, Canonical 16 ds num.toNat ∧
      kprintHexBuf buf num 0 = some (bytesOf "0x" ++ ds.map (hexChar conversionTable)) ∧
      terminalHex tbuf num = some (bytesOf "0x" ++ ds.map (hexChar terminalConversionTable)) ∧
      terminalHex tbuf num = (kprintHexBuf buf num 0).map (List.map lowerCase) ∧
      ∀ width : UInt32, 1 ≤ width.toNat → width.toNat ≤ 9 →
        kprintHexBuf buf num width = some (bytesOf "0x" ++
          (if num.toNat < 16 ^ width.toNat then ds else low 16 width.toNat num.toNat).map
            (hexChar conversionTable)) := by
  have hcanon := numeral_canonical (b := 16) (by decide) num.toNat
  have hkprint : kprintHexBuf buf num 0 =
      some (bytesOf "0x" ++ (numeral 16 num.toNat).map (hexChar conversionTable)) := by
    rw [kprintHexBuf_digits h num (by decide), hexDigits, if_pos (Or.inl rfl)]
  have hterminal := terminalHex_digits ht num
  refine ⟨⟨_, numeral_canonical (by decide) num.toNat, kprintDecBuf_digits num, ?_⟩,
    _, hcanon, hkprint, hterminal, ?_, fun width hlow hhigh => ?_⟩
  · rw [terminalDec_eq, kprintDecBuf_digits]
  · have hcase : (numeral 16 num.toNat).map (lowerCase ∘ hexChar conversionTable) =
        (numeral 16 num.toNat).map (hexChar terminalConversionTable) :=
      List.map_congr_left fun d hd => lowerCase_hexChar d (hcanon.digit d hd)
    rw [hterminal, hkprint, Option.map_some, List.map_append, List.map_map, hcase]
    rfl
  · have hne : width ≠ 0 := by
      rintro rfl
      exact absurd hlow (by decide)
    rw [kprintHexBuf_digits h num (by omega), hexDigits]
    simp only [hne, false_or]

/-- 0xBEEF at width 2, decimal 48879. -/
theorem number_printers_beef :
    kprintHexBuf (List.replicate 17 0xCC) 0xBEEF 2 = some (bytesOf "0xEF") := by
  have hprint := (number_printers_faithful (List.length_replicate : (List.replicate 17
    (0xCC : UInt8)).length = 17) (List.length_replicate : (List.replicate 17
    (0xCC : UInt8)).length = 17) 0xBEEF).2
  obtain ⟨_, _, _, _, _, hwidth⟩ := hprint
  rw [hwidth 2 (by decide) (by decide)]
  rfl

end Horizon64
