import Mathlib.Logic.Function.Basic
import Horizon64.Lib.Bytes
import Horizon64.Lib.While

/- The record loop of `madt_init` (`sys/acpi/madt.c`).

   The table is bytes in memory; `header.length` and the two header bytes of each
   record are all that the loop reads. `num_local_apic` and `local_apics` are one
   `PtrTable`, and so are `num_io_apics` and `io_apics`; `madt_init` runs once, from
   counts of 0.

   1. The loop, round by round, with the stores into the arrays.
   2. What `n` rounds do: the offset after them depends on the length bytes only, and
      the arrays hold the first records of each type (`Kept`).
   3. What the loop keeps of a well-formed table, what it reads of any table, and when
      it ends. -/
namespace Horizon64
open Bytes Words

/-- `sizeof(MADT)`: a header of 36 bytes, `lapic_address` and `flags`. -/
def sizeofMadt : UInt64 := 44
def maxCpus : UInt64 := 256
def maxIoApics : UInt64 := 2
def madtRecordTypeLocalApic : UInt8 := 0
def madtRecordTypeIoApic : UInt8 := 1

/-- `local_apics[MAX_CPUS]` and `io_apics[4]`. -/
def localApicSlots : Nat := 256
def ioApicSlots : Nat := 4
def sizeofLapic : Nat := 8
def sizeofIoApic : Nat := 12

/-- A static array of pointers, with the static that counts the slots in use. -/
structure PtrTable where
  num : UInt64
  slot : Nat → UInt64

/-- `slot[num++] = p`. -/
def PtrTable.append (t : PtrTable) (p : UInt64) : PtrTable :=
  { num := t.num + 1, slot := Function.update t.slot t.num.toNat p }

/-- The slots in use. -/
def PtrTable.list (t : PtrTable) : List UInt64 := (List.range t.num.toNat).map t.slot

structure MadtStatics where
  localApics : PtrTable
  ioApics : PtrTable

/-- The statics before `madt_init`. -/
def madtStart : MadtStatics := ⟨⟨0, fun _ => 0⟩, ⟨0, fun _ => 0⟩⟩

/-- A store into one of the arrays. -/
inductive MadtStore where
  | localApic (index record : UInt64)
  | ioApic (index record : UInt64)
  deriving DecidableEq

def MadtStatics.store (st : MadtStatics) : Option MadtStore → MadtStatics
  | none => st
  | some (.localApic _ record) => { st with localApics := st.localApics.append record }
  | some (.ioApic _ record) => { st with ioApics := st.ioApics.append record }

section Loop
variable (mem : Memory)

/-- `madt->header.length`. -/
def headerLength (madt : UInt64) : UInt32 := load32 mem (madt + 4)

/-- `size`, which wraps when the table is shorter than its own header. -/
def recordsSize (madt : UInt64) : UInt64 := (headerLength mem madt).toUInt64 - sizeofMadt

/-- The `switch`: what a record stores. -/
def madtClassify (record : UInt64) (st : MadtStatics) : Option MadtStore :=
  if mem record = madtRecordTypeLocalApic then
    if st.localApics.num ≥ maxCpus then none else some (.localApic st.localApics.num record)
  else if mem record = madtRecordTypeIoApic then
    if st.ioApics.num > maxIoApics then none else some (.ioApic st.ioApics.num record)
  else none

/-- The statics after a record. -/
def madtKeep (st : MadtStatics) (record : UInt64) : MadtStatics :=
  st.store (madtClassify mem record st)

/-- `i += record->length`. -/
def nextOffset (records i : UInt64) : UInt64 := i + (mem (records + i + 1)).toUInt64

/-- The body of the loop. -/
def madtRound (records : UInt64) (p : UInt64 × MadtStatics) : UInt64 × MadtStatics :=
  (nextOffset mem records p.1, madtKeep mem p.2 (records + p.1))

/-- `i < size`. -/
def madtCond (madt : UInt64) (p : UInt64 × MadtStatics) : Bool := p.1 < recordsSize mem madt

/-- The loop of `madt_init`; `none` when it takes more than `fuel` rounds. -/
def madtLoop (madt : UInt64) (fuel : Nat) : Option MadtStatics :=
  (While.run (madtCond mem madt) (madtRound mem (madt + sizeofMadt)) fuel (0, madtStart)).map
    Prod.snd

/-- `madt_init`, for the table that `acpi_get_sdt` found: it halts on `NULL`. -/
def madtInit (madt : UInt64) (fuel : Nat) : Option MadtStatics :=
  if madt = 0 then none else madtLoop mem madt fuel

/-! The state after some rounds. -/

/-- The offset of the record that round `n` is about. -/
def recordOffset (records : UInt64) (n : Nat) : UInt64 := (nextOffset mem records)^[n] 0

/-- The records of `n` rounds from offset `i`. -/
def visited (records : UInt64) : Nat → UInt64 → List UInt64
  | 0, _ => []
  | n + 1, i => (records + i) :: visited records n (nextOffset mem records i)

/-- The arrays hold the first of the records `ps` of each type; as the limit test for
    I/O APICs is `>`, one more of them than `MAX_IO_APICS`. -/
structure Kept (st : MadtStatics) (ps : List UInt64) : Prop where
  locals : st.localApics.list = (ps.filter (mem · = madtRecordTypeLocalApic)).take 256
  ios : st.ioApics.list = (ps.filter (mem · = madtRecordTypeIoApic)).take 3

end Loop

variable {mem : Memory}

theorem PtrTable.list_length (t : PtrTable) : t.list.length = t.num.toNat := by
  rw [PtrTable.list, List.length_map, List.length_range]

theorem PtrTable.list_append {t : PtrTable} (h : t.num.toNat + 1 < 2 ^ 64) (p : UInt64) :
    (t.append p).list = t.list ++ [p] := by
  have hnum : (t.append p).num.toNat = t.num.toNat + 1 := toNat_add_of_lt h
  rw [PtrTable.list, hnum, List.range_succ, List.map_append, List.map_singleton, PtrTable.list]
  congr 1
  · apply List.map_congr_left
    intro k hk
    exact Function.update_of_ne (Nat.ne_of_lt (List.mem_range.mp hk)) _ _
  · exact congrArg (fun x => [x]) (Function.update_self _ _ _)

theorem PtrTable.append_take {t : PtrTable} {l : List UInt64} {cap : Nat} (hcap : cap < 2 ^ 63)
    (h : t.list = l.take cap) (p : UInt64) :
    (if t.num.toNat < cap then t.append p else t).list = (l ++ [p]).take cap := by
  have hlen : t.num.toNat = min cap l.length := by rw [← t.list_length, h, List.length_take]
  split
  · rename_i hlt
    have hl : l.length < cap := by omega
    rw [PtrTable.list_append (by omega), h, List.take_of_length_le (by omega),
      List.take_of_length_le (by rw [List.length_append, List.length_singleton]; omega)]
  · rw [h, List.take_append_of_le_length (by omega)]

theorem Kept.record {st : MadtStatics} {ps : List UInt64} (h : Kept mem st ps) (p : UInt64) :
    Kept mem (madtKeep mem st p) (ps ++ [p]) := by
  have hcpus : st.localApics.num ≥ maxCpus ↔ ¬ st.localApics.num.toNat < 256 := by
    rw [ge_iff_le, UInt64.le_iff_toNat_le, not_lt]
    rfl
  have hios : st.ioApics.num > maxIoApics ↔ ¬ st.ioApics.num.toNat < 3 := by
    rw [gt_iff_lt, UInt64.lt_iff_toNat_lt, not_lt]
    rfl
  have hlocal := PtrTable.append_take (by decide) h.locals p
  have hio := PtrTable.append_take (by decide) h.ios p
  rw [madtKeep, madtClassify]
  simp only [hcpus, hios]
  by_cases h0 : mem p = madtRecordTypeLocalApic
  · have h1 : mem p ≠ madtRecordTypeIoApic := by rw [h0]; decide
    constructor
    · rw [if_pos h0, List.filter_append, List.filter_cons_of_pos (by simp [h0]), List.filter_nil,
        ← hlocal]
      split <;> simp_all [MadtStatics.store]
    · rw [if_pos h0, List.filter_append, List.filter_cons_of_neg (by simp [h1]), List.filter_nil,
        List.append_nil, ← h.ios]
      split <;> rfl
  · rw [if_neg h0]
    by_cases h1 : mem p = madtRecordTypeIoApic
    · constructor
      · rw [if_pos h1, List.filter_append, List.filter_cons_of_neg (by simp [h0]), List.filter_nil,
          List.append_nil, ← h.locals]
        split <;> rfl
      · rw [if_pos h1, List.filter_append, List.filter_cons_of_pos (by simp [h1]), List.filter_nil,
          ← hio]
        split <;> simp_all [MadtStatics.store]
    · rw [if_neg h1]
      constructor
      · rw [List.filter_append, List.filter_cons_of_neg (by simp [h0]), List.filter_nil,
          List.append_nil]
        exact h.locals
      · rw [List.filter_append, List.filter_cons_of_neg (by simp [h1]), List.filter_nil,
          List.append_nil]
        exact h.ios

theorem Kept.fold {st : MadtStatics} {ps : List UInt64} (h : Kept mem st ps) (qs : List UInt64) :
    Kept mem (qs.foldl (madtKeep mem) st) (ps ++ qs) := by
  induction qs generalizing st ps with
  | nil => rwa [List.foldl_nil, List.append_nil]
  | cons q qs ih =>
    have hall := ih (h.record q)
    rwa [List.append_assoc] at hall

theorem madtRound_iterate (records : UInt64) (n : Nat) (i : UInt64) (st : MadtStatics) :
    (madtRound mem records)^[n] (i, st) =
      ((nextOffset mem records)^[n] i, (visited mem records n i).foldl (madtKeep mem) st) := by
  induction n generalizing i st with
  | zero => rfl
  | succ n ih =>
    rw [Function.iterate_succ_apply, Function.iterate_succ_apply, visited, List.foldl_cons]
    exact ih _ _

theorem kept_start : Kept mem madtStart [] := ⟨rfl, rfl⟩

/-- After `n` rounds the arrays hold the first records of the `n` visited ones. -/
theorem kept_rounds (records : UInt64) (n : Nat) :
    Kept mem ((madtRound mem records)^[n] (0, madtStart)).2 (visited mem records n 0) := by
  rw [madtRound_iterate]
  exact kept_start.fold (visited mem records n 0)

theorem madtRound_fst (records : UInt64) (n : Nat) :
    ((madtRound mem records)^[n] (0, madtStart)).1 = recordOffset mem records n := by
  rw [madtRound_iterate, recordOffset]

/-- The loop is left after `n` rounds. -/
theorem madtLoop_eq_some_iff {madt : UInt64} {st : MadtStatics} :
    (∃ fuel, madtLoop mem madt fuel = some st) ↔
      ∃ n, (∀ m < n, recordOffset mem (madt + sizeofMadt) m < recordsSize mem madt) ∧
        ¬ recordOffset mem (madt + sizeofMadt) n < recordsSize mem madt ∧
        st = ((madtRound mem (madt + sizeofMadt))^[n] (0, madtStart)).2 := by
  have hends : ∀ n, While.EndsAfter (madtCond mem madt) (madtRound mem (madt + sizeofMadt))
      (0, madtStart) n ↔
      (∀ m < n, recordOffset mem (madt + sizeofMadt) m < recordsSize mem madt) ∧
        ¬ recordOffset mem (madt + sizeofMadt) n < recordsSize mem madt := by
    intro n
    simp only [While.EndsAfter, madtCond, madtRound_fst, decide_eq_true_eq, decide_eq_false_iff_not]
  constructor
  · intro h
    obtain ⟨fuel, hfuel⟩ := h
    obtain ⟨t, ht, rfl⟩ := Option.map_eq_some_iff.mp hfuel
    obtain ⟨n, _, hn, rfl⟩ := While.run_eq_some_iff.mp ht
    exact ⟨n, ((hends n).mp hn).1, ((hends n).mp hn).2, rfl⟩
  · intro h
    obtain ⟨n, hbefore, hend, rfl⟩ := h
    refine ⟨n + 1, Option.map_eq_some_iff.mpr ⟨_, While.run_eq_some_iff.mpr ?_, rfl⟩⟩
    exact ⟨n, Nat.lt_succ_self n, (hends n).mpr ⟨hbefore, hend⟩, rfl⟩

/-! Well-formed tables. -/

/-- `MADT_RECORD_HEADER`. -/
structure RecordHeader where
  type : UInt8
  length : UInt8
  deriving DecidableEq

/-- The records lie in memory one after the other from `p`. -/
def LaidOut (mem : Memory) : UInt64 → List RecordHeader → Prop
  | _, [] => True
  | p, r :: rs => mem p = r.type ∧ mem (p + 1) = r.length ∧ LaidOut mem (p + r.length.toUInt64) rs

/-- The bytes of the records. -/
def recordBytes (rs : List RecordHeader) : Nat := (rs.map fun r => r.length.toNat).sum

/-- The record area of the table is a concatenation of records. -/
structure WellFormedMadt (mem : Memory) (madt : UInt64) (rs : List RecordHeader) : Prop where
  laidOut : LaidOut mem (madt + sizeofMadt) rs
  header : ∀ r ∈ rs, 2 ≤ r.length.toNat
  length : 44 + recordBytes rs = (headerLength mem madt).toNat

/-- Where the records of one type are, in table order. -/
def typedRecords (ty : UInt8) : UInt64 → List RecordHeader → List UInt64
  | _, [] => []
  | p, r :: rs =>
    if r.type = ty then p :: typedRecords ty (p + r.length.toUInt64) rs
    else typedRecords ty (p + r.length.toUInt64) rs

/-- On records that lie one after the other each round is about the next of them. -/
theorem LaidOut.visited {records i : UInt64} {rs : List RecordHeader}
    (h : LaidOut mem (records + i) rs) (ty : UInt8) :
    (visited mem records rs.length i).filter (mem · = ty) =
      typedRecords ty (records + i) rs := by
  induction rs generalizing i with
  | nil => rfl
  | cons r rs ih =>
    obtain ⟨htype, hlen, hrest⟩ := h
    have hnext : records + nextOffset mem records i = records + i + r.length.toUInt64 := by
      rw [nextOffset, hlen, ← UInt64.add_assoc]
    rw [← hnext] at hrest
    rw [List.length_cons, Horizon64.visited, typedRecords, ← hnext]
    by_cases hty : r.type = ty
    · rw [if_pos hty, List.filter_cons_of_pos (by simp [htype, hty]), ih hrest]
    · rw [if_neg hty, List.filter_cons_of_neg (by simp [htype, hty]), ih hrest]

theorem LaidOut.offset {records i : UInt64} {rs : List RecordHeader}
    (h : LaidOut mem (records + i) rs) {n : Nat} (hn : n ≤ rs.length) :
    (nextOffset mem records)^[n] i = i + UInt64.ofNat (recordBytes (rs.take n)) := by
  induction rs generalizing i n with
  | nil =>
    obtain rfl : n = 0 := Nat.le_zero.mp hn
    exact (UInt64.add_zero i).symm
  | cons r rs ih =>
    cases n with
    | zero => exact (UInt64.add_zero i).symm
    | succ n =>
      obtain ⟨_, hlen, hrest⟩ := h
      have hnext : nextOffset mem records i = i + r.length.toUInt64 := by rw [nextOffset, hlen]
      rw [UInt64.add_assoc, ← hnext] at hrest
      have hbytes : recordBytes ((r :: rs).take (n + 1)) =
          r.length.toNat + recordBytes (rs.take n) := by
        rw [List.take_succ_cons, recordBytes, List.map_cons, List.sum_cons, recordBytes]
      rw [Function.iterate_succ_apply, ih hrest (Nat.le_of_succ_le_succ hn), hnext, hbytes,
        UInt64.add_assoc, UInt64.ofNat_add, UInt64.ofNat_uInt8ToNat]

theorem recordBytes_take_lt {rs : List RecordHeader} (h : ∀ r ∈ rs, 2 ≤ r.length.toNat) {n : Nat}
    (hn : n < rs.length) : recordBytes (rs.take n) < recordBytes rs := by
  induction rs generalizing n with
  | nil => exact absurd hn (Nat.not_lt_zero n)
  | cons r rs ih =>
    have hr := h r List.mem_cons_self
    cases n with
    | zero =>
      rw [List.take_zero, recordBytes, recordBytes, List.map_cons, List.sum_cons, List.map_nil,
        List.sum_nil]
      omega
    | succ n =>
      have hrest := ih (fun r hr => h r (List.mem_cons_of_mem _ hr)) (Nat.lt_of_succ_lt_succ hn)
      simp only [recordBytes, List.take_succ_cons, List.map_cons, List.sum_cons] at hrest ⊢
      omega

theorem recordsSize_long {madt : UInt64} (h : 44 ≤ (headerLength mem madt).toNat) :
    (recordsSize mem madt).toNat = (headerLength mem madt).toNat - 44 := by
  have hle : sizeofMadt ≤ (headerLength mem madt).toUInt64 := by
    rw [UInt64.le_iff_toNat_le, UInt32.toNat_toUInt64]
    exact h
  rw [recordsSize, UInt64.toNat_sub_of_le _ _ hle, UInt32.toNat_toUInt64]
  rfl

theorem recordsSize_short {madt : UInt64} (h : (headerLength mem madt).toNat < 44) :
    (recordsSize mem madt).toNat = 2 ^ 64 - 44 + (headerLength mem madt).toNat := by
  have hs : sizeofMadt.toNat = 44 := rfl
  rw [recordsSize, UInt64.toNat_sub, UInt32.toNat_toUInt64, hs, Nat.mod_eq_of_lt]
  omega

/-- On a well-formed table the loop ends after one round for each record. -/
theorem WellFormedMadt.returns {madt : UInt64} {rs : List RecordHeader}
    (h : WellFormedMadt mem madt rs) {st : MadtStatics} :
    (∃ fuel, madtLoop mem madt fuel = some st) ↔
      st = ((madtRound mem (madt + sizeofMadt))^[rs.length] (0, madtStart)).2 := by
  have hbytes := h.length
  have hhead := (headerLength mem madt).toNat_lt
  have hsize : (recordsSize mem madt).toNat = recordBytes rs := by
    rw [recordsSize_long (by omega)]
    omega
  have hoff : ∀ n ≤ rs.length,
      (recordOffset mem (madt + sizeofMadt) n).toNat = recordBytes (rs.take n) := by
    intro n hn
    have hle : recordBytes (rs.take n) ≤ recordBytes rs := by
      rcases Nat.lt_or_eq_of_le hn with hlt | rfl
      · exact Nat.le_of_lt (recordBytes_take_lt h.header hlt)
      · rw [List.take_length]
    have hlaid := h.laidOut
    rw [← UInt64.add_zero (madt + sizeofMadt)] at hlaid
    rw [recordOffset, hlaid.offset hn, UInt64.zero_add, toNat_ofNat_of_lt (by omega)]
  have hbefore : ∀ m < rs.length,
      recordOffset mem (madt + sizeofMadt) m < recordsSize mem madt := by
    intro m hm
    rw [UInt64.lt_iff_toNat_lt, hoff m (Nat.le_of_lt hm), hsize]
    exact recordBytes_take_lt h.header hm
  have hend : ¬ recordOffset mem (madt + sizeofMadt) rs.length < recordsSize mem madt := by
    rw [UInt64.lt_iff_toNat_lt, hoff _ (Nat.le_refl _), hsize, List.take_length]
    exact Nat.lt_irrefl _
  rw [madtLoop_eq_some_iff]
  constructor
  · intro hex
    obtain ⟨n, hn, hnot, rfl⟩ := hex
    rcases Nat.lt_trichotomy n rs.length with hlt | rfl | hgt
    · exact absurd (hbefore n hlt) hnot
    · rfl
    · exact absurd (hn _ hgt) hend
  · intro hst
    exact ⟨rs.length, hbefore, hend, hst⟩

theorem WellFormedMadt.kept {madt : UInt64} {rs : List RecordHeader}
    (h : WellFormedMadt mem madt rs) :
    ∃ fuel st, madtLoop mem madt fuel = some st ∧
      st.localApics.list =
        (typedRecords madtRecordTypeLocalApic (madt + sizeofMadt) rs).take 256 ∧
      st.ioApics.list = (typedRecords madtRecordTypeIoApic (madt + sizeofMadt) rs).take 3 := by
  obtain ⟨fuel, hfuel⟩ := h.returns.mpr rfl
  have hlaid := h.laidOut
  rw [← UInt64.add_zero (madt + sizeofMadt)] at hlaid
  obtain ⟨hlocals, hios⟩ := @kept_rounds mem (madt + sizeofMadt) rs.length
  rw [hlaid.visited, UInt64.add_zero] at hlocals hios
  exact ⟨fuel, _, hfuel, hlocals, hios⟩

/-- `madt_init` keeps the first `MAX_CPUS` local APICs and the first `MAX_IO_APICS` I/O
    APICs, in table order, exactly when there are not more I/O APICs than that. -/
theorem madt_keeps_records_iff {madt : UInt64} {rs : List RecordHeader} (hmadt : madt ≠ 0)
    (h : WellFormedMadt mem madt rs) :
    (∃ fuel st, madtInit mem madt fuel = some st ∧
      st.localApics.list =
        (typedRecords madtRecordTypeLocalApic (madt + sizeofMadt) rs).take maxCpus.toNat ∧
      st.ioApics.list =
        (typedRecords madtRecordTypeIoApic (madt + sizeofMadt) rs).take maxIoApics.toNat) ↔
    (typedRecords madtRecordTypeIoApic (madt + sizeofMadt) rs).length ≤ maxIoApics.toNat := by
  obtain ⟨fuel, st, hst, hlocals, hios⟩ := h.kept
  have hunique := h.returns.mp ⟨fuel, hst⟩
  simp only [madtInit, if_neg hmadt]
  have hcap : maxIoApics.toNat = 2 := rfl
  rw [hcap]
  constructor
  · intro hex
    obtain ⟨fuel', st', hst', _, hios'⟩ := hex
    obtain rfl : st' = st := (h.returns.mp ⟨fuel', hst'⟩).trans hunique.symm
    -- a third I/O APIC is in the array
    have hlen := congrArg List.length (hios.symm.trans hios')
    rw [List.length_take, List.length_take] at hlen
    omega
  · intro hle
    refine ⟨fuel, st, hst, hlocals, ?_⟩
    rw [hios, List.take_of_length_le (Nat.le_succ_of_le hle), List.take_of_length_le hle]

/-- A table at 0x1000: signature, length, the rest of the header, the records. -/
def madtImage (length : UInt8) (records : List UInt8) : Memory := fun x =>
  ([0x41, 0x50, 0x49, 0x43, length, 0, 0, 0] ++ List.replicate 36 0 ++ records).getD
    (x - 0x1000).toNat 0

/-- One local APIC and one I/O APIC. -/
def smallMadt : Memory :=
  madtImage 64 ([0, 8] ++ List.replicate 6 0 ++ [1, 12] ++ List.replicate 10 0)

theorem smallMadt_wellFormed : WellFormedMadt smallMadt 0x1000 [⟨0, 8⟩, ⟨1, 12⟩] :=
  ⟨⟨by decide, by decide, by decide, by decide, trivial⟩, by decide, by decide⟩

theorem madt_keeps_small :
    (∃ fuel st, madtInit smallMadt 0x1000 fuel = some st ∧
      st.localApics.list = (typedRecords madtRecordTypeLocalApic (0x1000 + sizeofMadt)
        [⟨0, 8⟩, ⟨1, 12⟩]).take maxCpus.toNat ∧
      st.ioApics.list = (typedRecords madtRecordTypeIoApic (0x1000 + sizeofMadt)
        [⟨0, 8⟩, ⟨1, 12⟩]).take maxIoApics.toNat) ↔
    (typedRecords madtRecordTypeIoApic (0x1000 + sizeofMadt) [⟨0, 8⟩, ⟨1, 12⟩]).length ≤
      maxIoApics.toNat :=
  madt_keeps_records_iff (by decide) smallMadt_wellFormed

/-- Three I/O APICs. -/
def threeIoApics : Memory :=
  madtImage 80 ([1, 12] ++ List.replicate 10 0 ++ [1, 12] ++ List.replicate 10 0 ++ [1, 12])

/-- All three are kept. -/
theorem madt_keeps_three :
    WellFormedMadt threeIoApics 0x1000 [⟨1, 12⟩, ⟨1, 12⟩, ⟨1, 12⟩] ∧
      ∃ fuel st, madtInit threeIoApics 0x1000 fuel = some st ∧
        st.ioApics.list = [0x102C, 0x1038, 0x1044] ∧
        st.ioApics.list ≠ (typedRecords madtRecordTypeIoApic (0x1000 + sizeofMadt)
          [⟨1, 12⟩, ⟨1, 12⟩, ⟨1, 12⟩]).take maxIoApics.toNat := by
  have hwf : WellFormedMadt threeIoApics 0x1000 [⟨1, 12⟩, ⟨1, 12⟩, ⟨1, 12⟩] :=
    ⟨⟨by decide, by decide, by decide, by decide, by decide, by decide, trivial⟩,
      by decide, by decide⟩
  obtain ⟨fuel, st, hst, _, hios⟩ := hwf.kept
  refine ⟨hwf, fuel, st, hst, hios, ?_⟩
  rw [hios]
  decide

/-! What the loop reads and stores. -/

inductive MadtAccess where
  | read (addr : UInt64)
  | store (s : MadtStore)

/-- The reads of `header.length`. -/
def headerReads (madt : UInt64) : List MadtAccess :=
  (List.range 4).map fun k => .read (madt + 4 + UInt64.ofNat k)

/-- The accesses of one round: the two header bytes of the record, and the store. -/
def roundAccesses (mem : Memory) (records : UInt64) (p : UInt64 × MadtStatics) : List MadtAccess :=
  .read (records + p.1) :: .read (records + p.1 + 1) ::
    (madtClassify mem (records + p.1) p.2).toList.map .store

/-- Everything that `madt_init` touches, over all the rounds it starts. -/
def MadtTouches (mem : Memory) (madt : UInt64) (a : MadtAccess) : Prop :=
  a ∈ headerReads madt ∨
    ∃ n, While.Starts (madtCond mem madt) (madtRound mem (madt + sizeofMadt)) (0, madtStart) n ∧
      a ∈ roundAccesses mem (madt + sizeofMadt)
        ((madtRound mem (madt + sizeofMadt))^[n] (0, madtStart))

/-- A read lies in the table; a store is into a slot of the array, of a pointer to a
    record that lies in the table. -/
def InTable (mem : Memory) (madt : UInt64) : MadtAccess → Prop
  | .read a => (a - madt).toNat < (headerLength mem madt).toNat
  | .store (.localApic index record) => index.toNat < localApicSlots ∧
      (record - madt).toNat + sizeofLapic ≤ (headerLength mem madt).toNat
  | .store (.ioApic index record) => index.toNat < ioApicSlots ∧
      (record - madt).toNat + sizeofIoApic ≤ (headerLength mem madt).toNat

/-- The chain of records reaches record `n` before the end of the record area. -/
def Reaches (mem : Memory) (madt : UInt64) (n : Nat) : Prop :=
  ∀ m ≤ n, recordOffset mem (madt + sizeofMadt) m < recordsSize mem madt

/-- Where record `n` of the chain is. -/
def recordAt (mem : Memory) (madt : UInt64) (n : Nat) : UInt64 :=
  madt + sizeofMadt + recordOffset mem (madt + sizeofMadt) n

/-- How many of the first `n` records of the chain have the type. -/
def typeCount (mem : Memory) (madt : UInt64) (ty : UInt8) (n : Nat) : Nat :=
  (visited mem (madt + sizeofMadt) n 0).countP (mem · = ty)

/-- Record `n` of the chain has its header in the table, and all of itself when it is
    one of the first 256 local APICs or of the first 3 I/O APICs. -/
structure FitsTable (mem : Memory) (madt : UInt64) (n : Nat) : Prop where
  header : (recordAt mem madt n - madt).toNat + 2 ≤ (headerLength mem madt).toNat
  localApic : mem (recordAt mem madt n) = madtRecordTypeLocalApic →
    typeCount mem madt madtRecordTypeLocalApic n < 256 →
    (recordAt mem madt n - madt).toNat + sizeofLapic ≤ (headerLength mem madt).toNat
  ioApic : mem (recordAt mem madt n) = madtRecordTypeIoApic →
    typeCount mem madt madtRecordTypeIoApic n < 3 →
    (recordAt mem madt n - madt).toNat + sizeofIoApic ≤ (headerLength mem madt).toNat

theorem starts_iff {madt : UInt64} {n : Nat} :
    While.Starts (madtCond mem madt) (madtRound mem (madt + sizeofMadt)) (0, madtStart) n ↔
      Reaches mem madt n := by
  simp only [While.Starts, madtCond, madtRound_fst, decide_eq_true_eq, Reaches]

theorem kept_num {num : UInt64} {cap n : Nat} (h : num.toNat = min cap n) :
    (cap ≤ num.toNat ↔ ¬ n < cap) ∧ (n < cap → num = UInt64.ofNat n) := by
  have hlt := num.toNat_lt
  refine ⟨by omega, fun hn => ?_⟩
  rw [← UInt64.toNat_inj, h, toNat_ofNat_of_lt (by omega)]
  exact Nat.min_eq_right (Nat.le_of_lt hn)

/-- What round `n` stores, and the counts it stores at. -/
theorem madtClassify_round (madt : UInt64) (n : Nat) (s : MadtStore) :
    madtClassify mem (recordAt mem madt n)
        ((madtRound mem (madt + sizeofMadt))^[n] (0, madtStart)).2 = some s ↔
      (mem (recordAt mem madt n) = madtRecordTypeLocalApic ∧
        typeCount mem madt madtRecordTypeLocalApic n < 256 ∧
        s = .localApic (UInt64.ofNat (typeCount mem madt madtRecordTypeLocalApic n))
          (recordAt mem madt n)) ∨
      (mem (recordAt mem madt n) = madtRecordTypeIoApic ∧
        typeCount mem madt madtRecordTypeIoApic n < 3 ∧
        s = .ioApic (UInt64.ofNat (typeCount mem madt madtRecordTypeIoApic n))
          (recordAt mem madt n)) := by
  obtain ⟨hlocals, hios⟩ := @kept_rounds mem (madt + sizeofMadt) n
  generalize ((madtRound mem (madt + sizeofMadt))^[n] (0, madtStart)).2 = st at hlocals hios
  have hnum : st.localApics.num.toNat =
      min 256 (typeCount mem madt madtRecordTypeLocalApic n) := by
    rw [← st.localApics.list_length, hlocals, List.length_take, typeCount,
      List.countP_eq_length_filter]
  have hnum' : st.ioApics.num.toNat = min 3 (typeCount mem madt madtRecordTypeIoApic n) := by
    rw [← st.ioApics.list_length, hios, List.length_take, typeCount,
      List.countP_eq_length_filter]
  obtain ⟨hfull, hindex⟩ := kept_num hnum
  obtain ⟨hfull', hindex'⟩ := kept_num hnum'
  have hcpus : st.localApics.num ≥ maxCpus ↔
      ¬ typeCount mem madt madtRecordTypeLocalApic n < 256 := by
    rw [ge_iff_le, UInt64.le_iff_toNat_le]
    exact hfull
  -- the comparison is `>`, so there is room for one more than `maxIoApics`
  have hmax : st.ioApics.num > maxIoApics ↔
      ¬ typeCount mem madt madtRecordTypeIoApic n < 3 := by
    rw [gt_iff_lt, UInt64.lt_iff_toNat_lt]
    exact hfull'
  rw [madtClassify]
  simp only [hcpus, hmax]
  by_cases h0 : mem (recordAt mem madt n) = madtRecordTypeLocalApic
  · have h1 : mem (recordAt mem madt n) ≠ madtRecordTypeIoApic := by rw [h0]; decide
    by_cases hlt : typeCount mem madt madtRecordTypeLocalApic n < 256
    · simp [h0, hlt, hindex hlt, show madtRecordTypeLocalApic ≠ madtRecordTypeIoApic by decide,
        eq_comm]
    · simp [h0, hlt, show madtRecordTypeLocalApic ≠ madtRecordTypeIoApic by decide]
  · by_cases h1 : mem (recordAt mem madt n) = madtRecordTypeIoApic
    · by_cases hlt : typeCount mem madt madtRecordTypeIoApic n < 3
      · simp [h1, hlt, hindex' hlt, show madtRecordTypeIoApic ≠ madtRecordTypeLocalApic by decide,
          eq_comm]
      · simp [h1, hlt, show madtRecordTypeIoApic ≠ madtRecordTypeLocalApic by decide]
    · simp [h0, h1]

theorem madtTouches_iff {madt : UInt64} {a : MadtAccess} :
    MadtTouches mem madt a ↔ a ∈ headerReads madt ∨ ∃ n, Reaches mem madt n ∧
      (a = .read (recordAt mem madt n) ∨ a = .read (recordAt mem madt n + 1) ∨
        ∃ s, madtClassify mem (recordAt mem madt n)
          ((madtRound mem (madt + sizeofMadt))^[n] (0, madtStart)).2 = some s ∧ a = .store s) := by
  simp only [MadtTouches, starts_iff, roundAccesses, madtRound_fst, recordAt, List.mem_cons,
    List.mem_map, Option.mem_toList, @eq_comm _ a]

/-- In a table that is as long as its header a record of the chain starts below the end. -/
theorem recordAt_offset {madt : UInt64} (h : 44 ≤ (headerLength mem madt).toNat) {n : Nat}
    (hn : Reaches mem madt n) :
    (recordAt mem madt n - madt).toNat < (headerLength mem madt).toNat ∧
      (recordAt mem madt n + 1 - madt).toNat = (recordAt mem madt n - madt).toNat + 1 := by
  have hlt := UInt64.lt_iff_toNat_lt.mp (hn n (Nat.le_refl n))
  rw [recordsSize_long h] at hlt
  have hhead := (headerLength mem madt).toNat_lt
  have hsub : recordAt mem madt n - madt =
      sizeofMadt + recordOffset mem (madt + sizeofMadt) n := by
    rw [recordAt, UInt64.add_assoc, UInt64.add_comm, UInt64.add_sub_cancel]
  have hsub' : recordAt mem madt n + 1 - madt = recordAt mem madt n - madt + 1 := by
    rw [UInt64.sub_eq_add_neg, UInt64.sub_eq_add_neg, UInt64.add_assoc, UInt64.add_comm 1,
      UInt64.add_assoc]
  have hs : sizeofMadt.toNat = 44 := rfl
  have hat : (recordAt mem madt n - madt).toNat =
      44 + (recordOffset mem (madt + sizeofMadt) n).toNat := by
    rw [hsub, toNat_add_of_lt (by omega), hs]
  have h1 : (1 : UInt64).toNat = 1 := rfl
  refine ⟨by omega, ?_⟩
  rw [hsub', toNat_add_of_lt (by omega), h1]

/-- A table shorter than its own header is read past its end at once. -/
theorem recordAt_short {madt : UInt64} (h : (headerLength mem madt).toNat < 44) :
    Reaches mem madt 0 ∧ ¬ InTable mem madt (.read (recordAt mem madt 0)) := by
  have hoff : recordOffset mem (madt + sizeofMadt) 0 = 0 := rfl
  constructor
  · intro m hm
    obtain rfl : m = 0 := Nat.le_zero.mp hm
    have hsize := recordsSize_short h
    rw [hoff, UInt64.lt_iff_toNat_lt, hsize]
    exact Nat.lt_of_lt_of_le (by decide) (Nat.le_add_right _ _)
  · have hat : (recordAt mem madt 0 - madt).toNat = 44 := by
      rw [recordAt, hoff, UInt64.add_zero, UInt64.add_comm, UInt64.add_sub_cancel]
      rfl
    rw [InTable, hat]
    omega

theorem headerReads_inTable {madt : UInt64} (h : 44 ≤ (headerLength mem madt).toNat)
    {a : MadtAccess} (ha : a ∈ headerReads madt) : InTable mem madt a := by
  obtain ⟨k, hk, rfl⟩ := List.mem_map.mp ha
  have hk4 : k < 4 := List.mem_range.mp hk
  have hsub : madt + 4 + UInt64.ofNat k - madt = 4 + UInt64.ofNat k := by
    rw [UInt64.add_assoc, UInt64.add_comm, UInt64.add_sub_cancel]
  have h4 : (4 : UInt64).toNat = 4 := rfl
  have hof : (UInt64.ofNat k).toNat = k := toNat_ofNat_of_lt (by omega)
  rw [InTable, hsub, toNat_add_of_lt (by omega), hof, h4]
  omega

/-- `madt_init` reads and stores inside the table exactly when the table is as long as
    its header and no record of the chain is cut short by the end of it. -/
theorem madt_reads_table_iff (mem : Memory) (madt : UInt64) :
    (∀ a, MadtTouches mem madt a → InTable mem madt a) ↔
      44 ≤ (headerLength mem madt).toNat ∧
        ∀ n, Reaches mem madt n → FitsTable mem madt n := by
  constructor
  · intro h
    have hlong : 44 ≤ (headerLength mem madt).toNat := by
      by_contra hshort
      obtain ⟨hreach, hout⟩ := recordAt_short (Nat.lt_of_not_le hshort)
      exact hout (h _ (madtTouches_iff.mpr (Or.inr ⟨0, hreach, Or.inl rfl⟩)))
    refine ⟨hlong, fun n hn => ⟨?_, fun hty hcount => ?_, fun hty hcount => ?_⟩⟩
    · have hread := h _ (madtTouches_iff.mpr (Or.inr ⟨n, hn, Or.inr (Or.inl rfl)⟩))
      rw [InTable, (recordAt_offset hlong hn).2] at hread
      exact hread
    · have hstore := (madtClassify_round madt n _).mpr (Or.inl ⟨hty, hcount, rfl⟩)
      exact (h _ (madtTouches_iff.mpr
        (Or.inr ⟨n, hn, Or.inr (Or.inr ⟨_, hstore, rfl⟩)⟩))).2
    · have hstore := (madtClassify_round madt n _).mpr (Or.inr ⟨hty, hcount, rfl⟩)
      exact (h _ (madtTouches_iff.mpr
        (Or.inr ⟨n, hn, Or.inr (Or.inr ⟨_, hstore, rfl⟩)⟩))).2
  · intro h a ha
    obtain ⟨hlong, hfits⟩ := h
    rcases madtTouches_iff.mp ha with hhead | ⟨n, hn, hacc⟩
    · exact headerReads_inTable hlong hhead
    · obtain ⟨hheader, hlocal, hio⟩ := hfits n hn
      rcases hacc with rfl | rfl | ⟨s, hs, rfl⟩
      · exact (recordAt_offset hlong hn).1
      · rw [InTable, (recordAt_offset hlong hn).2]
        exact hheader
      · rcases (madtClassify_round madt n s).mp hs with ⟨hty, hcount, rfl⟩ | ⟨hty, hcount, rfl⟩
        · refine ⟨?_, hlocal hty hcount⟩
          rw [toNat_ofNat_of_lt (by omega)]
          exact hcount
        · refine ⟨?_, hio hty hcount⟩
          rw [toNat_ofNat_of_lt (by omega)]
          exact Nat.lt_succ_of_lt hcount

/-- A local APIC record of one byte at the end of the table: its length byte is read
    past the end. -/
theorem madt_reads_past_end :
    ∃ a, MadtTouches (madtImage 45 [0]) 0x1000 a ∧ ¬ InTable (madtImage 45 [0]) 0x1000 a := by
  refine ⟨.read 0x102D, madtTouches_iff.mpr (Or.inr ⟨0, ?_, Or.inr (Or.inl ?_)⟩), ?_⟩
  · intro m hm
    obtain rfl : m = 0 := Nat.le_zero.mp hm
    decide
  · exact congrArg MadtAccess.read (by decide)
  · unfold InTable
    decide

/-! When the loop ends. -/

/-- A zero length byte holds the chain at its record. -/
theorem recordOffset_stays {records : UInt64} {n : Nat}
    (h : mem (records + recordOffset mem records n + 1) = 0) (k : Nat) :
    recordOffset mem records (n + k) = recordOffset mem records n := by
  induction k with
  | zero => rfl
  | succ k ih =>
    rw [← Nat.add_assoc, recordOffset, Function.iterate_succ_apply', ← recordOffset, ih,
      nextOffset, h]
    exact UInt64.add_zero _

/-- A non-zero one moves it on, in a table that is as long as its header. -/
theorem recordOffset_moves {madt : UInt64} (h : 44 ≤ (headerLength mem madt).toNat) {n : Nat}
    (hn : Reaches mem madt n)
    (hlen : mem (madt + sizeofMadt + recordOffset mem (madt + sizeofMadt) n + 1) ≠ 0) :
    (recordOffset mem (madt + sizeofMadt) n).toNat <
      (recordOffset mem (madt + sizeofMadt) (n + 1)).toNat := by
  have hlt := UInt64.lt_iff_toNat_lt.mp (hn n (Nat.le_refl n))
  rw [recordsSize_long h] at hlt
  have hhead := (headerLength mem madt).toNat_lt
  have hpos : 0 < (mem (madt + sizeofMadt + recordOffset mem (madt + sizeofMadt) n + 1)).toNat :=
    Nat.pos_of_ne_zero fun h0 => hlen (UInt8.toNat_inj.mp h0)
  have hbyte := (mem (madt + sizeofMadt + recordOffset mem (madt + sizeofMadt) n + 1)).toNat_lt
  have hnext : recordOffset mem (madt + sizeofMadt) (n + 1) =
      nextOffset mem (madt + sizeofMadt) (recordOffset mem (madt + sizeofMadt) n) := by
    rw [recordOffset, Function.iterate_succ_apply', ← recordOffset]
  rw [hnext, nextOffset, toNat_add_of_lt (by rw [UInt8.toNat_toUInt64]; omega),
    UInt8.toNat_toUInt64]
  omega

theorem madtLoop_returns_iff {madt : UInt64} :
    (∃ fuel st, madtLoop mem madt fuel = some st) ↔
      ∃ n, ¬ recordOffset mem (madt + sizeofMadt) n < recordsSize mem madt := by
  have hret := @While.returns_iff _ (madtCond mem madt) (madtRound mem (madt + sizeofMadt))
    (0, madtStart)
  simp only [madtCond, madtRound_fst, decide_eq_false_iff_not] at hret
  rw [← hret]
  constructor
  · intro h
    obtain ⟨fuel, st, hst⟩ := h
    obtain ⟨t, ht, _⟩ := Option.map_eq_some_iff.mp hst
    exact ⟨fuel, t, ht⟩
  · intro h
    obtain ⟨fuel, t, ht⟩ := h
    exact ⟨fuel, t.2, Option.map_eq_some_iff.mpr ⟨t, ht, rfl⟩⟩

/-- The loop ends exactly when, in a table that is as long as its header, no record of
    the chain has length 0 and, in a shorter one, whose `size` has wrapped, a record of
    the chain lands in the last bytes before the wrap. -/
theorem madt_loop_ends_iff (mem : Memory) (madt : UInt64) :
    (∃ fuel st, madtLoop mem madt fuel = some st) ↔
      (44 ≤ (headerLength mem madt).toNat ∧
        ∀ n, Reaches mem madt n → mem (recordAt mem madt n + 1) ≠ 0) ∨
      ((headerLength mem madt).toNat < 44 ∧ ∃ n, 2 ^ 64 - 44 + (headerLength mem madt).toNat ≤
        (recordOffset mem (madt + sizeofMadt) n).toNat) := by
  rw [madtLoop_returns_iff]
  rcases Nat.lt_or_ge (headerLength mem madt).toNat 44 with hshort | hlong
  · have hnot : ¬ 44 ≤ (headerLength mem madt).toNat := by omega
    simp only [hnot, hshort, false_and, false_or, true_and, UInt64.lt_iff_toNat_lt,
      recordsSize_short hshort, not_lt]
  · have hnot : ¬ (headerLength mem madt).toNat < 44 := by omega
    simp only [hnot, hlong, true_and, false_and, or_false]
    constructor
    · intro h n hn hzero
      obtain ⟨N, hN⟩ := h
      rcases Nat.lt_or_ge n N with hlt | hge
      · -- from record `n` on the offset stays below `size`
        obtain ⟨k, rfl⟩ := Nat.exists_eq_add_of_lt hlt
        rw [Nat.add_assoc, recordOffset_stays hzero] at hN
        exact hN (hn n (Nat.le_refl n))
      · exact hN (hn N hge)
    · intro h
      have hdec : ∀ n, While.Starts (madtCond mem madt) (madtRound mem (madt + sizeofMadt))
          (0, madtStart) n →
          (recordsSize mem madt).toNat - (recordOffset mem (madt + sizeofMadt) (n + 1)).toNat <
            (recordsSize mem madt).toNat - (recordOffset mem (madt + sizeofMadt) n).toNat := by
        intro n hn
        have hreach : Reaches mem madt n := starts_iff.mp hn
        have hmoves := recordOffset_moves hlong hreach (h n hreach)
        have hlt := UInt64.lt_iff_toNat_lt.mp (hreach n (Nat.le_refl n))
        omega
      simp only [← madtRound_fst] at hdec
      obtain ⟨n, hn⟩ := While.returns_of_measure
        (fun p : UInt64 × MadtStatics => (recordsSize mem madt).toNat - p.1.toNat) hdec
      refine ⟨n, ?_⟩
      rw [← madtRound_fst]
      exact of_decide_eq_false hn

/-- A record of length 0 keeps the loop at its place. -/
theorem madt_loop_stuck :
    ¬ ∃ fuel st, madtLoop (madtImage 46 [2, 0]) 0x1000 fuel = some st := by
  rw [madtLoop_returns_iff]
  intro h
  obtain ⟨n, hn⟩ := h
  have hstay := recordOffset_stays (n := 0)
    (show madtImage 46 [2, 0] (0x1000 + sizeofMadt +
      recordOffset (madtImage 46 [2, 0]) (0x1000 + sizeofMadt) 0 + 1) = 0 by decide) n
  rw [Nat.zero_add] at hstay
  rw [hstay] at hn
  exact hn (by decide)

end Horizon64
