import Horizon64.Acpi

/- The search for a table by its signature (`acpi_get_sdt` of `sys/acpi/acpi.c`).

   A root table lists the entries whose slots lie within its first `header.length` bytes.
   `acpi_get_sdt` counts them as `(header.length - 36) / width` in 64 bits, which wraps
   for a length below 36.

   1. The tables a root table lists, and the entries the loop reads.
   2. `acpiFindSdt_eq`: the loop is a search in a list.
   3. `sdt_lookup_iff`: which root tables are searched right. -/
namespace Horizon64
open Bytes

section Root
variable (mem : Memory) (st : AcpiStatics)

/-- `sdt->header.length`. -/
def sdtLength : Nat := (load32 mem (st.sdt + 4)).toNat

/-- The size of an entry. -/
def sdtWidth : Nat := if st.useXsdt then 8 else 4

/-- The number of entries `acpi_get_sdt` comes to. -/
def sdtCount : UInt64 :=
  ((load32 mem (st.sdt + 4)).toUInt64 - sizeofAcpiSdtHeader) / (if st.useXsdt then 8 else 4)

/-- The slot of entry `i` ends within the table. -/
def SlotInside (i : Nat) : Prop := 36 + sdtWidth st * (i + 1) ≤ sdtLength mem st

/-- The number of entries in the table. -/
def listedCount : Nat := (sdtLength mem st - 36) / sdtWidth st

/-- The physical addresses the root table lists. -/
def listedAddresses : List UInt64 :=
  (List.range (listedCount mem st)).map fun i => sdtEntry mem st (UInt64.ofNat i)

/-- The signature of the table begins with the string. -/
def BeginsWith (table : UInt64) (signature : List UInt8) : Prop :=
  loadBytes mem table signature.length = signature

instance (table : UInt64) (signature : List UInt8) : Decidable (BeginsWith mem table signature) := by
  unfold BeginsWith
  infer_instance

/-- The first listed table that begins with the signature. -/
def firstListed (signature : List UInt8) : Option UInt64 :=
  ((listedAddresses mem st).map physToVirt).find? fun table =>
    decide (BeginsWith mem table signature)

/-- The entries the loop of `acpi_get_sdt` reads, in their order. -/
def acpiEntriesRead (signature : List UInt8) : Nat → UInt64 → List UInt64
  | 0, _ => []
  | n + 1, i =>
    i :: if memcmpString mem (physToVirt (sdtEntry mem st i)) signature = 0 then []
      else acpiEntriesRead signature n (i + 1)

/-- The answer is the first listed table, `NULL` without one, and every entry read is
    listed. -/
structure LookedUp (signature : List UInt8) : Prop where
  first : acpiGetSdt mem st (some signature) = (firstListed mem st signature).getD 0
  null : acpiGetSdt mem st (some signature) = 0 ↔ firstListed mem st signature = none
  inside : ∀ i ∈ acpiEntriesRead mem st signature (sdtCount mem st).toNat 0,
    SlotInside mem st i.toNat

end Root

variable {mem : Memory} {st : AcpiStatics} {signature : List UInt8}

/-! The loop. -/

theorem loadBytes_succ (m : Memory) (p : UInt64) (n : Nat) :
    loadBytes m p (n + 1) = m p :: loadBytes m (p + 1) n := by
  rw [loadBytes, List.range_succ_eq_map, List.map_cons, List.map_map, loadBytes]
  congr 1
  · exact congrArg m (UInt64.add_zero p)
  · apply List.map_congr_left
    intro k _
    rw [Function.comp, Nat.succ_eq_add_one, Nat.add_comm, UInt64.ofNat_add, UInt64.add_assoc]
    rfl

theorem memcmpString_eq_zero_iff (mem : Memory) (table : UInt64) (signature : List UInt8) :
    memcmpString mem table signature = 0 ↔ BeginsWith mem table signature := by
  induction signature generalizing table with
  | nil => simp [memcmpString, BeginsWith, loadBytes]
  | cons b signature ih =>
    rw [memcmpString, BeginsWith, List.length_cons, loadBytes_succ, List.cons.injEq]
    by_cases hb : mem table = b
    · simp only [hb, ne_eq, not_true_eq_false, if_false, true_and]
      exact ih (table + 1)
    · simp [hb]

/-- The entries from `i` on. -/
def entriesFrom (mem : Memory) (st : AcpiStatics) (n : Nat) (i : UInt64) : List UInt64 :=
  (List.range n).map fun k => sdtEntry mem st (i + UInt64.ofNat k)

theorem entriesFrom_succ (mem : Memory) (st : AcpiStatics) (n : Nat) (i : UInt64) :
    entriesFrom mem st (n + 1) i = sdtEntry mem st i :: entriesFrom mem st n (i + 1) := by
  rw [entriesFrom, List.range_succ_eq_map, List.map_cons, List.map_map, entriesFrom]
  congr 1
  · exact congrArg (sdtEntry mem st) (UInt64.add_zero i)
  · apply List.map_congr_left
    intro k _
    rw [Function.comp, Nat.succ_eq_add_one, Nat.add_comm, UInt64.ofNat_add, UInt64.add_assoc]
    rfl

theorem acpiFindSdt_eq (mem : Memory) (st : AcpiStatics) (signature : List UInt8) (n : Nat)
    (i : UInt64) : acpiFindSdt mem st signature n i =
      (((entriesFrom mem st n i).map physToVirt).find?
        fun table => decide (BeginsWith mem table signature)).getD 0 := by
  induction n generalizing i with
  | zero => rfl
  | succ n ih =>
    rw [acpiFindSdt, entriesFrom_succ, List.map_cons]
    simp only [memcmpString_eq_zero_iff]
    by_cases hmatch : BeginsWith mem (physToVirt (sdtEntry mem st i)) signature
    · rw [if_pos hmatch, List.find?_cons_of_pos (by simpa using hmatch), Option.getD_some]
    · rw [if_neg hmatch, List.find?_cons_of_neg (by simpa using hmatch), ih]

theorem mem_acpiEntriesRead {n : Nat} {i j : UInt64} (hn : i.toNat + n < 2 ^ 64)
    (h : j ∈ acpiEntriesRead mem st signature n i) : j.toNat < i.toNat + n := by
  induction n generalizing i with
  | zero => cases h
  | succ n ih =>
    rw [acpiEntriesRead] at h
    rcases List.mem_cons.mp h with rfl | h
    · omega
    · split_ifs at h with hmatch
      · cases h
      · have hnext : (i + 1).toNat = i.toNat + 1 := by
          have hone : (1 : UInt64).toNat = 1 := rfl
          rw [UInt64.toNat_add, hone, Nat.mod_eq_of_lt (by omega)]
        have hlt := ih (by omega) h
        omega

/-! The number of entries. -/

theorem slotInside_iff (h : 36 ≤ sdtLength mem st) (i : Nat) :
    SlotInside mem st i ↔ i < listedCount mem st := by
  rw [SlotInside, listedCount]
  cases hx : st.useXsdt <;> simp only [sdtWidth, hx, if_true, Bool.false_eq_true, if_false] <;> omega

theorem toNat_sdtCount (h : 36 ≤ sdtLength mem st) :
    (sdtCount mem st).toNat = listedCount mem st := by
  have hlen : (load32 mem (st.sdt + 4)).toUInt64.toNat = sdtLength mem st :=
    UInt32.toNat_toUInt64 _
  have hsub : ((load32 mem (st.sdt + 4)).toUInt64 - sizeofAcpiSdtHeader).toNat =
      sdtLength mem st - 36 := by
    rw [UInt64.toNat_sub_of_le, hlen]
    · rfl
    · rw [UInt64.le_iff_toNat_le, hlen]
      exact h
  rw [sdtCount, UInt64.toNat_div, hsub, listedCount, sdtWidth]
  cases st.useXsdt <;> rfl

/-- With a length below 36 the difference wraps, and there is an entry 0 to read. -/
theorem sdtCount_pos (h : sdtLength mem st < 36) : 0 < (sdtCount mem st).toNat := by
  have hlen : (load32 mem (st.sdt + 4)).toUInt64.toNat = sdtLength mem st :=
    UInt32.toNat_toUInt64 _
  have hsize : sizeofAcpiSdtHeader.toNat = 36 := rfl
  have hsub : 2 ^ 64 - 36 ≤ ((load32 mem (st.sdt + 4)).toUInt64 - sizeofAcpiSdtHeader).toNat := by
    rw [UInt64.toNat_sub, hlen, hsize]
    omega
  rw [sdtCount, UInt64.toNat_div]
  apply Nat.div_pos
  · cases st.useXsdt
    · exact Nat.le_trans (by decide) hsub
    · exact Nat.le_trans (by decide) hsub
  · cases st.useXsdt <;> decide

theorem acpiGetSdt_eq (hsdt : st.sdt ≠ 0) (h : 36 ≤ sdtLength mem st) :
    acpiGetSdt mem st (some signature) = (firstListed mem st signature).getD 0 := by
  have hcount := toNat_sdtCount h
  rw [sdtCount] at hcount
  have hentries : entriesFrom mem st (listedCount mem st) 0 = listedAddresses mem st := by
    simp only [entriesFrom, listedAddresses, UInt64.zero_add]
  simp only [acpiGetSdt, if_neg hsdt, acpiFindSdt_eq, hcount, hentries, firstListed]

theorem not_inside (h : sdtLength mem st < 36) :
    ∃ i ∈ acpiEntriesRead mem st signature (sdtCount mem st).toNat 0, ¬ SlotInside mem st i.toNat := by
  obtain ⟨n, hn⟩ : ∃ n, (sdtCount mem st).toNat = n + 1 :=
    ⟨_, (Nat.succ_pred_eq_of_pos (sdtCount_pos h)).symm⟩
  refine ⟨0, ?_, fun hinside => ?_⟩
  · rw [hn, acpiEntriesRead]
    exact List.mem_cons_self
  · rw [SlotInside] at hinside
    omega

theorem lookedUp_iff (hsdt : st.sdt ≠ 0) (signature : List UInt8) :
    LookedUp mem st signature ↔
      36 ≤ sdtLength mem st ∧ firstListed mem st signature ≠ some 0 := by
  constructor
  · intro h
    have hlong : 36 ≤ sdtLength mem st := by
      by_contra hshort
      obtain ⟨i, hi, hout⟩ := @not_inside mem st signature (Nat.lt_of_not_le hshort)
      exact hout (h.inside i hi)
    refine ⟨hlong, fun hnull => ?_⟩
    have hfirst := h.first
    rw [hnull, Option.getD_some] at hfirst
    have hnone := h.null.mp hfirst
    rw [hnull] at hnone
    cases hnone
  · rintro ⟨hlong, hne⟩
    have hget := @acpiGetSdt_eq mem st signature hsdt hlong
    refine ⟨hget, ?_, fun i hi => ?_⟩
    · rw [hget]
      cases hfirst : firstListed mem st signature with
      | none => simp
      | some table =>
        rw [hfirst] at hne
        simpa using hne
    · have hlt : listedCount mem st < 2 ^ 64 := toNat_sdtCount hlong ▸ (sdtCount mem st).toNat_lt
      rw [slotInside_iff hlong]
      rw [toNat_sdtCount hlong] at hi
      have hi' := mem_acpiEntriesRead (by simpa using hlt) hi
      simpa using hi'

/-- A table below 4 GiB does not come to `NULL`. -/
theorem firstListed_rsdt (h : st.useXsdt = false) : firstListed mem st signature ≠ some 0 := by
  intro hnull
  obtain ⟨a, ha, hzero⟩ := List.mem_map.mp (List.mem_of_find?_eq_some hnull)
  obtain ⟨i, _, rfl⟩ := List.mem_map.mp ha
  rw [sdtEntry, h, if_neg Bool.false_ne_true] at hzero
  exact physToVirt_ne_zero _ hzero

/-- For every root table and signature: `acpi_get_sdt` returns the first listed table whose
    signature begins with it and `NULL` exactly without one, and reads no other entries,
    exactly when `header.length` is at least 36 and that first table does not come to
    `NULL` in virtual memory. For an RSDT and an XSDT that list the same addresses, it
    does so for both, with the same answer, exactly when both lengths are at least 36. -/
theorem sdt_lookup_iff (mem : Memory) (signature : List UInt8) :
    (∀ st, st.sdt ≠ 0 → (LookedUp mem st signature ↔
      36 ≤ sdtLength mem st ∧ firstListed mem st signature ≠ some 0)) ∧
    ∀ rsdt xsdt, rsdt.sdt ≠ 0 → xsdt.sdt ≠ 0 → rsdt.useXsdt = false → xsdt.useXsdt = true →
      listedAddresses mem rsdt = listedAddresses mem xsdt →
      (LookedUp mem rsdt signature ∧ LookedUp mem xsdt signature ∧
          acpiGetSdt mem rsdt (some signature) = acpiGetSdt mem xsdt (some signature) ↔
        36 ≤ sdtLength mem rsdt ∧ 36 ≤ sdtLength mem xsdt) := by
  refine ⟨fun st hst => lookedUp_iff hst signature, fun rsdt xsdt hr hx hwidth _ hsame => ?_⟩
  have hfirst : firstListed mem xsdt signature = firstListed mem rsdt signature := by
    rw [firstListed, firstListed, hsame]
  have hne := @firstListed_rsdt mem rsdt signature hwidth
  rw [lookedUp_iff hr, lookedUp_iff hx, hfirst]
  constructor
  · rintro ⟨⟨hrsdt, _⟩, ⟨hxsdt, _⟩, _⟩
    exact ⟨hrsdt, hxsdt⟩
  · rintro ⟨hrsdt, hxsdt⟩
    refine ⟨⟨hrsdt, hne⟩, ⟨hxsdt, hne⟩, ?_⟩
    rw [acpiGetSdt_eq hr hrsdt, acpiGetSdt_eq hx hxsdt, hfirst]

/-- A root table at 0x5000 of length `l`, whose memory holds zeros, and a table "APIC" at
    the physical address 0. -/
def rootOfLength (l : UInt8) : Memory := fun x =>
  if x = 0x5004 then l
  else apicSignature.getD (x - physToVirt 0).toNat 0

def rootStatics : AcpiStatics := ⟨0x5000, false, 0⟩

theorem sdt_lookup_forty : LookedUp (rootOfLength 40) rootStatics apicSignature := by
  refine ((sdt_lookup_iff _ _).1 rootStatics (by decide)).mpr ⟨by decide, ?_⟩
  exact firstListed_rsdt rfl

/-- With length 32 nothing is listed, but the words behind the table are read, and the first
    one leads to a table. -/
theorem sdt_lookup_short :
    firstListed (rootOfLength 32) rootStatics apicSignature = none ∧
    acpiGetSdt (rootOfLength 32) rootStatics (some apicSignature) = physToVirt 0 ∧
    ¬ ∀ mem st signature, st.sdt ≠ 0 → signature ≠ [] → signature.length ≤ 4 →
      LookedUp mem st signature := by
  have hlength : sdtLength (rootOfLength 32) rootStatics = 32 := by decide
  have hnone : firstListed (rootOfLength 32) rootStatics apicSignature = none := by decide
  refine ⟨hnone, ?_, fun h => ?_⟩
  · obtain ⟨n, hn⟩ : ∃ n, (sdtCount (rootOfLength 32) rootStatics).toNat = n + 1 :=
      ⟨_, (Nat.succ_pred_eq_of_pos (sdtCount_pos (by rw [hlength]; decide))).symm⟩
    rw [sdtCount] at hn
    have hmatch : memcmpString (rootOfLength 32)
        (physToVirt (sdtEntry (rootOfLength 32) rootStatics 0)) apicSignature = 0 := by decide
    simp only [acpiGetSdt, hn, acpiFindSdt, hmatch, if_true]
    decide
  · have hright := h (rootOfLength 32) rootStatics apicSignature (by decide) (by decide) (by decide)
    obtain ⟨i, hi, hout⟩ :=
      @not_inside (rootOfLength 32) rootStatics apicSignature (by rw [hlength]; decide)
    exact hout (hright.inside i hi)

end Horizon64
