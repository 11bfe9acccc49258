import Horizon64.Acpi

/- What the checksums of the RSDP detect (`sys/acpi/rsdp.c`, `sys/acpi/acpi.c`).

   `rsdp_checksum_check` adds up the first 20 bytes and, from revision 2 on, as many bytes
   as the field `length` says. A sum modulo 256 changes when one of its bytes does, but the
   field `length` lies behind the first sum, and it says itself what the second one covers.

   1. Sums of bytes, and what one changed byte does to them.
   2. `rsdp_corruption_iff`: which single-byte changes of an accepted XSDP are rejected,
      and when `xsdt_address` was covered. -/
namespace Horizon64
open Bytes

/-- The bytes of a region added up. -/
def byteSum (mem : Memory) (addr : UInt64) (n : Nat) : Nat :=
  ((List.range n).map fun i => (mem (addr + UInt64.ofNat i)).toNat).sum

/-- `mem'` differs from `mem` in byte `p` of the `n` bytes at `addr`, and in no other of
    them. -/
structure OneByteOff (mem mem' : Memory) (addr : UInt64) (n p : Nat) : Prop where
  lt : p < n
  differs : mem' (addr + UInt64.ofNat p) ≠ mem (addr + UInt64.ofNat p)
  others : ∀ i < n, i ≠ p → mem' (addr + UInt64.ofNat i) = mem (addr + UInt64.ofNat i)

section Sums
variable {mem mem' : Memory} {addr : UInt64}

theorem byteSum_succ (mem : Memory) (addr : UInt64) (n : Nat) :
    byteSum mem addr (n + 1) = byteSum mem addr n + (mem (addr + UInt64.ofNat n)).toNat := by
  simp [byteSum, List.range_succ]

theorem byteSum_congr {n : Nat}
    (h : ∀ i < n, mem' (addr + UInt64.ofNat i) = mem (addr + UInt64.ofNat i)) :
    byteSum mem' addr n = byteSum mem addr n := by
  induction n with
  | zero => rfl
  | succ n ih =>
    rw [byteSum_succ, byteSum_succ, ih fun i hi => h i (Nat.lt_succ_of_lt hi),
      h n (Nat.lt_succ_self n)]

theorem byteSum_change {n p : Nat} (h : OneByteOff mem mem' addr n p) :
    byteSum mem' addr n + (mem (addr + UInt64.ofNat p)).toNat =
      byteSum mem addr n + (mem' (addr + UInt64.ofNat p)).toNat := by
  induction n with
  | zero => exact absurd h.lt (Nat.not_lt_zero p)
  | succ n ih =>
    rw [byteSum_succ, byteSum_succ]
    by_cases hp : p = n
    · subst hp
      rw [byteSum_congr fun i hi => h.others i (Nat.lt_succ_of_lt hi) (Nat.ne_of_lt hi)]
      omega
    · have hrest := ih ⟨by have := h.lt; omega, h.differs,
        fun i hi hne => h.others i (Nat.lt_succ_of_lt hi) hne⟩
      rw [h.others n (Nat.lt_succ_self n) (Ne.symm hp)]
      omega

theorem byteSum_detects {n p : Nat} (h : OneByteOff mem mem' addr n p)
    (hzero : byteSum mem addr n % 256 = 0) : byteSum mem' addr n % 256 ≠ 0 := by
  have hsum := byteSum_change h
  have hne : (mem' (addr + UInt64.ofNat p)).toNat ≠ (mem (addr + UInt64.ofNat p)).toNat :=
    fun heq => h.differs (UInt8.toNat_inj.mp heq)
  have hold := (mem (addr + UInt64.ofNat p)).toNat_lt
  have hnew := (mem' (addr + UInt64.ofNat p)).toNat_lt
  omega

theorem byteSum_add (mem : Memory) (addr : UInt64) (m n : Nat) : byteSum mem addr (m + n) =
    byteSum mem addr m + byteSum mem (addr + UInt64.ofNat m) n := by
  induction n with
  | zero => rfl
  | succ n ih =>
    rw [← Nat.add_assoc, byteSum_succ, ih, byteSum_succ, UInt64.ofNat_add, UInt64.add_assoc,
      Nat.add_assoc]

theorem toNat_calculateChecksum (mem : Memory) (addr length : UInt64) :
    (calculateChecksum mem addr length).toNat = byteSum mem addr length.toNat % 256 := by
  rw [calculateChecksum]
  induction length.toNat with
  | zero => rfl
  | succ n ih =>
    rw [Nat.fold_succ, UInt8.toNat_add, ih, byteSum_succ]
    omega

theorem calculateChecksum_eq_zero_iff (mem : Memory) (addr length : UInt64) :
    calculateChecksum mem addr length = 0 ↔ byteSum mem addr length.toNat % 256 = 0 := by
  rw [← toNat_calculateChecksum, ← UInt8.toNat_inj]
  rfl

end Sums

/-! The check. -/

/-- `rsdp->length`. -/
def xsdpLength (mem : Memory) (rsdp : UInt64) : Nat :=
  (load32 mem (rsdp + rsdpLength)).toNat

theorem rsdpChecksumCheck_ok_iff (mem : Memory) (rsdp : UInt64) :
    rsdpChecksumCheck mem rsdp = .sysOk ↔
      byteSum mem rsdp 20 % 256 = 0 ∧
        (2 ≤ mem (rsdp + rsdpRevision) → byteSum mem rsdp (xsdpLength mem rsdp) % 256 = 0) := by
  have hfirst := calculateChecksum_eq_zero_iff mem rsdp sizeofRsdp
  have hsecond := calculateChecksum_eq_zero_iff mem rsdp (load32 mem (rsdp + rsdpLength)).toUInt64
  have h20 : sizeofRsdp.toNat = 20 := rfl
  rw [h20] at hfirst
  rw [UInt32.toNat_toUInt64] at hsecond
  rw [rsdpChecksumCheck, xsdpLength, ← hfirst, ← hsecond]
  split_ifs <;> simp_all

theorem rsdpChecksumCheck_err_iff (mem : Memory) (rsdp : UInt64) :
    rsdpChecksumCheck mem rsdp = .sysErr ↔ ¬ rsdpChecksumCheck mem rsdp = .sysOk := by
  cases rsdpChecksumCheck mem rsdp <;> simp

section Fields
variable {mem mem' : Memory} {rsdp : UInt64}

theorem xsdpLength_congr (h : ∀ i, 20 ≤ i → i < 24 →
    mem' (rsdp + UInt64.ofNat i) = mem (rsdp + UInt64.ofNat i)) :
    xsdpLength mem' rsdp = xsdpLength mem rsdp := by
  have hat : ∀ k : UInt64, rsdp + rsdpLength + k = rsdp + (20 + k) := UInt64.add_assoc rsdp 20
  have h20 : mem' (rsdp + rsdpLength) = mem (rsdp + rsdpLength) := h 20 (by decide) (by decide)
  have h21 : mem' (rsdp + (20 + 1)) = mem (rsdp + (20 + 1)) := h 21 (by decide) (by decide)
  have h22 : mem' (rsdp + (20 + 2)) = mem (rsdp + (20 + 2)) := h 22 (by decide) (by decide)
  have h23 : mem' (rsdp + (20 + 3)) = mem (rsdp + (20 + 3)) := h 23 (by decide) (by decide)
  simp only [xsdpLength, load32, hat, h20, h21, h22, h23]

theorem check_changed_iff (hok : rsdpChecksumCheck mem rsdp = .sysOk)
    (hrev : mem (rsdp + rsdpRevision) = 2)
    (hsame : ∀ i < 20, mem' (rsdp + UInt64.ofNat i) = mem (rsdp + UInt64.ofNat i)) :
    rsdpChecksumCheck mem' rsdp = .sysErr ↔
      byteSum mem' rsdp (xsdpLength mem' rsdp) % 256 ≠ 0 := by
  have hfirst := ((rsdpChecksumCheck_ok_iff mem rsdp).mp hok).1
  have hrev' : mem' (rsdp + rsdpRevision) = 2 := by
    rw [← hrev]
    exact hsame 15 (by decide)
  have hle : (2 : UInt8) ≤ 2 := UInt8.le_refl 2
  rw [rsdpChecksumCheck_err_iff, rsdpChecksumCheck_ok_iff, byteSum_congr hsame, hrev']
  simp only [hfirst, true_and, hle, forall_const]

theorem check_first_sum {p : Nat} (hok : rsdpChecksumCheck mem rsdp = .sysOk)
    (h : OneByteOff mem mem' rsdp 20 p) : rsdpChecksumCheck mem' rsdp = .sysErr := by
  have hfirst := ((rsdpChecksumCheck_ok_iff mem rsdp).mp hok).1
  rw [rsdpChecksumCheck_err_iff, rsdpChecksumCheck_ok_iff]
  exact fun hok' => byteSum_detects h hfirst hok'.1

/-- The bytes that the new length leaves out of the image, or takes in behind it, make up
    for the change of byte `p`. -/
def MadeUp (mem mem' : Memory) (rsdp : UInt64) (p : Nat) : Prop :=
  let n := xsdpLength mem' rsdp
  let old := (mem (rsdp + UInt64.ofNat p)).toNat
  let new := (mem' (rsdp + UInt64.ofNat p)).toNat
  if n ≤ 36 then (old + byteSum mem' (rsdp + UInt64.ofNat n) (36 - n)) % 256 = new
  else (new + byteSum mem' (rsdp + UInt64.ofNat 36) (n - 36)) % 256 = old

/-- Made up for is what adds up to 0 again. -/
theorem madeUp_iff {p : Nat} (hzero : byteSum mem rsdp 36 % 256 = 0)
    (h : OneByteOff mem mem' rsdp 36 p) :
    MadeUp mem mem' rsdp p ↔ byteSum mem' rsdp (xsdpLength mem' rsdp) % 256 = 0 := by
  obtain ⟨n, hn⟩ : ∃ n, n = xsdpLength mem' rsdp := ⟨_, rfl⟩
  have hchange := byteSum_change h
  have hold := (mem (rsdp + UInt64.ofNat p)).toNat_lt
  have hnew := (mem' (rsdp + UInt64.ofNat p)).toNat_lt
  simp only [MadeUp, ← hn]
  by_cases hle : n ≤ 36
  · have hsplit := byteSum_add mem' rsdp n (36 - n)
    rw [Nat.add_sub_cancel' hle] at hsplit
    rw [if_pos hle]
    omega
  · have hsplit := byteSum_add mem' rsdp 36 (n - 36)
    rw [Nat.add_sub_cancel' (by omega)] at hsplit
    rw [if_neg hle]
    omega

/-- An accepted XSDP of revision 2 and its changed byte: rejected, except when the byte is
    one of the field `length` and the new length makes up for the change. -/
theorem check_one_byte_iff {p : Nat} (hok : rsdpChecksumCheck mem rsdp = .sysOk)
    (hrev : mem (rsdp + rsdpRevision) = 2) (hlen : xsdpLength mem rsdp = 36)
    (h : OneByteOff mem mem' rsdp 36 p) :
    rsdpChecksumCheck mem' rsdp = .sysErr ↔
      p < 20 ∨ 24 ≤ p ∨ ¬ MadeUp mem mem' rsdp p := by
  have hsecond := ((rsdpChecksumCheck_ok_iff mem rsdp).mp hok).2 (by rw [hrev]; decide)
  rw [hlen] at hsecond
  by_cases hlow : p < 20
  · have hcut : OneByteOff mem mem' rsdp 20 p :=
      ⟨hlow, h.differs, fun i hi hne => h.others i (by omega) hne⟩
    exact iff_of_true (check_first_sum hok hcut) (Or.inl hlow)
  · rw [check_changed_iff hok hrev fun i hi => h.others i (by omega) (by omega)]
    by_cases hhigh : 24 ≤ p
    · have hlen' : xsdpLength mem' rsdp = 36 := by
        rw [← hlen]
        exact xsdpLength_congr fun i _ hi => h.others i (by omega) (by omega)
      rw [hlen']
      exact iff_of_true (byteSum_detects h hsecond) (Or.inr (Or.inl hhigh))
    · simp only [hlow, hhigh, false_or, madeUp_iff hsecond h, ne_eq]

/-- `acpi_init` takes the branch that follows `xsdt_address`. -/
def FollowsXsdt (mem : Memory) (rsdp : UInt64) : Prop :=
  rsdpChecksumCheck mem rsdp = .sysOk ∧ mem (rsdp + rsdpRevision) = 2

theorem acpiInit_follows {fuel : Nat} {st : AcpiStatics}
    (h : acpiInit mem (some rsdp) fuel acpiStart = some st) :
    (st.useXsdt = true ↔ FollowsXsdt mem rsdp) ∧ (FollowsXsdt mem rsdp →
      st.sdt = physToVirt (load64 mem (rsdp + rsdpXsdtAddress))) := by
  rw [acpiInit] at h
  by_cases hcheck : rsdpChecksumCheck mem rsdp = .sysErr
  · rw [if_pos hcheck] at h
    obtain rfl : acpiStart = st := Option.some.inj h
    have hnot : ¬ FollowsXsdt mem rsdp := fun hf => by simp [hf.1] at hcheck
    exact ⟨iff_of_false Bool.false_ne_true hnot, fun hf => absurd hf hnot⟩
  · have hok : rsdpChecksumCheck mem rsdp = .sysOk := by
      rwa [rsdpChecksumCheck_err_iff, not_not] at hcheck
    rw [if_neg hcheck] at h
    by_cases hrev : mem (rsdp + rsdpRevision) = 2
    · simp only [if_pos hrev] at h
      split at h
      · obtain rfl := Option.some.inj h
        exact ⟨iff_of_true rfl ⟨hok, hrev⟩, fun _ => rfl⟩
      · obtain ⟨_, _, rfl⟩ := Option.map_eq_some_iff.mp h
        exact ⟨iff_of_true rfl ⟨hok, hrev⟩, fun _ => rfl⟩
    · have hnot : ¬ FollowsXsdt mem rsdp := fun hf => hrev hf.2
      simp only [if_neg hrev] at h
      split at h
      · obtain rfl := Option.some.inj h
        exact ⟨iff_of_false Bool.false_ne_true hnot, fun hf => absurd hf hnot⟩
      · obtain ⟨_, _, rfl⟩ := Option.map_eq_some_iff.mp h
        exact ⟨iff_of_false Bool.false_ne_true hnot, fun hf => absurd hf hnot⟩

/-- The bytes before `n` that a store to byte `i` leaves as they were. -/
theorem update_others {i : Nat} (hi : i < 2 ^ 32) (b : UInt8) :
    ∀ j < 2 ^ 32, j ≠ i →
      Function.update mem (rsdp + UInt64.ofNat i) b (rsdp + UInt64.ofNat j) =
        mem (rsdp + UInt64.ofNat j) := by
  intro j hj hne
  refine Function.update_of_ne (fun heq => hne ?_) _ _
  have hoff : UInt64.ofNat j = UInt64.ofNat i := (UInt64.add_right_inj rsdp).mp heq
  have htoNat := congrArg UInt64.toNat hoff
  rwa [Words.toNat_ofNat_of_lt (by omega), Words.toNat_ofNat_of_lt (by omega)] at htoNat

/-- A change of any byte of `xsdt_address` is detected exactly when `length` goes up to its
    last one. -/
theorem xsdtAddress_covered_iff (hok : rsdpChecksumCheck mem rsdp = .sysOk)
    (hrev : mem (rsdp + rsdpRevision) = 2) :
    (∀ i, 24 ≤ i → i < 32 → ∀ b ≠ mem (rsdp + UInt64.ofNat i),
      rsdpChecksumCheck (Function.update mem (rsdp + UInt64.ofNat i) b) rsdp = .sysErr) ↔
    32 ≤ xsdpLength mem rsdp := by
  have hlt : xsdpLength mem rsdp < 2 ^ 32 := (load32 mem (rsdp + rsdpLength)).toNat_lt
  have hsecond := ((rsdpChecksumCheck_ok_iff mem rsdp).mp hok).2 (by rw [hrev]; decide)
  have hstore : ∀ i, 24 ≤ i → i < 32 → ∀ b,
      (rsdpChecksumCheck (Function.update mem (rsdp + UInt64.ofNat i) b) rsdp = .sysErr ↔
        byteSum (Function.update mem (rsdp + UInt64.ofNat i) b) rsdp (xsdpLength mem rsdp) % 256 ≠
          0) := by
    intro i hlow hhigh b
    have hothers := @update_others mem rsdp i (by omega) b
    rw [check_changed_iff hok hrev fun j hj => hothers j (by omega) (by omega),
      xsdpLength_congr fun j _ hj => hothers j (by omega) (by omega)]
  constructor
  · intro hall
    by_contra hshort
    have hothers := @update_others mem rsdp 31 (by decide) (mem (rsdp + UInt64.ofNat 31) + 1)
    have hne : mem (rsdp + UInt64.ofNat 31) + 1 ≠ mem (rsdp + UInt64.ofNat 31) := by
      intro heq
      have htoNat := congrArg UInt8.toNat heq
      have hone : (1 : UInt8).toNat = 1 := rfl
      rw [UInt8.toNat_add, hone] at htoNat
      omega
    have hrejected := (hstore 31 (by decide) (by decide) _).mp
      (hall 31 (by decide) (by decide) _ hne)
    rw [byteSum_congr fun j hj => hothers j (by omega) (by omega)] at hrejected
    exact hrejected hsecond
  · intro hlong i hlow hhigh b hb
    rw [hstore i hlow hhigh]
    refine @byteSum_detects mem _ rsdp _ i ⟨by omega, ?_, fun j hj hne => ?_⟩ hsecond
    · rw [Function.update_self]
      exact hb
    · exact @update_others mem rsdp i (by omega) b j (by omega) hne

end Fields

/-- For every accepted XSDP of revision 2 and length 36 and every image that differs from
    it in one byte, with any bytes behind: the image is rejected exactly when the byte is
    not one of the field `length`, or the bytes that the new length leaves out or takes in do
    not make up for the change. And whenever `acpi_init` follows `xsdt_address`, a change of
    any byte of it would have been rejected exactly when `length` is at least 32. -/
theorem rsdp_corruption_iff (mem : Memory) (rsdp : UInt64) :
    (∀ mem' p, rsdpChecksumCheck mem rsdp = .sysOk → mem (rsdp + rsdpRevision) = 2 →
      xsdpLength mem rsdp = 36 → OneByteOff mem mem' rsdp 36 p →
      (rsdpChecksumCheck mem' rsdp = .sysErr ↔
        p < 20 ∨ 24 ≤ p ∨ ¬ MadeUp mem mem' rsdp p)) ∧
    (∀ fuel st, acpiInit mem (some rsdp) fuel acpiStart = some st →
      (st.useXsdt = true ↔ FollowsXsdt mem rsdp)) ∧
    (FollowsXsdt mem rsdp →
      ((∀ i, 24 ≤ i → i < 32 → ∀ b ≠ mem (rsdp + UInt64.ofNat i),
        rsdpChecksumCheck (Function.update mem (rsdp + UInt64.ofNat i) b) rsdp = .sysErr) ↔
      32 ≤ xsdpLength mem rsdp)) :=
  ⟨fun _ _ hok hrev hlen h => check_one_byte_iff hok hrev hlen h,
    fun _ _ hst => (acpiInit_follows hst).1, fun hf => xsdtAddress_covered_iff hf.1 hf.2⟩

/-- An XSDP at 0x1000 of revision 2 with the length `l`. -/
def xsdpOfLength (l : UInt8) : Memory := fun x =>
  if x = 0x1008 then 254
  else if x = 0x100F then 2
  else if x = 0x1014 then l
  else if x = 0x1020 then 220
  else 0

theorem xsdpOfLength_off (l : UInt8) (h : l ≠ 36) :
    OneByteOff (xsdpOfLength 36) (xsdpOfLength l) 0x1000 36 20 := by
  refine ⟨by decide, h, fun i hi hne => ?_⟩
  have hx : (0x1000 : UInt64) + UInt64.ofNat i ≠ 0x1014 := by
    intro heq
    have hoff : UInt64.ofNat i = 0x14 := (UInt64.add_right_inj 0x1000).mp heq
    have htoNat := congrArg UInt64.toNat hoff
    rw [Words.toNat_ofNat_of_lt (by omega)] at htoNat
    exact hne htoNat
  simp only [xsdpOfLength, hx, if_false]

theorem rsdp_corruption_rejected :
    rsdpChecksumCheck (xsdpOfLength 37) 0x1000 = .sysErr := by
  have hoff := xsdpOfLength_off 37 (by decide)
  refine ((rsdp_corruption_iff _ _).1 _ _ (by decide) rfl (by decide) hoff).mpr ?_
  exact Or.inr (Or.inr (by rw [MadeUp]; decide))

/-- The length changed from 36 to 20 is accepted. -/
theorem rsdp_corruption_accepted :
    rsdpChecksumCheck (xsdpOfLength 36) 0x1000 = .sysOk ∧
    rsdpChecksumCheck (xsdpOfLength 20) 0x1000 = .sysOk ∧
    ¬ ∀ mem mem' rsdp p, rsdpChecksumCheck mem rsdp = .sysOk → mem (rsdp + rsdpRevision) = 2 →
      xsdpLength mem rsdp = 36 → OneByteOff mem mem' rsdp 36 p →
      rsdpChecksumCheck mem' rsdp = .sysErr := by
  have hok : rsdpChecksumCheck (xsdpOfLength 36) 0x1000 = .sysOk := by decide
  have hok' : rsdpChecksumCheck (xsdpOfLength 20) 0x1000 = .sysOk := by decide
  refine ⟨hok, hok', fun h => ?_⟩
  have hrejected := h _ _ _ _ hok rfl (by decide) (xsdpOfLength_off 20 (by decide))
  rw [hok'] at hrejected
  cases hrejected

end Horizon64
