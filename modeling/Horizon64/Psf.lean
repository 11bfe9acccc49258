import Horizon64.Glyphs
import Horizon64.IsoFile
import Horizon64.Kmalloc

/- Fonts in PSF1 files: `init/psf.c`.

   `psf1_get_glyphs` takes the header from the file and checks the magic number in it; the
   size of the file, which Limine reports with its address, is not looked at. The glyphs
   are behind the header, 256 of them, each of as many bytes as the header says:
   `fontBytes`, and a file that is accepted is safe to draw with when it has so many. -/
namespace Horizon64
open Bytes

def psf1FullMagic : UInt16 := 0x0436
def sizeofPsf1Header : UInt64 := 4
def sysOk : UInt8 := 1
def sysErr : UInt8 := 0

/-- What `psf1_get_glyphs` returns. -/
inductive Psf1Status where
  | success
  | notPsf1
  | fail
  deriving DecidableEq, Repr

def psf1MagicCheck (x : UInt16) : Bool := x &&& 0xFFFF = psf1FullMagic

/-- `*(PSF1_HEADER *) p`. -/
def loadPsf1Header (m : Memory) (p : UInt64) : Psf1Header :=
  { magic := (m p).toUInt16 ||| (m (p + 1)).toUInt16 <<< 8
    fontMode := m (p + 2)
    characterSize := m (p + 3) }

/-- `psf1_font_mode`; `none` when `kmalloc` halts. -/
def psf1FontMode (s : Machine) (font : Psf1Font) (func : Nat → UInt8) (line : UInt64) :
    Option (UInt8 × Psf1Font × Machine) :=
  match kmallocImpl s 256 func line with
  | none => none
  | some (p, s) => some (sysOk, { font with glyphBuffer := p }, s)

/-- `psf1_get_glyphs`. -/
def psf1GetGlyphs (s : Machine) (font : Psf1Font) (file : LimineFile) (func : Nat → UInt8)
    (line : UInt64) : Option (Psf1Status × Psf1Font × Machine) :=
  let font := { font with header := loadPsf1Header s.mem file.address }
  if ¬ psf1MagicCheck font.header.magic then some (.notPsf1, font, s)
  else
    match psf1FontMode s font func line with
    | none => none
    | some (status, font, s) =>
      if status = sysErr then some (.fail, font, s)
      else some (.success, { font with glyphBuffer := file.address + sizeofPsf1Header }, s)

/-- The bytes of the header, which `psf1_get_glyphs` reads. -/
def psf1HeaderReads (file : LimineFile) : List UInt64 :=
  [file.address, file.address + 1, file.address + 2, file.address + 3]

theorem loadPsf1Header_congr {m m' : Memory} {file : LimineFile}
    (h : ∀ a ∈ psf1HeaderReads file, m' a = m a) :
    loadPsf1Header m' file.address = loadPsf1Header m file.address := by
  simp only [psf1HeaderReads, List.forall_mem_cons, List.not_mem_nil, false_imp_iff, implies_true,
    and_true] at h
  obtain ⟨h0, h1, h2, h3⟩ := h
  rw [loadPsf1Header, loadPsf1Header, h0, h1, h2, h3]

/-- The address is one of a file of `size` bytes. -/
def LimineFile.Holds (file : LimineFile) (size : UInt64) (a : UInt64) : Prop :=
  a - file.address < size

/-- When the font is accepted, its header and all of its glyphs are in the file. -/
def SafeToDraw (s : Machine) (font : Psf1Font) (file : LimineFile) (size : UInt64)
    (func : Nat → UInt8) (line : UInt64) : Prop :=
  ∀ font' s', psf1GetGlyphs s font file func line = some (.success, font', s') →
    (∀ a ∈ psf1HeaderReads file, file.Holds size a) ∧
    ∀ ch, ∀ a ∈ glyphReads font' ch, file.Holds size a

/-- The bytes of a font whose glyphs have `characterSize` rows. -/
def fontBytes (characterSize : UInt8) : Nat := 4 + 256 * characterSize.toNat

section Accepted
variable {s : Machine} {font : Psf1Font} {file : LimineFile} {func : Nat → UInt8} {line : UInt64}

theorem magicCheck_iff (x : UInt16) : psf1MagicCheck x = true ↔ x = psf1FullMagic := by
  have hall : x &&& 0xFFFF = x := by
    apply UInt16.toNat_inj.mp
    rw [UInt16.toNat_and]
    exact (Nat.and_two_pow_sub_one_eq_mod x.toNat 16).trans (Nat.mod_eq_of_lt x.toNat_lt)
  rw [psf1MagicCheck, hall, decide_eq_true_iff]

/-- A font is accepted for its magic number, when there is memory for a buffer that is not
    used. -/
theorem psf1GetGlyphs_success {font' : Psf1Font} {s' : Machine} :
    psf1GetGlyphs s font file func line = some (.success, font', s') ↔
      (loadPsf1Header s.mem file.address).magic = psf1FullMagic ∧
      font' = ⟨loadPsf1Header s.mem file.address, file.address + sizeofPsf1Header⟩ ∧
      ∃ p, kmallocImpl s 256 func line = some (p, s') := by
  rw [psf1GetGlyphs]
  dsimp only
  by_cases hmagic : (loadPsf1Header s.mem file.address).magic = psf1FullMagic
  · rw [if_neg (not_not.mpr ((magicCheck_iff _).mpr hmagic)), psf1FontMode]
    have hok : sysOk ≠ sysErr := by decide
    cases hk : kmallocImpl s 256 func line with
    | none => simp
    | some r =>
      simp only [hok, if_false, hmagic, true_and, Option.some.injEq, Prod.mk.injEq]
      refine ⟨?_, ?_⟩
      · rintro ⟨rfl, rfl⟩
        exact ⟨rfl, r.1, rfl⟩
      · rintro ⟨rfl, p, rfl⟩
        exact ⟨rfl, rfl⟩
  · rw [if_pos (hmagic ∘ (magicCheck_iff _).mp)]
    simp [hmagic]

theorem kmallocImpl_none : kmallocImpl s 256 func line = none ↔
    pmGet s.kmem (numPages 256 + 1) 0 = none := by
  cases hget : pmGet s.kmem (numPages 256 + 1) 0 with
  | none => simp [kmallocImpl, hget]
  | some r =>
    obtain ⟨m, hm⟩ := @kmallocImpl_get s 256 line r.1 func r.2 hget
    simp [hm]

/-- The last byte of the last glyph is the last byte of the font. -/
theorem fontBytes_iff (file : LimineFile) (size : UInt64) (header : Psf1Header) :
    ((∀ a ∈ psf1HeaderReads file, file.Holds size a) ∧
      ∀ ch, ∀ a ∈ glyphReads ⟨header, file.address + sizeofPsf1Header⟩ ch, file.Holds size a) ↔
    fontBytes header.characterSize ≤ size.toNat := by
  have hsize := header.characterSize.toNat_lt
  have hglyph : ∀ (ch : UInt8) i, i < header.characterSize.toNat →
      (file.Holds size (glyphAddr ⟨header, file.address + sizeofPsf1Header⟩ ch i) ↔
        4 + (ch.toNat * header.characterSize.toNat + i) < size.toNat) := by
    intro ch i hi
    have hch := ch.toNat_lt
    have hle : ch.toNat * header.characterSize.toNat ≤ 255 * 255 :=
      Nat.mul_le_mul (by omega) (by omega)
    have hfour : sizeofPsf1Header.toNat = 4 := rfl
    have hi' : (UInt64.ofNat (ch.toNat * header.characterSize.toNat + i)).toNat =
        ch.toNat * header.characterSize.toNat + i := Words.toNat_ofNat_of_lt (by omega)
    have haddr : glyphAddr ⟨header, file.address + sizeofPsf1Header⟩ ch i = file.address +
        (sizeofPsf1Header + UInt64.ofNat (ch.toNat * header.characterSize.toNat + i)) := by
      rw [glyphAddr_eq, UInt64.add_assoc]
    rw [LimineFile.Holds, haddr, Words.add_sub_left, UInt64.lt_iff_toNat_lt,
      Words.toNat_add_of_lt (by omega), hi', hfour]
  have hheader : (∀ a ∈ psf1HeaderReads file, file.Holds size a) ↔ 4 ≤ size.toNat := by
    have h0 : file.address - file.address = 0 := UInt64.sub_self _
    simp only [psf1HeaderReads, List.forall_mem_cons, LimineFile.Holds, Words.add_sub_left, h0,
      UInt64.lt_iff_toNat_lt, List.not_mem_nil, false_imp_iff, implies_true, and_true,
      UInt64.reduceToNat]
    omega
  rw [hheader, fontBytes]
  simp only [glyphReads, List.forall_mem_map, List.mem_range]
  refine ⟨?_, ?_⟩
  · rintro ⟨hfour, hglyphs⟩
    rcases Nat.eq_zero_or_pos header.characterSize.toNat with hzero | hpos
    · omega
    · -- the last row of character 255 is the farthest byte
      have hlast := (hglyph 255 _ (Nat.sub_lt hpos Nat.one_pos)).mp
        (hglyphs 255 _ (Nat.sub_lt hpos Nat.one_pos))
      have hmax : (255 : UInt8).toNat = 255 := rfl
      rw [hmax] at hlast
      omega
  · intro hroom
    refine ⟨by omega, fun ch i hi => (hglyph ch i hi).mpr ?_⟩
    have hch := ch.toNat_lt
    have hrows : ch.toNat * header.characterSize.toNat + i < 256 * header.characterSize.toNat :=
      calc ch.toNat * header.characterSize.toNat + i
          < ch.toNat * header.characterSize.toNat + header.characterSize.toNat :=
            Nat.add_lt_add_left hi _
        _ = (ch.toNat + 1) * header.characterSize.toNat := (Nat.succ_mul _ _).symm
        _ ≤ 256 * header.characterSize.toNat := Nat.mul_le_mul_right _ hch
    omega

end Accepted

/-- A font is safe to draw with exactly when it is not accepted, or the file has all the
    bytes its header announces. -/
theorem psf1_safe_to_draw_iff (s : Machine) (font : Psf1Font) (file : LimineFile) (size : UInt64)
    (func : Nat → UInt8) (line : UInt64) :
    SafeToDraw s font file size func line ↔
      ((loadPsf1Header s.mem file.address).magic = psf1FullMagic →
        pmGet s.kmem (numPages 256 + 1) 0 ≠ none →
        fontBytes (loadPsf1Header s.mem file.address).characterSize ≤ size.toNat) := by
  rw [← fontBytes_iff file, ne_eq, ← @kmallocImpl_none s func line]
  refine ⟨?_, ?_⟩
  · intro h hmagic hmemory
    obtain ⟨⟨p, s'⟩, hk⟩ := Option.ne_none_iff_exists'.mp hmemory
    exact h _ s' (psf1GetGlyphs_success.mpr ⟨hmagic, rfl, p, hk⟩)
  · intro h font' s' hrun
    obtain ⟨hmagic, rfl, p, hk⟩ := psf1GetGlyphs_success.mp hrun
    refine h hmagic ?_
    rw [hk]
    exact Option.some_ne_none _

/-- A file of four bytes at 1 MiB, in a machine with pages 1 to 7 free: the header of a font
    with glyphs of 16 rows, and nothing behind it. -/
def bareHeader : Machine :=
  ⟨⟨0x8000, 0x8000, 0x7000, 0, fun j => if j = 0 then 0xFE else 0⟩, fun a =>
    if a = 0x100000 then 0x36 else if a = 0x100001 then 0x04 else if a = 0x100003 then 16 else 0⟩

theorem psf1_bare_header :
    ¬ ∀ s font file size func line, SafeToDraw s font file size func line := by
  intro h
  have hmemory : kmallocImpl bareHeader 256 (fun _ => 0) 1 ≠ none := by
    rw [ne_eq, kmallocImpl_none]
    decide +kernel
  obtain ⟨⟨p, s'⟩, hk⟩ := Option.ne_none_iff_exists'.mp hmemory
  have hmagic : (loadPsf1Header bareHeader.mem 0x100000).magic = psf1FullMagic := by decide
  obtain ⟨_, hglyphs⟩ := h bareHeader ⟨⟨0, 0, 0⟩, 0⟩ ⟨0x100000, ⟨[], List.not_mem_nil⟩⟩ 4
    (fun _ => 0) 1 ⟨⟨0x0436, 0, 16⟩, 0x100004⟩ s'
    (psf1GetGlyphs_success.mpr ⟨hmagic, by decide, p, hk⟩)
  have hfirst : glyphAddr ⟨⟨0x0436, 0, 16⟩, 0x100004⟩ 0 0 ∈
      glyphReads ⟨⟨0x0436, 0, 16⟩, 0x100004⟩ 0 := List.mem_map_of_mem (by decide)
  have hout := hglyphs 0 _ hfirst
  rw [LimineFile.Holds] at hout
  exact absurd hout (by decide)

end Horizon64
