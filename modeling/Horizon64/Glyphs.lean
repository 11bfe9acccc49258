import Mathlib.Data.Nat.Bitwise
import Mathlib.Tactic.IntervalCases
import Horizon64.Framebuffer

/- Drawing a character: `fb_putc` of `graphics/framebuffer.c`.

   The two loops of `fb_putc` are one loop over the pixels of the cell (`fbPutc_eq`), and
   each round stores one of them, so on a cell within the screen the loop paints the
   picture (`fbPutc_view`). Coordinates are 32-bit numbers: a cell that reaches column or
   row 2^32 goes on at 0, and the size of the framebuffer is a product of 64 bits. -/
namespace Horizon64
open Bytes

structure Psf1Header where
  magic : UInt16
  fontMode : UInt8
  characterSize : UInt8
  deriving DecidableEq, Repr

/-- The font: its header, and where the glyphs are. -/
structure Psf1Font where
  header : Psf1Header
  glyphBuffer : UInt64
  deriving DecidableEq, Repr

def masks : List UInt8 := [128, 64, 32, 16, 8, 4, 2, 1]

/-- `&glyph_buffer[offset + i]`. -/
def glyphAddr (font : Psf1Font) (ch : UInt8) (i : Nat) : UInt64 :=
  font.glyphBuffer + (ch.toUInt32 * font.header.characterSize.toUInt32).toUInt64 + UInt64.ofNat i

/-- `fb_putc`; the font is in the memory `file`. -/
def fbPutc (font : Psf1Font) (file : Memory) (fb : Framebuffer) (m : Memory)
    (x y fgcolor bgcolor : UInt32) (ch : UInt8) : Memory :=
  (List.range font.header.characterSize.toNat).foldl (fun m i =>
    (List.range 8).foldl (fun m k =>
      if i < font.header.characterSize.toNat ∧ file (glyphAddr font ch i) &&& masks.getD k 0 ≠ 0 then
        fbPutpixel fb m (x + UInt32.ofNat k) (y + UInt32.ofNat i) fgcolor
      else
        fbPutpixel fb m (x + UInt32.ofNat k) (y + UInt32.ofNat i) bgcolor) m) m

/-! The cell. -/

/-- The pixels of the cell at `(x, y)`, in the order of the loops. -/
def cellPixels (x y rows : Nat) : List (Nat × Nat) :=
  (List.range rows).flatMap fun i => (List.range 8).map fun k => (x + k, y + i)

def InCell (x y rows : Nat) (p : Nat × Nat) : Prop :=
  (x ≤ p.1 ∧ p.1 < x + 8) ∧ y ≤ p.2 ∧ p.2 < y + rows

instance (x y rows : Nat) : DecidablePred (InCell x y rows) :=
  fun p => inferInstanceAs (Decidable ((x ≤ p.1 ∧ p.1 < x + 8) ∧ y ≤ p.2 ∧ p.2 < y + rows))

theorem mem_cellPixels {x y rows : Nat} {p : Nat × Nat} :
    p ∈ cellPixels x y rows ↔ InCell x y rows p := by
  simp only [cellPixels, List.mem_flatMap, List.mem_map, List.mem_range, InCell]
  refine ⟨?_, ?_⟩
  · rintro ⟨i, hi, k, hk, rfl⟩
    dsimp only
    omega
  · intro h
    exact ⟨p.2 - y, by omega, p.1 - x, by omega,
      Prod.ext (by dsimp only; omega) (by dsimp only; omega)⟩

/-- Bit 7 is the leftmost pixel. -/
def glyphColor (file : Memory) (glyph : UInt64) (x y : Nat) (fgcolor bgcolor : UInt32)
    (p : Nat × Nat) : UInt32 :=
  if (file (glyph + UInt64.ofNat (p.2 - y))).toNat.testBit (7 - (p.1 - x)) then fgcolor else bgcolor

theorem mask_test (b : UInt8) {k : Nat} (hk : k < 8) :
    b &&& masks.getD k 0 ≠ 0 ↔ b.toNat.testBit (7 - k) = true := by
  have hmask : (masks.getD k 0).toNat = 2 ^ (7 - k) := by
    interval_cases k <;> rfl
  rw [ne_eq, ← UInt8.toNat_inj, UInt8.toNat_and, hmask, UInt8.toNat_zero, Nat.and_two_pow]
  cases b.toNat.testBit (7 - k) with
  | false => simp
  | true => simp

theorem ofNat_toNat_add (x : UInt32) (k : Nat) :
    UInt32.ofNat (x.toNat + k) = x + UInt32.ofNat k := by
  rw [UInt32.ofNat_add, UInt32.ofNat_toNat]

theorem glyphAddr_row (font : Psf1Font) (ch : UInt8) (i : Nat) :
    glyphAddr font ch i = glyphAddr font ch 0 + UInt64.ofNat i := by
  have hzero : UInt64.ofNat 0 = 0 := rfl
  rw [glyphAddr, glyphAddr, hzero, UInt64.add_zero]

/-- The two loops as one over the pixels. -/
theorem fbPutc_eq (font : Psf1Font) (file : Memory) (fb : Framebuffer) (m : Memory)
    (x y fgcolor bgcolor : UInt32) (ch : UInt8) :
    fbPutc font file fb m x y fgcolor bgcolor ch =
      (cellPixels x.toNat y.toNat font.header.characterSize.toNat).foldl (fun m p =>
        fbPutpixel fb m (UInt32.ofNat p.1) (UInt32.ofNat p.2)
          (glyphColor file (glyphAddr font ch 0) x.toNat y.toNat fgcolor bgcolor p)) m := by
  rw [fbPutc, cellPixels, List.foldl_flatMap]
  apply List.foldl_ext
  intro m i hi
  rw [List.foldl_map]
  apply List.foldl_ext
  intro m k hk
  -- the test on `i` repeats the condition of the loop
  simp only [ofNat_toNat_add, glyphColor, Nat.add_sub_cancel_left, ← glyphAddr_row,
    mask_test _ (List.mem_range.mp hk), List.mem_range.mp hi, true_and]
  split <;> rfl

/-! A cell within the screen. -/

section Inside
variable {font : Psf1Font} {file : Memory} {fb : Framebuffer} {x y fgcolor bgcolor : UInt32}
  {ch : UInt8} (hfb : fb.Linear) (hright : x.toNat + 8 ≤ fb.width.toNat)
  (hbottom : y.toNat + font.header.characterSize.toNat ≤ fb.height.toNat)
  (hx : x.toNat + 8 ≤ 2 ^ 32) (hy : y.toNat + font.header.characterSize.toNat ≤ 2 ^ 32)
include hfb hright hbottom hx hy

theorem putpixel_cell {p : Nat × Nat}
    (hp : p ∈ cellPixels x.toNat y.toNat font.header.characterSize.toNat) (m : Memory)
    (color : UInt32) :
    fb.Visible p ∧ fbPutpixel fb m (UInt32.ofNat p.1) (UInt32.ofNat p.2) color =
      store32 m (pixelAddr fb p) color := by
  obtain ⟨hcol, hrow⟩ := mem_cellPixels.mp hp
  have hvisible : fb.Visible p := ⟨by omega, by omega⟩
  exact ⟨hvisible, fbPutpixel_visible hfb m color hvisible (by omega) (by omega)⟩

theorem fbPutc_view (m : Memory) (p : Nat × Nat) :
    view fb (fbPutc font file fb m x y fgcolor bgcolor ch) p =
      if InCell x.toNat y.toNat font.header.characterSize.toNat p then
        glyphColor file (glyphAddr font ch 0) x.toNat y.toNat fgcolor bgcolor p
      else view fb m p := by
  have hround : ∀ (m : Memory),
      ∀ p ∈ cellPixels x.toNat y.toNat font.header.characterSize.toNat,
      view fb (fbPutpixel fb m (UInt32.ofNat p.1) (UInt32.ofNat p.2)
        (glyphColor file (glyphAddr font ch 0) x.toNat y.toNat fgcolor bgcolor p)) =
      if fb.Visible p then Function.update (view fb m) p
        (glyphColor file (glyphAddr font ch 0) x.toNat y.toNat fgcolor bgcolor p)
      else view fb m := by
    intro m p hp
    obtain ⟨hvisible, hput⟩ := putpixel_cell hfb hright hbottom hx hy hp m
      (glyphColor file (glyphAddr font ch 0) x.toNat y.toNat fgcolor bgcolor p)
    rw [hput, view_store hfb m _ hvisible, if_pos hvisible]
  rw [fbPutc_eq, Paint.view_foldl_apply hround (Paint.inOrder_const _ _)]
  have hmem : (p ∈ cellPixels x.toNat y.toNat font.header.characterSize.toNat ∧ fb.Visible p) ↔
      InCell x.toNat y.toNat font.header.characterSize.toNat p := by
    rw [← mem_cellPixels]
    exact and_iff_left_of_imp fun hp => (putpixel_cell hfb hright hbottom hx hy hp m 0).1
  simp only [hmem]

theorem fbPutc_off (m : Memory) {a : UInt64}
    (ha : ∀ p, InCell x.toNat y.toNat font.header.characterSize.toNat p →
      4 ≤ a - pixelAddr fb p) :
    fbPutc font file fb m x y fgcolor bgcolor ch a = m a := by
  rw [fbPutc_eq]
  apply List.foldlRecOn (motive := fun m' : Memory => m' a = m a)
  · rfl
  · intro m' h p hp
    rw [(putpixel_cell hfb hright hbottom hx hy hp m' _).2, store32_off, h]
    exact UInt64.not_lt.mpr (ha p (mem_cellPixels.mp hp))

end Inside

/-- The bytes of the font that drawing a character reads. -/
def glyphReads (font : Psf1Font) (ch : UInt8) : List UInt64 :=
  (List.range font.header.characterSize.toNat).map (glyphAddr font ch)

theorem fbPutc_congr {font : Psf1Font} {file file' : Memory} {ch : UInt8}
    (h : ∀ a ∈ glyphReads font ch, file' a = file a) (fb : Framebuffer) (m : Memory)
    (x y fgcolor bgcolor : UInt32) :
    fbPutc font file' fb m x y fgcolor bgcolor ch =
      fbPutc font file fb m x y fgcolor bgcolor ch := by
  rw [fbPutc, fbPutc]
  apply List.foldl_ext
  intro m i hi
  rw [h (glyphAddr font ch i) (List.mem_map_of_mem hi)]

/-- The pixels of the cell have the colours the glyph says, every other pixel of the screen
    and every byte of memory outside of the cell is as before. -/
structure GlyphDrawn (font : Psf1Font) (file : Memory) (fb : Framebuffer) (m m' : Memory)
    (x y : Nat) (fgcolor bgcolor : UInt32) (ch : UInt8) : Prop where
  cell : ∀ k < 8, ∀ i < font.header.characterSize.toNat,
    load32 m' (pixelAddr fb (x + k, y + i)) =
      if (file (font.glyphBuffer +
          UInt64.ofNat (ch.toNat * font.header.characterSize.toNat + i))).toNat.testBit (7 - k)
      then fgcolor else bgcolor
  others : ∀ p, fb.Visible p → ¬ InCell x y font.header.characterSize.toNat p →
    load32 m' (pixelAddr fb p) = load32 m (pixelAddr fb p)
  frame : ∀ a, (∀ p, InCell x y font.header.characterSize.toNat p → 4 ≤ a - pixelAddr fb p) →
    m' a = m a

theorem glyphAddr_eq (font : Psf1Font) (ch : UInt8) (i : Nat) :
    glyphAddr font ch i =
      font.glyphBuffer + UInt64.ofNat (ch.toNat * font.header.characterSize.toNat + i) := by
  have hch := ch.toNat_lt
  have hsize := font.header.characterSize.toNat_lt
  have hle : ch.toNat * font.header.characterSize.toNat ≤ 255 * 255 :=
    Nat.mul_le_mul (by omega) (by omega)
  have hproduct : (ch.toUInt32 * font.header.characterSize.toUInt32).toUInt64 =
      UInt64.ofNat (ch.toNat * font.header.characterSize.toNat) := by
    apply UInt64.toNat_inj.mp
    rw [UInt32.toNat_toUInt64, UInt32.toNat_mul, UInt8.toNat_toUInt32, UInt8.toNat_toUInt32,
      Words.toNat_ofNat_of_lt (by omega), Nat.mod_eq_of_lt (by omega)]
  rw [glyphAddr, hproduct, Words.ofNat_add, UInt64.add_assoc]

/-- Drawing a glyph is exact in every cell on the screen whose coordinates, the last ones
    included, are 32-bit numbers, on a framebuffer whose size is a 64-bit number. -/
theorem fb_putc_exact (font : Psf1Font) (file : Memory) (fb : Framebuffer) (m : Memory)
    (x y fgcolor bgcolor : UInt32) (ch : UInt8)
    (hright : x.toNat + 8 ≤ fb.width.toNat) (hrow : 4 * fb.width.toNat ≤ fb.pitch.toNat)
    (hbottom : y.toNat + font.header.characterSize.toNat ≤ fb.height.toNat)
    (hx : x.toNat + 8 ≤ 2 ^ 32) (hy : y.toNat + font.header.characterSize.toNat ≤ 2 ^ 32)
    (hsize : fb.pitch.toNat * fb.height.toNat < 2 ^ 64) :
    GlyphDrawn font file fb m (fbPutc font file fb m x y fgcolor bgcolor ch) x.toNat y.toNat
      fgcolor bgcolor ch := by
  have hfb : fb.Linear := ⟨hrow, hsize⟩
  have hview := @fbPutc_view font file fb x y fgcolor bgcolor ch hfb hright hbottom hx hy m
  refine ⟨fun k hk i hi => ?_, fun p hp hout => ?_, fun a ha => ?_⟩
  · have hin : InCell x.toNat y.toNat font.header.characterSize.toNat (x.toNat + k, y.toNat + i) :=
      ⟨⟨Nat.le_add_right _ _, by omega⟩, Nat.le_add_right _ _, by omega⟩
    have hp := hview (x.toNat + k, y.toNat + i)
    rw [view, if_pos ⟨by omega, by omega⟩, if_pos hin] at hp
    rw [hp, glyphColor, Nat.add_sub_cancel_left, Nat.add_sub_cancel_left, ← glyphAddr_row,
      glyphAddr_eq]
  · have hp' := hview p
    rw [view, if_pos hp, if_neg hout, view, if_pos hp] at hp'
    exact hp'
  · exact fbPutc_off hfb hright hbottom hx hy m ha

/-- Glyphs of one row each, in the bytes from 0 on. -/
def thinFont : Psf1Font := ⟨⟨0x0436, 0, 1⟩, 0⟩

theorem fb_putc_corner : GlyphDrawn thinFont (fun _ => 0x81) smallScreen (fun _ => 0)
    (fbPutc thinFont (fun _ => 0x81) smallScreen (fun _ => 0) 632 399 1 2 65) 632 399 1 2 65 :=
  fb_putc_exact thinFont (fun _ => 0x81) smallScreen (fun _ => 0) 632 399 1 2 65
    (by decide) (by decide) (by decide) (by decide) (by decide) (by decide)

/-- The cell is on the screen. -/
def CellOnScreen (font : Psf1Font) (fb : Framebuffer) (x y : UInt32) : Prop :=
  4 ∣ fb.pitch.toNat ∧ x.toNat + 8 ≤ fb.width.toNat ∧ 4 * fb.width.toNat ≤ fb.pitch.toNat ∧
    y.toNat + font.header.characterSize.toNat ≤ fb.height.toNat

/-- Drawing the cell on a black screen leaves a pixel of it black, though both colours are 1. -/
def MissesPixel (font : Psf1Font) (fb : Framebuffer) (x y : UInt32) (k i : Nat) : Prop :=
  CellOnScreen font fb x y ∧ k < 8 ∧ i < font.header.characterSize.toNat ∧
    load32 (fbPutc font (fun _ => 0) fb (fun _ => 0) x y 1 1 65)
      (pixelAddr fb (x.toNat + k, y.toNat + i)) = 0

/-- A column that wraps, a row that wraps, and a size that wraps. -/
theorem fb_putc_wraps :
    MissesPixel thinFont ⟨0, 0, 0, 1, 0x100000008, 0x400000020, 32⟩ 0xFFFFFFFC 0 4 0 ∧
    MissesPixel ⟨⟨0x0436, 0, 2⟩, 0⟩ ⟨0, 0, 0, 0x100000001, 8, 32, 32⟩ 0 0xFFFFFFFF 0 1 ∧
    MissesPixel thinFont ⟨0, 0, 0, 4, 8, 0x4000000000000000, 32⟩ 0 0 0 0 ∧
    ¬ ∀ font file fb m x y fgcolor bgcolor ch, CellOnScreen font fb x y →
      GlyphDrawn font file fb m (fbPutc font file fb m x y fgcolor bgcolor ch) x.toNat y.toNat
        fgcolor bgcolor ch := by
  have hsize : MissesPixel thinFont ⟨0, 0, 0, 4, 8, 0x4000000000000000, 32⟩ 0 0 0 0 := by
    refine ⟨?_, by decide, by decide, by decide +kernel⟩
    exact ⟨⟨0x1000000000000000, rfl⟩, by decide, by decide, by decide⟩
  refine ⟨⟨?_, by decide, by decide, by decide +kernel⟩,
    ⟨?_, by decide, by decide, by decide +kernel⟩, hsize, ?_⟩
  · exact ⟨⟨0x100000008, rfl⟩, by decide, by decide, by decide⟩
  · exact ⟨⟨8, rfl⟩, by decide, by decide, by decide⟩
  · intro h
    obtain ⟨hcell, hk, hi, hblack⟩ := hsize
    have hdrawn := (h _ (fun _ => 0) _ (fun _ => 0) _ _ 1 1 65 hcell).cell 0 hk 0 hi
    rw [ite_self] at hdrawn
    rw [hdrawn] at hblack
    cases hblack

end Horizon64
