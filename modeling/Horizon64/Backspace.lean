import Mathlib.Tactic.Ring
import Horizon64.Glyphs
import Horizon64.Scroll

/- A character and the backspace after it, on the screen.

   The calls that `terminal_putc` makes are run on memory (`FbCall.run`), where cells are
   multiplied into pixels as C `int`s. A backspace moves the cursor back by one column and
   draws a space there, but column 1 is as far back as it goes: after the last column of a
   row, the cursor is in column 1 of the next row and stays there. -/
namespace Horizon64
open Bytes

/-- A column or row times the pixels it has; `none` when the `int` overflows. -/
def cellPixel (v : Int32) (size : Nat) : Option UInt32 :=
  let n := v.toInt * size
  if -2 ^ 31 ≤ n ∧ n < 2 ^ 31 then some (UInt32.ofInt n) else none

/-- What a call of the terminal does to the framebuffer. -/
def FbCall.run (font : Psf1Font) (file : Memory) (t : Terminal) (m : Memory) :
    FbCall → Option Memory
  | .putc cell fgcolor bgcolor ch =>
    match cellPixel cell.x psf1FontWidth.toNat, cellPixel cell.y font.header.characterSize.toNat with
    | some x, some y => some (fbPutc font file t.framebuffer m x y fgcolor bgcolor ch)
    | _, _ => none
  | .scroll y =>
    -- the cursor that was scrolled with, which has moved since
    terminalScrollPixels { t with cursorPos := ⟨t.cursorPos.x, y⟩ } font.header.characterSize m

/-- `terminal_putc` on the screen. -/
def terminalPutcPixels (font : Psf1Font) (file : Memory) (t : Terminal) (m : Memory) (c : UInt8) :
    Option (Terminal × Memory) :=
  let (t', calls) := terminalPutc (some font.header.characterSize) t c
  (calls.foldlM (FbCall.run font file t') m).map fun m' => (t', m')

/-- A terminal whose cells are on its framebuffer. -/
structure TextScreen extends Console where
  font : Psf1Font
  columns : term.width.toNat * 8 ≤ term.framebuffer.width.toNat
  rows : term.height.toNat * font.header.characterSize.toNat ≤ term.framebuffer.height.toNat

/-- `init_terminal` sets up such a terminal. -/
def TextScreen.init (font : Psf1Font) (fb : Framebuffer) (hfb : fb.Addressable) (term : Terminal) :
    TextScreen where
  term := initTerminal (some font.header.characterSize) fb term
  addressable := hfb
  font := font
  columns := by
    have hcut : (fb.width / psf1FontWidth).toUInt32.toNat ≤ fb.width.toNat / 8 := by
      rw [UInt64.toNat_toUInt32, UInt64.toNat_div]
      exact Nat.mod_le _ _
    calc (fb.width / psf1FontWidth).toUInt32.toNat * 8 ≤ fb.width.toNat / 8 * 8 :=
          Nat.mul_le_mul_right 8 hcut
      _ ≤ fb.width.toNat := Nat.div_mul_le_self _ _
  rows := by
    have hcut : (fb.height / font.header.characterSize.toUInt64).toUInt32.toNat ≤
        fb.height.toNat / font.header.characterSize.toNat := by
      rw [UInt64.toNat_toUInt32, UInt64.toNat_div, UInt8.toNat_toUInt64]
      exact Nat.mod_le _ _
    calc (fb.height / font.header.characterSize.toUInt64).toUInt32.toNat *
            font.header.characterSize.toNat
        ≤ fb.height.toNat / font.header.characterSize.toNat * font.header.characterSize.toNat :=
          Nat.mul_le_mul_right _ hcut
      _ ≤ fb.height.toNat := Nat.div_mul_le_self _ _

/-- The cursor is on a cell of the screen. -/
structure OnCell (t : Terminal) : Prop where
  left : 1 ≤ t.cursorPos.x.toInt
  right : t.cursorPos.x.toInt < t.width.toNat
  top : 0 ≤ t.cursorPos.y.toInt
  bottom : t.cursorPos.y.toInt < t.height.toNat

/-- The character and the backspace leave the cursor where it was, and the cell blank. -/
def BackspaceUndoes (s : TextScreen) (file m : Memory) (c : UInt8) : Prop :=
  ∃ t₁ m₁ t₂ m₂, terminalPutcPixels s.font file s.term m c = some (t₁, m₁) ∧
    terminalPutcPixels s.font file t₁ m₁ 8 = some (t₂, m₂) ∧
    t₂.cursorPos = s.term.cursorPos ∧
    ∀ p, InCell (s.term.cursorPos.x.toInt.toNat * 8)
        (s.term.cursorPos.y.toInt.toNat * s.font.header.characterSize.toNat)
        s.font.header.characterSize.toNat p →
      view s.term.framebuffer m₂ p = s.term.backgroundColor

/-! The calls. -/

theorem cellPixel_ofNat {n size : Nat} (hn : n < 2 ^ 31) : cellPixel (Int32.ofNat n) size =
    if n * size < 2 ^ 31 then some (UInt32.ofNat (n * size)) else none := by
  have hint : (Int32.ofNat n).toInt * (size : Int) = (n * size : Nat) := by
    rw [Int32.toInt_ofNat_of_lt hn, Int.natCast_mul]
  have hword : UInt32.ofInt (n * size : Nat) = UInt32.ofNat (n * size) := by
    apply UInt32.toNat_inj.mp
    rw [UInt32.ofInt, UInt32.toNat_ofNat', UInt32.toNat_ofNat']
    omega
  rw [cellPixel, hint, hword]
  by_cases hlt : n * size < 2 ^ 31
  · rw [if_pos hlt, if_pos ⟨by omega, by omega⟩]
  · rw [if_neg hlt, if_neg fun h => hlt (by omega)]

theorem push_fields (t : Terminal) :
    (terminalPushCursor t).1 = { t with cursorPos := (terminalPushCursor t).1.cursorPos } := by
  rw [terminalPushCursor]
  split
  · rfl
  · split <;> rfl

theorem push_quiet {width height : UInt32} {t : Terminal} {p : Place}
    (h : Follows width height t p) (hon : p.OnScreen height) : (terminalPushCursor t).2 = [] := by
  have hrow : ¬ t.cursorPos.y.toUInt32 ≥ t.height := by
    rw [h.cursor, h.height_eq]
    exact onScreen_row hon
  rw [terminalPushCursor]
  split
  · rfl
  · rw [if_neg fun hscroll => hrow hscroll.1]

/-- The call of `terminal_push_cursor` scrolls with the cursor where it was. -/
theorem run_scroll (font : Psf1Font) (file : Memory) (t : Terminal) (m : Memory) :
    (terminalScroll t).foldlM
        (FbCall.run font file { t with cursorPos := ⟨t.cursorPos.x, t.cursorPos.y - 1⟩ }) m =
      terminalScrollPixels t font.header.characterSize m := by
  rw [terminalScroll, List.foldlM_cons, FbCall.run]
  exact bind_pure _

section Calls
variable {s : TextScreen} {file m : Memory} {p : Place}

theorem run_putc {t : Terminal} (hcol : p.col * 8 < 2 ^ 31) (hline : p.line < 2 ^ 31)
    (font : Psf1Font) (fgcolor bgcolor : UInt32) (ch : UInt8) :
    (FbCall.putc p.cell fgcolor bgcolor ch).run font file t m =
      if p.line * font.header.characterSize.toNat < 2 ^ 31 then
        some (fbPutc font file t.framebuffer m (UInt32.ofNat (p.col * 8))
          (UInt32.ofNat (p.line * font.header.characterSize.toNat)) fgcolor bgcolor ch)
      else none := by
  have hwidth : psf1FontWidth.toNat = 8 := rfl
  have hcol' : p.col < 2 ^ 31 := by omega
  rw [FbCall.run, Place.cell, hwidth]
  dsimp only
  rw [cellPixel_ofNat hcol', cellPixel_ofNat hline, if_pos hcol]
  by_cases hrow : p.line * font.header.characterSize.toNat < 2 ^ 31
  · rw [if_pos hrow, if_pos hrow]
  · rw [if_neg hrow, if_neg hrow]

theorem cell_view (hcol : p.col < s.term.width.toNat) (hline : p.line < s.term.height.toNat)
    (fgcolor bgcolor : UInt32) (ch : UInt8) {q : Nat × Nat}
    (hq : InCell (p.col * 8) (p.line * s.font.header.characterSize.toNat)
      s.font.header.characterSize.toNat q) :
    view s.term.framebuffer (fbPutc s.font file s.term.framebuffer m (UInt32.ofNat (p.col * 8))
      (UInt32.ofNat (p.line * s.font.header.characterSize.toNat)) fgcolor bgcolor ch) q =
      glyphColor file (glyphAddr s.font ch 0) (p.col * 8)
        (p.line * s.font.header.characterSize.toNat) fgcolor bgcolor q := by
  have hfb := s.addressable
  have hrow := hfb.row
  have hpitch := hfb.pitch_lt
  have hheight := hfb.height_le
  have hcolumns := s.columns
  have hrows := s.rows
  have hright : (p.col + 1) * 8 ≤ s.term.width.toNat * 8 := Nat.mul_le_mul_right 8 hcol
  have hbottom : (p.line + 1) * s.font.header.characterSize.toNat ≤
      s.term.height.toNat * s.font.header.characterSize.toNat := Nat.mul_le_mul_right _ hline
  have hexp : (p.line + 1) * s.font.header.characterSize.toNat =
      p.line * s.font.header.characterSize.toNat + s.font.header.characterSize.toNat := by ring
  obtain ⟨x, hx⟩ : ∃ x, x = p.col * 8 := ⟨_, rfl⟩
  obtain ⟨y, hy⟩ : ∃ y, y = p.line * s.font.header.characterSize.toNat := ⟨_, rfl⟩
  rw [← hx, ← hy] at hq ⊢
  have hsize := s.font.header.characterSize.toNat_lt
  obtain ⟨⟨hleft, hright'⟩, htop, hbottom'⟩ := id hq
  have hylt : y < 2 ^ 32 := by omega
  have hxlt : x < 2 ^ 32 := by omega
  have hx32 : (UInt32.ofNat x).toNat = x := UInt32.toNat_ofNat_of_lt' hxlt
  have hy32 : (UInt32.ofNat y).toNat = y := UInt32.toNat_ofNat_of_lt' hylt
  rw [fbPutc_view hfb.linear (by omega) (by omega) (by omega) (by omega), hx32, hy32, if_pos hq]

end Calls

/-- A cell of a drawn character is blank when no bit of the glyph is set, or the colours are
    one. -/
theorem blank_iff (font : Psf1Font) (file : Memory) (x y : Nat) (fgcolor bgcolor : UInt32)
    (ch : UInt8) :
    (∀ q, InCell x y font.header.characterSize.toNat q →
      glyphColor file (glyphAddr font ch 0) x y fgcolor bgcolor q = bgcolor) ↔
    (∀ a ∈ glyphReads font ch, file a = 0) ∨ fgcolor = bgcolor := by
  refine ⟨?_, ?_⟩
  · intro h
    by_cases hcolors : fgcolor = bgcolor
    · exact Or.inr hcolors
    · refine Or.inl fun a ha => ?_
      obtain ⟨i, hi, rfl⟩ := List.mem_map.mp ha
      rw [List.mem_range] at hi
      -- bit `k` of row `i` is the pixel in column `7 - k`, which is not the foreground
      apply UInt8.toNat_inj.mp
      apply Nat.eq_of_testBit_eq
      intro k
      rw [UInt8.toNat_zero, Nat.zero_testBit]
      by_cases hk : k < 8
      · have hpixel := h (x + (7 - k), y + i)
          ⟨⟨Nat.le_add_right _ _, by dsimp only; omega⟩, Nat.le_add_right _ _,
            by dsimp only; omega⟩
        have hback : 7 - (7 - k) = k := by omega
        rw [glyphColor, Nat.add_sub_cancel_left, Nat.add_sub_cancel_left, hback, ← glyphAddr_row]
          at hpixel
        by_contra hbit
        rw [if_pos (by simpa using hbit)] at hpixel
        exact hcolors hpixel
      · exact Nat.testBit_lt_two_pow (Nat.lt_of_lt_of_le (file _).toNat_lt
          (Nat.pow_le_pow_right (by decide) (Nat.not_lt.mp hk)))
  · rintro (hbytes | hcolors) q hq
    · have hbyte := hbytes _ (List.mem_map_of_mem (List.mem_range.mpr
        (show q.2 - y < font.header.characterSize.toNat by
          have hrow := hq.2
          omega)))
      rw [glyphColor, ← glyphAddr_row, hbyte, UInt8.toNat_zero, Nat.zero_testBit, if_neg (by decide)]
    · rw [glyphColor, hcolors, ite_self]

theorem putcPixels_glyph {font : Psf1Font} {file m : Memory} {t t' : Terminal} {p : Place}
    {fgcolor bgcolor : UInt32} {c ch : UInt8}
    (hput : terminalPutc (some font.header.characterSize) t c =
      (t', [.putc p.cell fgcolor bgcolor ch]))
    (hcol : p.col * 8 < 2 ^ 31) (hline : p.line < 2 ^ 31) :
    terminalPutcPixels font file t m c =
      if p.line * font.header.characterSize.toNat < 2 ^ 31 then
        some (t', fbPutc font file t'.framebuffer m (UInt32.ofNat (p.col * 8))
          (UInt32.ofNat (p.line * font.header.characterSize.toNat)) fgcolor bgcolor ch)
      else none := by
  rw [terminalPutcPixels, hput]
  dsimp only
  rw [List.foldlM_cons, run_putc hcol hline]
  by_cases hrow : p.line * font.header.characterSize.toNat < 2 ^ 31
  · rw [if_pos hrow, if_pos hrow]
    rfl
  · rw [if_neg hrow, if_neg hrow]
    rfl

theorem putc_glyph {width height : UInt32} {t : Terminal} {p : Place}
    (h : Follows width height t p) (hon : p.OnScreen height) (size : UInt8) {c : UInt8}
    (hnl : c ≠ 10) (hbs : c ≠ 8) :
    terminalPutc (some size) t c =
      ((terminalPushCursor t).1, [.putc p.cell t.foregroundColor t.backgroundColor c]) := by
  simp [terminalPutc, hnl, hbs, push_quiet h hon, Terminal.glyph, h.cursor]

/-- A backspace, whose space is drawn in the cell of `p`. -/
theorem back_glyph {t : Terminal} {p : Place} (hp : (terminalPopCursor t).cursorPos = p.cell)
    (size : UInt8) :
    terminalPutc (some size) t 8 =
      (terminalPopCursor t, [.putc p.cell t.foregroundColor t.backgroundColor 32]) := by
  have hglyph : (terminalPopCursor t).glyph 32 =
      .putc p.cell t.foregroundColor t.backgroundColor 32 := by
    rw [Terminal.glyph, hp]
    rfl
  simp [terminalPutc, hglyph]

section Follows
variable {width height : UInt32} {t : Terminal} {p : Place} (h : Follows width height t p)
  (hon : p.OnScreen height)
include h hon

/-- A backspace moves the cursor back to where it was before the character, unless that was in
    the last column. -/
theorem push_pop_iff : (terminalPopCursor (terminalPushCursor t).1).cursorPos = t.cursorPos ↔
    p.col + 1 < width.toNat := by
  have hleft := h.left
  have hpush := follows_push h hon
  rw [h.cursor]
  by_cases hlast : p.col + 1 ≥ width.toNat
  · -- the cursor is in the next row now, and a backspace keeps the row
    rw [if_pos hlast] at hpush
    rw [(follows_pop hpush).cursor]
    refine ⟨fun hcursor => ?_, fun hinner => absurd hlast (Nat.not_le.mpr hinner)⟩
    have hline : Int32.ofNat (p.line + 1) = Int32.ofNat p.line := congrArg Ivec2.y hcursor
    rw [Int32.ofNat_add] at hline
    have hone := Int32.add_eq_left.mp hline
    exact absurd hone (by decide)
  · rw [if_neg hlast] at hpush
    rw [(follows_pop hpush).cursor]
    dsimp only
    rw [if_neg (by omega), Nat.add_sub_cancel]
    exact iff_of_true rfl (Nat.not_le.mp hlast)

variable (hcol : p.col * 8 < 2 ^ 31) (hline : p.line < 2 ^ 31) (font : Psf1Font) (file m : Memory)
include hcol hline

theorem putcPixels_char {c : UInt8} (hnl : c ≠ 10) (hbs : c ≠ 8) :
    terminalPutcPixels font file t m c =
      if p.line * font.header.characterSize.toNat < 2 ^ 31 then
        some ((terminalPushCursor t).1, fbPutc font file t.framebuffer m (UInt32.ofNat (p.col * 8))
          (UInt32.ofNat (p.line * font.header.characterSize.toNat)) t.foregroundColor
          t.backgroundColor c)
      else none := by
  rw [putcPixels_glyph (putc_glyph h hon _ hnl hbs) hcol hline, push_fields]

theorem putcPixels_back (hinner : p.col + 1 < width.toNat) :
    terminalPutcPixels font file (terminalPushCursor t).1 m 8 =
      if p.line * font.header.characterSize.toNat < 2 ^ 31 then
        some (terminalPopCursor (terminalPushCursor t).1,
          fbPutc font file t.framebuffer m (UInt32.ofNat (p.col * 8))
            (UInt32.ofNat (p.line * font.header.characterSize.toNat)) t.foregroundColor
            t.backgroundColor 32)
      else none := by
  have hcursor : (terminalPopCursor (terminalPushCursor t).1).cursorPos = p.cell := by
    rw [(push_pop_iff h hon).mpr hinner, h.cursor]
  have hframe : (terminalPushCursor t).1.framebuffer = t.framebuffer := by rw [push_fields]
  have hpopframe : (terminalPopCursor (terminalPushCursor t).1).framebuffer = t.framebuffer := hframe
  have hfg : (terminalPushCursor t).1.foregroundColor = t.foregroundColor := by rw [push_fields]
  have hbg : (terminalPushCursor t).1.backgroundColor = t.backgroundColor := by rw [push_fields]
  rw [putcPixels_glyph (back_glyph hcursor _) hcol hline, hpopframe, hfg, hbg]

end Follows

theorem putcPixels_terminal {font : Psf1Font} {file m m' : Memory} {t t' : Terminal} {c : UInt8}
    (h : terminalPutcPixels font file t m c = some (t', m')) :
    t' = (terminalPutc (some font.header.characterSize) t c).1 := by
  obtain ⟨_, _, heq⟩ := Option.map_eq_some_iff.mp h
  exact (congrArg Prod.fst heq).symm

theorem OnCell.follows {s : TextScreen} (h : OnCell s.term) :
    ∃ p : Place, s.term.cursorPos.x.toInt = p.col ∧ s.term.cursorPos.y.toInt = p.line ∧
      Follows s.term.width s.term.height s.term p ∧ p.OnScreen s.term.height ∧
      p.col * 8 < 2 ^ 31 ∧ p.line < 2 ^ 31 := by
  obtain ⟨hleft, hright, htop, hbottom⟩ := h
  have hcell : ∀ v : Int32, 0 ≤ v.toInt → Int32.ofNat v.toInt.toNat = v := by
    intro v hv
    have hlt := v.toInt_lt
    apply Int32.toInt_inj.mp
    rw [Int32.toInt_ofNat_of_lt (by omega)]
    omega
  have hcursor : s.term.cursorPos =
      (⟨s.term.cursorPos.x.toInt.toNat, s.term.cursorPos.y.toInt.toNat⟩ : Place).cell := by
    rw [Place.cell, hcell _ (by omega), hcell _ htop]
  have hrow := s.addressable.row
  have hpitch := s.addressable.pitch_lt
  have hcolumns := s.columns
  have hy := s.term.cursorPos.y.toInt_lt
  have hx := s.term.cursorPos.x.toInt_lt
  refine ⟨_, by dsimp only; omega, by dsimp only; omega,
    ⟨rfl, rfl, by omega, hcursor, by dsimp only; omega, by dsimp only; omega, by dsimp only; omega⟩,
    ?_, by dsimp only; omega, by dsimp only; omega⟩
  rw [Place.OnScreen, ← hcursor]
  exact ⟨hleft, htop, hbottom⟩

/-- After a character that is drawn, a backspace undoes it exactly when the cursor was not in
    the last column, its pixel row is an `int`, and the space of the font is blank or cannot
    be seen. -/
theorem backspace_undoes_iff (s : TextScreen) (file m : Memory) (c : UInt8)
    (hcell : OnCell s.term) (hlow : 32 ≤ c) :
    BackspaceUndoes s file m c ↔
      s.term.cursorPos.x.toInt + 1 < s.term.width.toNat ∧
      s.term.cursorPos.y.toInt * s.font.header.characterSize.toNat < 2 ^ 31 ∧
      ((∀ a ∈ glyphReads s.font 32, file a = 0) ∨
        s.term.foregroundColor = s.term.backgroundColor) := by
  have hnl : c ≠ 10 := by
    rintro rfl
    exact absurd hlow (by decide)
  have hbs : c ≠ 8 := by
    rintro rfl
    exact absurd hlow (by decide)
  obtain ⟨p, hx, hy, hfollows, hon, hcol, hline⟩ := hcell.follows
  have hplace : p.line < s.term.height.toNat := by
    have hbottom := hcell.bottom
    omega
  have hmul : s.term.cursorPos.y.toInt * (s.font.header.characterSize.toNat : Int) =
      (p.line * s.font.header.characterSize.toNat : Nat) := by
    rw [hy, Int.natCast_mul]
  rw [BackspaceUndoes, hmul, hx, hy, ← blank_iff s.font file (p.col * 8)
    (p.line * s.font.header.characterSize.toNat), Int.toNat_natCast, Int.toNat_natCast]
  refine ⟨?_, ?_⟩
  · rintro ⟨t₁, m₁, t₂, m₂, hfirst, hsecond, hcursor, hblank⟩
    rw [putcPixels_char hfollows hon hcol hline _ _ _ hnl hbs] at hfirst
    split at hfirst
    · next hrow =>
      cases hfirst
      have ht₂ : t₂ = terminalPopCursor (terminalPushCursor s.term).1 := by
        rw [putcPixels_terminal hsecond]
        simp [terminalPutc]
      rw [ht₂, push_pop_iff hfollows hon] at hcursor
      refine ⟨by omega, by omega, fun q hq => ?_⟩
      rw [putcPixels_back hfollows hon hcol hline _ _ _ hcursor, if_pos hrow] at hsecond
      cases hsecond
      have hview := hblank q hq
      rw [cell_view hfollows.right hplace _ _ _ hq] at hview
      exact hview
    · cases hfirst
  · rintro ⟨hinner, hrow, hblank⟩
    have hinner' : p.col + 1 < s.term.width.toNat := by omega
    have hrow' : p.line * s.font.header.characterSize.toNat < 2 ^ 31 := by omega
    have hfirst := putcPixels_char hfollows hon hcol hline s.font file m hnl hbs
    have hsecond := putcPixels_back hfollows hon hcol hline s.font file
      (fbPutc s.font file s.term.framebuffer m (UInt32.ofNat (p.col * 8))
        (UInt32.ofNat (p.line * s.font.header.characterSize.toNat)) s.term.foregroundColor
        s.term.backgroundColor c) hinner'
    rw [if_pos hrow'] at hfirst hsecond
    refine ⟨_, _, _, _, hfirst, hsecond, (push_pop_iff hfollows hon).mpr hinner', fun q hq => ?_⟩
    rw [cell_view hfollows.right hplace _ _ _ hq]
    exact hblank q hq

/-- The small screen with a blank font, and the cursor in column `x` of row 1. -/
def smallText (x : Int32) : TextScreen where
  term := { smallTerminal with cursorPos := ⟨x, 1⟩ }
  addressable := smallScreen_addressable
  font := ⟨⟨0x0436, 0, 16⟩, 0⟩
  columns := (by decide : smallTerminal.width.toNat * 8 ≤ smallScreen.width.toNat)
  rows := (by decide : smallTerminal.height.toNat * 16 ≤ smallScreen.height.toNat)

theorem backspace_undoes_inner : BackspaceUndoes (smallText 78) (fun _ => 0) (fun _ => 0) 65 :=
  (backspace_undoes_iff (smallText 78) (fun _ => 0) (fun _ => 0) 65
    ⟨by decide, by decide, by decide, by decide⟩ (by decide)).mpr
    ⟨by decide, by decide, Or.inl fun _ _ => rfl⟩

/-- In the last of 80 columns the cursor goes to column 1 of the next row, and stays there. -/
theorem backspace_last_column : ¬ ∀ (s : TextScreen) (file m : Memory) (c : UInt8),
    OnCell s.term → 32 ≤ c → c ≤ 126 → BackspaceUndoes s file m c := by
  intro h
  obtain ⟨t₁, m₁, t₂, m₂, hfirst, hsecond, hcursor, _⟩ :=
    h (smallText 79) (fun _ => 0) (fun _ => 0) 65 ⟨by decide, by decide, by decide, by decide⟩
      (by decide) (by decide)
  have hmoved : (terminalPutc (some 16)
      (terminalPutc (some 16) (smallText 79).term 65).1 8).1.cursorPos = ⟨1, 2⟩ := by decide
  have ht₁ : t₁ = (terminalPutc (some 16) (smallText 79).term 65).1 := putcPixels_terminal hfirst
  have ht₂ : t₂ = (terminalPutc (some 16) t₁ 8).1 := putcPixels_terminal hsecond
  rw [ht₂, ht₁, hmoved] at hcursor
  exact absurd hcursor (by decide)

end Horizon64
