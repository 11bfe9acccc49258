import Horizon64.Backspace

/- The text terminal as a grid of character cells.

   Above the pixels the terminal of `dev/terminal.c` is a grid of cells with a cursor: a
   character fills a cell, and scrolling moves whole rows. `TextGrid` is that grid, and
   `terminal_refines_grid` says that the pixels always show it, whatever is called on the
   terminal and in whatever order.

   1. What one call of the framebuffer does to the picture, cell by cell: drawing a glyph
      (`draw_shows`), scrolling (`scroll_shows`), clearing (`clear_shows`).
   2. One call of the terminal keeps `Shows` (`call_shows`), by cases on the call and on what
      `terminal_push_cursor` does.
   3. Any number of calls, by induction (`run_shows`).

   The rows of the grid go on below the framebuffer. Nothing is drawn there, and what
   `terminal_scroll` copies from there is black: `Cell.cut` is a cell whose lower part was. -/
namespace Horizon64
open Bytes

/-- What a cell shows. -/
inductive Cell where
  | solid (color : UInt32)
  | glyph (fgcolor bgcolor : UInt32) (ch : UInt8)
  /-- The first rows of pixels of a cell, with black below. -/
  | cut (rows : Nat) (c : Cell)
  deriving DecidableEq, Repr

/-- The colour of the pixel in column `x` and row `y` of the cell. -/
def Cell.color (font : Psf1Font) (file : Memory) : Cell → Nat → Nat → UInt32
  | .solid color, _, _ => color
  | .glyph fgcolor bgcolor ch, x, y =>
    glyphColor file (glyphAddr font ch 0) 0 0 fgcolor bgcolor (x, y)
  | .cut rows c, x, y => if y < rows then c.color font file x y else 0

/-- The size of the terminal in cells, of a cell in rows of pixels, and of the framebuffer. -/
structure GridSize where
  width : Nat
  height : Nat
  charSize : Nat
  pixelRows : Nat
  deriving DecidableEq, Repr

/-- What is read of a cell in row `r`. -/
def GridSize.clip (size : GridSize) (r : Nat) (c : Cell) : Cell :=
  if c = .solid colorBlack ∨ (r + 1) * size.charSize ≤ size.pixelRows then c
  else .cut (size.pixelRows - r * size.charSize) c

/-- The cells by row and column, the cursor, and the colours in use. -/
structure TextGrid where
  cells : Nat → Nat → Cell
  col : Nat
  row : Nat
  foreground : UInt32
  background : UInt32

/-- All of the screen is background, and the cursor in the corner. -/
def TextGrid.cleared (foreground background : UInt32) : TextGrid where
  cells := fun _ _ => .solid background
  col := 0
  row := 0
  foreground := foreground
  background := background

/-- The character is drawn in the cell of the cursor. -/
def TextGrid.draw (g : TextGrid) (ch : UInt8) : TextGrid :=
  { g with cells := fun r k =>
      if r = g.row ∧ k = g.col then .glyph g.foreground g.background ch else g.cells r k }

/-- The rows above the one before the cursor's get the row below them. -/
def TextGrid.scroll (size : GridSize) (g : TextGrid) : TextGrid :=
  { g with cells := fun r k =>
      if r + 1 < g.row then size.clip (r + 1) (g.cells (r + 1) k) else .solid g.background }

/-- The cursor moves on. Below the last row the terminal scrolls instead, and the cursor stays
    in its column. -/
def TextGrid.push (size : GridSize) (g : TextGrid) : TextGrid :=
  if size.width ≤ g.col + 1 then { g with col := 1, row := g.row + 1 }
  else if size.height ≤ g.row ∧ ¬ (g.row = size.height ∧ g.col = 0) then
    { g.scroll size with row := g.row - 1 }
  else { g with col := g.col + 1 }

def TextGrid.pop (g : TextGrid) : TextGrid :=
  { g with col := if g.col ≤ 1 then g.col else g.col - 1 }

def TextGrid.putc (size : GridSize) (g : TextGrid) (c : UInt8) : TextGrid :=
  if c = 10 then { g with col := 1, row := g.row + 1 }
  else if c = 8 then g.pop.draw 32
  else (g.draw c).push size

/-! The calls of the terminal, on the screen. -/

/-- `terminal_set_foreground`. -/
def terminalSetForeground (t : Terminal) (color : UInt32) : Terminal :=
  { t with foregroundColor := color }

/-- `terminal_set_background`. -/
def terminalSetBackground (t : Terminal) (color : UInt32) : Terminal :=
  { t with backgroundColor := color }

/-- `set_terminal_cursor_pos`. -/
def setTerminalCursorPos (t : Terminal) (x y : UInt32) : Terminal :=
  if x ≥ t.width then { t with cursorPos := ⟨UInt32.toInt32 0, (y + 1).toInt32⟩ }
  else { t with cursorPos := ⟨x.toInt32, y.toInt32⟩ }

/-- `terminal_clear`. -/
def terminalClear (t : Terminal) (m : Memory) : Terminal × Memory :=
  ({ t with cursorPos := ⟨0, 0⟩ },
    (List.range t.framebuffer.height.toNat).foldl (fun m y =>
      (List.range t.framebuffer.width.toNat).foldl (fun m x =>
        fbPutpixel t.framebuffer m (UInt32.ofNat x) (UInt32.ofNat y) t.backgroundColor) m) m)

inductive TerminalCall where
  | putc (c : UInt8)
  | setForeground (color : UInt32)
  | setBackground (color : UInt32)
  | setCursorPos (x y : UInt32)
  | clear
  deriving DecidableEq, Repr

/-- A call; `none` when the `int` of a pixel overflows. -/
def TerminalCall.run (font : Psf1Font) (file : Memory) (p : Terminal × Memory) :
    TerminalCall → Option (Terminal × Memory)
  | .putc c => terminalPutcPixels font file p.1 p.2 c
  | .setForeground color => some (terminalSetForeground p.1 color, p.2)
  | .setBackground color => some (terminalSetBackground p.1 color, p.2)
  | .setCursorPos x y => some (setTerminalCursorPos p.1 x y, p.2)
  | .clear => some (terminalClear p.1 p.2)

/-- The call on the grid. -/
def TextGrid.call (size : GridSize) (g : TextGrid) : TerminalCall → TextGrid
  | .putc c => g.putc size c
  | .setForeground color => { g with foreground := color }
  | .setBackground color => { g with background := color }
  | .setCursorPos x y =>
    if size.width ≤ x.toNat then { g with col := 0, row := (y + 1).toNat }
    else { g with col := x.toNat, row := y.toNat }
  | .clear => .cleared g.foreground g.background

/-! What the screen shows. -/

/-- The grid of a terminal. -/
def TextScreen.size (s : TextScreen) : GridSize where
  width := s.term.width.toNat
  height := s.term.height.toNat
  charSize := s.font.header.characterSize.toNat
  pixelRows := s.term.framebuffer.height.toNat

/-- The rows of pixels down to the cursor's are an `int`. -/
def TextGrid.InRange (size : GridSize) (g : TextGrid) : Prop := g.row * size.charSize < 2 ^ 31

/-- They are, before each of the calls. -/
def TextGrid.StaysInRange (size : GridSize) : TextGrid → List TerminalCall → Prop
  | _, [] => True
  | g, call :: calls => g.InRange size ∧ (g.call size call).StaysInRange size calls

/-- The terminal has the cursor and the colours of the grid, and every pixel of its screen the
    colour of its cell. -/
structure Shows (s : TextScreen) (file : Memory) (t : Terminal) (m : Memory) (g : TextGrid) :
    Prop where
  framebuffer : t.framebuffer = s.term.framebuffer
  width : t.width = s.term.width
  height : t.height = s.term.height
  cursor : t.cursorPos = (Place.mk g.col g.row).cell
  col : g.col < s.term.width.toNat
  foreground : t.foregroundColor = g.foreground
  background : t.backgroundColor = g.background
  pixels : ∀ p, s.term.framebuffer.Visible p → view s.term.framebuffer m p =
    (g.cells (p.2 / s.font.header.characterSize.toNat) (p.1 / 8)).color s.font file (p.1 % 8)
      (p.2 % s.font.header.characterSize.toNat)

/-! The picture, cell by cell. -/

section Picture
variable {font : Psf1Font} {file : Memory} {fb : Framebuffer}

theorem fbPutc_clipped (hfb : fb.Addressable) {x y fgcolor bgcolor : UInt32} {ch : UInt8}
    (hright : x.toNat + 8 ≤ fb.width.toNat)
    (hy : y.toNat + font.header.characterSize.toNat ≤ 2 ^ 32) (m : Memory) (p : Nat × Nat) :
    view fb (fbPutc font file fb m x y fgcolor bgcolor ch) p =
      if InCell x.toNat y.toNat font.header.characterSize.toNat p ∧ fb.Visible p then
        glyphColor file (glyphAddr font ch 0) x.toNat y.toNat fgcolor bgcolor p
      else view fb m p := by
  have hround : ∀ (m : Memory),
      ∀ p ∈ cellPixels x.toNat y.toNat font.header.characterSize.toNat,
      view fb (fbPutpixel fb m (UInt32.ofNat p.1) (UInt32.ofNat p.2)
        (glyphColor file (glyphAddr font ch 0) x.toNat y.toNat fgcolor bgcolor p)) =
      if fb.Visible p then Function.update (view fb m) p
        (glyphColor file (glyphAddr font ch 0) x.toNat y.toNat fgcolor bgcolor p)
      else view fb m := by
    intro m p hp
    obtain ⟨hcol, hrow⟩ := mem_cellPixels.mp hp
    exact view_fbPutpixel hfb m _ (by omega) (by omega)
  rw [fbPutc_eq, Paint.view_foldl_apply hround (Paint.inOrder_const _ _)]
  simp only [mem_cellPixels]

theorem fbPutc_outside (hfb : fb.Addressable) {x y : UInt32} (fgcolor bgcolor : UInt32)
    (ch : UInt8) (hright : x.toNat + 8 ≤ fb.width.toNat)
    (hy : y.toNat + font.header.characterSize.toNat ≤ 2 ^ 32) (m : Memory) {b : UInt64}
    (hb : ¬ fb.Holds b) : fbPutc font file fb m x y fgcolor bgcolor ch b = m b := by
  rw [fbPutc_eq]
  apply List.foldlRecOn (motive := fun m' : Memory => m' b = m b)
  · rfl
  · intro m' h p hp
    obtain ⟨hcol, hrow⟩ := mem_cellPixels.mp hp
    rw [fbPutpixel_off, h]
    intro a ha hnear
    exact hb (pixelAt_holds hfb (show p.1 < fb.width.toNat by omega) (by omega) ha hnear)

theorem inCell_div {charSize : Nat} (hsize : 0 < charSize) {col row : Nat} {p : Nat × Nat} :
    InCell (col * 8) (row * charSize) charSize p ↔ p.2 / charSize = row ∧ p.1 / 8 = col := by
  have hrow : p.2 / charSize = row ↔ row * charSize ≤ p.2 ∧ p.2 < row * charSize + charSize := by
    rw [Nat.div_eq_iff hsize, Nat.mul_comm]
    omega
  rw [InCell, hrow]
  omega

theorem glyphColor_cell (glyph : UInt64) (fgcolor bgcolor : UInt32) (charSize : Nat)
    (p : Nat × Nat) :
    glyphColor file glyph (p.1 / 8 * 8) (p.2 / charSize * charSize) fgcolor bgcolor p =
      glyphColor file glyph 0 0 fgcolor bgcolor (p.1 % 8, p.2 % charSize) := by
  have hx : p.1 - p.1 / 8 * 8 = p.1 % 8 := by omega
  have hy : p.2 - p.2 / charSize * charSize = p.2 % charSize := by
    rw [Nat.mul_comm, ← Nat.mod_eq_sub_mul_div]
  simp only [glyphColor, hx, hy, Nat.sub_zero]

end Picture

/-! One call. -/

section Steps
variable {s : TextScreen} {file m : Memory} {t : Terminal} {g : TextGrid}

theorem TextScreen.width_lt (s : TextScreen) : s.term.width.toNat < 2 ^ 27 := by
  have hrow := s.addressable.row
  have hpitch := s.addressable.pitch_lt
  have hcolumns := s.columns
  omega

theorem Shows.move (h : Shows s file t m g) {x y : Int32} (col row : Nat)
    (hcursor : (⟨x, y⟩ : Ivec2) = (Place.mk col row).cell) (hcol : col < s.term.width.toNat) :
    Shows s file { t with cursorPos := ⟨x, y⟩ } m { g with col := col, row := row } :=
  ⟨h.framebuffer, h.width, h.height, hcursor, hcol, h.foreground, h.background, h.pixels⟩

/-- `terminal_clear`, whatever the screen showed before. -/
theorem clear_shows (file m : Memory) (hframebuffer : t.framebuffer = s.term.framebuffer)
    (hw : t.width = s.term.width) (hh : t.height = s.term.height)
    (hwide : 2 ≤ s.term.width.toNat) :
    Shows s file (terminalClear t m).1 (terminalClear t m).2
        (.cleared t.foregroundColor t.backgroundColor) ∧
      ∀ b, ¬ s.term.framebuffer.Holds b → (terminalClear t m).2 b = m b := by
  have hloops : (terminalClear t m).2 = terminalScrollLoops s.term.framebuffer t.backgroundColor
      s.font.header.characterSize 0 m := by
    have hzero : (0 : UInt64).toNat = 0 := rfl
    rw [terminalClear, terminalScrollLoops, hzero, Nat.sub_zero, List.range_zero, List.foldl_nil,
      hframebuffer, ← List.range_eq_range']
  rw [hloops]
  refine ⟨⟨hframebuffer, hw, hh, rfl, ?_, rfl, rfl, fun p hp => ?_⟩, fun b hb => ?_⟩
  · exact Nat.lt_of_lt_of_le Nat.zero_lt_two hwide
  · have hzero : ¬ p.2 < (0 : UInt64).toNat := Nat.not_lt_zero p.2
    rw [scroll_view s.addressable (by decide) (Or.inr rfl), if_pos hp, if_neg hzero]
    rfl
  · exact scroll_off s.addressable (by decide) _ m hb

variable (hsize : 0 < s.font.header.characterSize.toNat)
include hsize

theorem TextGrid.row_lt (hrange : g.InRange s.size) : g.row < 2 ^ 31 :=
  Nat.lt_of_le_of_lt (Nat.le_mul_of_pos_right g.row hsize) hrange

variable (h : Shows s file t m g)
include h

theorem draw_shows (hrange : g.InRange s.size) (ch : UInt8) {t' : Terminal}
    (ht : t'.framebuffer = s.term.framebuffer) :
    ∃ m', (t.glyph ch).run s.font file t' m = some m' ∧ Shows s file t m' (g.draw ch) ∧
      ∀ b, ¬ s.term.framebuffer.Holds b → m' b = m b := by
  have hwidth := s.width_lt
  have hcol := h.col
  have hcolumns := s.columns
  have hrow := TextGrid.row_lt hsize hrange
  have hbyte := s.font.header.characterSize.toNat_lt
  have hpixels : g.row * s.font.header.characterSize.toNat < 2 ^ 31 := hrange
  obtain ⟨x, hx⟩ : ∃ x, x = UInt32.ofNat (g.col * 8) := ⟨_, rfl⟩
  obtain ⟨y, hy⟩ : ∃ y, y = UInt32.ofNat (g.row * s.font.header.characterSize.toNat) := ⟨_, rfl⟩
  have hx' : x.toNat = g.col * 8 := by
    rw [hx]
    exact UInt32.toNat_ofNat_of_lt' (show g.col * 8 < 2 ^ 32 by omega)
  have hy' : y.toNat = g.row * s.font.header.characterSize.toNat := by
    rw [hy]
    exact UInt32.toNat_ofNat_of_lt' (show g.row * _ < 2 ^ 32 by omega)
  have hrun : (t.glyph ch).run s.font file t' m =
      some (fbPutc s.font file s.term.framebuffer m x y g.foreground g.background ch) := by
    have hcell : g.col * 8 < 2 ^ 31 := by omega
    rw [Terminal.glyph, h.cursor, h.foreground, h.background, run_putc hcell hrow, if_pos hpixels,
      ht, hx, hy]
  have hright : x.toNat + 8 ≤ s.term.framebuffer.width.toNat := by omega
  have hbottom : y.toNat + s.font.header.characterSize.toNat ≤ 2 ^ 32 := by omega
  refine ⟨_, hrun, ⟨h.framebuffer, h.width, h.height, h.cursor, h.col, h.foreground,
    h.background, fun p hp => ?_⟩, fun b hb => ?_⟩
  · rw [fbPutc_clipped s.addressable hright hbottom, hx', hy', TextGrid.draw]
    dsimp only
    by_cases hin : p.2 / s.font.header.characterSize.toNat = g.row ∧ p.1 / 8 = g.col
    · rw [if_pos ⟨(inCell_div hsize).mpr hin, hp⟩, if_pos hin, ← hin.1, ← hin.2, glyphColor_cell]
      rfl
    · rw [if_neg fun hboth => hin ((inCell_div hsize).mp hboth.1), if_neg hin]
      exact h.pixels p hp
  · exact fbPutc_outside s.addressable _ _ _ hright hbottom m hb

theorem scroll_shows (hrange : g.InRange s.size) (hpos : 1 ≤ g.row) :
    ∃ m', terminalScrollPixels t s.font.header.characterSize m = some m' ∧
      Shows s file t m' (g.scroll s.size) ∧
      ∀ b, ¬ s.term.framebuffer.Holds b → m' b = m b := by
  have hrow := TextGrid.row_lt hsize hrange
  obtain ⟨n, hn⟩ : ∃ n, g.row = n + 1 := ⟨g.row - 1, by omega⟩
  have hint : t.cursorPos.y.toInt = n + 1 := by
    rw [h.cursor, Place.cell, Int32.toInt_ofNat_of_lt hrow, hn]
    rfl
  obtain ⟨cs, hcs⟩ : ∃ cs, cs = s.font.header.characterSize.toNat := ⟨_, rfl⟩
  have hle : n * cs ≤ g.row * cs := Nat.mul_le_mul_right _ (by omega)
  have hpixels : g.row * cs < 2 ^ 31 := by
    rw [hcs]
    exact hrange
  have hrows := (scrollRows_eq s.font.header.characterSize hint).mpr
    ⟨by rw [← hcs]; omega, rfl⟩
  rw [← hcs] at hrows
  have hword : (UInt64.ofNat (n * cs)).toNat = n * cs := Words.toNat_ofNat_of_lt (by omega)
  refine ⟨_, by rw [terminalScrollPixels, hrows]; rfl, ⟨h.framebuffer, h.width, h.height, h.cursor,
    h.col, h.foreground, h.background, fun p hp => ?_⟩, fun b hb => ?_⟩
  · rw [h.framebuffer, scroll_view s.addressable (by omega) (Or.inl hsize), if_pos hp, hword,
      h.background, TextGrid.scroll]
    dsimp only
    have hcopied : p.2 < n * cs ↔ p.2 / cs + 1 < g.row := by
      rw [hn, Nat.add_lt_add_iff_right, Nat.div_lt_iff_lt_mul (hcs ▸ hsize)]
    rw [← hcs]
    by_cases hup : p.2 < n * cs
    · rw [if_pos hup, if_pos (hcopied.mp hup)]
      have hdiv : (p.2 + cs) / cs = p.2 / cs + 1 := Nat.add_div_right _ (hcs ▸ hsize)
      have hmod : (p.2 + cs) % cs = p.2 % cs := Nat.add_mod_right _ _
      have hsplit : p.2 = p.2 / cs * cs + p.2 % cs := by
        rw [Nat.mul_comm, Nat.div_add_mod]
      have hnext : (p.2 / cs + 1) * cs = p.2 / cs * cs + cs := by ring
      have hnext' : (p.2 / cs + 1 + 1) * cs = p.2 / cs * cs + cs + cs := by ring
      have hlt : p.2 % cs < cs := Nat.mod_lt _ (hcs ▸ hsize)
      have hbelow : below s.font.header.characterSize p = (p.1, p.2 + cs) := by rw [below, hcs]
      rw [hbelow, GridSize.clip]
      by_cases hv : s.term.framebuffer.Visible (p.1, p.2 + cs)
      · have hshown := h.pixels _ hv
        dsimp only at hshown
        rw [← hcs, hdiv, hmod] at hshown
        rw [hshown]
        split
        · rfl
        · rw [Cell.color, if_pos]
          have hlow := hv.2
          dsimp only [TextScreen.size] at hlow ⊢
          rw [← hcs]
          omega
      · -- below the framebuffer there is nothing to copy
        have hlow : s.term.framebuffer.height.toNat ≤ p.2 + cs :=
          Nat.not_lt.mp fun hlt => hv ⟨hp.1, hlt⟩
        rw [view, if_neg hv]
        split
        · next hwhole =>
          rcases hwhole with hblack | hwhole
          · rw [hblack]
            rfl
          · dsimp only [TextScreen.size] at hwhole
            rw [← hcs] at hwhole
            omega
        · rw [Cell.color, if_neg]
          dsimp only [TextScreen.size]
          rw [← hcs]
          omega
    · rw [if_neg hup, if_neg fun h => hup (hcopied.mpr h)]
      rfl
  · rw [h.framebuffer]
    exact scroll_off s.addressable (by omega) _ m hb

theorem toUInt32_row (hrange : g.InRange s.size) :
    t.cursorPos.y.toUInt32.toNat = g.row := by
  have hrow := TextGrid.row_lt hsize hrange
  rw [h.cursor, Place.cell, Int32.toUInt32_ofNat', UInt32.toNat_ofNat_of_lt']
  exact Nat.lt_trans hrow (by decide)

/-- The cursor moves on, or the terminal scrolls. -/
theorem push_shows (hwide : 2 ≤ s.term.width.toNat) (hheight : 1 ≤ s.term.height.toNat)
    (hrange : g.InRange s.size) :
    ∃ m', (terminalPushCursor t).2.foldlM (FbCall.run s.font file (terminalPushCursor t).1) m =
        some m' ∧
      Shows s file (terminalPushCursor t).1 m' (g.push s.size) ∧
      ∀ b, ¬ s.term.framebuffer.Holds b → m' b = m b := by
  have hwidth := s.width_lt
  have hcol := h.col
  have hx : t.cursorPos.x = Int32.ofNat g.col := by rw [h.cursor, Place.cell]
  have hy : t.cursorPos.y = Int32.ofNat g.row := by rw [h.cursor, Place.cell]
  have hlast : (t.cursorPos.x + 1).toUInt32 ≥ t.width ↔ s.size.width ≤ g.col + 1 := by
    rw [hx, h.width]
    exact last_column h.col
  have hlow : t.cursorPos.y.toUInt32 ≥ t.height ↔ s.size.height ≤ g.row := by
    rw [h.height, ge_iff_le, UInt32.le_iff_toNat_le, toUInt32_row hsize h hrange]
    rfl
  have hsame : t.cursorPos.y.toUInt32 = t.height ↔ g.row = s.size.height := by
    rw [h.height, ← UInt32.toNat_inj, toUInt32_row hsize h hrange]
    rfl
  have hzero : t.cursorPos.x = 0 ↔ g.col = 0 := by
    have hint : (Int32.ofNat g.col).toInt = g.col := Int32.toInt_ofNat_of_lt (by omega)
    rw [hx, ← Int32.toInt_inj, hint, Int32.toInt_zero]
    omega
  by_cases hend : s.size.width ≤ g.col + 1
  · rw [terminalPushCursor, TextGrid.push, if_pos (hlast.mpr hend), if_pos hend]
    refine ⟨m, rfl, h.move _ _ ?_ hwide, fun _ _ => rfl⟩
    rw [hy, Place.cell, Int32.ofNat_add]
    rfl
  · by_cases hbelow : s.size.height ≤ g.row ∧ ¬ (g.row = s.size.height ∧ g.col = 0)
    · have hbelow' : t.cursorPos.y.toUInt32 ≥ t.height ∧
          ¬ (t.cursorPos.y.toUInt32 = t.height ∧ t.cursorPos.x = 0) := by
        rw [hlow, hsame, hzero]
        exact hbelow
      have hpos : 1 ≤ g.row := Nat.le_trans hheight hbelow.1
      obtain ⟨m', hscroll, hshows, hframe⟩ := scroll_shows hsize h hrange hpos
      rw [terminalPushCursor, TextGrid.push, if_neg (mt hlast.mp hend), if_neg hend,
        if_pos hbelow', if_pos hbelow]
      dsimp only
      refine ⟨m', (run_scroll s.font file t m).trans hscroll, hshows.move _ _ ?_ h.col, hframe⟩
      rw [hx, hy, Place.cell, Int32.ofNat_sub _ 1 hpos]
      rfl
    · have hbelow' : ¬ (t.cursorPos.y.toUInt32 ≥ t.height ∧
          ¬ (t.cursorPos.y.toUInt32 = t.height ∧ t.cursorPos.x = 0)) := by
        rw [hlow, hsame, hzero]
        exact hbelow
      rw [terminalPushCursor, TextGrid.push, if_neg (mt hlast.mp hend), if_neg hend,
        if_neg hbelow', if_neg hbelow]
      refine ⟨m, rfl, h.move _ _ ?_ (Nat.not_le.mp hend), fun _ _ => rfl⟩
      rw [hx, hy, Place.cell, Int32.ofNat_add]
      rfl

omit hsize in
theorem pop_shows : Shows s file (terminalPopCursor t) m g.pop := by
  have hwidth := s.width_lt
  have hcol := h.col
  have hback : (if Int32.ofNat g.col - 1 < 1 then Int32.ofNat g.col - 1 + 1
      else Int32.ofNat g.col - 1) = Int32.ofNat (if g.col ≤ 1 then g.col else g.col - 1) := by
    by_cases hone : g.col ≤ 1
    · rw [if_pos hone]
      obtain hcol | hcol : g.col = 0 ∨ g.col = 1 := by omega
      · rw [hcol]
        decide
      · rw [hcol]
        decide
    · have hsub : Int32.ofNat g.col - 1 = Int32.ofNat (g.col - 1) :=
        (Int32.ofNat_sub _ 1 (by omega)).symm
      have hright : ¬ Int32.ofNat (g.col - 1) < 1 := by
        rw [Int32.lt_iff_toInt_lt, Int32.toInt_ofNat_of_lt (by omega), Int32.toInt_one]
        omega
      rw [if_neg hone, hsub, if_neg hright]
  refine h.move _ g.row ?_ (by split <;> omega)
  rw [h.cursor]
  exact congrArg (Ivec2.mk · _) hback

theorem putc_shows (hwide : 2 ≤ s.term.width.toNat) (hheight : 1 ≤ s.term.height.toNat)
    (hrange : g.InRange s.size) (c : UInt8) :
    ∃ t' m', terminalPutcPixels s.font file t m c = some (t', m') ∧
      Shows s file t' m' (g.putc s.size c) ∧
      ∀ b, ¬ s.term.framebuffer.Holds b → m' b = m b := by
  have hcol := h.col
  by_cases hnl : c = 10
  · have hput : terminalPutc (some s.font.header.characterSize) t c =
        ({ t with cursorPos := ⟨1, t.cursorPos.y + 1⟩ }, []) := by
      rw [terminalPutc, if_pos hnl]
    rw [terminalPutcPixels, hput, TextGrid.putc, if_pos hnl]
    refine ⟨_, m, rfl, h.move _ _ ?_ hwide, fun _ _ => rfl⟩
    rw [h.cursor, Place.cell, Place.cell, Int32.ofNat_add]
    rfl
  · by_cases hbs : c = 8
    · have hput : terminalPutc (some s.font.header.characterSize) t c =
          (terminalPopCursor t, [(terminalPopCursor t).glyph 32]) := by
        simp [terminalPutc, hbs]
      have hpop := pop_shows h
      obtain ⟨m', hdraw, hshows, hframe⟩ := draw_shows hsize hpop hrange 32 hpop.framebuffer
      rw [terminalPutcPixels, hput, TextGrid.putc, if_neg hnl, if_pos hbs]
      dsimp only
      rw [List.foldlM_cons, hdraw]
      exact ⟨_, m', rfl, hshows, hframe⟩
    · have hput : terminalPutc (some s.font.header.characterSize) t c =
          ((terminalPushCursor t).1, t.glyph c :: (terminalPushCursor t).2) := by
        simp [terminalPutc, hnl, hbs]
      have hframebuffer : (terminalPushCursor t).1.framebuffer = s.term.framebuffer := by
        rw [push_fields]
        exact h.framebuffer
      obtain ⟨m₁, hdraw, hdrawn, hframe₁⟩ := draw_shows hsize h hrange c hframebuffer
      obtain ⟨m₂, hpush, hpushed, hframe₂⟩ := push_shows hsize hdrawn hwide hheight hrange
      rw [terminalPutcPixels, hput, TextGrid.putc, if_neg hnl, if_neg hbs]
      dsimp only
      rw [List.foldlM_cons, hdraw, Option.bind_eq_bind, Option.bind_some, hpush]
      exact ⟨_, m₂, rfl, hpushed, fun b hb => (hframe₂ b hb).trans (hframe₁ b hb)⟩

theorem call_shows (hwide : 2 ≤ s.term.width.toNat) (hheight : 1 ≤ s.term.height.toNat)
    (hrange : g.InRange s.size) (call : TerminalCall) :
    ∃ t' m', call.run s.font file (t, m) = some (t', m') ∧
      Shows s file t' m' (g.call s.size call) ∧
      ∀ b, ¬ s.term.framebuffer.Holds b → m' b = m b := by
  cases call with
  | putc c => exact putc_shows hsize h hwide hheight hrange c
  | setForeground color =>
    exact ⟨_, m, rfl, ⟨h.framebuffer, h.width, h.height, h.cursor, h.col, rfl, h.background,
      h.pixels⟩, fun _ _ => rfl⟩
  | setBackground color =>
    exact ⟨_, m, rfl, ⟨h.framebuffer, h.width, h.height, h.cursor, h.col, h.foreground, rfl,
      h.pixels⟩, fun _ _ => rfl⟩
  | setCursorPos x y =>
    have hword : ∀ v : UInt32, v.toInt32 = Int32.ofNat v.toNat := fun v => by
      rw [← UInt32.toInt32_ofNat', UInt32.ofNat_toNat]
    have hright : x ≥ t.width ↔ s.size.width ≤ x.toNat := by
      rw [h.width, ge_iff_le, UInt32.le_iff_toNat_le]
      rfl
    rw [TerminalCall.run, setTerminalCursorPos, TextGrid.call]
    by_cases hpast : s.size.width ≤ x.toNat
    · rw [if_pos (hright.mpr hpast), if_pos hpast]
      refine ⟨_, m, rfl, h.move _ _ ?_ (Nat.lt_of_lt_of_le (by decide) hwide), fun _ _ => rfl⟩
      rw [hword, hword]
      rfl
    · rw [if_neg (mt hright.mp hpast), if_neg hpast]
      refine ⟨_, m, rfl, h.move _ _ ?_ (Nat.not_le.mp hpast), fun _ _ => rfl⟩
      rw [hword, hword]
      rfl
  | clear =>
    obtain ⟨hshows, hframe⟩ := clear_shows file m h.framebuffer h.width h.height hwide
    rw [h.foreground, h.background] at hshows
    exact ⟨_, _, rfl, hshows, hframe⟩

/-- Any calls, as long as the rows above the cursor are an `int` of pixels. -/
theorem run_shows (hwide : 2 ≤ s.term.width.toNat) (hheight : 1 ≤ s.term.height.toNat)
    (calls : List TerminalCall) (hrange : g.StaysInRange s.size calls) :
    ∃ t' m', calls.foldlM (TerminalCall.run s.font file) (t, m) = some (t', m') ∧
      Shows s file t' m' (calls.foldl (TextGrid.call s.size) g) ∧
      ∀ b, ¬ s.term.framebuffer.Holds b → m' b = m b := by
  induction calls generalizing t m g with
  | nil => exact ⟨t, m, rfl, h, fun _ _ => rfl⟩
  | cons call calls ih =>
    obtain ⟨t₁, m₁, hcall, hshows₁, hframe₁⟩ :=
      call_shows hsize h hwide hheight hrange.1 call
    obtain ⟨t₂, m₂, hrun, hshows₂, hframe₂⟩ := ih hshows₁ hrange.2
    rw [List.foldlM_cons, hcall]
    exact ⟨t₂, m₂, hrun, hshows₂, fun b hb => (hframe₂ b hb).trans (hframe₁ b hb)⟩

end Steps

/-- The grid of the terminal when it is cleared. -/
def TextScreen.cleared (s : TextScreen) : TextGrid :=
  .cleared s.term.foregroundColor s.term.backgroundColor

/-- Once the terminal was cleared, its screen shows the grid after any calls in any order, and
    no byte outside of the framebuffer has changed. -/
theorem terminal_refines_grid (s : TextScreen) (file m : Memory)
    (hsize : 0 < s.font.header.characterSize.toNat) (hwide : 2 ≤ s.term.width.toNat)
    (hheight : 1 ≤ s.term.height.toNat) (calls : List TerminalCall)
    (hrange : s.cleared.StaysInRange s.size calls) :
    ∃ t' m', (TerminalCall.clear :: calls).foldlM (TerminalCall.run s.font file) (s.term, m) =
        some (t', m') ∧
      Shows s file t' m' (calls.foldl (TextGrid.call s.size) s.cleared) ∧
      ∀ b, ¬ s.term.framebuffer.Holds b → m' b = m b := by
  obtain ⟨hclear, hframe⟩ := @clear_shows s s.term file m rfl rfl rfl hwide
  obtain ⟨t', m', hrun, hshows, hframe'⟩ := run_shows hsize hclear hwide hheight calls hrange
  rw [List.foldlM_cons]
  exact ⟨t', m', hrun, hshows, fun b hb => (hframe' b hb).trans (hframe b hb)⟩

/-- Two characters of a font without blank pixels. -/
theorem terminal_refines_grid_two : ∃ t' m',
    [.clear, .putc 72, .putc 105].foldlM (TerminalCall.run (smallText 1).font fun _ => 0xFF)
      ((smallText 1).term, fun _ => 0) = some (t', m') ∧
    view smallScreen m' (9, 3) = colorWhite ∧ view smallScreen m' (16, 3) = colorBlack := by
  have hrange : (smallText 1).cleared.StaysInRange (smallText 1).size [.putc 72, .putc 105] := by
    simp only [TextGrid.StaysInRange, TextGrid.InRange]
    decide
  obtain ⟨t', m', hrun, hshows, -⟩ := terminal_refines_grid (smallText 1) (fun _ => 0xFF)
    (fun _ => 0) (by decide) (by decide) (by decide) _ hrange
  exact ⟨t', m', hrun, (hshows.pixels (9, 3) (by decide)).trans (by decide),
    (hshows.pixels (16, 3) (by decide)).trans (by decide)⟩

end Horizon64
