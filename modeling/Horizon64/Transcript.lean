import Mathlib.Data.List.Induction
import Horizon64.TextGrid

/- What is to be read on the terminal of `dev/terminal.c` after many lines of text.

   A text is printed on a roll of paper, of which the screen shows the last rows. The cursor
   may be below the screen, since a line that ends only moves it down: the row it is in comes
   into view by scrolling, and `terminal_push_cursor` scrolls only after a character was drawn
   there, which is not on the paper then.

   1. `Paper.putc`, what a byte does to the paper.
   2. The grid of the terminal is the part of the paper that is in view (`window_putc`).
   3. A line on the paper (`line_paper`): the first character of it is lost when it starts
      just below the screen.
   4. Lines one after the other, on the screen (`terminal_shows_lines`). -/
namespace Horizon64
open Bytes

/-- The rows of the paper, the cursor on it, and the row at the top of the screen. -/
structure Paper where
  cells : Nat → Nat → Cell
  col : Nat
  row : Nat
  top : Nat

def Paper.write (fgcolor : UInt32) (p : Paper) (c : UInt8) : Paper :=
  { p with cells := fun r k =>
      if r = p.row ∧ k = p.col then .glyph fgcolor colorBlack c else p.cells r k }

/-- A byte, printed on paper of `width` columns, of which `height` rows are in view. -/
def Paper.putc (width height : Nat) (fgcolor : UInt32) (p : Paper) (c : UInt8) : Paper :=
  if c = 10 then { p with col := 1, row := p.row + 1 }
  else if width ≤ p.col + 1 then { p.write fgcolor c with col := 1, row := p.row + 1 }
  else if p.top + height ≤ p.row then { p with top := p.top + 1 }
  else { p.write fgcolor c with col := p.col + 1 }

/-- The grid shows the paper from its row `top` on. Below the screen both are black. -/
structure Window (size : GridSize) (fgcolor : UInt32) (p : Paper) (g : TextGrid) : Prop where
  col : g.col = p.col
  row : p.top + g.row = p.row
  foreground : g.foreground = fgcolor
  background : g.background = colorBlack
  shown : ∀ r < size.height, ∀ k, g.cells r k = p.cells (p.top + r) k
  below : ∀ r, size.height ≤ r → ∀ k, g.cells r k = .solid colorBlack
  unwritten : ∀ r, p.top + size.height ≤ r → ∀ k, p.cells r k = .solid colorBlack
  left : p.top + size.height ≤ p.row → p.col = 1

section Window
variable {size : GridSize} {fgcolor : UInt32} {p : Paper} {g : TextGrid}
  (h : Window size fgcolor p g)
include h

theorem window_draw (hview : p.row < p.top + size.height) (c : UInt8) (col row : Nat)
    (hleft : p.top + size.height ≤ p.top + row → col = 1) :
    Window size fgcolor { p.write fgcolor c with col := col, row := p.top + row }
      { g.draw c with col := col, row := row } := by
  have hrow := h.row
  refine ⟨rfl, rfl, h.foreground, h.background, fun r hr k => ?_, fun r hr k => ?_,
    fun r hr k => ?_, hleft⟩
  · dsimp only [TextGrid.draw, Paper.write]
    rw [h.foreground, h.background, h.col, h.shown r hr k]
    by_cases hat : r = g.row ∧ k = p.col
    · rw [if_pos hat, if_pos ⟨by omega, hat.2⟩]
    · rw [if_neg hat, if_neg fun hat' => hat ⟨by omega, hat'.2⟩]
  · dsimp only [TextGrid.draw]
    rw [if_neg fun hat => by omega, h.below r hr k]
  · dsimp only [Paper.write] at hr ⊢
    rw [if_neg fun hat => by omega, h.unwritten r hr k]

/-- A character drawn below the screen: the scrolling removes it. -/
theorem window_scroll (hfits : size.height * size.charSize ≤ size.pixelRows)
    (hheight : 1 ≤ size.height) (hbelow : p.top + size.height ≤ p.row) (c : UInt8) :
    Window size fgcolor { p with top := p.top + 1 }
      { (g.draw c).scroll size with row := g.row - 1 } := by
  have hrow := h.row
  have hcells : ∀ r k, ((g.draw c).scroll size).cells r k =
      if r + 1 < g.row then size.clip (r + 1) (g.cells (r + 1) k) else .solid colorBlack := by
    intro r k
    dsimp only [TextGrid.scroll, TextGrid.draw]
    rw [h.background]
    by_cases hup : r + 1 < g.row
    · have hother : ¬ (r + 1 = g.row ∧ k = g.col) := fun hat => by omega
      rw [if_pos hup, if_pos hup, if_neg hother]
    · rw [if_neg hup, if_neg hup]
  have hblack : ∀ r k, size.height ≤ r + 1 →
      ((g.draw c).scroll size).cells r k = .solid colorBlack := by
    intro r k hr
    rw [hcells, h.below (r + 1) hr k, GridSize.clip, if_pos (Or.inl rfl), ite_self]
  refine ⟨h.col, ?_, h.foreground, h.background, fun r hr k => ?_, fun r hr k => ?_,
    fun r hr k => ?_, fun _ => h.left hbelow⟩
  · dsimp only
    omega
  · dsimp only
    by_cases hlast : r + 1 < size.height
    · have hwhole : (r + 1 + 1) * size.charSize ≤ size.pixelRows :=
        Nat.le_trans (Nat.mul_le_mul_right _ hlast) hfits
      have hnext : p.top + (r + 1) = p.top + 1 + r := by omega
      rw [hcells, if_pos (by omega), h.shown (r + 1) hlast k, GridSize.clip,
        if_pos (Or.inr hwhole), hnext]
    · rw [hblack r k (Nat.not_lt.mp hlast)]
      exact (h.unwritten _ (by omega) k).symm
  · exact hblack r k (by omega)
  · exact h.unwritten r (by dsimp only at hr; omega) k

/-- A byte on the grid is the byte on the paper. -/
theorem window_putc (hwide : 3 ≤ size.width) (hheight : 1 ≤ size.height)
    (hfits : size.height * size.charSize ≤ size.pixelRows) {c : UInt8} (hc : c ≠ 8) :
    Window size fgcolor (p.putc size.width size.height fgcolor c) (g.putc size c) := by
  have hrow := h.row
  by_cases hnl : c = 10
  · rw [Paper.putc, TextGrid.putc, if_pos hnl, if_pos hnl]
    exact ⟨rfl, by dsimp only; omega, h.foreground, h.background, h.shown, h.below, h.unwritten,
      fun _ => rfl⟩
  · have hlast : size.width ≤ (g.draw c).col + 1 ↔ size.width ≤ p.col + 1 := by
      rw [← h.col]
      rfl
    rw [Paper.putc, TextGrid.putc, if_neg hnl, if_neg hnl, if_neg hc, TextGrid.push]
    by_cases hend : size.width ≤ p.col + 1
    · -- below the screen the cursor is in column 1, which is not the last
      have hview : p.row < p.top + size.height := by
        by_contra hlow
        have hleft := h.left (Nat.not_lt.mp hlow)
        omega
      rw [if_pos hend, if_pos (hlast.mpr hend), ← hrow]
      exact window_draw h hview c 1 (g.row + 1) fun _ => rfl
    · rw [if_neg hend, if_neg (mt hlast.mp hend)]
      by_cases hbelow : p.top + size.height ≤ p.row
      · have hcol := h.left hbelow
        have hscroll : size.height ≤ (g.draw c).row ∧
            ¬ ((g.draw c).row = size.height ∧ (g.draw c).col = 0) := by
          have hcol' := h.col
          dsimp only [TextGrid.draw]
          omega
        rw [if_pos hbelow, if_pos hscroll]
        exact window_scroll h hfits hheight hbelow c
      · have hscroll : ¬ (size.height ≤ (g.draw c).row ∧
            ¬ ((g.draw c).row = size.height ∧ (g.draw c).col = 0)) := by
          dsimp only [TextGrid.draw]
          omega
        have hdraw := window_draw h (Nat.not_le.mp hbelow) c (g.col + 1) g.row
          fun hlow => absurd hlow (by omega)
        rw [hrow] at hdraw
        rw [if_neg hbelow, if_neg hscroll, ← h.col]
        exact hdraw

/-- The cursor is at most one row below the screen, before each byte of the text. -/
def Paper.StaysNear (width height : Nat) (fgcolor : UInt32) : Paper → List UInt8 → Prop
  | _, [] => True
  | p, c :: text => p.row ≤ p.top + height ∧
      (p.putc width height fgcolor c).StaysNear width height fgcolor text

/-- A text on the grid is the text on the paper. -/
theorem window_text (hwide : 3 ≤ size.width) (hheight : 1 ≤ size.height)
    (hfits : size.height * size.charSize ≤ size.pixelRows)
    (hint : size.height * size.charSize < 2 ^ 31) {text : List UInt8} (htext : ∀ c ∈ text, c ≠ 8)
    (hnear : p.StaysNear size.width size.height fgcolor text) :
    Window size fgcolor (text.foldl (Paper.putc size.width size.height fgcolor) p)
      ((text.map TerminalCall.putc).foldl (TextGrid.call size) g) ∧
    g.StaysInRange size (text.map TerminalCall.putc) := by
  induction text generalizing p g with
  | nil => exact ⟨h, trivial⟩
  | cons c text ih =>
    have hnext := window_putc h hwide hheight hfits (htext c List.mem_cons_self)
    obtain ⟨hwindow, hrange⟩ := ih hnext (fun d hd => htext d (List.mem_cons_of_mem c hd)) hnear.2
    have hrow : g.row ≤ size.height := by
      have hcursor := h.row
      have hlow := hnear.1
      omega
    exact ⟨hwindow, Nat.lt_of_le_of_lt (Nat.mul_le_mul_right _ hrow) hint, hrange⟩

end Window

/-! Lines on the paper. -/

/-- A row with the characters of a line in it, from column `col` on. -/
def overlay (fgcolor : UInt32) (col : Nat) (chars : List UInt8) (row : Nat → Cell) (k : Nat) :
    Cell :=
  if k < col then row k else (chars[k - col]?).elim (row k) (.glyph fgcolor colorBlack)

theorem overlay_nil (fgcolor : UInt32) (col : Nat) (row : Nat → Cell) :
    overlay fgcolor col [] row = row := by
  funext k
  rw [overlay, List.getElem?_nil]
  exact ite_self _

theorem overlay_cons (fgcolor : UInt32) (col : Nat) (c : UInt8) (line : List UInt8)
    (row : Nat → Cell) :
    overlay fgcolor (col + 1) line (fun k => if k = col then .glyph fgcolor colorBlack c else row k) =
      overlay fgcolor col (c :: line) row := by
  funext k
  rw [overlay, overlay]
  rcases Nat.lt_trichotomy k col with hlt | rfl | hgt
  · rw [if_pos (by omega), if_pos hlt, if_neg (by omega)]
  · rw [if_pos (Nat.lt_succ_self k), if_neg (Nat.lt_irrefl k), Nat.sub_self, if_pos rfl]
    rfl
  · have hsub : k - col = k - (col + 1) + 1 := by omega
    rw [if_neg (by omega), if_neg (by omega), if_neg (by omega), hsub, List.getElem?_cons_succ]

section Lines
variable {width height : Nat} {fgcolor : UInt32} {p : Paper}

theorem chars_paper {line : List UInt8} (hview : p.row < p.top + height)
    (hfit : p.col + line.length < width) (hline : ∀ c ∈ line, c ≠ 10) :
    line.foldl (Paper.putc width height fgcolor) p =
      { p with
        cells := fun r =>
          if r = p.row then overlay fgcolor p.col line (p.cells r) else p.cells r
        col := p.col + line.length } := by
  induction line generalizing p with
  | nil => simp only [List.foldl_nil, overlay_nil, ite_self, List.length_nil, Nat.add_zero]
  | cons c line ih =>
    rw [List.length_cons] at hfit ⊢
    have hput : p.putc width height fgcolor c =
        { p.write fgcolor c with col := p.col + 1 } := by
      rw [Paper.putc, if_neg (hline c List.mem_cons_self), if_neg (by omega), if_neg (by omega)]
    have hrest := ih (p := { p.write fgcolor c with col := p.col + 1 }) hview
      (by dsimp only; omega) fun d hd => hline d (List.mem_cons_of_mem c hd)
    rw [List.foldl_cons, hput, hrest]
    dsimp only [Paper.write]
    congr 1
    · funext r
      by_cases hr : r = p.row
      · simp only [hr, if_true, true_and]
        exact overlay_cons fgcolor p.col c line (p.cells p.row)
      · simp only [hr, if_false, false_and]
    · omega

/-- A line and its `'\n'`. Started just below the screen, it loses its first character. -/
theorem line_paper {line : List UInt8} (hcol : p.col = 1) (hnear : p.row ≤ p.top + height)
    (hne : line ≠ []) (hfit : line.length + 1 < width) (hline : ∀ c ∈ line, c ≠ 10) :
    (line ++ [10]).foldl (Paper.putc width height fgcolor) p =
      { cells := fun r => if r = p.row then
          overlay fgcolor 1 (if p.row < p.top + height then line else line.tail) (p.cells r)
          else p.cells r
        col := 1
        row := p.row + 1
        top := max p.top (p.row + 1 - height) } := by
  rw [List.foldl_append]
  by_cases hview : p.row < p.top + height
  · have htop : max p.top (p.row + 1 - height) = p.top := Nat.max_eq_left (by omega)
    rw [chars_paper hview (by omega) hline, if_pos hview, htop, hcol]
    rfl
  · obtain ⟨c, rest, rfl⟩ := List.exists_cons_of_ne_nil hne
    rw [List.length_cons] at hfit
    have hput : p.putc width height fgcolor c = { p with top := p.top + 1 } := by
      rw [Paper.putc, if_neg (hline c List.mem_cons_self), if_neg (by omega), if_pos (by omega)]
    have htop : max p.top (p.row + 1 - height) = p.top + 1 := by omega
    have hrest : rest.foldl (Paper.putc width height fgcolor) { p with top := p.top + 1 } = _ :=
      chars_paper (by dsimp only; omega) (by dsimp only; omega)
        fun d hd => hline d (List.mem_cons_of_mem c hd)
    have hfirst : (c :: rest).foldl (Paper.putc width height fgcolor) p =
        rest.foldl (Paper.putc width height fgcolor) { p with top := p.top + 1 } :=
      congrArg (rest.foldl (Paper.putc width height fgcolor)) hput
    rw [hfirst, hrest, if_neg hview, htop, List.tail_cons]
    dsimp only
    rw [hcol]
    rfl

theorem staysNear_append {text text' : List UInt8} (h : p.StaysNear width height fgcolor text)
    (h' : (text.foldl (Paper.putc width height fgcolor) p).StaysNear width height fgcolor text') :
    p.StaysNear width height fgcolor (text ++ text') := by
  induction text generalizing p with
  | nil => exact h'
  | cons c text ih => exact ⟨h.1, ih h.2 h'⟩

theorem chars_near {line : List UInt8} (hnear : p.row ≤ p.top + height)
    (hfit : p.col + line.length < width) (hline : ∀ c ∈ line, c ≠ 10) :
    p.StaysNear width height fgcolor line ∧
      (line.foldl (Paper.putc width height fgcolor) p).row ≤
        (line.foldl (Paper.putc width height fgcolor) p).top + height := by
  induction line generalizing p with
  | nil => exact ⟨trivial, hnear⟩
  | cons c line ih =>
    rw [List.length_cons] at hfit
    have hnext : (p.putc width height fgcolor c).row ≤
          (p.putc width height fgcolor c).top + height ∧
        (p.putc width height fgcolor c).col + line.length < width := by
      rw [Paper.putc, if_neg (hline c List.mem_cons_self), if_neg (by omega)]
      split
      · exact ⟨by dsimp only; omega, by dsimp only; omega⟩
      · exact ⟨hnear, by dsimp only; omega⟩
    obtain ⟨hrest, hend⟩ := ih hnext.1 hnext.2 fun d hd => hline d (List.mem_cons_of_mem c hd)
    exact ⟨⟨hnear, hrest⟩, hend⟩

theorem line_near {line : List UInt8} (hcol : p.col = 1) (hnear : p.row ≤ p.top + height)
    (hfit : line.length + 1 < width) (hline : ∀ c ∈ line, c ≠ 10) :
    p.StaysNear width height fgcolor (line ++ [10]) := by
  have hfit' : p.col + line.length < width := by omega
  obtain ⟨hchars, hend⟩ := chars_near hnear hfit' hline
  exact staysNear_append hchars ⟨hend, trivial⟩

end Lines

/-- What row `row` of the paper shows after the lines, of which the first was printed in the
    row `start`. -/
def printedRow (fgcolor : UInt32) (height start : Nat) (lines : List (List UInt8)) (row : Nat) :
    Nat → Cell :=
  if row < start then fun _ => .solid colorBlack
  else (lines[row - start]?).elim (fun _ => .solid colorBlack) fun line =>
    overlay fgcolor 1 (if row < height then line else line.tail) fun _ => .solid colorBlack

/-- A text of lines. -/
def linesText (lines : List (List UInt8)) : List UInt8 := lines.flatMap (· ++ [10])

/-- A line that is drawn in one row, without going back. -/
structure FitsRow (width : Nat) (line : List UInt8) : Prop where
  nonempty : line ≠ []
  fits : line.length + 1 < width
  plain : ∀ c ∈ line, c ≠ 10 ∧ c ≠ 8

section Page
variable {width height start : Nat} (fgcolor : UInt32) (hstart : start ≤ height)
include hstart

theorem lines_paper {lines : List (List UInt8)} (h : ∀ line ∈ lines, FitsRow width line) :
    (linesText lines).foldl (Paper.putc width height fgcolor)
        ⟨fun _ _ => .solid colorBlack, 1, start, 0⟩ =
      ⟨printedRow fgcolor height start lines, 1, start + lines.length,
        start + lines.length - height⟩ ∧
    Paper.StaysNear width height fgcolor ⟨fun _ _ => .solid colorBlack, 1, start, 0⟩
      (linesText lines) := by
  induction lines using List.reverseRecOn with
  | nil =>
    have htop : start - height = 0 := Nat.sub_eq_zero_of_le hstart
    have hblank : printedRow fgcolor height start [] = fun _ _ => .solid colorBlack := by
      funext row
      rw [printedRow, List.getElem?_nil]
      exact ite_self _
    rw [hblank, List.length_nil, Nat.add_zero, htop]
    exact ⟨rfl, trivial⟩
  | append_singleton lines line ih =>
    obtain ⟨hpaper, hnear⟩ := ih fun l hl => h l (List.mem_append_left _ hl)
    have hline := h line (List.mem_append_right _ List.mem_cons_self)
    have hplain : ∀ c ∈ line, c ≠ 10 := fun c hc => (hline.plain c hc).1
    have hfit := hline.fits
    have htext : linesText (lines ++ [line]) = linesText lines ++ (line ++ [10]) := by
      rw [linesText, linesText, List.flatMap_append, List.flatMap_singleton]
    have hlow : start + lines.length ≤ start + lines.length - height + height := by omega
    rw [htext]
    refine ⟨?_, ?_⟩
    · rw [List.foldl_append, hpaper, line_paper rfl hlow hline.nonempty hfit hplain,
        List.length_append, List.length_singleton]
      dsimp only
      congr 1
      · funext r
        have hview : start + lines.length < start + lines.length - height + height ↔
            start + lines.length < height := by omega
        rw [printedRow, printedRow]
        rcases Nat.lt_trichotomy r (start + lines.length) with hlt | rfl | hgt
        · rw [if_neg (by omega)]
          by_cases hr : r < start
          · rw [if_pos hr, if_pos hr]
          · rw [if_neg hr, if_neg hr, List.getElem?_append_left (by omega)]
        · simp only [hview, Nat.add_sub_cancel_left, List.getElem?_append_right (Nat.le_refl _),
            Nat.sub_self, List.getElem?_eq_none (Nat.le_refl _), Option.elim, if_true,
            List.getElem?_cons_zero, if_neg (show ¬ start + lines.length < start by omega)]
        · rw [if_neg (by omega), if_neg (by omega), if_neg (by omega),
            List.getElem?_eq_none (by omega), List.getElem?_eq_none (by
              rw [List.length_append, List.length_singleton]
              omega)]
      · omega
    · refine staysNear_append hnear ?_
      rw [hpaper]
      exact line_near rfl hlow hfit hplain

end Page

/-- Lines printed on a black screen from the row `start` on: the screen shows the last of them,
    and every line that was started below it has lost its first character. -/
theorem terminal_shows_lines (s : TextScreen) (file m : Memory)
    (hsize : 0 < s.font.header.characterSize.toNat) (hwide : 3 ≤ s.term.width.toNat)
    (hheight : 1 ≤ s.term.height.toNat)
    (hint : s.term.height.toNat * s.font.header.characterSize.toNat < 2 ^ 31)
    (hblack : s.term.backgroundColor = colorBlack) {start : UInt32}
    (hstart : start.toNat ≤ s.term.height.toNat) {lines : List (List UInt8)}
    (hlines : ∀ line ∈ lines, FitsRow s.term.width.toNat line) :
    ∃ t' m', (.clear :: .setCursorPos 1 start :: (linesText lines).map .putc).foldlM
        (TerminalCall.run s.font file) (s.term, m) = some (t', m') ∧
      t'.cursorPos =
        (Place.mk 1 (min (start.toNat + lines.length) s.term.height.toNat)).cell ∧
      ∀ p, s.term.framebuffer.Visible p →
        p.2 / s.font.header.characterSize.toNat < s.term.height.toNat →
        view s.term.framebuffer m' p =
          (printedRow s.term.foregroundColor s.term.height.toNat start.toNat lines
            (start.toNat + lines.length - s.term.height.toNat +
              p.2 / s.font.header.characterSize.toNat) (p.1 / 8)).color s.font file (p.1 % 8)
            (p.2 % s.font.header.characterSize.toNat) := by
  have htext : ∀ c ∈ linesText lines, c ≠ 8 := by
    intro c hc
    obtain ⟨line, hline, hmem⟩ := List.mem_flatMap.mp hc
    rcases List.mem_append.mp hmem with hchar | hend
    · exact ((hlines line hline).plain c hchar).2
    · rw [List.mem_singleton.mp hend]
      decide
  obtain ⟨g, hg⟩ : ∃ g, g = s.cleared.call s.size (.setCursorPos 1 start) := ⟨_, rfl⟩
  have hmoved : g = { s.cleared with col := 1, row := start.toNat } := by
    rw [hg, TextGrid.call, if_neg]
    · rfl
    · have hone : (1 : UInt32).toNat = 1 := rfl
      rw [hone]
      exact fun hle => absurd (Nat.le_trans hwide hle) (by decide)
  have hwindow : Window s.size s.term.foregroundColor
      ⟨fun _ _ => .solid colorBlack, 1, start.toNat, 0⟩ g := by
    have hcells : ∀ r k, g.cells r k = .solid colorBlack := by
      intro r k
      rw [hmoved]
      exact congrArg Cell.solid hblack
    refine ⟨by rw [hmoved], by rw [hmoved]; exact Nat.zero_add _, by rw [hmoved]; rfl,
      by rw [hmoved]; exact hblack, fun r _ k => hcells r k, fun r _ k => hcells r k,
      fun _ _ _ => rfl, fun _ => rfl⟩
  obtain ⟨hpaper, hnear⟩ := lines_paper s.term.foregroundColor hstart hlines
  obtain ⟨hlast, hrange⟩ := window_text hwindow hwide hheight s.rows hint htext hnear
  have hlast : Window s.size s.term.foregroundColor _ _ := hpaper ▸ hlast
  have hpos : 0 * s.font.header.characterSize.toNat < 2 ^ 31 := by
    rw [Nat.zero_mul]
    decide
  have hclear : Shows s file (terminalClear s.term m).1 (terminalClear s.term m).2 s.cleared :=
    (clear_shows file m rfl rfl rfl (Nat.le_of_succ_le hwide)).1
  obtain ⟨t', m', hrun, hshows, -⟩ := run_shows hsize hclear (Nat.le_of_succ_le hwide) hheight
    (.setCursorPos 1 start :: (linesText lines).map .putc) ⟨hpos, by rw [← hg]; exact hrange⟩
  rw [List.foldl_cons, ← hg] at hshows
  refine ⟨t', m', hrun, ?_, fun p hp hrow => ?_⟩
  · rw [hshows.cursor, hlast.col]
    have hrow := hlast.row
    dsimp only at hrow
    congr 2
    omega
  · rw [hshows.pixels p hp, hlast.shown _ hrow]

/-- Two lines from the last of 25 rows on, of one and of two characters: of the second there
    is only the column of one on the screen. -/
theorem terminal_shows_lines_two : ∃ t' m',
    (.clear :: .setCursorPos 1 24 :: (linesText [[65], [66, 67]]).map .putc).foldlM
      (TerminalCall.run (smallText 1).font fun _ => 0xFF) ((smallText 1).term, fun _ => 0) =
        some (t', m') ∧
    t'.cursorPos = ⟨1, 25⟩ ∧ view smallScreen m' (8, 384) = colorWhite ∧
    view smallScreen m' (16, 384) = colorBlack := by
  have hlines : ∀ line ∈ [[65], [66, 67]], FitsRow (smallText 1).term.width.toNat line := by
    intro line hline
    simp only [List.mem_cons, List.not_mem_nil, or_false] at hline
    rcases hline with rfl | rfl
    · exact ⟨by simp, by decide, by simp⟩
    · exact ⟨by simp, by decide, by simp⟩
  obtain ⟨t', m', hrun, hcursor, hpixels⟩ := terminal_shows_lines (smallText 1) (fun _ => 0xFF)
    (fun _ => 0) (by decide) (by decide) (by decide) (by decide) rfl
    (show (24 : UInt32).toNat ≤ _ by decide) hlines
  exact ⟨t', m', hrun, hcursor, (hpixels (8, 384) (by decide) (by decide)).trans (by decide),
    (hpixels (16, 384) (by decide) (by decide)).trans (by decide)⟩

end Horizon64
