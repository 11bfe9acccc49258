import Mathlib.Data.List.Basic
import Horizon64.Framebuffer

/- The text terminal of `dev/terminal.c`.

   The cursor is a pair of C `int`s, the size of the terminal a pair of `uint32_t`s,
   and every comparison of the two converts the cursor to unsigned. What the
   functions do to the framebuffer is kept as the list of calls they make.

   The terminal scrolls only in `terminal_push_cursor`, after a glyph has been drawn
   below the last row; a line that ends, by `'\n'` or in the last column, moves the
   cursor down without looking. So:

   1. `Place`, where a byte of a text goes by counting the lines before it.
   2. As long as every glyph drawn was in a cell of the screen, the terminal never
      scrolled and its cursor is that place (`Follows`).
   3. `glyphs_on_screen_iff`: every glyph of a text is drawn in a cell exactly when
      every byte of it that draws has its place on the screen. -/
namespace Horizon64

def psf1FontWidth : UInt64 := 8
def terminalLeftOffset : Int32 := 1
def colorBlack : UInt32 := 0x000000
def colorWhite : UInt32 := 0xAAAAAA

structure Ivec2 where
  x : Int32
  y : Int32
  deriving DecidableEq, Repr

def ivec2One : Ivec2 := ⟨1, 1⟩

structure Terminal where
  framebuffer : Framebuffer
  backgroundColor : UInt32
  foregroundColor : UInt32
  width : UInt32
  height : UInt32
  cursorPos : Ivec2
  deriving DecidableEq, Repr

/-- A call into the framebuffer: `fb_putc` at the pixel of a cell, or the copying of
    `terminal_scroll` with the cursor in row `y`. -/
inductive FbCall where
  | putc (cell : Ivec2) (fgcolor bgcolor : UInt32) (ch : UInt8)
  | scroll (y : Int32)
  deriving DecidableEq, Repr

/-- `init_terminal`, with `font.header->character_size`, or `none` for a null header. -/
def initTerminal (font : Option UInt8) (fb : Framebuffer) (term : Terminal) : Terminal :=
  let term := { term with
    framebuffer := fb, backgroundColor := colorBlack, foregroundColor := colorWhite }
  match font with
  | none => term
  | some characterSize => { term with
      height := (fb.height / characterSize.toUInt64).toUInt32
      width := (fb.width / psf1FontWidth).toUInt32
      cursorPos := ivec2One }

def terminalScroll (t : Terminal) : List FbCall := [.scroll t.cursorPos.y]

def terminalPushCursor (t : Terminal) : Terminal × List FbCall :=
  let x := t.cursorPos.x
  let y := t.cursorPos.y
  if (x + 1).toUInt32 ≥ t.width then ({ t with cursorPos := ⟨terminalLeftOffset, y + 1⟩ }, [])
  else if y.toUInt32 ≥ t.height ∧ ¬ (y.toUInt32 = t.height ∧ x = 0) then
    ({ t with cursorPos := ⟨x, y - 1⟩ }, terminalScroll t)
  else ({ t with cursorPos := ⟨x + 1, y⟩ }, [])

def terminalPopCursor (t : Terminal) : Terminal :=
  let x := t.cursorPos.x - 1
  { t with cursorPos := ⟨if x < 1 then x + 1 else x, t.cursorPos.y⟩ }

/-- `fb_putc` at the cursor, in the colours of the terminal. -/
def Terminal.glyph (t : Terminal) (c : UInt8) : FbCall :=
  .putc t.cursorPos t.foregroundColor t.backgroundColor c

def terminalPutc (font : Option UInt8) (t : Terminal) (c : UInt8) : Terminal × List FbCall :=
  if c = 10 then ({ t with cursorPos := ⟨1, t.cursorPos.y + 1⟩ }, [])
  else if font = none then (t, [])
  else if c = 8 then
    let t := terminalPopCursor t
    (t, [t.glyph 32])
  else
    let (t', calls) := terminalPushCursor t
    (t', t.glyph c :: calls)

/-- Bytes given to `terminal_putc` one after the other. -/
def terminalWrite (font : Option UInt8) : Terminal → List UInt8 → Terminal × List FbCall
  | t, [] => (t, [])
  | t, c :: text =>
    let (t, calls) := terminalPutc font t c
    let (t, rest) := terminalWrite font t text
    (t, calls ++ rest)

def terminalPuts (font : Option UInt8) (t : Terminal) (s : List UInt8) : Terminal × List FbCall :=
  terminalWrite font t (s.takeWhile (· ≠ 0))

/-- A glyph goes to a cell of the terminal, off the left edge. -/
def FbCall.InCell (width height : UInt32) : FbCall → Prop
  | .putc cell _ _ _ => 1 ≤ cell.x.toInt ∧ cell.x.toInt < width.toNat ∧
      0 ≤ cell.y.toInt ∧ cell.y.toInt < height.toNat
  | .scroll _ => True

/-! Where the bytes of a text go. -/

/-- A column, and the number of lines ended so far plus one. -/
structure Place where
  col : Nat
  line : Nat
  deriving DecidableEq, Repr

/-- Where the next byte goes. -/
def Place.next (width : Nat) (p : Place) (c : UInt8) : Place :=
  if c = 10 then ⟨1, p.line + 1⟩
  else if c = 8 then ⟨if p.col ≤ 1 then p.col else p.col - 1, p.line⟩
  else if p.col + 1 ≥ width then ⟨1, p.line + 1⟩
  else ⟨p.col + 1, p.line⟩

/-- Where a byte draws: a backspace blanks the cell before, `'\n'` draws nothing. -/
def Place.draws (p : Place) (c : UInt8) : Option Place :=
  if c = 10 then none
  else if c = 8 then some ⟨if p.col ≤ 1 then p.col else p.col - 1, p.line⟩
  else some p

/-- The cell of the place, as `int`s. -/
def Place.cell (p : Place) : Ivec2 := ⟨Int32.ofNat p.col, Int32.ofNat p.line⟩

/-- The row is one of the screen; as long as lines and columns are counted below `2^31`,
    `p.line < height`. -/
def Place.OnScreen (height : UInt32) (p : Place) : Prop :=
  1 ≤ p.cell.x.toInt ∧ 0 ≤ p.cell.y.toInt ∧ p.cell.y.toInt < height.toNat

/-- From `p` on, every byte of the text that draws has its place on the screen. -/
def FitsScreen (width height : UInt32) : Place → List UInt8 → Prop
  | _, [] => True
  | p, c :: text => (∀ q, p.draws c = some q → q.OnScreen height) ∧
      FitsScreen width height (p.next width.toNat c) text

/-! The cursor follows the text. -/

/-- The cursor of the terminal is at the place. -/
structure Follows (width height : UInt32) (t : Terminal) (p : Place) : Prop where
  width_eq : t.width = width
  height_eq : t.height = height
  wide : 1 < width.toNat
  cursor : t.cursorPos = p.cell
  left : 1 ≤ p.col
  right : p.col < width.toNat
  int : p.col ≤ 2 ^ 31

theorem onScreen_col {height : UInt32} {p : Place} (h : p.OnScreen height) (hle : p.col ≤ 2 ^ 31) :
    p.col < 2 ^ 31 := by
  by_contra hge
  have hcol : p.col = 2 ^ 31 := by omega
  have hx : 1 ≤ (Int32.ofNat p.col).toInt := h.1
  rw [hcol] at hx
  exact absurd hx (by decide)

theorem inCell_iff {width height fg bg : UInt32} {ch : UInt8} {p : Place}
    (hright : p.col < width.toNat) (hle : p.col ≤ 2 ^ 31) :
    (FbCall.putc p.cell fg bg ch).InCell width height ↔ p.OnScreen height := by
  constructor
  · intro h
    exact ⟨h.1, h.2.2⟩
  · intro h
    refine ⟨h.1, ?_, h.2⟩
    rw [Place.cell, Int32.toInt_ofNat_of_lt (onScreen_col h hle)]
    omega

theorem onScreen_row {height : UInt32} {p : Place} (h : p.OnScreen height) :
    ¬ p.cell.y.toUInt32 ≥ height := by
  obtain ⟨_, hlow, hhigh⟩ := h
  have hnonneg : (0 : Int32) ≤ p.cell.y := by
    rw [Int32.le_iff_toInt_le]
    simpa using hlow
  have hnat : (p.cell.y.toUInt32.toNat : Int) = p.cell.y.toInt := by
    rw [Int32.toNat_toUInt32_of_le hnonneg]
    exact Int.toNat_of_nonneg hlow
  rw [ge_iff_le, UInt32.le_iff_toNat_le]
  omega

theorem last_column {width : UInt32} {n : Nat} (h : n < width.toNat) :
    (Int32.ofNat n + 1).toUInt32 ≥ width ↔ n + 1 ≥ width.toNat := by
  have hlt := width.toNat_lt
  have hsum : (Int32.ofNat n + 1).toUInt32 = UInt32.ofNat (n + 1) := by
    rw [← Int32.toUInt32_ofNat', Int32.ofNat_add]
    rfl
  have hsize : n + 1 < UInt32.size := Nat.lt_of_le_of_lt h hlt
  rw [hsum, ge_iff_le, UInt32.le_iff_toNat_le, UInt32.toNat_ofNat_of_lt' hsize]

section Steps
variable {width height : UInt32} {t : Terminal} {p : Place} (h : Follows width height t p)
include h

theorem follows_line : Follows width height { t with cursorPos := ⟨1, t.cursorPos.y + 1⟩ }
    ⟨1, p.line + 1⟩ := by
  refine ⟨h.width_eq, h.height_eq, h.wide, ?_, Nat.le_refl 1, h.wide, Nat.one_le_two_pow⟩
  simp [h.cursor, Place.cell]

/-- Column 1 is as far back as a backspace goes. -/
theorem follows_pop : Follows width height (terminalPopCursor t)
    ⟨if p.col ≤ 1 then p.col else p.col - 1, p.line⟩ := by
  have hleft := h.left
  have hint := h.int
  have hright := h.right
  have hsub : Int32.ofNat p.col - 1 = Int32.ofNat (p.col - 1) := (Int32.ofNat_sub _ 1 hleft).symm
  have htest : Int32.ofNat (p.col - 1) < 1 ↔ p.col ≤ 1 := by
    rw [Int32.lt_iff_toInt_lt, Int32.toInt_ofNat_of_lt (by omega)]
    simp only [Int32.toInt_one]
    omega
  refine ⟨h.width_eq, h.height_eq, h.wide, ?_, ?_, ?_, ?_⟩
  · simp only [terminalPopCursor, h.cursor, Place.cell, hsub, htest]
    by_cases hone : p.col ≤ 1
    · simp only [hone, if_true, ← hsub]
      simp
    · simp only [hone, if_false]
  all_goals
    dsimp only
    split <;> omega

/-- After a glyph on the screen the cursor goes on; the terminal does not scroll. -/
theorem follows_push (hon : p.OnScreen height) : Follows width height (terminalPushCursor t).1
    (if p.col + 1 ≥ width.toNat then ⟨1, p.line + 1⟩ else ⟨p.col + 1, p.line⟩) := by
  have hcol : (t.cursorPos.x + 1).toUInt32 ≥ t.width ↔ p.col + 1 ≥ width.toNat := by
    rw [h.cursor, h.width_eq]
    exact last_column h.right
  have hrow : ¬ t.cursorPos.y.toUInt32 ≥ t.height := by
    rw [h.cursor, h.height_eq]
    exact onScreen_row hon
  by_cases hlast : p.col + 1 ≥ width.toNat
  · rw [if_pos hlast, terminalPushCursor, if_pos (hcol.mpr hlast)]
    exact follows_line h
  · rw [if_neg hlast, terminalPushCursor, if_neg (hlast ∘ hcol.mp),
      if_neg (fun hscroll => hrow hscroll.1)]
    have hless := onScreen_col hon h.int
    refine ⟨h.width_eq, h.height_eq, h.wide, ?_, by simp, Nat.not_le.mp hlast, hless⟩
    simp [h.cursor, Place.cell]

end Steps

theorem push_calls (t : Terminal) (width height : UInt32) :
    ∀ call ∈ (terminalPushCursor t).2, call.InCell width height := by
  intro call hcall
  unfold terminalPushCursor at hcall
  dsimp only at hcall
  split at hcall
  · simp at hcall
  · split at hcall
    · simp only [terminalScroll, List.mem_singleton] at hcall
      rw [hcall]
      trivial
    · simp at hcall

/-- One byte: its glyph is in a cell exactly when its place is on the screen, and then the
    cursor follows. -/
theorem terminalPutc_follows {width height : UInt32} {t : Terminal} {p : Place}
    (h : Follows width height t p) (size c : UInt8) :
    ((∀ call ∈ (terminalPutc (some size) t c).2, call.InCell width height) ↔
      ∀ q, p.draws c = some q → q.OnScreen height) ∧
    ((∀ q, p.draws c = some q → q.OnScreen height) →
      Follows width height (terminalPutc (some size) t c).1 (p.next width.toNat c)) := by
  by_cases hnl : c = 10
  · have hput : terminalPutc (some size) t c =
        ({ t with cursorPos := ⟨1, t.cursorPos.y + 1⟩ }, []) := by
      rw [terminalPutc, if_pos hnl]
    rw [hput, Place.draws, Place.next, if_pos hnl, if_pos hnl]
    exact ⟨by simp, fun _ => follows_line h⟩
  · by_cases hbs : c = 8
    · have hput : terminalPutc (some size) t c =
          (terminalPopCursor t, [(terminalPopCursor t).glyph 32]) := by
        simp [terminalPutc, hbs]
      have hpop := follows_pop h
      rw [hput, Place.draws, Place.next, if_neg hnl, if_neg hnl, if_pos hbs, if_pos hbs]
      refine ⟨?_, fun _ => hpop⟩
      simp only [List.mem_singleton, forall_eq, Option.some.injEq, forall_eq', Terminal.glyph,
        hpop.cursor]
      exact inCell_iff hpop.right hpop.int
    · have hput : terminalPutc (some size) t c =
          ((terminalPushCursor t).1, t.glyph c :: (terminalPushCursor t).2) := by
        simp [terminalPutc, hnl, hbs]
      rw [hput, Place.draws, Place.next, if_neg hnl, if_neg hnl, if_neg hbs, if_neg hbs]
      refine ⟨?_, fun hon => follows_push h (hon p rfl)⟩
      have hglyph : (t.glyph c).InCell width height ↔ p.OnScreen height := by
        rw [Terminal.glyph, h.cursor]
        exact inCell_iff h.right h.int
      have hrest := push_calls t width height
      simp only [List.mem_cons, forall_eq_or_imp, Option.some.injEq, forall_eq', hglyph]
      exact and_iff_left hrest

theorem terminalWrite_follows {width height : UInt32} (size : UInt8) (text : List UInt8) :
    ∀ {t : Terminal} {p : Place}, Follows width height t p →
      ((∀ call ∈ (terminalWrite (some size) t text).2, call.InCell width height) ↔
        FitsScreen width height p text) := by
  induction text with
  | nil =>
    intro t p _
    simp [terminalWrite, FitsScreen]
  | cons c text ih =>
    intro t p h
    obtain ⟨hcalls, hnext⟩ := terminalPutc_follows h size c
    rw [terminalWrite, FitsScreen]
    simp only [List.mem_append, or_imp, forall_and, hcalls]
    exact and_congr_right fun hon => ih (hnext hon)

theorem initTerminal_follows {size : UInt8} {fb : Framebuffer} {term : Terminal}
    (hwide : 2 ≤ (initTerminal (some size) fb term).width) :
    Follows (initTerminal (some size) fb term).width (initTerminal (some size) fb term).height
      (initTerminal (some size) fb term) ⟨1, 1⟩ := by
  have hnat : 2 ≤ (initTerminal (some size) fb term).width.toNat := UInt32.le_iff_toNat_le.mp hwide
  exact ⟨rfl, rfl, hnat, rfl, Nat.le_refl 1, hnat, by decide⟩

/-- On a terminal set up by `init_terminal`, every glyph of a text is drawn in a cell of the
    screen exactly when every byte that draws comes before the lines ended leave the
    screen. -/
theorem glyphs_on_screen_iff {size : UInt8} {fb : Framebuffer} {term t : Terminal}
    (hinit : initTerminal (some size) fb term = t) (hwide : 2 ≤ t.width) (text : List UInt8) :
    (∀ call ∈ (terminalWrite (some size) t text).2, call.InCell t.width t.height) ↔
      FitsScreen t.width t.height ⟨1, 1⟩ text := by
  subst hinit
  exact terminalWrite_follows size text (initTerminal_follows hwide)

theorem puts_on_screen_iff {size : UInt8} {fb : Framebuffer} {term t : Terminal}
    (hinit : initTerminal (some size) fb term = t) (hwide : 2 ≤ t.width) (s : List UInt8) :
    (∀ call ∈ (terminalPuts (some size) t s).2, call.InCell t.width t.height) ↔
      FitsScreen t.width t.height ⟨1, 1⟩ (s.takeWhile (· ≠ 0)) := by
  subst hinit
  exact terminalWrite_follows size _ (initTerminal_follows hwide)

def smallTerminal : Terminal :=
  initTerminal (some 16) smallScreen ⟨⟨0, 0, 0, 0, 0, 0, 0⟩, 0, 0, 0, 0, ⟨0, 0⟩⟩

/-- Four cells drawn, one of them a blank. -/
theorem glyphs_on_small_screen :
    (terminalWrite (some 16) smallTerminal [72, 105, 8, 10, 33]).2.length = 4 ∧
    ∀ call ∈ (terminalWrite (some 16) smallTerminal [72, 105, 8, 10, 33]).2,
      call.InCell smallTerminal.width smallTerminal.height := by
  refine ⟨by decide +kernel, ?_⟩
  apply (@glyphs_on_screen_iff 16 smallScreen _ smallTerminal rfl (by decide) _).mpr
  simp only [FitsScreen, Place.OnScreen]
  decide

/-- The cursor starts in row 1 of 25: the glyph after 24 line feeds is drawn in row 25,
    and only then the terminal scrolls. -/
theorem glyph_below_screen :
    ¬ ∀ call ∈ (terminalWrite (some 16) smallTerminal (List.replicate 24 10 ++ [65])).2,
      call.InCell smallTerminal.width smallTerminal.height := by
  have hcalls : (terminalWrite (some 16) smallTerminal (List.replicate 24 10 ++ [65])).2 =
      [.putc ⟨1, 25⟩ colorWhite colorBlack 65, .scroll 25] := by decide +kernel
  rw [hcalls]
  intro h
  exact absurd (h _ List.mem_cons_self).2.2.2 (by decide)

end Horizon64
