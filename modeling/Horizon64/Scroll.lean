import Mathlib.Tactic.Ring
import Horizon64.Terminal

/- The pixels that `terminal_scroll` of `dev/terminal.c` moves.

   The loops copy the pixel rows above the row before the cursor's from one text row below,
   in place and from the top, and clear the rows from there on. Reading in the
   order of the loops meets no pixel that has been written (`copy_inOrder`), so
   the picture afterwards is the one before with the rows moved (`scroll_view`). With the
   cursor one row below the last one that is what scrolling is for. With the cursor further
   down, the rows from the last text row on are not cleared but copied. -/
namespace Horizon64
open Bytes

/-- `(cursor_pos.y - 1) * char_size` as a bound of a loop over `size_t`; `none` when an `int`
    overflows. -/
def scrollRows (y : Int32) (charSize : UInt8) : Option UInt64 :=
  let rows := (y.toInt - 1) * charSize.toNat
  if -2 ^ 31 ≤ y.toInt - 1 ∧ -2 ^ 31 ≤ rows ∧ rows < 2 ^ 31 then some (UInt64.ofInt rows) else none

/-- The two loops of `terminal_scroll`, with `rows` the bound of the first. -/
def terminalScrollLoops (fb : Framebuffer) (backgroundColor : UInt32) (charSize : UInt8)
    (rows : UInt64) (m : Memory) : Memory :=
  let m := (List.range rows.toNat).foldl (fun m y =>
    (List.range fb.width.toNat).foldl (fun m x =>
      let c := fbGetpixel fb m (UInt32.ofNat x) (UInt32.ofNat (y + charSize.toNat))
      fbPutpixel fb m (UInt32.ofNat x) (UInt32.ofNat y) c) m) m
  (List.range' rows.toNat (fb.height.toNat - rows.toNat)).foldl (fun m y =>
    (List.range fb.width.toNat).foldl (fun m x =>
      fbPutpixel fb m (UInt32.ofNat x) (UInt32.ofNat y) backgroundColor) m) m

/-- `terminal_scroll`, with a font whose glyphs have `charSize` rows. -/
def terminalScrollPixels (t : Terminal) (charSize : UInt8) (m : Memory) : Option Memory :=
  (scrollRows t.cursorPos.y charSize).map fun rows =>
    terminalScrollLoops t.framebuffer t.backgroundColor charSize rows m

/-- The addresses of the pixels the loops access. -/
def scrollAccesses (fb : Framebuffer) (charSize : UInt8) (rows : UInt64) : List UInt64 :=
  ((List.range rows.toNat).flatMap fun y =>
    (List.range fb.width.toNat).flatMap fun x =>
      (pixelAt fb (UInt32.ofNat x) (UInt32.ofNat (y + charSize.toNat))).toList ++
        (pixelAt fb (UInt32.ofNat x) (UInt32.ofNat y)).toList) ++
  (List.range' rows.toNat (fb.height.toNat - rows.toNat)).flatMap fun y =>
    (List.range fb.width.toNat).flatMap fun x =>
      (pixelAt fb (UInt32.ofNat x) (UInt32.ofNat y)).toList

/-- A terminal on an addressable framebuffer. -/
structure Console where
  term : Terminal
  addressable : term.framebuffer.Addressable

/-! The loops over rows and columns. -/

/-- The pixels of the rows, in the order of the loops. -/
def rowPixels (ys : List Nat) (width : Nat) : List (Nat × Nat) :=
  ys.flatMap fun y => (List.range width).map fun x => (x, y)

theorem mem_rowPixels {ys : List Nat} {width : Nat} {p : Nat × Nat} :
    p ∈ rowPixels ys width ↔ p.1 < width ∧ p.2 ∈ ys := by
  simp only [rowPixels, List.mem_flatMap, List.mem_map, List.mem_range]
  refine ⟨?_, ?_⟩
  · rintro ⟨y, hy, x, hx, rfl⟩
    exact ⟨hx, hy⟩
  · rintro ⟨hx, hy⟩
    exact ⟨p.2, hy, p.1, hx, rfl⟩

theorem foldl_rowPixels {σ : Type*} (g : σ → Nat → Nat → σ) (ys : List Nat) (width : Nat) (s : σ) :
    ys.foldl (fun s y => (List.range width).foldl (fun s x => g s x y) s) s =
      (rowPixels ys width).foldl (fun s p => g s p.1 p.2) s := by
  rw [rowPixels, List.foldl_flatMap]
  simp only [List.foldl_map]

theorem rowPixels_sorted {ys : List Nat} (h : ys.Pairwise (· < ·)) (width : Nat) :
    (rowPixels ys width).Pairwise fun p q => p.2 ≤ q.2 := by
  rw [rowPixels, List.pairwise_flatMap]
  refine ⟨?_, ?_⟩
  · intro y _
    rw [List.pairwise_map]
    exact List.pairwise_of_forall fun _ _ => Nat.le_refl y
  · refine h.imp fun hlt p hp q hq => ?_
    obtain ⟨_, _, rfl⟩ := List.mem_map.mp hp
    obtain ⟨_, _, rfl⟩ := List.mem_map.mp hq
    exact Nat.le_of_lt hlt

/-- The pixel that is copied to `p`. -/
def below (charSize : UInt8) (p : Nat × Nat) : Nat × Nat := (p.1, p.2 + charSize.toNat)

/-- No pixel is read after it was written. -/
theorem copy_inOrder {charSize : UInt8} (hsize : 0 < charSize.toNat) {ys : List Nat}
    (h : ys.Pairwise (· < ·)) (width : Nat) (V : Nat × Nat → Bool) :
    Paint.InOrder (fun (s : Nat × Nat → UInt32) p => s (below charSize p))
      ((rowPixels ys width).filter V) := by
  apply ((rowPixels_sorted h width).filter V).imp
  intro p q hle s a
  refine Function.update_of_ne (fun heq => ?_) a s
  have hrow : q.2 + charSize.toNat = p.2 := congrArg Prod.snd heq
  omega

section Picture
variable {fb : Framebuffer} (hfb : fb.Addressable) {charSize : UInt8} {rows : UInt64}
include hfb

theorem copy_view (hsize : 0 < charSize.toNat) (hrows : rows.toNat < 2 ^ 31) (m : Memory)
    (p : Nat × Nat) :
    view fb ((rowPixels (List.range rows.toNat) fb.width.toNat).foldl (fun m p =>
      fbPutpixel fb m (UInt32.ofNat p.1) (UInt32.ofNat p.2)
        (fbGetpixel fb m (UInt32.ofNat p.1) (UInt32.ofNat (p.2 + charSize.toNat)))) m) p =
      if fb.Visible p ∧ p.2 < rows.toNat then view fb m (below charSize p) else view fb m p := by
  have hbyte := charSize.toNat_lt
  have hround : ∀ (m : Memory), ∀ p ∈ rowPixels (List.range rows.toNat) fb.width.toNat,
      view fb (fbPutpixel fb m (UInt32.ofNat p.1) (UInt32.ofNat p.2)
        (fbGetpixel fb m (UInt32.ofNat p.1) (UInt32.ofNat (p.2 + charSize.toNat)))) =
      if fb.Visible p then Function.update (view fb m) p
        ((fun s p => s (below charSize p)) (view fb m) p)
      else view fb m := by
    intro m p hp
    obtain ⟨hx, hy⟩ := mem_rowPixels.mp hp
    rw [List.mem_range] at hy
    have hget : fbGetpixel fb m (UInt32.ofNat p.1) (UInt32.ofNat (p.2 + charSize.toNat)) =
        view fb m (below charSize p) :=
      @fbGetpixel_view fb hfb (below charSize p) m hx (by rw [below]; dsimp only; omega)
    rw [hget, view_fbPutpixel hfb m _ hx (by omega)]
  rw [Paint.view_foldl_apply hround (copy_inOrder hsize List.pairwise_lt_range _ _)]
  have hmem : (p ∈ rowPixels (List.range rows.toNat) fb.width.toNat ∧ fb.Visible p) ↔
      fb.Visible p ∧ p.2 < rows.toNat := by
    rw [mem_rowPixels, List.mem_range]
    exact ⟨fun h => ⟨h.2, h.1.2⟩, fun h => ⟨⟨h.1.1, h.2⟩, h.1⟩⟩
  simp only [hmem]

theorem clear_view (backgroundColor : UInt32) (m : Memory) (p : Nat × Nat) :
    view fb ((rowPixels (List.range' rows.toNat (fb.height.toNat - rows.toNat))
      fb.width.toNat).foldl (fun m p =>
        fbPutpixel fb m (UInt32.ofNat p.1) (UInt32.ofNat p.2) backgroundColor) m) p =
      if fb.Visible p ∧ rows.toNat ≤ p.2 then backgroundColor else view fb m p := by
  have hheight := hfb.height_le
  have hround : ∀ (m : Memory), ∀ p ∈ rowPixels
      (List.range' rows.toNat (fb.height.toNat - rows.toNat)) fb.width.toNat,
      view fb (fbPutpixel fb m (UInt32.ofNat p.1) (UInt32.ofNat p.2) backgroundColor) =
      if fb.Visible p then Function.update (view fb m) p backgroundColor else view fb m := by
    intro m p hp
    obtain ⟨hx, hy⟩ := mem_rowPixels.mp hp
    rw [List.mem_range'_1] at hy
    exact view_fbPutpixel hfb m _ hx (by omega)
  rw [Paint.view_foldl_apply hround (Paint.inOrder_const (fun _ => backgroundColor) _)]
  have hmem : (p ∈ rowPixels (List.range' rows.toNat (fb.height.toNat - rows.toNat))
      fb.width.toNat ∧ fb.Visible p) ↔ fb.Visible p ∧ rows.toNat ≤ p.2 := by
    rw [mem_rowPixels, List.mem_range'_1]
    refine ⟨fun h => ⟨h.2, h.1.2.1⟩, fun h => ⟨⟨h.1.1, h.2, ?_⟩, h.1⟩⟩
    have hrow := h.1.2
    omega
  simp only [hmem]

theorem scroll_view (hrows : rows.toNat < 2 ^ 31) (hsize : 0 < charSize.toNat ∨ rows.toNat = 0)
    (backgroundColor : UInt32) (m : Memory) (p : Nat × Nat) :
    view fb (terminalScrollLoops fb backgroundColor charSize rows m) p =
      if fb.Visible p then
        if p.2 < rows.toNat then view fb m (below charSize p) else backgroundColor
      else 0 := by
  have hcopied : view fb ((rowPixels (List.range rows.toNat) fb.width.toNat).foldl (fun m p =>
      fbPutpixel fb m (UInt32.ofNat p.1) (UInt32.ofNat p.2)
        (fbGetpixel fb m (UInt32.ofNat p.1) (UInt32.ofNat (p.2 + charSize.toNat)))) m) p =
      if fb.Visible p ∧ p.2 < rows.toNat then view fb m (below charSize p) else view fb m p := by
    rcases hsize with hpos | hzero
    · exact copy_view hfb hpos hrows m p
    · simp [hzero, rowPixels]
  rw [terminalScrollLoops]
  dsimp only
  rw [foldl_rowPixels (fun m x y => fbPutpixel fb m (UInt32.ofNat x) (UInt32.ofNat y)
      (fbGetpixel fb m (UInt32.ofNat x) (UInt32.ofNat (y + charSize.toNat)))),
    foldl_rowPixels (fun m x y => fbPutpixel fb m (UInt32.ofNat x) (UInt32.ofNat y)
      backgroundColor), clear_view hfb, hcopied]
  by_cases hv : fb.Visible p
  · by_cases hlt : p.2 < rows.toNat
    · simp [hv, hlt, Nat.not_le.mpr hlt]
    · simp [hv, hlt, Nat.not_lt.mp hlt]
  · simp [hv, view]

/-- The text rows above `height - 1` are copied as a whole when the first loop gets there. -/
theorem scroll_moved (hrows : rows.toNat < 2 ^ 31) (hsize : 0 < charSize.toNat ∨ rows.toNat = 0)
    {height : Nat} (hle : (height - 1) * charSize.toNat ≤ rows.toNat) (backgroundColor : UInt32)
    (m : Memory) {r i x : Nat} (hr : r + 1 < height) (hi : i < charSize.toNat)
    (hx : x < fb.width.toNat) :
    view fb (terminalScrollLoops fb backgroundColor charSize rows m) (x, r * charSize.toNat + i) =
      view fb m (x, (r + 1) * charSize.toNat + i) := by
  have hnext : (r + 1) * charSize.toNat ≤ (height - 1) * charSize.toNat :=
    Nat.mul_le_mul_right _ (by omega)
  have hexp : (r + 1) * charSize.toNat = r * charSize.toNat + charSize.toNat := by ring
  have hrow : below charSize (x, r * charSize.toNat + i) = (x, (r + 1) * charSize.toNat + i) := by
    rw [below, hexp]
    exact Prod.ext rfl (Nat.add_right_comm _ _ _)
  rw [scroll_view hfb hrows hsize, if_pos (show r * charSize.toNat + i < rows.toNat by omega), hrow]
  by_cases hv : fb.Visible (x, r * charSize.toNat + i)
  · rw [if_pos hv]
  · -- below the framebuffer both rows read as 0
    have hout : ¬ r * charSize.toNat + i < fb.height.toNat := fun h => hv ⟨hx, h⟩
    rw [if_neg hv, view, if_neg]
    intro hvisible
    have hbelow : (r + 1) * charSize.toNat + i < fb.height.toNat := hvisible.2
    omega

/-- The screen is background from the pixel row `low` on exactly when what the first loop copies
    there is. -/
theorem scroll_cleared_iff (hrows : rows.toNat < 2 ^ 31)
    (hsize : 0 < charSize.toNat ∨ rows.toNat = 0) (backgroundColor : UInt32) (m : Memory)
    (low : Nat) :
    (∀ y, low ≤ y → y < fb.height.toNat → ∀ x < fb.width.toNat,
      view fb (terminalScrollLoops fb backgroundColor charSize rows m) (x, y) = backgroundColor) ↔
    ∀ x y, fb.Visible (x, y) → low ≤ y → y < rows.toNat →
      view fb m (x, y + charSize.toNat) = backgroundColor := by
  have hview := scroll_view hfb hrows hsize backgroundColor m
  refine ⟨?_, ?_⟩
  · intro h x y hv hlow hrow
    have hcleared := h y hlow hv.2 x hv.1
    rw [hview, if_pos hv, if_pos hrow] at hcleared
    exact hcleared
  · intro h y hlow hy x hx
    rw [hview, if_pos ⟨hx, hy⟩]
    by_cases hrow : y < rows.toNat
    · rw [if_pos hrow]
      exact h x y ⟨hx, hy⟩ hlow hrow
    · rw [if_neg hrow]

/-- The loops access the framebuffer only. -/
theorem scroll_inside (hrows : rows.toNat < 2 ^ 31) :
    ∀ a ∈ scrollAccesses fb charSize rows, ∀ b, b - a < 4 → fb.Holds b := by
  have hbyte := charSize.toNat_lt
  have hheight := hfb.height_le
  have hpixel : ∀ x y a, x < fb.width.toNat → y < 2 ^ 32 →
      pixelAt fb (UInt32.ofNat x) (UInt32.ofNat y) = some a → ∀ b, b - a < 4 → fb.Holds b := by
    intro x y a hx hy ha b hb
    exact @pixelAt_holds fb hfb (x, y) hx hy a ha b hb
  intro a ha
  simp only [scrollAccesses, List.mem_append, List.mem_flatMap, List.mem_range, List.mem_range'_1,
    Option.mem_toList] at ha
  rcases ha with ⟨y, hy, x, hx, hread | hwritten⟩ | ⟨y, hy, x, hx, hcleared⟩
  · exact hpixel x _ a hx (by omega) hread
  · exact hpixel x y a hx (by omega) hwritten
  · exact hpixel x y a hx (by omega) hcleared

theorem scroll_off (hrows : rows.toNat < 2 ^ 31) (backgroundColor : UInt32) (m : Memory)
    {b : UInt64} (hb : ¬ fb.Holds b) :
    terminalScrollLoops fb backgroundColor charSize rows m b = m b := by
  have hheight := hfb.height_le
  have hput : ∀ (m : Memory) x y c, x < fb.width.toNat → y < 2 ^ 32 →
      fbPutpixel fb m (UInt32.ofNat x) (UInt32.ofNat y) c b = m b := by
    intro m x y c hx hy
    apply fbPutpixel_off
    intro a ha hnear
    exact hb (@pixelAt_holds fb hfb (x, y) hx hy a ha b hnear)
  have hloops : ∀ (m : Memory) (ys : List Nat) (color : Memory → Nat → Nat → UInt32),
      (∀ y ∈ ys, y < 2 ^ 32) →
      ys.foldl (fun m y => (List.range fb.width.toNat).foldl (fun m x =>
        fbPutpixel fb m (UInt32.ofNat x) (UInt32.ofNat y) (color m x y)) m) m b = m b := by
    intro m ys color hys
    rw [foldl_rowPixels fun m x y =>
      fbPutpixel fb m (UInt32.ofNat x) (UInt32.ofNat y) (color m x y)]
    apply List.foldlRecOn (motive := fun m' : Memory => m' b = m b)
    · rfl
    · intro m' h p hp
      obtain ⟨hx, hy⟩ := mem_rowPixels.mp hp
      rw [hput _ _ _ _ hx (hys _ hy), h]
  rw [terminalScrollLoops]
  dsimp only
  rw [hloops _ _ (fun _ _ _ => backgroundColor), hloops m _ fun m x y =>
    fbGetpixel fb m (UInt32.ofNat x) (UInt32.ofNat (y + charSize.toNat))]
  · intro y hy
    rw [List.mem_range] at hy
    omega
  · intro y hy
    rw [List.mem_range'_1] at hy
    omega

/-- Memories that agree on the framebuffer agree on it afterwards: no other byte is read. -/
theorem scroll_agree (hrows : rows.toNat < 2 ^ 31) (backgroundColor : UInt32) {m m₂ : Memory}
    (h : fb.Agree m m₂) :
    fb.Agree (terminalScrollLoops fb backgroundColor charSize rows m)
      (terminalScrollLoops fb backgroundColor charSize rows m₂) := by
  have hbyte := charSize.toNat_lt
  -- the two runs of each loop agree round by round
  apply List.foldl_rel (r := fb.Agree)
  · apply List.foldl_rel h
    intro y hy m m₂ h
    rw [List.mem_range] at hy
    apply List.foldl_rel h
    intro x hx m m₂ h
    rw [List.mem_range] at hx
    rw [@fbGetpixel_agree fb hfb (x, y + charSize.toNat) m m₂ h hx (by dsimp only; omega)]
    exact fbPutpixel_agree h _ _ _
  · intro y _ m m₂ h
    apply List.foldl_rel h
    intro x _ m m₂ h
    exact fbPutpixel_agree h _ _ _

end Picture

/-! What scrolling is for. -/

/-- The text rows above the last one show the rows below them, and from the last one on the
    screen is background; the framebuffer is all that is accessed. -/
structure Scrolled (fb : Framebuffer) (height charSize : Nat) (backgroundColor : UInt32)
    (accesses : List UInt64) (m m' : Memory) : Prop where
  moved : ∀ r, r + 1 < height → ∀ i < charSize, ∀ x < fb.width.toNat,
    view fb m' (x, r * charSize + i) = view fb m (x, (r + 1) * charSize + i)
  cleared : ∀ y, (height - 1) * charSize ≤ y → y < fb.height.toNat → ∀ x < fb.width.toNat,
    view fb m' (x, y) = backgroundColor
  inside : ∀ a ∈ accesses, ∀ b, b - a < 4 → fb.Holds b
  outside : ∀ b, ¬ fb.Holds b → m' b = m b

/-- `terminal_scroll` does that, and what other memory holds makes no difference to it. -/
def ScrollsByOneRow (t : Terminal) (charSize : UInt8) (m : Memory) : Prop :=
  ∃ rows m', scrollRows t.cursorPos.y charSize = some rows ∧
    terminalScrollPixels t charSize m = some m' ∧
    Scrolled t.framebuffer t.height.toNat charSize.toNat t.backgroundColor
      (scrollAccesses t.framebuffer charSize rows) m m' ∧
    ∀ m₂ m₂', terminalScrollPixels t charSize m₂ = some m₂' → t.framebuffer.Agree m m₂ →
      t.framebuffer.Agree m' m₂'

/-- The bound of the first loop, for a cursor below row 0. -/
theorem scrollRows_eq {y : Int32} (charSize : UInt8) {n : Nat} (hn : y.toInt = n + 1)
    {rows : UInt64} : scrollRows y charSize = some rows ↔
      n * charSize.toNat < 2 ^ 31 ∧ rows = UInt64.ofNat (n * charSize.toNat) := by
  have hprod : (y.toInt - 1) * (charSize.toNat : Int) = (n * charSize.toNat : Nat) := by
    rw [hn, Int.add_sub_cancel, Int.natCast_mul]
  have hword : UInt64.ofInt (n * charSize.toNat : Nat) = UInt64.ofNat (n * charSize.toNat) := by
    apply UInt64.toNat_inj.mp
    rw [UInt64.ofInt, UInt64.toNat_ofNat', UInt64.toNat_ofNat']
    omega
  rw [scrollRows, hprod]
  rw [hword]
  refine ⟨?_, ?_⟩
  · intro h
    split at h
    · next hint =>
      cases h
      exact ⟨by omega, rfl⟩
    · cases h
  · rintro ⟨hlt, rfl⟩
    exact if_pos ⟨by omega, by omega, by omega⟩

/-- Scrolling moves the text by one row exactly when the number of pixel rows above the
    cursor's row is an `int`, and every pixel that is copied to the last text row or below it
    was background before. The cursor just below the screen has none of those. -/
theorem terminal_scroll_iff (c : Console) (charSize : UInt8) (m : Memory)
    (hheight : 1 ≤ c.term.height.toNat) (hy : c.term.height.toNat ≤ c.term.cursorPos.y.toInt) :
    ScrollsByOneRow c.term charSize m ↔
      (c.term.cursorPos.y.toInt - 1) * charSize.toNat < 2 ^ 31 ∧
      ∀ x y, c.term.framebuffer.Visible (x, y) → (c.term.height.toNat - 1) * charSize.toNat ≤ y →
        (y : Int) < (c.term.cursorPos.y.toInt - 1) * charSize.toNat →
        view c.term.framebuffer m (x, y + charSize.toNat) = c.term.backgroundColor := by
  obtain ⟨t, hfb⟩ := c
  dsimp only at hheight hy ⊢
  obtain ⟨n, hn⟩ : ∃ n : Nat, t.cursorPos.y.toInt = n + 1 :=
    ⟨(t.cursorPos.y.toInt - 1).toNat, by omega⟩
  have hprod : (t.cursorPos.y.toInt - 1) * (charSize.toNat : Int) = (n * charSize.toNat : Nat) := by
    rw [hn, Int.add_sub_cancel, Int.natCast_mul]
  have hle : (t.height.toNat - 1) * charSize.toNat ≤ n * charSize.toNat :=
    Nat.mul_le_mul_right _ (by omega)
  have hword (hlt : n * charSize.toNat < 2 ^ 31) :
      (UInt64.ofNat (n * charSize.toNat)).toNat = n * charSize.toNat :=
    Words.toNat_ofNat_of_lt (by omega)
  -- without rows of pixels there is nothing to copy
  have hsize (hlt : n * charSize.toNat < 2 ^ 31) :
      0 < charSize.toNat ∨ (UInt64.ofNat (n * charSize.toNat)).toNat = 0 := by
    rcases Nat.eq_zero_or_pos charSize.toNat with hzero | hpos
    · exact Or.inr (by rw [hword hlt, hzero, Nat.mul_zero])
    · exact Or.inl hpos
  rw [hprod]
  refine ⟨?_, ?_⟩
  · rintro ⟨rows, m', hrows, hm', hscrolled, _⟩
    rw [terminalScrollPixels, hrows, Option.map_some, Option.some.injEq] at hm'
    obtain ⟨hlt, rfl⟩ := (scrollRows_eq charSize hn).mp hrows
    have hcleared := hscrolled.cleared
    rw [← hm', scroll_cleared_iff hfb (by rw [hword hlt]; exact hlt) (hsize hlt), hword hlt]
      at hcleared
    exact ⟨by omega, fun x y hv hlow hhigh => hcleared x y hv hlow (by omega)⟩
  · rintro ⟨hint, hbackground⟩
    have hlt : n * charSize.toNat < 2 ^ 31 := by omega
    have hrows := (scrollRows_eq charSize hn).mpr ⟨hlt, rfl⟩
    have hbound : (UInt64.ofNat (n * charSize.toNat)).toNat < 2 ^ 31 := by
      rw [hword hlt]
      exact hlt
    refine ⟨_, _, hrows, by rw [terminalScrollPixels, hrows]; rfl, ⟨?_, ?_, ?_, ?_⟩, ?_⟩
    · intro r hr i hi x hx
      exact scroll_moved hfb hbound (hsize hlt) (by rw [hword hlt]; exact hle) _ m hr hi hx
    · rw [scroll_cleared_iff hfb hbound (hsize hlt), hword hlt]
      exact fun x y hv hlow hhigh => hbackground x y hv hlow (by omega)
    · exact scroll_inside hfb hbound
    · exact fun b hb => scroll_off hfb hbound _ m hb
    · intro m₂ m₂' hrun hagree
      rw [terminalScrollPixels, hrows, Option.map_some, Option.some.injEq] at hrun
      rw [← hrun]
      exact scroll_agree hfb hbound _ hagree

theorem smallScreen_addressable : smallScreen.Addressable := ⟨by decide, by decide, by decide⟩

/-- The console of the small screen, with the cursor in row `y`. -/
def smallConsole (y : Int32) (backgroundColor : UInt32) : Console where
  term := { smallTerminal with cursorPos := ⟨1, y⟩, backgroundColor := backgroundColor }
  addressable := smallScreen_addressable

theorem terminal_scroll_just_below :
    ScrollsByOneRow (smallConsole 25 colorBlack).term 16 (fun _ => 0) := by
  apply (terminal_scroll_iff (smallConsole 25 colorBlack) 16 (fun _ => 0) (by decide)
    (by decide)).mpr
  refine ⟨by decide, fun x y _ hlow hhigh => ?_⟩
  have hlow' : 384 ≤ y := hlow
  have hhigh' : (y : Int) < 384 := hhigh
  omega

/-- With the cursor two rows below a screen that is not black, the last text row turns black:
    it is copied from below the framebuffer. -/
theorem terminal_scroll_far_below : ¬ ∀ (c : Console) charSize m, 1 ≤ c.term.height.toNat →
    c.term.height.toNat ≤ c.term.cursorPos.y.toInt → ScrollsByOneRow c.term charSize m := by
  intro h
  obtain ⟨rows, m', hrows, hm', hscrolled, _⟩ :=
    h (smallConsole 26 colorWhite) 16 (fun _ => 0) (by decide) (by decide)
  have hbound : scrollRows (smallConsole 26 colorWhite).term.cursorPos.y 16 = some 400 := by decide
  rw [hbound, Option.some.injEq] at hrows
  subst hrows
  rw [terminalScrollPixels, hbound, Option.map_some, Option.some.injEq] at hm'
  have hcleared := hscrolled.cleared 399 (by decide) (by decide) 0 (by decide)
  rw [← hm', scroll_view (smallConsole 26 colorWhite).addressable (by decide) (Or.inl (by decide)),
    if_pos (by decide), if_pos (by decide), view, if_neg (by decide)] at hcleared
  exact absurd hcleared (by decide)

end Horizon64
