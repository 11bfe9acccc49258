import Horizon64.Lib.Bytes
import Horizon64.Lib.Paint

/- The pixels of `graphics/framebuffer.c`.

   `fb_putpixel` and `fb_getpixel` make one test and access one address (`pixelAt`). The
   test adds a product of 64 bits and one of 32 bits, the address is an index into an
   array of 32-bit pixels, which does not wrap at 32 bits: `pixelAt_isSome` and
   `pixelAt_offset` give the two as numbers.

   On a framebuffer whose rows hold its columns, memory shows a picture (`view`): storing
   a visible pixel updates it there (`view_store`) and nothing else in memory. -/
namespace Horizon64
open Bytes

structure Framebuffer where
  base : UInt64
  backbuffer : UInt64
  swapbuffer : UInt64
  height : UInt64
  width : UInt64
  pitch : UInt64
  bpp : UInt16
  deriving DecidableEq, Repr

/-- The address that both pixel functions access, when their test lets them. -/
def pixelAt (fb : Framebuffer) (x y : UInt32) : Option UInt64 :=
  if fb.pitch * y.toUInt64 + (x * 4).toUInt64 < fb.pitch * fb.height then
    some (fb.backbuffer + fb.pitch * y.toUInt64 + 4 * x.toUInt64)
  else none

def fbPutpixel (fb : Framebuffer) (m : Memory) (x y color : UInt32) : Memory :=
  match pixelAt fb x y with
  | none => m
  | some p => store32 m p color

def fbGetpixel (fb : Framebuffer) (m : Memory) (x y : UInt32) : UInt32 :=
  match pixelAt fb x y with
  | none => 0
  | some p => load32 m p

/-! The test and the address as numbers. -/

namespace Framebuffer
variable (fb : Framebuffer)

/-- The bytes of the framebuffer. -/
def size : Nat := fb.pitch.toNat * fb.height.toNat

/-- Where the pixel of column `p.1` and row `p.2` begins. -/
def offset (p : Nat × Nat) : Nat := fb.pitch.toNat * p.2 + 4 * p.1

/-- The byte is one of the framebuffer. -/
def Holds (a : UInt64) : Prop := (a - fb.backbuffer).toNat < fb.size

/-- Two memories with the same framebuffer. -/
def Agree (m m' : Memory) : Prop := ∀ a, fb.Holds a → m' a = m a

end Framebuffer

theorem toNat_four_mul (x : UInt32) : (4 * x.toUInt64).toNat = 4 * x.toNat := by
  have hx := x.toNat_lt
  have hfour : (4 : UInt64).toNat = 4 := rfl
  rw [UInt64.toNat_mul, UInt32.toNat_toUInt64, hfour]
  omega

section Test
variable {fb : Framebuffer} (hsize : fb.size < 2 ^ 64) (x y : UInt32)

theorem toNat_size : (fb.pitch * fb.height).toNat = fb.size % 2 ^ 64 := UInt64.toNat_mul _ _

theorem toNat_test : (fb.pitch * y.toUInt64 + (x * 4).toUInt64).toNat =
    (fb.pitch.toNat * y.toNat + 4 * x.toNat % 2 ^ 32) % 2 ^ 64 := by
  have hfour : (4 : UInt32).toNat = 4 := rfl
  rw [UInt64.toNat_add, UInt64.toNat_mul, UInt32.toNat_toUInt64, UInt32.toNat_toUInt64,
    UInt32.toNat_mul, hfour, Nat.mul_comm x.toNat, Nat.mod_add_mod]

include hsize in
theorem pixelAt_isSome : (pixelAt fb x y).isSome ↔
    (fb.pitch.toNat * y.toNat + 4 * x.toNat % 2 ^ 32) % 2 ^ 64 < fb.size := by
  have htest : fb.pitch * y.toUInt64 + (x * 4).toUInt64 < fb.pitch * fb.height ↔
      (fb.pitch.toNat * y.toNat + 4 * x.toNat % 2 ^ 32) % 2 ^ 64 < fb.size := by
    rw [UInt64.lt_iff_toNat_lt, toNat_test, toNat_size, Nat.mod_eq_of_lt hsize]
  rw [← htest, pixelAt]
  split
  · next h => simpa using h
  · next h => simpa using h

/-- The byte `k` of the pixel that is accessed, from the start of the buffer. -/
theorem pixelAt_offset {p : UInt64} (hp : pixelAt fb x y = some p) (k : Nat) :
    (p + UInt64.ofNat k - fb.backbuffer).toNat =
      (fb.offset (x.toNat, y.toNat) + k) % 2 ^ 64 := by
  rw [pixelAt] at hp
  split at hp
  · cases hp
    have hdist : fb.backbuffer + fb.pitch * y.toUInt64 + 4 * x.toUInt64 + UInt64.ofNat k -
        fb.backbuffer = fb.pitch * y.toUInt64 + 4 * x.toUInt64 + UInt64.ofNat k := by
      rw [UInt64.add_assoc, UInt64.add_assoc, Words.add_sub_left, UInt64.add_assoc]
    rw [hdist, UInt64.toNat_add, UInt64.toNat_add, UInt64.toNat_mul, toNat_four_mul,
      UInt32.toNat_toUInt64, UInt64.toNat_ofNat', Framebuffer.offset]
    simp only [Nat.mod_add_mod, Nat.add_mod_mod]
  · cases hp

end Test

/-! Access stays in the framebuffer. -/

/-- What the two functions access is in the framebuffer, and when the pixel is not, nothing
    is written and 0 returned. -/
structure PixelSafe (fb : Framebuffer) (x y : UInt32) : Prop where
  inside : ∀ p, pixelAt fb x y = some p → ∀ k < 4, fb.Holds (p + UInt64.ofNat k)
  outside : fb.size < fb.offset (x.toNat, y.toNat) + 4 →
    (∀ m color, fbPutpixel fb m x y color = m) ∧ ∀ m, fbGetpixel fb m x y = 0

theorem pixelAt_of_put {fb : Framebuffer} {x y : UInt32}
    (h : ∀ m color, fbPutpixel fb m x y color = m) : pixelAt fb x y = none := by
  cases hp : pixelAt fb x y with
  | none => rfl
  | some p =>
    have hput := h (fun _ => 0) 1
    rw [fbPutpixel, hp] at hput
    have hload := load32_store32_self (fun _ => 0) p 1
    dsimp only at hput
    rw [hput] at hload
    exact absurd hload (by rw [load32]; decide)

/-- Pixel access stays in the framebuffer exactly when the pixel is one of it, or the test,
    whose products wrap, refuses it all the same. -/
theorem pixel_access_safe_iff (fb : Framebuffer) (x y : UInt32) (hpitch : 4 ∣ fb.pitch.toNat)
    (hsize : fb.pitch.toNat * fb.height.toNat < 2 ^ 64) :
    PixelSafe fb x y ↔
      fb.pitch.toNat * y.toNat + 4 * x.toNat < fb.pitch.toNat * fb.height.toNat ∨
        fb.pitch.toNat * fb.height.toNat ≤
          (fb.pitch.toNat * y.toNat + 4 * x.toNat % 2 ^ 32) % 2 ^ 64 := by
  have hbound : fb.size < 2 ^ 64 := hsize
  have htest := pixelAt_isSome hbound x y
  have hwhole : 4 ∣ fb.size := Dvd.dvd.mul_right hpitch _
  have hoff : 4 ∣ fb.offset (x.toNat, y.toNat) :=
    Nat.dvd_add (Dvd.dvd.mul_right hpitch _) (Nat.dvd_mul_right 4 _)
  change PixelSafe fb x y ↔ fb.offset (x.toNat, y.toNat) < fb.size ∨ fb.size ≤ _
  refine ⟨?_, ?_⟩
  · rintro ⟨_, houtside⟩
    by_contra h
    push Not at h
    obtain ⟨hge, hlt⟩ := h
    have hnone := pixelAt_of_put (houtside (by omega)).1
    rw [← htest, hnone] at hlt
    cases hlt
  · rintro (hin | hrefused)
    · have hroom : fb.offset (x.toNat, y.toNat) + 4 ≤ fb.size := by omega
      refine ⟨fun p hp k hk => ?_, fun hout => absurd hroom (Nat.not_le.mpr hout)⟩
      rw [Framebuffer.Holds, pixelAt_offset x y hp, Nat.mod_eq_of_lt] <;> omega
    · have hnone : pixelAt fb x y = none := by
        rw [← Option.not_isSome_iff_eq_none, htest]
        exact Nat.not_lt.mpr hrefused
      refine ⟨fun p hp => ?_, fun _ => ⟨fun m color => ?_, fun m => ?_⟩⟩
      · rw [hnone] at hp
        cases hp
      · rw [fbPutpixel, hnone]
      · rw [fbGetpixel, hnone]

/-- A screen of 640 by 400 pixels. -/
def smallScreen : Framebuffer := ⟨0, 0, 0, 400, 640, 2560, 32⟩

theorem pixel_access_last : PixelSafe smallScreen 639 399 :=
  (pixel_access_safe_iff smallScreen 639 399 ⟨640, rfl⟩ (by decide)).mpr (Or.inl (by decide))

/-- `x * 4` is 0 for column 2^30: the pixel 2^32 bytes behind the start is written. -/
theorem pixel_access_column : ¬ ∀ (fb : Framebuffer) (x y : UInt32), 4 ∣ fb.pitch.toNat →
    fb.pitch.toNat * fb.height.toNat < 2 ^ 64 → PixelSafe fb x y := by
  intro h
  have hat : pixelAt smallScreen 0x40000000 0 = some 0x100000000 := by decide
  have hin := (h smallScreen 0x40000000 0 ⟨640, rfl⟩ (by decide)).inside _ hat 0 (by decide)
  rw [Framebuffer.Holds] at hin
  exact absurd hin (by decide)

/-! The picture. -/

/-- The rows hold the columns, and the buffer has an end. -/
structure Framebuffer.Linear (fb : Framebuffer) : Prop where
  row : 4 * fb.width.toNat ≤ fb.pitch.toNat
  bounded : fb.size < 2 ^ 64

/-- The pixel is one of the screen. -/
def Framebuffer.Visible (fb : Framebuffer) (p : Nat × Nat) : Prop :=
  p.1 < fb.width.toNat ∧ p.2 < fb.height.toNat

instance (fb : Framebuffer) : DecidablePred fb.Visible :=
  fun p => inferInstanceAs (Decidable (p.1 < fb.width.toNat ∧ p.2 < fb.height.toNat))

def pixelAddr (fb : Framebuffer) (p : Nat × Nat) : UInt64 :=
  fb.backbuffer + UInt64.ofNat (fb.offset p)

/-- The picture that memory shows; outside of the screen there is 0. -/
def view (fb : Framebuffer) (m : Memory) (p : Nat × Nat) : UInt32 :=
  if fb.Visible p then load32 m (pixelAddr fb p) else 0

section Picture
variable {fb : Framebuffer} (hfb : fb.Linear) {p q : Nat × Nat}
include hfb

theorem offset_room (hp : fb.Visible p) : fb.offset p + 4 ≤ fb.pitch.toNat * (p.2 + 1) := by
  have hrow := hfb.row
  have hcol := hp.1
  rw [Framebuffer.offset, Nat.mul_add, Nat.mul_one]
  omega

theorem offset_end (hp : fb.Visible p) : fb.offset p + 4 ≤ fb.size :=
  calc fb.offset p + 4 ≤ fb.pitch.toNat * (p.2 + 1) := offset_room hfb hp
    _ ≤ fb.pitch.toNat * fb.height.toNat := Nat.mul_le_mul_left _ hp.2

theorem offset_apart (hp : fb.Visible p) (hq : fb.Visible q) (hne : p ≠ q) :
    fb.offset p + 4 ≤ fb.offset q ∨ fb.offset q + 4 ≤ fb.offset p := by
  have hrows : ∀ {p q : Nat × Nat}, fb.Visible p → p.2 < q.2 →
      fb.offset p + 4 ≤ fb.offset q := by
    intro p q hp hlt
    calc fb.offset p + 4 ≤ fb.pitch.toNat * (p.2 + 1) := offset_room hfb hp
      _ ≤ fb.pitch.toNat * q.2 := Nat.mul_le_mul_left _ hlt
      _ ≤ fb.offset q := Nat.le_add_right _ _
  rcases Nat.lt_trichotomy p.2 q.2 with hlt | heq | hgt
  · exact Or.inl (hrows hp hlt)
  · have hcol : p.1 ≠ q.1 := fun h => hne (Prod.ext h heq)
    simp only [Framebuffer.offset, heq]
    omega
  · exact Or.inr (hrows hq hgt)

theorem toNat_offset (hp : fb.Visible p) : (UInt64.ofNat (fb.offset p)).toNat = fb.offset p := by
  have hend := offset_end hfb hp
  have hbound := hfb.bounded
  exact Words.toNat_ofNat_of_lt (by omega)

/-- The bytes of a pixel of the screen are bytes of the framebuffer. -/
theorem holds_pixel (hp : fb.Visible p) {a : UInt64} (ha : a - pixelAddr fb p < 4) :
    fb.Holds a := by
  have hend := offset_end hfb hp
  have hbound := hfb.bounded
  have hfour : (4 : UInt64).toNat = 4 := rfl
  rw [UInt64.lt_iff_toNat_lt, hfour] at ha
  have hsplit := Words.sub_split a fb.backbuffer (UInt64.ofNat (fb.offset p))
  change a - fb.backbuffer = _ + (a - pixelAddr fb p) at hsplit
  have hoff := toNat_offset hfb hp
  rw [Framebuffer.Holds, hsplit, Words.toNat_add_of_lt (by omega), hoff]
  omega

theorem pixels_apart (hp : fb.Visible p) (hq : fb.Visible q) (hne : p ≠ q) :
    4 ≤ pixelAddr fb p - pixelAddr fb q := by
  have hp' := toNat_offset hfb hp
  have hq' := toNat_offset hfb hq
  have hpend := offset_end hfb hp
  have hqend := offset_end hfb hq
  have hbound := hfb.bounded
  have hfour : (4 : UInt64).toNat = 4 := rfl
  have happart := offset_apart hfb hp hq hne
  rw [pixelAddr, pixelAddr, Words.add_sub_add, UInt64.le_iff_toNat_le, hfour, UInt64.toNat_sub,
    hp', hq']
  omega

/-- Storing a pixel of the screen changes the picture there. -/
theorem view_store (m : Memory) (color : UInt32) (hp : fb.Visible p) :
    view fb (store32 m (pixelAddr fb p) color) = Function.update (view fb m) p color := by
  funext q
  by_cases heq : q = p
  · subst heq
    rw [Function.update_self, view, if_pos hp, load32_store32_self]
  · rw [Function.update_of_ne heq, view, view]
    split
    · next hq =>
      exact load32_store32_disjoint m color (pixels_apart hfb hq hp heq)
        (pixels_apart hfb hp hq (Ne.symm heq))
    · rfl

theorem pixelAt_visible (hp : fb.Visible p) (hx : p.1 < 2 ^ 32) (hy : p.2 < 2 ^ 32) :
    pixelAt fb (UInt32.ofNat p.1) (UInt32.ofNat p.2) = some (pixelAddr fb p) := by
  have hend := offset_end hfb hp
  have hbound := hfb.bounded
  have hx' : (UInt32.ofNat p.1).toNat = p.1 := UInt32.toNat_ofNat_of_lt' hx
  have hy' : (UInt32.ofNat p.2).toNat = p.2 := UInt32.toNat_ofNat_of_lt' hy
  have hsome := (pixelAt_isSome hfb.bounded (UInt32.ofNat p.1) (UInt32.ofNat p.2)).mpr (by
    rw [hx', hy']
    have hcut : 4 * p.1 % 2 ^ 32 ≤ 4 * p.1 := Nat.mod_le _ _
    rw [Framebuffer.offset] at hend
    rw [Nat.mod_eq_of_lt] <;> omega)
  obtain ⟨a, ha⟩ := Option.isSome_iff_exists.mp hsome
  rw [ha, Option.some.injEq]
  have hoff : _ = fb.offset ((UInt32.ofNat p.1).toNat, (UInt32.ofNat p.2).toNat) % 2 ^ 64 :=
    pixelAt_offset _ _ ha 0
  have hpair : ((UInt32.ofNat p.1).toNat, (UInt32.ofNat p.2).toNat) = p := Prod.ext hx' hy'
  rw [hpair, Nat.mod_eq_of_lt (by omega)] at hoff
  have hzero : a + UInt64.ofNat 0 = a := UInt64.add_zero a
  rw [hzero, ← toNat_offset hfb hp, UInt64.toNat_inj] at hoff
  rw [pixelAddr, ← hoff, Words.add_sub_back]

theorem fbPutpixel_visible (m : Memory) (color : UInt32) (hp : fb.Visible p) (hx : p.1 < 2 ^ 32)
    (hy : p.2 < 2 ^ 32) :
    fbPutpixel fb m (UInt32.ofNat p.1) (UInt32.ofNat p.2) color =
      store32 m (pixelAddr fb p) color := by
  rw [fbPutpixel, pixelAt_visible hfb hp hx hy]

end Picture

/-- A framebuffer whose rows, and the distance of two of them, are numbers of 32 bits. -/
structure Framebuffer.Addressable (fb : Framebuffer) : Prop where
  row : 4 * fb.width.toNat ≤ fb.pitch.toNat
  pitch_lt : fb.pitch.toNat < 2 ^ 32
  height_le : fb.height.toNat ≤ 2 ^ 32

section Addressable
variable {fb : Framebuffer} (hfb : fb.Addressable) {p : Nat × Nat}
include hfb

theorem Framebuffer.Addressable.linear : fb.Linear := by
  refine ⟨hfb.row, ?_⟩
  have hpitch := hfb.pitch_lt
  calc fb.pitch.toNat * fb.height.toNat ≤ (2 ^ 32 - 1) * 2 ^ 32 :=
        Nat.mul_le_mul (by omega) hfb.height_le
    _ < 2 ^ 64 := by decide

theorem pixelAt_below (hx : p.1 < fb.width.toNat) (hy : p.2 < 2 ^ 32)
    (hbelow : fb.height.toNat ≤ p.2) :
    pixelAt fb (UInt32.ofNat p.1) (UInt32.ofNat p.2) = none := by
  have hrow := hfb.row
  have hpitch := hfb.pitch_lt
  have hcol : p.1 < 2 ^ 32 := by omega
  have hx' : (UInt32.ofNat p.1).toNat = p.1 := UInt32.toNat_ofNat_of_lt' hcol
  have hy' : (UInt32.ofNat p.2).toNat = p.2 := UInt32.toNat_ofNat_of_lt' hy
  have hfar : fb.size ≤ fb.pitch.toNat * p.2 := Nat.mul_le_mul_left _ hbelow
  have hend : fb.pitch.toNat * (p.2 + 1) ≤ (2 ^ 32 - 1) * 2 ^ 32 :=
    Nat.mul_le_mul (by omega) hy
  rw [Nat.mul_add, Nat.mul_one] at hend
  rw [← Option.not_isSome_iff_eq_none, pixelAt_isSome hfb.linear.bounded, hx', hy',
    Nat.mod_eq_of_lt (show 4 * p.1 < 2 ^ 32 by omega), Nat.mod_eq_of_lt (by omega)]
  omega

theorem fbGetpixel_view (m : Memory) (hx : p.1 < fb.width.toNat) (hy : p.2 < 2 ^ 32) :
    fbGetpixel fb m (UInt32.ofNat p.1) (UInt32.ofNat p.2) = view fb m p := by
  have hrow := hfb.row
  have hpitch := hfb.pitch_lt
  rw [fbGetpixel, view]
  by_cases hv : p.2 < fb.height.toNat
  · rw [if_pos ⟨hx, hv⟩, pixelAt_visible hfb.linear ⟨hx, hv⟩ (by omega) hy]
  · rw [if_neg fun h => hv h.2, pixelAt_below hfb hx hy (Nat.not_lt.mp hv)]

theorem view_fbPutpixel (m : Memory) (color : UInt32) (hx : p.1 < fb.width.toNat)
    (hy : p.2 < 2 ^ 32) :
    view fb (fbPutpixel fb m (UInt32.ofNat p.1) (UInt32.ofNat p.2) color) =
      if fb.Visible p then Function.update (view fb m) p color else view fb m := by
  have hrow := hfb.row
  have hpitch := hfb.pitch_lt
  by_cases hv : p.2 < fb.height.toNat
  · rw [if_pos ⟨hx, hv⟩, fbPutpixel_visible hfb.linear m color ⟨hx, hv⟩ (by omega) hy,
      view_store hfb.linear m color ⟨hx, hv⟩]
  · rw [if_neg fun h => hv h.2, fbPutpixel, pixelAt_below hfb hx hy (Nat.not_lt.mp hv)]

/-- Whatever is accessed in a column of the screen is in the framebuffer. -/
theorem pixelAt_holds (hx : p.1 < fb.width.toNat) (hy : p.2 < 2 ^ 32) {a : UInt64}
    (ha : pixelAt fb (UInt32.ofNat p.1) (UInt32.ofNat p.2) = some a) {b : UInt64}
    (hb : b - a < 4) : fb.Holds b := by
  have hrow := hfb.row
  have hpitch := hfb.pitch_lt
  by_cases hv : p.2 < fb.height.toNat
  · rw [pixelAt_visible hfb.linear ⟨hx, hv⟩ (by omega) hy] at ha
    cases ha
    exact holds_pixel hfb.linear ⟨hx, hv⟩ hb
  · rw [pixelAt_below hfb hx hy (Nat.not_lt.mp hv)] at ha
    cases ha

/-- What is read in a column of the screen depends on the framebuffer only. -/
theorem fbGetpixel_agree {m m' : Memory} (h : fb.Agree m m') (hx : p.1 < fb.width.toNat)
    (hy : p.2 < 2 ^ 32) :
    fbGetpixel fb m' (UInt32.ofNat p.1) (UInt32.ofNat p.2) =
      fbGetpixel fb m (UInt32.ofNat p.1) (UInt32.ofNat p.2) := by
  rw [fbGetpixel, fbGetpixel]
  cases ha : pixelAt fb (UInt32.ofNat p.1) (UInt32.ofNat p.2) with
  | none => rfl
  | some a => exact load32_congr fun b hb => h b (pixelAt_holds hfb hx hy ha hb)

end Addressable

theorem fbPutpixel_agree {fb : Framebuffer} {m m' : Memory} (h : fb.Agree m m')
    (x y color : UInt32) : fb.Agree (fbPutpixel fb m x y color) (fbPutpixel fb m' x y color) := by
  intro b hb
  rw [fbPutpixel, fbPutpixel]
  cases pixelAt fb x y with
  | none => exact h b hb
  | some a => simp only [store32, h b hb]

theorem fbPutpixel_off {fb : Framebuffer} {m : Memory} {x y color : UInt32} {b : UInt64}
    (h : ∀ a, pixelAt fb x y = some a → ¬ b - a < 4) : fbPutpixel fb m x y color b = m b := by
  rw [fbPutpixel]
  cases hp : pixelAt fb x y with
  | none => rfl
  | some a => exact store32_off (h a hp)

end Horizon64
