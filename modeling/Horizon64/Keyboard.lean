import Mathlib.Data.List.Induction
import Mathlib.Logic.Function.Basic

/- The keyboard handler of `dev/keyboard/keyboard.c`.

   `kbhandler` looks the character up before it updates the key states, with the shift
   keys and Caps Lock as they are held. The states follow the codes handled so far
   (`kbRun_keyPressed`), so the shift keys are right at every make. Caps Lock is a key
   that is held too, not one that is toggled, and while it is held it shifts every key, not
   the letters alone: `sentRight_iff` says for one code when that makes no difference. -/
namespace Horizon64

def leftShift : UInt8 := 0x2A
def rightShift : UInt8 := 0x36
def capsLock : UInt8 := 0x3A

/-- The characters of the keys without and with shift, in ASCII. -/
def scancodes : List (UInt8 × UInt8) := [
  (0, 0), (27, 0), (49, 33), (50, 64), (51, 35), (52, 36),
  (53, 37), (54, 94), (55, 38), (56, 42), (57, 40), (48, 41),
  (45, 95), (61, 43), (8, 0), (9, 0), (113, 81), (119, 87),
  (101, 69), (114, 82), (116, 84), (121, 89), (117, 85), (105, 73),
  (111, 79), (112, 80), (91, 123), (93, 125), (10, 0), (0, 0),
  (97, 65), (115, 83), (100, 68), (102, 70), (103, 71), (104, 72),
  (106, 74), (107, 75), (108, 76), (59, 58), (39, 34), (96, 126),
  (0, 0), (92, 124), (122, 90), (120, 88), (99, 67), (118, 86),
  (98, 66), (110, 78), (109, 77), (44, 60), (46, 62), (47, 63),
  (0, 0), (42, 0), (0, 0), (32, 0), (0, 0), (0, 0),
  (0, 0), (0, 0), (0, 0), (0, 0), (0, 0), (0, 0),
  (0, 0), (0, 0), (0, 0), (0, 0), (0, 0), (0, 0),
  (0, 0), (0, 0), (45, 0), (0, 0), (0, 0), (0, 0),
  (43, 0), (0, 0)] ++ List.replicate 48 (0, 0)

example : scancodes.length = 128 := rfl

def plainChar (scancode : UInt8) : UInt8 := (scancodes.getD scancode.toNat (0, 0)).1

def shiftedChar (scancode : UInt8) : UInt8 := (scancodes.getD scancode.toNat (0, 0)).2

def getCharacterFromScancode (scancode shift capsLock : UInt8) : UInt8 :=
  if (capsLock ≠ 0 ∨ shift ≠ 0) ∧ shiftedChar scancode ≠ 0 then shiftedChar scancode
  else plainChar scancode

/-- What the handler uses of `KEYBOARD_MOUSE`; `ptr_to_update` with the array it points to,
    or none for `NULL`. -/
structure Keyboard where
  lastKeystroke : UInt8
  keyPressed : UInt8 → Int32
  ptrToUpdate : Option (UInt8 → UInt8)

/-- The zeroed state. -/
def keyboardZero : Keyboard := ⟨0, fun _ => 0, none⟩

def keyboardSetKey (s : Keyboard) (state scancode : UInt8) : Keyboard :=
  let s := { s with keyPressed := Function.update s.keyPressed scancode (Int32.ofNat state.toNat) }
  let s := { s with lastKeystroke := if state ≠ 0 then scancode else 0 }
  { s with ptrToUpdate := s.ptrToUpdate.map fun p => Function.update p scancode state }

/-- `kbhandler`, with the code it reads, and the character it gives to `terminal_putc`. -/
def kbhandler (s : Keyboard) (keycode : UInt8) : Keyboard × Option UInt8 :=
  let scancode := keycode &&& 0x7F
  let keyState : UInt8 := if keycode &&& 0x80 = 0 then 1 else 0
  let c := getCharacterFromScancode scancode
    (s.keyPressed leftShift ||| s.keyPressed rightShift).toUInt32.toUInt8
    (s.keyPressed capsLock).toUInt32.toUInt8
  let s := keyboardSetKey s keyState scancode
  (s, if keyState ≠ 0 ∧ ((c ≥ 32 ∧ c ≤ 126) ∨ c = 8) then some c else none)

/-- The codes handled one after the other. -/
def kbRun (codes : List UInt8) : Keyboard :=
  codes.foldl (fun s b => (kbhandler s b).1) keyboardZero

/-! The keys, from the codes so far, the last one first. -/

def keyOf (b : UInt8) : UInt8 := b &&& 0x7F

def isMake (b : UInt8) : Bool := b &&& 0x80 = 0

/-- The last code of the key is a make. -/
def down : List UInt8 → UInt8 → Bool
  | [], _ => false
  | b :: before, key => if keyOf b = key then isMake b else down before key

def shiftDown (before : List UInt8) : Bool := down before leftShift || down before rightShift

/-- How often Caps Lock was released after it was pressed. -/
def capsStrokes : List UInt8 → Nat
  | [] => 0
  | b :: before =>
    capsStrokes before + if keyOf b = capsLock ∧ ¬ isMake b ∧ down before capsLock then 1 else 0

def isLetter (key : UInt8) : Bool := 97 ≤ plainChar key ∧ plainChar key ≤ 122

/-- The character of a key under the modifiers. -/
def charOf (before : List UInt8) (key : UInt8) : UInt8 :=
  if shiftDown before then
    if shiftedChar key ≠ 0 then shiftedChar key else plainChar key
  else if isLetter key ∧ capsStrokes before % 2 = 1 then shiftedChar key
  else plainChar key

/-- The character that the keys held select. -/
def heldChar (before : List UInt8) (key : UInt8) : UInt8 :=
  if (down before capsLock ∨ shiftDown before) ∧ shiftedChar key ≠ 0 then shiftedChar key
  else plainChar key

/-- A printable character that is sent for the code `b` is the one of its key. -/
def SentRight (before : List UInt8) (b : UInt8) : Prop :=
  ∀ c, (kbhandler (kbRun before) b).2 = some c → 32 ≤ c → c ≤ 126 →
    c = charOf before.reverse (keyOf b)

/-- All of them in a run. -/
def KeysTracked (codes : List UInt8) : Prop :=
  ∀ before b after, codes = before ++ b :: after → SentRight before b

/-- Caps Lock held does what the strokes before ask for: on a letter it is held when they
    are odd in number, and on another key it is not held. -/
def CapsRight (before : List UInt8) (key : UInt8) : Prop :=
  if isLetter key then (down before capsLock = true ↔ capsStrokes before % 2 = 1)
  else down before capsLock = false

/-! The handler follows the keys. -/

theorem kbRun_keyPressed (codes : List UInt8) (key : UInt8) :
    (kbRun codes).keyPressed key = if down codes.reverse key then 1 else 0 := by
  induction codes using List.reverseRecOn with
  | nil => rfl
  | append_singleton codes b ih =>
    have hrun : kbRun (codes ++ [b]) = (kbhandler (kbRun codes) b).1 := by
      rw [kbRun, List.foldl_append]
      rfl
    have hset : (kbhandler (kbRun codes) b).1.keyPressed =
        Function.update (kbRun codes).keyPressed (keyOf b) (if isMake b then 1 else 0) := by
      rw [kbhandler, keyboardSetKey, isMake, keyOf]
      by_cases hmake : b &&& 0x80 = 0
      · simp only [hmake, if_true, decide_true]
        rfl
      · simp only [hmake, if_false, decide_false]
        rfl
    -- the code handled last is the first of the history
    rw [hrun, hset, List.reverse_append, List.reverse_singleton, List.singleton_append, down]
    by_cases hkey : keyOf b = key
    · rw [hkey, Function.update_self, if_pos rfl]
    · rw [Function.update_of_ne (Ne.symm hkey), ih, if_neg hkey]

theorem kbhandler_char (before : List UInt8) (b : UInt8) :
    (kbhandler (kbRun before) b).2 =
      if isMake b ∧ ((heldChar before.reverse (keyOf b) ≥ 32 ∧
          heldChar before.reverse (keyOf b) ≤ 126) ∨ heldChar before.reverse (keyOf b) = 8) then
        some (heldChar before.reverse (keyOf b))
      else none := by
  have hstate : ∀ x : Bool, ((if x then 1 else 0 : Int32).toUInt32.toUInt8 ≠ 0) ↔ x = true := by
    decide
  have hor : ∀ x y : Bool, (if x then 1 else 0 : Int32) ||| (if y then 1 else 0) =
      if x || y then 1 else 0 := by
    decide
  have hchar : getCharacterFromScancode (keyOf b)
      ((kbRun before).keyPressed leftShift ||| (kbRun before).keyPressed rightShift).toUInt32.toUInt8
      ((kbRun before).keyPressed capsLock).toUInt32.toUInt8 =
        heldChar before.reverse (keyOf b) := by
    rw [kbRun_keyPressed, kbRun_keyPressed, kbRun_keyPressed, hor]
    exact if_congr (and_congr_left fun _ => or_congr (hstate _) (hstate _)) rfl rfl
  have hmake : (if b &&& 0x80 = 0 then (1 : UInt8) else 0) ≠ 0 ↔ isMake b = true := by
    rw [isMake, decide_eq_true_iff]
    split
    · next h => simp [h]
    · next h => simp [h]
  rw [keyOf] at hchar ⊢
  simp only [kbhandler, hchar, hmake]

/-- The table: a key with a shifted character has another one without shift, both of them
    printable, and the letters have one. -/
theorem scancodes_table : ∀ i < 128,
    ((scancodes.getD i (0, 0)).2 ≠ 0 →
      (scancodes.getD i (0, 0)).1 ≠ (scancodes.getD i (0, 0)).2 ∧
      (32 ≤ (scancodes.getD i (0, 0)).1 ∧ (scancodes.getD i (0, 0)).1 ≤ 126) ∧
      32 ≤ (scancodes.getD i (0, 0)).2 ∧ (scancodes.getD i (0, 0)).2 ≤ 126) ∧
    (97 ≤ (scancodes.getD i (0, 0)).1 ∧ (scancodes.getD i (0, 0)).1 ≤ 122 →
      (scancodes.getD i (0, 0)).2 ≠ 0) := by
  decide +kernel

section Key
variable {b : UInt8}

theorem keyOf_lt (b : UInt8) : (keyOf b).toNat < 128 := by
  rw [keyOf, UInt8.toNat_and]
  exact Nat.lt_of_le_of_lt Nat.and_le_right (by decide)

theorem shiftedChar_ne (h : shiftedChar (keyOf b) ≠ 0) :
    plainChar (keyOf b) ≠ shiftedChar (keyOf b) ∧
    (32 ≤ plainChar (keyOf b) ∧ plainChar (keyOf b) ≤ 126) ∧
    32 ≤ shiftedChar (keyOf b) ∧ shiftedChar (keyOf b) ≤ 126 :=
  (scancodes_table _ (keyOf_lt b)).1 h

theorem letter_shifted (h : isLetter (keyOf b) = true) : shiftedChar (keyOf b) ≠ 0 := by
  rw [isLetter, decide_eq_true_iff] at h
  exact (scancodes_table _ (keyOf_lt b)).2 h

theorem sentRight_of_shift {before : List UInt8}
    (h : shiftDown before.reverse = true ∨ shiftedChar (keyOf b) = 0) : SentRight before b := by
  intro c hsent _ _
  rw [kbhandler_char] at hsent
  split at hsent
  · cases hsent
    rw [charOf, heldChar]
    rcases h with hshift | hplain
    · simp [hshift]
    · have hletter : ¬ isLetter (keyOf b) = true := fun hl => letter_shifted hl hplain
      simp [hplain, hletter]
  · cases hsent

/-- The code of a key with a shifted character, with no shift key down: what is sent is right
    exactly when Caps Lock is. -/
theorem sentRight_iff {before : List UInt8} (hmake : isMake b = true)
    (hshifted : shiftedChar (keyOf b) ≠ 0) (hshift : shiftDown before.reverse = false) :
    SentRight before b ↔ CapsRight before.reverse (keyOf b) := by
  obtain ⟨hne, hplain, hprint⟩ := shiftedChar_ne hshifted
  have hsent : (kbhandler (kbRun before) b).2 =
      some (if down before.reverse capsLock then shiftedChar (keyOf b)
        else plainChar (keyOf b)) := by
    rw [kbhandler_char, heldChar]
    by_cases hcaps : down before.reverse capsLock = true
    · simp [hcaps, hshifted, hmake, hprint.1, hprint.2]
    · simp [hcaps, hshift, hmake, hplain.1, hplain.2]
  have hright : SentRight before b ↔
      (if down before.reverse capsLock then shiftedChar (keyOf b) else plainChar (keyOf b)) =
        charOf before.reverse (keyOf b) := by
    rw [SentRight, hsent]
    refine ⟨?_, ?_⟩
    · intro h
      refine h _ rfl ?_ ?_
      · split
        · exact hprint.1
        · exact hplain.1
      · split
        · exact hprint.2
        · exact hplain.2
    · rintro h c hc _ _
      cases hc
      exact h
  -- the two characters of the key differ, so that each case decides both sides
  rw [hright, charOf, CapsRight, hshift]
  simp only [Bool.false_eq_true, if_false]
  by_cases hletter : isLetter (keyOf b) = true
  · by_cases hcaps : down before.reverse capsLock = true <;>
      by_cases hodd : capsStrokes before.reverse % 2 = 1 <;>
      simp [hletter, hcaps, hodd, hne, Ne.symm hne]
  · by_cases hcaps : down before.reverse capsLock = true
    · simp [hletter, hcaps, Ne.symm hne]
    · simp [hletter, hcaps]

end Key

/-- In a run of codes every printable character is the one of its key exactly when, at every
    make of a key with a shifted character while no shift key is down, Caps Lock is held if
    and only if its strokes ask for the shifted character. -/
theorem keys_tracked_iff (codes : List UInt8) :
    KeysTracked codes ↔
      ∀ before b after, codes = before ++ b :: after → isMake b = true →
        shiftedChar (keyOf b) ≠ 0 → shiftDown before.reverse = false →
        CapsRight before.reverse (keyOf b) := by
  refine ⟨?_, ?_⟩
  · intro h before b after hcodes hmake hshifted hshift
    exact (sentRight_iff hmake hshifted hshift).mp (h before b after hcodes)
  · intro h before b after hcodes
    by_cases hshift : shiftDown before.reverse = true
    · exact sentRight_of_shift (Or.inl hshift)
    · by_cases hshifted : shiftedChar (keyOf b) = 0
      · exact sentRight_of_shift (Or.inr hshifted)
      · by_cases hmake : isMake b = true
        · rw [Bool.not_eq_true] at hshift
          exact (sentRight_iff hmake hshifted hshift).mpr
            (h before b after hcodes hmake hshifted hshift)
        · intro c hsent _ _
          rw [kbhandler_char] at hsent
          simp [hmake] at hsent

/-- Caps Lock pressed and released, and then the key of the letter a. -/
theorem keys_caps_stroke : ¬ ∀ codes, KeysTracked codes := by
  intro h
  have hright := h [0x3A, 0xBA, 0x1E] [0x3A, 0xBA] 0x1E [] rfl 97 (by decide) (by decide) (by decide)
  exact absurd hright (by decide)

end Horizon64
