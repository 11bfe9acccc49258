import Mathlib.Data.List.Induction
import Horizon64.Lib.Words

/- Files of the system image (`init/iso_file.c`).

   A C string is an object of its own: its characters and the NUL after them, and a read
   at any other place gives `none`. Pointers into a string are indices from its start.

   1. The functions.
   2. `checkStringEndingLoop_split`: what the backwards loop finds.
   3. `check_string_ending_iff`: when `check_string_ending` decides whether a string ends in
      another, and with that when `get_iso_file` returns the first such module. -/
namespace Horizon64

/-- A string with its NUL. -/
structure NulString where
  bytes : List UInt8
  nonzero : 0 ∉ bytes

/-- The character at an index; `none` outside the string and its NUL. -/
def NulString.read (s : NulString) (i : Int) : Option UInt8 :=
  if 0 ≤ i then (s.bytes ++ [0])[i.toNat]? else none

/-- The loops that look for the NUL, with `left` characters of the object from `i` on. -/
def NulString.skip (s : NulString) : Nat → Nat → Option Nat
  | 0, _ => none
  | left + 1, i =>
    match s.read i with
    | some c => if c ≠ 0 then s.skip left (i + 1) else some i
    | none => none

/-- The loop of `check_string_ending`: `str` points at character `i` in state `i + 1`, and
    before its string in state 0; `end` points at character `j`. -/
def checkStringEndingLoop (str ending : NulString) : Nat → Int → Option Int32
  | 0, _ => none
  | i + 1, j =>
    match str.read i, ending.read j with
    | some a, some b =>
      if a ≠ b then some 0
      -- both pointers have moved by one from here on
      else if j - 1 = 0 ∨ (i = 1 ∧ j - 1 = 0) then some 1
      else if i = 1 then some 0
      else checkStringEndingLoop str ending i (j - 1)
    | _, _ => none

/-- `check_string_ending`; `none` when it reads outside a string. -/
def checkStringEnding (str ending : NulString) : Option Int32 :=
  match str.skip (str.bytes.length + 1) 0, ending.skip (ending.bytes.length + 1) 0 with
  | some i, some j => checkStringEndingLoop str ending i (j - 1)
  | _, _ => none

/-- What `get_iso_file` reads of a `LIMINE_FILE`, and where that is. -/
structure LimineFile where
  address : UInt64
  path : NulString

/-- How a call of `get_iso_file` ends; the file is `none` for `NULL`. -/
inductive IsoFileResult where
  | halted
  | outside
  | file (f : Option LimineFile)

/-- The loop of `get_iso_file` over the modules. -/
def getIsoFileLoop (name : NulString) : List LimineFile → IsoFileResult
  | [] => .file none
  | f :: modules =>
    match checkStringEnding f.path name with
    | some found => if found ≠ 0 then .file (some f) else getIsoFileLoop name modules
    | none => .outside

/-- `get_iso_file`, for the modules in the response of Limine. -/
def getIsoFile (name : NulString) : Option (List LimineFile) → IsoFileResult
  | none => .halted
  | some modules => getIsoFileLoop name modules

/-! Reading a string. -/

theorem read_split {s : NulString} {a u : List UInt8} {x : UInt8} (h : s.bytes = a ++ x :: u) :
    s.read a.length = some x := by
  rw [NulString.read, if_pos (Int.natCast_nonneg _), h]
  simp

theorem read_end (s : NulString) : s.read s.bytes.length = some 0 := by
  rw [NulString.read, if_pos (Int.natCast_nonneg _)]
  simp

theorem read_before (s : NulString) {i : Int} (h : i < 0) : s.read i = none :=
  if_neg (Int.not_le.mpr h)

theorem skip_eq (s : NulString) {a u : List UInt8} (h : s.bytes = a ++ u) :
    s.skip (u.length + 1) a.length = some s.bytes.length := by
  induction u generalizing a with
  | nil =>
    have hend : s.bytes.length = a.length := by rw [h, List.append_nil]
    rw [NulString.skip, ← hend, read_end]
    simp
  | cons x u ih =>
    have hx : x ≠ 0 := by
      rintro rfl
      exact s.nonzero (by simp [h])
    have hrest := @ih (a ++ [x]) (by simp [h])
    rw [List.length_append, List.length_singleton] at hrest
    rw [NulString.skip, read_split h]
    simpa [hx] using hrest

theorem checkStringEnding_eq (str ending : NulString) : checkStringEnding str ending =
    checkStringEndingLoop str ending str.bytes.length (ending.bytes.length - 1) := by
  have hstr : str.skip (str.bytes.length + 1) 0 = some str.bytes.length :=
    @skip_eq str [] str.bytes rfl
  have hend : ending.skip (ending.bytes.length + 1) 0 = some ending.bytes.length :=
    @skip_eq ending [] ending.bytes rfl
  rw [checkStringEnding, hstr, hend]

/-! The backwards loop. -/

theorem checkStringEndingLoop_succ {str ending : NulString} {i : Nat} {j : Int} {x y : UInt8}
    (hx : str.read i = some x) (hy : ending.read j = some y) :
    checkStringEndingLoop str ending (i + 1) j =
      if x ≠ y then some 0
      else if j - 1 = 0 ∨ (i = 1 ∧ j - 1 = 0) then some 1
      else if i = 1 then some 0
      else checkStringEndingLoop str ending i (j - 1) := by
  rw [checkStringEndingLoop, hx, hy]

theorem checkStringEndingLoop_before (str ending : NulString) (i : Nat) {j : Int} (h : j < 0) :
    checkStringEndingLoop str ending i j = none := by
  cases i with
  | zero => rfl
  | succ i =>
    rw [checkStringEndingLoop, read_before ending h]
    cases str.read i <;> rfl

theorem checkStringEndingLoop_values {str ending : NulString} {i : Nat} {j : Int} {r : Int32}
    (h : checkStringEndingLoop str ending i j = some r) : r = 0 ∨ r = 1 := by
  induction i generalizing j with
  | zero => cases h
  | succ i ih =>
    rw [checkStringEndingLoop] at h
    repeat' split at h
    · exact Or.inl (Option.some.inj h).symm
    · exact Or.inr (Option.some.inj h).symm
    · exact Or.inl (Option.some.inj h).symm
    · exact ih h
    · cases h

theorem not_suffix_of_last {x y : UInt8} (h : x ≠ y) {a b : List UInt8} :
    ¬ b ++ [y] <:+ a ++ [x] := by
  rintro ⟨t, ht⟩
  rw [← List.append_assoc] at ht
  exact h (List.singleton_inj.mp (List.append_inj_right' ht rfl)).symm

/-- With at least two characters left in both strings the loop compares all that is left of
    `end` but its first character. -/
theorem checkStringEndingLoop_split {str ending : NulString} {a b u v : List UInt8}
    (hstr : str.bytes = a ++ u) (hend : ending.bytes = b ++ v)
    (ha : 2 ≤ a.length) (hb : 2 ≤ b.length) :
    checkStringEndingLoop str ending a.length (b.length - 1) =
      some (if b.length ≤ a.length ∧ b.tail <:+ a then 1 else 0) := by
  induction a using List.reverseRecOn generalizing b u v with
  | nil => simp at ha
  | append_singleton a x ih =>
    obtain ⟨b, y, rfl⟩ : ∃ b' y, b = b' ++ [y] := by
      rcases List.eq_nil_or_concat b with rfl | ⟨b', y, rfl⟩
      · simp at hb
      · exact ⟨b', y, List.concat_eq_append⟩
    rw [List.length_append, List.length_singleton] at ha hb
    have hne : b ≠ [] := List.ne_nil_of_length_pos (by omega)
    have hx : str.read a.length = some x := read_split (by simpa using hstr)
    have hy : ending.read b.length = some y := read_split (by simpa using hend)
    have htail : (b ++ [y]).tail = b.tail ++ [y] := List.tail_append_of_ne_nil hne
    have hj : ((b ++ [y]).length : Int) - 1 = b.length := by simp
    rw [hj, List.length_append, List.length_singleton, List.length_append, List.length_singleton,
      checkStringEndingLoop_succ hx hy, htail]
    by_cases hxy : x = y
    · subst hxy
      simp only [ne_eq, not_true_eq_false, if_false, List.suffix_append_self_iff]
      by_cases hb1 : b.length = 1
      · -- `end` is at its first character
        have hnil : b.tail = [] := List.eq_nil_of_length_eq_zero (by rw [List.length_tail]; omega)
        rw [if_pos (Or.inl (by omega)), if_pos ⟨by omega, hnil ▸ List.nil_suffix⟩]
      · rw [if_neg (by omega)]
        by_cases ha1 : a.length = 1
        · rw [if_pos ha1, if_neg (fun h => by omega)]
        · rw [if_neg ha1, ih (by simpa using hstr) (by simpa using hend) (by omega) (by omega)]
          simp only [Nat.add_le_add_iff_right]
    · rw [if_pos hxy, if_neg fun h => not_suffix_of_last hxy h.2]

/-! When the answer is right. -/

/-- There is a character to start at, and the last characters differ or both strings have
    at least two and the first character of `end`, which is never compared, is right when
    all after it is. -/
def Decided (str ending : NulString) : Prop :=
  str.bytes ≠ [] ∧ (str.bytes.getLast? ≠ ending.bytes.getLast? ∨
    (2 ≤ str.bytes.length ∧ 2 ≤ ending.bytes.length ∧
      (ending.bytes.length ≤ str.bytes.length → ending.bytes.tail <:+ str.bytes →
        ending.bytes <:+ str.bytes)))

/-- The answer `check_string_ending` is to give. -/
def endsWith (str ending : NulString) : Int32 := if ending.bytes <:+ str.bytes then 1 else 0

theorem checkStringEnding_last {str ending : NulString} {a b : List UInt8} {x y : UInt8}
    (hstr : str.bytes = a ++ [x]) (hend : ending.bytes = b ++ [y]) :
    checkStringEnding str ending =
      if x ≠ y then some 0
      else if (b.length : Int) - 1 = 0 ∨ (a.length = 1 ∧ (b.length : Int) - 1 = 0) then some 1
      else if a.length = 1 then some 0
      else checkStringEndingLoop str ending a.length (b.length - 1) := by
  have hj : (ending.bytes.length : Int) - 1 = b.length := by simp [hend]
  have hi : str.bytes.length = a.length + 1 := by simp [hstr]
  rw [checkStringEnding_eq, hj, hi]
  exact checkStringEndingLoop_succ (read_split hstr) (read_split hend)

/-- With the same last character and a string of one character, the answer is wrong or the
    loop leaves a string. -/
theorem checkStringEnding_short {str ending : NulString} {a b : List UInt8} {x : UInt8}
    (hstr : str.bytes = a ++ [x]) (hend : ending.bytes = b ++ [x])
    (hshort : a.length = 0 ∨ b.length = 0) :
    checkStringEnding str ending ≠ some (endsWith str ending) := by
  rw [checkStringEnding_last hstr hend, if_neg (not_not.mpr rfl)]
  by_cases hb : b.length = 0
  · have hone : endsWith str ending = 1 := by
      rw [endsWith, if_pos]
      simp [hstr, hend, List.eq_nil_of_length_eq_zero hb]
    rw [if_neg (by omega), hone]
    by_cases ha : a.length = 1
    · rw [if_pos ha]
      simp
    · rw [if_neg ha, checkStringEndingLoop_before _ _ _ (by omega)]
      simp
  · have ha := hshort.resolve_right hb
    have hzero : endsWith str ending = 0 := by
      rw [endsWith, if_neg]
      intro hsuffix
      have hlen := hsuffix.length_le
      rw [hstr, hend, List.length_append, List.length_append] at hlen
      omega
    rw [hzero, ha]
    by_cases hb1 : b.length = 1
    · rw [if_pos (Or.inl (by omega))]
      simp
    · rw [if_neg (by omega), if_neg (by decide), checkStringEndingLoop]
      simp

theorem checkStringEnding_iff (str : NulString) {ending : NulString} (h : ending.bytes ≠ []) :
    checkStringEnding str ending = some (endsWith str ending) ↔ Decided str ending := by
  obtain ⟨b, y, hend⟩ := (List.eq_nil_or_concat ending.bytes).resolve_left h
  rw [List.concat_eq_append] at hend
  rcases List.eq_nil_or_concat str.bytes with hstr | ⟨a, x, hstr⟩
  · rw [checkStringEnding_eq, hstr, List.length_nil, checkStringEndingLoop]
    simp [Decided, hstr]
  rw [List.concat_eq_append] at hstr
  have hne : str.bytes ≠ [] := by simp [hstr]
  by_cases hxy : x = y
  · subst hxy
    have hlast : str.bytes.getLast? = ending.bytes.getLast? := by simp [hstr, hend]
    by_cases hshort : a.length = 0 ∨ b.length = 0
    · refine iff_of_false (checkStringEnding_short hstr hend hshort) fun hd => ?_
      obtain ⟨h2, h2', _⟩ := hd.2.resolve_left (not_not.mpr hlast)
      simp only [hstr, hend, List.length_append, List.length_singleton] at h2 h2'
      omega
    · have ha : 2 ≤ str.bytes.length := by
        rw [hstr, List.length_append, List.length_singleton]
        omega
      have hb : 2 ≤ ending.bytes.length := by
        rw [hend, List.length_append, List.length_singleton]
        omega
      have hsplit := @checkStringEndingLoop_split str ending str.bytes ending.bytes [] []
        (by simp) (by simp) ha hb
      rw [checkStringEnding_eq, hsplit, endsWith, Option.some.injEq]
      simp only [Decided, hne, hlast, ha, hb, ne_eq, not_true_eq_false, not_false_eq_true, true_and,
        false_or]
      by_cases hsuffix : ending.bytes <:+ str.bytes
      · have htail := (List.tail_suffix ending.bytes).trans hsuffix
        simp [hsuffix, htail, hsuffix.length_le]
      · simp [hsuffix]
  · have hnot : ¬ ending.bytes <:+ str.bytes := by
      rw [hstr, hend]
      exact not_suffix_of_last hxy
    rw [checkStringEnding_last hstr hend, if_pos hxy, endsWith, if_neg hnot]
    simp [Decided, hstr, hend, hxy]

/-- Every module up to the first one that ends in the name is decided. -/
def SearchDecided (name : NulString) : List LimineFile → Prop
  | [] => True
  | f :: modules =>
    Decided f.path name ∧ (¬ name.bytes <:+ f.path.bytes → SearchDecided name modules)

/-- What `get_iso_file` is to return. -/
def firstEnding (name : NulString) (modules : List LimineFile) : Option LimineFile :=
  modules.find? fun f => decide (name.bytes <:+ f.path.bytes)

/-- `check_string_ending` gave another answer than 0 for what the loop returns. -/
theorem getIsoFileLoop_some {name : NulString} {modules : List LimineFile} {f : LimineFile}
    (h : getIsoFileLoop name modules = .file (some f)) :
    ∃ found, checkStringEnding f.path name = some found ∧ found ≠ 0 := by
  induction modules with
  | nil => simp [getIsoFileLoop] at h
  | cons g modules ih =>
    rw [getIsoFileLoop] at h
    split at h
    · rename_i found hfound
      split at h
      · rename_i hne
        obtain rfl : g = f := by simpa using h
        exact ⟨found, hfound, hne⟩
      · exact ih h
    · cases h

theorem getIsoFileLoop_iff {name : NulString} (h : name.bytes ≠ []) (modules : List LimineFile) :
    getIsoFileLoop name modules = .file (firstEnding name modules) ↔
      SearchDecided name modules := by
  induction modules with
  | nil => simp [getIsoFileLoop, firstEnding, SearchDecided]
  | cons f modules ih =>
    rw [SearchDecided, ← checkStringEnding_iff f.path h]
    by_cases hsuffix : name.bytes <:+ f.path.bytes
    · have hfirst : firstEnding name (f :: modules) = some f :=
        List.find?_cons_of_pos (by simpa using hsuffix)
      have hone : endsWith f.path name = 1 := if_pos hsuffix
      rw [hfirst, hone]
      constructor
      · intro hloop
        obtain ⟨found, hfound, hne⟩ := getIsoFileLoop_some hloop
        rw [checkStringEnding_eq] at hfound
        have hval := (checkStringEndingLoop_values hfound).resolve_left hne
        rw [checkStringEnding_eq, hfound, hval]
        exact ⟨rfl, fun hn => absurd hsuffix hn⟩
      · intro hcheck
        rw [getIsoFileLoop, hcheck.1]
        rfl
    · have hfirst : firstEnding name (f :: modules) = firstEnding name modules :=
        List.find?_cons_of_neg (by simpa using hsuffix)
      have hzero : endsWith f.path name = 0 := if_neg hsuffix
      rw [hfirst, hzero, getIsoFileLoop]
      cases hcheck : checkStringEnding f.path name with
      | none => simp
      | some found =>
        by_cases hfound : found = 0
        · simp [hfound, hsuffix, ih]
        · -- a module that does not end in the name is returned
          have hother : some f ≠ firstEnding name modules := by
            intro heq
            have hends := List.find?_some heq.symm
            exact hsuffix (of_decide_eq_true hends)
          simp [hfound, hother]

/-- For every name but the empty one. `check_string_ending` reads inside the two strings
    and decides whether the one ends in the other, exactly when the pair is decided; and
    `get_iso_file` returns the first module whose path ends in the name, or `NULL` without
    one, exactly when every module up to that one is decided. -/
theorem check_string_ending_iff {name : NulString} (h : name.bytes ≠ []) :
    (∀ str, checkStringEnding str name = some (endsWith str name) ↔ Decided str name) ∧
    ∀ modules, getIsoFile name (some modules) = .file (firstEnding name modules) ↔
      SearchDecided name modules :=
  ⟨fun str => checkStringEnding_iff str h, fun modules => getIsoFileLoop_iff h modules⟩

/-- `font.psf`, `xont.psf` and `f`. -/
def fontPsf : NulString := ⟨[0x66, 0x6F, 0x6E, 0x74, 0x2E, 0x70, 0x73, 0x66], by decide⟩
def xontPsf : NulString := ⟨[0x78, 0x6F, 0x6E, 0x74, 0x2E, 0x70, 0x73, 0x66], by decide⟩
def oneF : NulString := ⟨[0x66], by decide⟩

theorem check_string_ending_font :
    fontPsf.bytes ≠ [] ∧ checkStringEnding fontPsf fontPsf = some 1 ∧
      getIsoFile fontPsf (some [⟨0x1000, fontPsf⟩]) = .file (some ⟨0x1000, fontPsf⟩) := by
  have hdecided : Decided fontPsf fontPsf := by
    refine ⟨by simp [fontPsf], Or.inr ⟨by decide, by decide, fun _ _ => List.suffix_refl _⟩⟩
  have hname : fontPsf.bytes ≠ [] := by simp [fontPsf]
  refine ⟨hname, ?_, ?_⟩
  · exact ((check_string_ending_iff hname).1 fontPsf).mpr hdecided
  · exact ((check_string_ending_iff hname).2 [⟨0x1000, fontPsf⟩]).mpr
      ⟨hdecided, fun hn => absurd (List.suffix_refl _) hn⟩

/-- `xont.psf` is found to end in `font.psf`, and with names of one character the loop
    leaves the string. -/
theorem check_string_ending_wrong :
    checkStringEnding xontPsf fontPsf = some 1 ∧ checkStringEnding oneF oneF = none ∧
      (∃ f, getIsoFile fontPsf (some [⟨0x1000, xontPsf⟩]) = .file (some f)) ∧
      ¬ ∀ str ending : NulString, ending.bytes ≠ [] →
        checkStringEnding str ending = some (endsWith str ending) := by
  have hwrong : checkStringEnding xontPsf fontPsf = some 1 := by decide
  refine ⟨hwrong, by decide, ⟨⟨0x1000, xontPsf⟩, by rw [getIsoFile, getIsoFileLoop, hwrong]; rfl⟩,
    fun h => ?_⟩
  have hright := h xontPsf fontPsf (by simp [fontPsf])
  rw [hwrong] at hright
  exact absurd hright (by decide)

end Horizon64
