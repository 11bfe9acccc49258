import Horizon64.Numbers

/- How far the formatters read their format: `kprintf` of `common/kprint.c` and
   `terminal_printf` of `dev/terminal.c`.

   Both are one loop over the format; they differ in the conversions and in that
   `kprintf` takes a digit after `%`. The loop keeps the positions of the format it
   examines. The format is the list of bytes from its address on, with its NUL and
   whatever follows it.

   1. The loop and the two formatters.
   2. `formatLoop_kprintfLoop`: the loop prints what `kprintf` prints.
   3. `formatters_stay_iff`: the formats whose NUL is not stepped over. -/
namespace Horizon64
open Bytes

/-- The positions a formatter has examined, and what it prints with the number of uses of
    `va_arg`; `none` when it reads past the end of the list or prints a string without end. -/
structure FormatTrace where
  seen : List Nat
  result : Option (List UInt8 × Nat)

/-- More positions and more output in front. -/
def FormatTrace.after (t : FormatTrace) (seen : List Nat) (out : List UInt8) : FormatTrace :=
  ⟨seen ++ t.seen, t.result.map fun r => (out ++ r.1, r.2)⟩

section Loop
variable (width : UInt8 → Bool)
variable (convert : UInt8 → UInt32 → Nat → Option (List UInt8 × Nat))

/-- The loop of a formatter from position `i` of the format on. A character that `width`
    accepts is taken as the width after `%`. -/
def formatLoop : List UInt8 → Nat → Nat → FormatTrace
  | [], i, _ => ⟨[i], none⟩
  | c :: format, i, n =>
    if c = 0 then ⟨[i], some ([], n)⟩
    else if c = ascii '%' then
      match format with
      | [] => ⟨[i, i + 1], none⟩
      | c :: format =>
        if width c then
          match format with
          | [] => ⟨[i, i + 1, i + 2], none⟩
          | k :: format =>
            match convert k (c - ascii '0').toUInt32 n with
            | none => ⟨[i, i + 1, i + 2], none⟩
            | some (out, n) => (formatLoop format (i + 3) n).after [i, i + 1, i + 2] out
        else
          match convert c 0 n with
          | none => ⟨[i, i + 1], none⟩
          | some (out, n) => (formatLoop format (i + 2) n).after [i, i + 1] out
    else (formatLoop format (i + 1) n).after [i] [c]

/-! One round, by what stands at the start. -/

variable {width convert} {c d k : UInt8} {format : List UInt8}

theorem percent_ne_zero : ascii '%' ≠ 0 := by decide

theorem formatLoop_cons (c : UInt8) (format : List UInt8) (i n : Nat) :
    formatLoop width convert (c :: format) i n =
      if c = 0 then ⟨[i], some ([], n)⟩
      else if c = ascii '%' then
        match format with
        | [] => ⟨[i, i + 1], none⟩
        | c :: format =>
          if width c then
            match format with
            | [] => ⟨[i, i + 1, i + 2], none⟩
            | k :: format =>
              match convert k (c - ascii '0').toUInt32 n with
              | none => ⟨[i, i + 1, i + 2], none⟩
              | some (out, n) =>
                (formatLoop width convert format (i + 3) n).after [i, i + 1, i + 2] out
          else
            match convert c 0 n with
            | none => ⟨[i, i + 1], none⟩
            | some (out, n) => (formatLoop width convert format (i + 2) n).after [i, i + 1] out
      else (formatLoop width convert format (i + 1) n).after [i] [c] := by
  rw [formatLoop.eq_def]

theorem formatLoop_nul (i n : Nat) :
    formatLoop width convert (0 :: format) i n = ⟨[i], some ([], n)⟩ := by
  rw [formatLoop_cons]
  simp only [if_true]

theorem formatLoop_lit (hc : c ≠ 0) (hp : c ≠ ascii '%') (i n : Nat) :
    formatLoop width convert (c :: format) i n =
      (formatLoop width convert format (i + 1) n).after [i] [c] := by
  rw [formatLoop_cons]
  simp only [hc, hp, if_false]

theorem formatLoop_conv (hd : width d = false) (i n : Nat) :
    formatLoop width convert (ascii '%' :: d :: format) i n =
      match convert d 0 n with
      | none => ⟨[i, i + 1], none⟩
      | some (out, n) => (formatLoop width convert format (i + 2) n).after [i, i + 1] out := by
  rw [formatLoop_cons]
  simp only [percent_ne_zero, hd, if_false, if_true, Bool.false_eq_true]

theorem formatLoop_width (hd : width d = true) (i n : Nat) :
    formatLoop width convert (ascii '%' :: d :: k :: format) i n =
      match convert k (d - ascii '0').toUInt32 n with
      | none => ⟨[i, i + 1, i + 2], none⟩
      | some (out, n) =>
        (formatLoop width convert format (i + 3) n).after [i, i + 1, i + 2] out := by
  rw [formatLoop_cons]
  simp only [percent_ne_zero, hd, if_false, if_true]

end Loop

section Formatters
variable (m : Memory) (va : Nat → UInt64)

/-- `kprintf` with the positions it examines. -/
def kprintfTrace (format : List UInt8) : FormatTrace :=
  formatLoop isDigit (kprintfConvert m va) format 0 0

/-- What `terminal_printf` does at the character after `%`; `buf` is what the array of
    `terminal_hex` holds before. `terminal_puts` passes on the bytes before the NUL, as
    `kprint` does. -/
def terminalPrintfConvert (buf : Vector UInt8 17) (c : UInt8) (n : Nat) :
    Option (List UInt8 × Nat) :=
  if c = ascii 'x' then (terminalHex buf.toList (va n)).map fun s => (s, n + 1)
  else if c = ascii 'd' then (terminalDec (va n)).map fun s => (s, n + 1)
  else if c = ascii 's' then (kprint m (va n)).map fun s => (s, n + 1)
  else some ([], n)

/-- `terminal_printf`: what it passes to `terminal_putc`, with the positions it examines. -/
def terminalPrintf (buf : Vector UInt8 17) (format : List UInt8) : FormatTrace :=
  formatLoop (fun _ => false) (fun c _ n => terminalPrintfConvert m va buf c n) format 0 0

/-- The loop prints what `kprintf` prints. -/
theorem formatLoop_kprintfLoop (format : List UInt8) (i n : Nat) :
    (formatLoop isDigit (kprintfConvert m va) format i n).result = kprintfLoop m va format n := by
  induction format using pieces.induct generalizing i n with
  | case1 => rfl
  | case2 =>
    rw [formatLoop_nul, kprintfLoop.eq_def]
    simp only [if_true]
  | case3 => rfl
  | case4 d hd =>
    rw [formatLoop_cons, kprintfLoop.eq_def]
    simp only [percent_ne_zero, hd, if_false, if_true]
  | case5 d hd k format _ ih =>
    rw [formatLoop_width hd, kprintfLoop.eq_def]
    simp only [percent_ne_zero, hd, if_false, if_true]
    rcases kprintfConvert m va k (d - ascii '0').toUInt32 n with _ | ⟨out, n'⟩
    · rfl
    · cases hrest : kprintfLoop m va format n' <;> simp [FormatTrace.after, ih, hrest]
  | case6 d format hd _ ih =>
    rw [formatLoop_conv (Bool.not_eq_true _ ▸ hd), kprintfLoop.eq_def]
    simp only [percent_ne_zero, hd, if_false, if_true]
    rcases kprintfConvert m va d 0 n with _ | ⟨out, n'⟩
    · rfl
    · cases hrest : kprintfLoop m va format n' <;> simp [FormatTrace.after, ih, hrest]
  | case7 c format hc hp ih =>
    rw [formatLoop_lit hc hp, kprintfLoop.eq_def]
    simp only [hc, hp, if_false, FormatTrace.after, ih]
    cases kprintfLoop m va format n <;> rfl

end Formatters

/-! The end of the format. -/

/-- No conversion is open at the end: the text is used up by characters other than `%`, and
    by `%` with the character that is its width, if it has one, and the one after that. -/
def Complete (width : UInt8 → Bool) : List UInt8 → Prop
  | [] => True
  | c :: text =>
    if c = ascii '%' then
      match text with
      | [] => False
      | d :: text =>
        if width d then
          match text with
          | [] => False
          | _ :: text => Complete width text
        else Complete width text
    else Complete width text

section Ends
variable {width : UInt8 → Bool} {convert : UInt8 → UInt32 → Nat → Option (List UInt8 × Nat)}
variable {text after : List UInt8}

theorem complete_cons (c : UInt8) (text : List UInt8) :
    Complete width (c :: text) = if c = ascii '%' then
      match text with
      | [] => False
      | d :: text =>
        if width d then
          match text with
          | [] => False
          | _ :: text => Complete width text
        else Complete width text
    else Complete width text := by
  rw [Complete.eq_def]

theorem complete_lit {c : UInt8} (hp : c ≠ ascii '%') :
    Complete width (c :: text) ↔ Complete width text := by
  rw [complete_cons]
  simp only [hp, if_false]

theorem complete_conv {d : UInt8} (hd : width d = false) :
    Complete width (ascii '%' :: d :: text) ↔ Complete width text := by
  rw [complete_cons]
  simp only [hd, if_true, Bool.false_eq_true, if_false]

theorem complete_width {d k : UInt8} (hd : width d = true) :
    Complete width (ascii '%' :: d :: k :: text) ↔ Complete width text := by
  rw [complete_cons]
  simp only [hd, if_true]

theorem formatLoop_head (format : List UInt8) (i n : Nat) :
    i ∈ (formatLoop width convert format i n).seen := by
  cases format with
  | nil => exact List.mem_singleton.mpr rfl
  | cons c format =>
    rw [formatLoop_cons]
    repeat' split
    all_goals simp [FormatTrace.after]

theorem after_le {t : FormatTrace} {seen : List Nat} {out : List UInt8} {l : Nat}
    (hseen : ∀ q ∈ seen, q ≤ l) (hrest : ∀ q ∈ t.seen, q ≤ l) :
    ∀ q ∈ (t.after seen out).seen, q ≤ l := by
  intro q hq
  rcases List.mem_append.mp hq with hq | hq
  · exact hseen q hq
  · exact hrest q hq

theorem formatLoop_le (h : Complete width text) (h0 : 0 ∉ text) (i n : Nat) :
    ∀ q ∈ (formatLoop width convert (text ++ 0 :: after) i n).seen, q ≤ i + text.length := by
  induction text using Complete.induct width generalizing i n with
  | case1 => simp [formatLoop_nul]
  | case2 => simp [complete_cons] at h
  | case3 d hd => simp [complete_cons, hd] at h
  | case4 d hd k text ih =>
    have hrest := ih ((complete_width hd).mp h) (by simp_all)
    simp only [List.cons_append, List.length_cons, formatLoop_width hd]
    rcases convert k (d - ascii '0').toUInt32 n with _ | ⟨out, n'⟩
    · simp
    · refine after_le (by simp) fun q hq => ?_
      have hle := hrest (i + 3) n' q hq
      omega
  | case5 d text hd ih =>
    have hd : width d = false := by simpa using hd
    have hrest := ih ((complete_conv hd).mp h) (by simp_all)
    simp only [List.cons_append, List.length_cons, formatLoop_conv hd]
    rcases convert d 0 n with _ | ⟨out, n'⟩
    · simp
    · refine after_le (by simp) fun q hq => ?_
      have hle := hrest (i + 2) n' q hq
      omega
  | case6 c text hp ih =>
    have hc : c ≠ 0 := (List.ne_of_not_mem_cons h0).symm
    have hrest := ih ((complete_lit hp).mp h) (by simp_all)
    simp only [List.cons_append, List.length_cons, formatLoop_lit hc hp]
    refine after_le (by simp) fun q hq => ?_
    have hle := hrest (i + 1) n q hq
    omega

/-- With a conversion open at the end the loop goes on after the NUL. -/
theorem formatLoop_over (h : ¬ Complete width text) (h0 : 0 ∉ text) (hwidth : width 0 = false)
    (hconvert : ∀ c w n, (convert c w n).isSome) (i n : Nat) :
    ∃ q ∈ (formatLoop width convert (text ++ 0 :: after) i n).seen, i + text.length < q := by
  induction text using Complete.induct width generalizing i n with
  | case1 => exact absurd trivial h
  | case2 =>
    obtain ⟨⟨out, n'⟩, hout⟩ := Option.isSome_iff_exists.mp (hconvert 0 0 n)
    refine ⟨i + 2, ?_, Nat.lt_succ_self _⟩
    simp only [List.cons_append, List.nil_append, formatLoop_conv hwidth, hout]
    exact List.mem_append_right _ (formatLoop_head after (i + 2) n')
  | case3 d hd =>
    obtain ⟨⟨out, n'⟩, hout⟩ := Option.isSome_iff_exists.mp (hconvert 0 (d - ascii '0').toUInt32 n)
    refine ⟨i + 3, ?_, Nat.lt_succ_self _⟩
    simp only [List.cons_append, List.nil_append, formatLoop_width hd, hout]
    exact List.mem_append_right _ (formatLoop_head after (i + 3) n')
  | case4 d hd k text ih =>
    obtain ⟨⟨out, n'⟩, hout⟩ := Option.isSome_iff_exists.mp (hconvert k (d - ascii '0').toUInt32 n)
    obtain ⟨q, hq, hlt⟩ := ih (fun hc => h ((complete_width hd).mpr hc)) (by simp_all) (i + 3) n'
    refine ⟨q, ?_, by simp only [List.length_cons]; omega⟩
    simp only [List.cons_append, formatLoop_width hd, hout]
    exact List.mem_append_right _ hq
  | case5 d text hd ih =>
    have hd : width d = false := by simpa using hd
    obtain ⟨⟨out, n'⟩, hout⟩ := Option.isSome_iff_exists.mp (hconvert d 0 n)
    obtain ⟨q, hq, hlt⟩ := ih (fun hc => h ((complete_conv hd).mpr hc)) (by simp_all) (i + 2) n'
    refine ⟨q, ?_, by simp only [List.length_cons]; omega⟩
    simp only [List.cons_append, formatLoop_conv hd, hout]
    exact List.mem_append_right _ hq
  | case6 c text hp ih =>
    have hc : c ≠ 0 := (List.ne_of_not_mem_cons h0).symm
    obtain ⟨q, hq, hlt⟩ := ih (fun hc => h ((complete_lit hp).mpr hc)) (by simp_all) (i + 1) n
    refine ⟨q, ?_, by simp only [List.length_cons]; omega⟩
    simp only [List.cons_append, formatLoop_lit hc hp]
    exact List.mem_append_right _ hq

/-- What follows the NUL does not matter then. -/
theorem formatLoop_after (h : Complete width text) (h0 : 0 ∉ text) (i n : Nat) :
    formatLoop width convert (text ++ 0 :: after) i n =
      formatLoop width convert (text ++ [0]) i n := by
  induction text using Complete.induct width generalizing i n with
  | case1 => simp only [List.nil_append, formatLoop_nul]
  | case2 => simp [complete_cons] at h
  | case3 d hd => simp [complete_cons, hd] at h
  | case4 d hd k text ih =>
    have hrest := ih ((complete_width hd).mp h) (by simp_all)
    simp only [List.cons_append, formatLoop_width hd, hrest]
  | case5 d text hd ih =>
    have hd : width d = false := by simpa using hd
    have hrest := ih ((complete_conv hd).mp h) (by simp_all)
    simp only [List.cons_append, formatLoop_conv hd, hrest]
  | case6 c text hp ih =>
    have hc : c ≠ 0 := (List.ne_of_not_mem_cons h0).symm
    have hrest := ih ((complete_lit hp).mp h) (by simp_all)
    simp only [List.cons_append, formatLoop_lit hc hp, hrest]

theorem kprintf_after (m : Memory) (va : Nat → UInt64) (h : Complete isDigit text)
    (h0 : 0 ∉ text) : kprintf m va (text ++ 0 :: after) = kprintf m va (text ++ [0]) := by
  rw [kprintf, ← formatLoop_kprintfLoop m va _ 0, formatLoop_after h h0, formatLoop_kprintfLoop,
    kprintf]

end Ends

/-- Every conversion prints something when the strings are empty. -/
theorem kprint_nul (msg : UInt64) : kprint (fun _ => 0) msg = some [] := by
  rw [kprint, show 2 ^ 64 = (2 ^ 64 - 1) + 1 by decide, kprintFrom, if_pos rfl]

theorem kprintfConvert_isSome (c : UInt8) (w : UInt32) (n : Nat) :
    (kprintfConvert (fun _ => 0) (fun _ => 0) c w n).isSome := by
  unfold kprintfConvert
  simp only [kprint_nul, Option.map_some]
  split_ifs <;> rfl

theorem terminalPrintfConvert_isSome (buf : Vector UInt8 17) (c : UInt8) (n : Nat) :
    (terminalPrintfConvert (fun _ => 0) (fun _ => 0) buf c n).isSome := by
  unfold terminalPrintfConvert
  simp only [kprint_nul, Option.map_some]
  split_ifs <;> rfl

/-- For every format string, whatever follows its NUL. `kprintf` examines no character after
    the NUL, with any arguments, exactly when no conversion is open at the end: the format
    does not end in `%`, or `%` with a digit, that is not itself the character of a
    conversion. The same holds of `terminal_printf`, which takes no digits. -/
theorem formatters_stay_iff {text : List UInt8} (h : 0 ∉ text) (after : List UInt8) :
    ((∀ m va, ∀ q ∈ (kprintfTrace m va (text ++ 0 :: after)).seen, q ≤ text.length) ↔
      Complete isDigit text) ∧
    ((∀ m va buf, ∀ q ∈ (terminalPrintf m va buf (text ++ 0 :: after)).seen, q ≤ text.length) ↔
      Complete (fun _ => false) text) := by
  refine ⟨⟨fun hall => ?_, fun hc m va => ?_⟩, fun hall => ?_, fun hc m va buf => ?_⟩
  · by_contra hopen
    obtain ⟨q, hq, hlt⟩ := formatLoop_over hopen h rfl kprintfConvert_isSome 0 0
    have hle := hall _ _ q hq
    omega
  · simpa [kprintfTrace] using formatLoop_le hc h 0 0
  · by_contra hopen
    obtain ⟨q, hq, hlt⟩ := formatLoop_over hopen h rfl
      (fun c _ n => terminalPrintfConvert_isSome (Vector.replicate 17 0) c n) 0 0
    have hle := hall _ _ _ q hq
    omega
  · simpa [terminalPrintf] using formatLoop_le hc h 0 0

theorem formatters_stay_number :
    Complete isDigit (bytesOf "%d") ∧
      ∀ m va after, ∀ q ∈ (kprintfTrace m va (bytesOf "%d" ++ 0 :: after)).seen, q ≤ 2 := by
  have hcomplete : Complete isDigit (bytesOf "%d") := by
    rw [show bytesOf "%d" = [ascii '%', ascii 'd'] by rfl, complete_conv rfl]
    trivial
  refine ⟨hcomplete, fun m va after => ?_⟩
  exact (formatters_stay_iff (show 0 ∉ bytesOf "%d" by decide) after).1.mpr hcomplete m va

/-- After the format `"%"` both formatters go on behind its NUL, at position 1. -/
theorem formatters_step_over :
    2 ∈ (kprintfTrace (fun _ => 0) (fun _ => 0) ([ascii '%'] ++ 0 :: [0])).seen ∧
    2 ∈ (terminalPrintf (fun _ => 0) (fun _ => 0) (Vector.replicate 17 0)
      ([ascii '%'] ++ 0 :: [0])).seen ∧
    ¬ ∀ (text after : List UInt8), 0 ∉ text → ∀ m va,
      ∀ q ∈ (kprintfTrace m va (text ++ 0 :: after)).seen, q ≤ text.length := by
  have hseen : 2 ∈ (kprintfTrace (fun _ => 0) (fun _ => 0) ([ascii '%'] ++ 0 :: [0])).seen := by
    decide
  refine ⟨hseen, by decide, fun h => ?_⟩
  have hle := h [ascii '%'] [0] (by decide) _ _ 2 hseen
  exact absurd hle (by decide)

end Horizon64
