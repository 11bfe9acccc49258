import Horizon64.Lib.Bytes

/- The kernel log of `common/kprint.c`.

   A format is the list of bytes from its address on, with its NUL and whatever
   follows it; memory past the end of the list cannot be read. `va n` is the word
   `va_arg` finds when it has been used `n` times. `kprintf` gives what it sends to
   the port and how often it used `va_arg`; it gives `none` where it reads past the
   end of the list, or prints a string that does not end.

   1. The functions.
   2. `pieces`: how `kprintf` cuts up a format, whatever the arguments are.
   3. `kprintf_grammar_iff`: `kprintf` against the grammar of formats. The scan for
      the width takes one digit, so this is about widths of two and more. -/
namespace Horizon64
open Bytes

def ascii (c : Char) : UInt8 := UInt8.ofNat c.toNat

def bytesOf (s : String) : List UInt8 := s.toList.map ascii

def isDigit (c : UInt8) : Bool := ascii '0' ≤ c && c ≤ ascii '9'

def conversionTable : List UInt8 := bytesOf "0123456789ABCDEF"

/-- `kprint`: the bytes up to the first NUL. -/
def kprintFrom (m : Memory) : Nat → UInt64 → Option (List UInt8)
  | 0, _ => none
  | fuel + 1, msg => if m msg = 0 then some [] else (kprintFrom m fuel (msg + 1)).map (m msg :: ·)

def kprint (m : Memory) (msg : UInt64) : Option (List UInt8) := kprintFrom m (2 ^ 64) msg

/-- The loops of `kprint_hex`, from index `i` of `buf` downwards; `buf` holds `done` from
    there on. In `i >= 16 - width` both sides are unsigned. -/
def kprintHexLoop (width : UInt32) : Nat → Int32 → UInt64 → List UInt8 → List UInt8
  | 0, _, _, done => done
  | fuel + 1, i, num, done =>
    if num ≠ 0 ∧ (width = 0 ∨ i.toUInt32 ≥ 16 - width) then
      kprintHexLoop width fuel (i - 1) (num / 16)
        (conversionTable.getD (num % 16).toNat 0 :: done)
    else done

def kprintHex (num : UInt64) (width : UInt32) : List UInt8 :=
  if num = 0 then bytesOf "0x0" else bytesOf "0x" ++ kprintHexLoop width 16 15 num []

def kprintDecLoop : Nat → UInt64 → List UInt8 → List UInt8
  | 0, _, done => done
  | fuel + 1, num, done =>
    if num ≠ 0 then kprintDecLoop fuel (num / 10) (((num % 10).toUInt8 + 0x30) :: done)
    else done

def kprintDec (num : UInt64) : List UInt8 :=
  if num = 0 then [ascii '0'] else kprintDecLoop 20 num []

section Kprintf
variable (m : Memory) (va : Nat → UInt64)

/-- What `kprintf` does at the character after `%` and the width. -/
def kprintfConvert (c : UInt8) (argWidth : UInt32) (n : Nat) : Option (List UInt8 × Nat) :=
  if c = ascii 'x' then some (kprintHex (va n) argWidth, n + 1)
  else if c = ascii 'd' then some (kprintDec (va n), n + 1)
  else if c = ascii 's' then (kprint m (va n)).map fun s => (s, n + 1)
  else if c = ascii 'c' then some ([(va n).toUInt8], n + 1)
  else some ([], n)

/-- The loop of `kprintf`. -/
def kprintfLoop : List UInt8 → Nat → Option (List UInt8 × Nat)
  | [], _ => none
  | c :: format, n =>
    if c = 0 then some ([], n)
    else if c = ascii '%' then
      match format with
      | [] => none
      | c :: format =>
        -- the width: `if`, so one digit at most
        if isDigit c then
          match format with
          | [] => none
          | k :: format => do
            let (out, n) ← kprintfConvert m va k (c - ascii '0').toUInt32 n
            let (more, n) ← kprintfLoop format n
            return (out ++ more, n)
        else do
          let (out, n) ← kprintfConvert m va c 0 n
          let (more, n) ← kprintfLoop format n
          return (out ++ more, n)
    else do
      let (more, n) ← kprintfLoop format n
      return (c :: more, n)

def kprintf (format : List UInt8) : Option (List UInt8 × Nat) := kprintfLoop m va format 0

end Kprintf

/-! How a format is cut up. -/

/-- A character printed as it is, or the character after `%` and the width. -/
inductive Piece where
  | lit (c : UInt8)
  | conv (c : UInt8) (argWidth : UInt32)
  deriving DecidableEq, Repr

/-- `va_arg` is used for the piece. -/
def Piece.takes : Piece → Bool
  | .lit _ => false
  | .conv c _ => c = ascii 'x' || c = ascii 'd' || c = ascii 's' || c = ascii 'c'

def pieces : List UInt8 → Option (List Piece)
  | [] => none
  | c :: format =>
    if c = 0 then some []
    else if c = ascii '%' then
      match format with
      | [] => none
      | c :: format =>
        if isDigit c then
          match format with
          | [] => none
          | k :: format => (pieces format).map (.conv k (c - ascii '0').toUInt32 :: ·)
        else (pieces format).map (.conv c 0 :: ·)
    else (pieces format).map (.lit c :: ·)

section Emit
variable (m : Memory) (va : Nat → UInt64)

/-- What the pieces print, from `n` uses of `va_arg` on. -/
def emit : List Piece → Nat → Option (List UInt8 × Nat)
  | [], n => some ([], n)
  | .lit c :: ps, n => do
    let (more, n) ← emit ps n
    return (c :: more, n)
  | .conv c w :: ps, n => do
    let (out, n) ← kprintfConvert m va c w n
    let (more, n) ← emit ps n
    return (out ++ more, n)

/-- `kprintf` prints the pieces of its format, if the format has an end. -/
theorem kprintfLoop_eq_emit (format : List UInt8) (n : Nat) :
    kprintfLoop m va format n = (pieces format).bind (emit m va · n) := by
  induction format using pieces.induct generalizing n with
  | case1 => rfl
  | case2 =>
    rw [kprintfLoop.eq_def, pieces.eq_def]
    rfl
  | case3 => rfl
  | case4 k hd =>
    rw [kprintfLoop.eq_def, pieces.eq_def]
    simp only [hd, if_true]
    rfl
  | case5 d hd k format _ ih =>
    rw [kprintfLoop.eq_def, pieces.eq_def]
    simp only [hd, if_true, ih]
    cases pieces format <;> simp [emit, ascii]
  | case6 k format hd _ ih =>
    rw [kprintfLoop.eq_def, pieces.eq_def]
    simp only [hd, ih]
    cases pieces format <;> simp [emit, ascii]
  | case7 c format h0 hp ih =>
    rw [kprintfLoop.eq_def, pieces.eq_def]
    simp only [h0, hp, if_false, ih]
    cases pieces format <;> simp [emit]

theorem kprintfConvert_count {c : UInt8} {w : UInt32} {n n' : Nat} {out : List UInt8}
    (h : kprintfConvert m va c w n = some (out, n')) :
    n' = n + if (Piece.conv c w).takes then 1 else 0 := by
  unfold kprintfConvert at h
  split_ifs at h with hx hd hs hc
  · simp_all [Piece.takes]
  · simp_all [Piece.takes]
  · obtain ⟨s, _, heq⟩ := Option.map_eq_some_iff.mp h
    simp_all [Piece.takes]
  · simp_all [Piece.takes]
  · simp_all [Piece.takes]

theorem emit_count {ps : List Piece} {n n' : Nat} {out : List UInt8}
    (h : emit m va ps n = some (out, n')) : n' = n + ps.countP Piece.takes := by
  induction ps generalizing n n' out with
  | nil =>
    simp only [emit, Option.some.injEq, Prod.mk.injEq] at h
    simp [h.2]
  | cons p ps ih =>
    cases p with
    | lit c =>
      obtain ⟨⟨more, k⟩, hmore, heq⟩ := Option.bind_eq_some_iff.mp h
      obtain ⟨_, rfl⟩ := Prod.mk.inj (Option.some.inj heq)
      rw [ih hmore, List.countP_cons]
      simp [Piece.takes]
    | conv c w =>
      obtain ⟨⟨out₁, k⟩, hconv, hrest⟩ := Option.bind_eq_some_iff.mp h
      obtain ⟨⟨more, j⟩, hmore, heq⟩ := Option.bind_eq_some_iff.mp hrest
      obtain ⟨_, rfl⟩ := Prod.mk.inj (Option.some.inj heq)
      rw [ih hmore, kprintfConvert_count m va hconv, List.countP_cons]
      omega

theorem emit_append (ps qs : List Piece) (n : Nat) :
    emit m va (ps ++ qs) n = (do
      let (out, n) ← emit m va ps n
      let (more, n) ← emit m va qs n
      return (out ++ more, n)) := by
  induction ps generalizing n with
  | nil => simp [emit]
  | cons p ps ih =>
    cases p with
    | lit c => simp [emit, ih, Option.bind_assoc]
    | conv c w => simp [emit, ih, Option.bind_assoc]

end Emit

/-! The grammar of formats. -/

inductive Conversion where
  | x
  | d
  | s
  | c
  deriving DecidableEq, Repr

def Conversion.char : Conversion → UInt8
  | .x => ascii 'x'
  | .d => ascii 'd'
  | .s => ascii 's'
  | .c => ascii 'c'

/-- A literal character, or `%` with digits and a conversion. -/
inductive Item where
  | lit (c : UInt8) (h : c ≠ 0 ∧ c ≠ ascii '%')
  | conv (digits : List UInt8) (h : ∀ d ∈ digits, isDigit d = true) (k : Conversion)

def Item.bytes : Item → List UInt8
  | .lit c _ => [c]
  | .conv digits _ k => ascii '%' :: digits ++ [k.char]

/-- The format string of the items, with its NUL and any bytes after it. -/
def formatOf (items : List Item) (after : List UInt8) : List UInt8 :=
  items.flatMap Item.bytes ++ 0 :: after

/-- The number the digits stand for. -/
def decimal (digits : List UInt8) : Nat :=
  digits.foldl (fun v d => v * 10 + (d.toNat - (ascii '0').toNat)) 0

section Grammar
variable (m : Memory) (va : Nat → UInt64)

/-- What a conversion is to print for the word `v`. -/
def Conversion.render (width : UInt32) (v : UInt64) : Conversion → Option (List UInt8)
  | .x => some (kprintHex v width)
  | .d => some (kprintDec v)
  | .s => kprint m v
  | .c => some [v.toUInt8]

/-- What the items are to print: each conversion from the next argument, the hex printer
    with the whole width. -/
def formatted : List Item → Nat → Option (List UInt8 × Nat)
  | [], n => some ([], n)
  | .lit c _ :: items, n => do
    let (more, n) ← formatted items n
    return (c :: more, n)
  | .conv digits _ k :: items, n => do
    let out ← k.render m (UInt32.ofNat (decimal digits)) (va n)
    let (more, n) ← formatted items (n + 1)
    return (out ++ more, n)

/-- The arguments fit the items: the string of each `%s` has an end. -/
def Matches : List Item → Nat → Prop
  | [], _ => True
  | .lit _ _ :: items, n => Matches items n
  | .conv _ _ k :: items, n => (k = .s → (kprint m (va n)).isSome) ∧ Matches items (n + 1)

/-- A width of at most one digit. -/
def Item.Short : Item → Prop
  | .lit _ _ => True
  | .conv digits _ _ => digits.length ≤ 1

instance (item : Item) : Decidable item.Short := by
  cases item <;> unfold Item.Short <;> infer_instance

def Item.isConv : Item → Bool
  | .lit _ _ => false
  | .conv _ _ _ => true

/-- How `kprintf` cuts up an item. -/
def Item.pieces : Item → List Piece
  | .lit c _ => [.lit c]
  | .conv [] _ k => [.conv k.char 0]
  | .conv [d] _ k => [.conv k.char (d - ascii '0').toUInt32]
  | .conv (d :: e :: digits) _ k =>
    .conv e (d - ascii '0').toUInt32 :: (digits.map .lit ++ [.lit k.char])

theorem digit_plain {d : UInt8} (h : isDigit d = true) :
    d ≠ 0 ∧ d ≠ ascii '%' ∧ ∀ w, (Piece.conv d w).takes = false := by
  have hne : ∀ c, isDigit c = false → d ≠ c := by
    rintro c hc rfl
    rw [h] at hc
    cases hc
  refine ⟨hne 0 rfl, hne _ rfl, fun w => ?_⟩
  simp only [Piece.takes, hne (ascii 'x') rfl, hne (ascii 'd') rfl, hne (ascii 's') rfl,
    hne (ascii 'c') rfl, decide_false, Bool.or_self]

theorem conversion_plain (k : Conversion) :
    k.char ≠ 0 ∧ k.char ≠ ascii '%' ∧ isDigit k.char = false ∧
      ∀ w, (Piece.conv k.char w).takes = true := by
  cases k with
  | x => exact ⟨by decide, by decide, rfl, fun _ => rfl⟩
  | d => exact ⟨by decide, by decide, rfl, fun _ => rfl⟩
  | s => exact ⟨by decide, by decide, rfl, fun _ => rfl⟩
  | c => exact ⟨by decide, by decide, rfl, fun _ => rfl⟩

theorem pieces_lit {c : UInt8} (h : c ≠ 0 ∧ c ≠ ascii '%') (format : List UInt8) :
    pieces (c :: format) = (pieces format).map (.lit c :: ·) := by
  rw [pieces.eq_def]
  simp only [h.1, h.2, if_false]

theorem pieces_lits {l : List UInt8} (h : ∀ c ∈ l, c ≠ 0 ∧ c ≠ ascii '%') (format : List UInt8) :
    pieces (l ++ format) = (pieces format).map (l.map Piece.lit ++ ·) := by
  induction l with
  | nil => simp
  | cons c l ih =>
    rw [List.cons_append, pieces_lit (h c List.mem_cons_self),
      ih fun d hd => h d (List.mem_cons_of_mem _ hd), Option.map_map]
    rfl

theorem pieces_item (item : Item) (format : List UInt8) :
    pieces (item.bytes ++ format) = (pieces format).map (item.pieces ++ ·) := by
  cases item with
  | lit c h => exact pieces_lit h format
  | conv digits h k =>
    obtain ⟨hk0, hkp, hkd, _⟩ := conversion_plain k
    match digits, h with
    | [], _ =>
      show pieces (ascii '%' :: k.char :: format) = _
      rw [pieces.eq_def]
      simp [ascii, hkd, Item.pieces]
    | [d], h =>
      show pieces (ascii '%' :: d :: k.char :: format) = _
      rw [pieces.eq_def]
      simp [ascii, h d, Item.pieces]
    | d :: e :: digits, h =>
      have hplain : ∀ c ∈ digits ++ [k.char], c ≠ 0 ∧ c ≠ ascii '%' := by
        intro c hc
        rcases List.mem_append.mp hc with hc | hc
        · have hd := digit_plain (h c (by simp [hc]))
          exact ⟨hd.1, hd.2.1⟩
        · rw [List.mem_singleton.mp hc]
          exact ⟨hk0, hkp⟩
      have hrest := pieces_lits hplain format
      have htext : Item.bytes (.conv (d :: e :: digits) h k) ++ format =
          ascii '%' :: d :: e :: (digits ++ [k.char] ++ format) := by simp [Item.bytes]
      rw [htext, pieces.eq_def]
      simp only [h d (by simp), if_true, hrest, Option.map_map]
      cases pieces format <;> simp [ascii, Item.pieces]

theorem pieces_formatOf (items : List Item) (after : List UInt8) :
    pieces (formatOf items after) = some (items.flatMap Item.pieces) := by
  induction items with
  | nil =>
    rw [formatOf, List.flatMap_nil, List.nil_append, pieces.eq_def]
    simp
  | cons item items ih =>
    have hsplit : formatOf (item :: items) after = item.bytes ++ formatOf items after := by
      simp [formatOf]
    rw [hsplit, pieces_item, ih]
    simp

/-- An item takes an argument when it is a conversion with at most one digit. -/
theorem countP_item (item : Item) :
    item.pieces.countP Piece.takes = if item.isConv ∧ item.Short then 1 else 0 := by
  cases item with
  | lit c h => simp [Item.pieces, Item.isConv, Piece.takes]
  | conv digits h k =>
    obtain ⟨_, _, _, htake⟩ := conversion_plain k
    match digits, h with
    | [], _ => simp [Item.pieces, Item.isConv, Item.Short, htake]
    | [d], _ => simp [Item.pieces, Item.isConv, Item.Short, htake]
    | d :: e :: digits, h =>
      have hskip := (digit_plain (h e (by simp))).2.2
      have htext : ∀ l : List UInt8, (l.map Piece.lit).countP Piece.takes = 0 := by
        intro l
        simp [List.countP_eq_zero, Piece.takes]
      have hlong : ¬ (Item.conv (d :: e :: digits) h k).Short := by simp [Item.Short]
      rw [if_neg (fun hc => hlong hc.2), Item.pieces, List.countP_cons, hskip,
        List.countP_append, htext, ← List.map_singleton, htext]
      rfl

/-- `va_arg` is used once for each short conversion. -/
theorem countP_items (items : List Item) :
    (items.flatMap Item.pieces).countP Piece.takes =
      items.countP fun item => decide (item.isConv ∧ item.Short) := by
  induction items with
  | nil => rfl
  | cons item items ih =>
    rw [List.flatMap_cons, List.countP_append, countP_item, ih, List.countP_cons, Nat.add_comm]
    simp

theorem kprintfConvert_char (k : Conversion) (w : UInt32) (n : Nat) :
    kprintfConvert m va k.char w n = (k.render m w (va n)).map fun out => (out, n + 1) := by
  cases k with
  | x => rfl
  | d => rfl
  | s => rfl
  | c => rfl

theorem decimal_digit {d : UInt8} (h : isDigit d = true) :
    (d - ascii '0').toUInt32 = UInt32.ofNat (decimal [d]) := by
  have hle : ascii '0' ≤ d := by
    simp only [isDigit, Bool.and_eq_true, decide_eq_true_eq] at h
    exact h.1
  have hlt := (d - ascii '0').toNat_lt
  apply UInt32.toNat_inj.mp
  rw [UInt8.toNat_toUInt32, UInt8.toNat_sub_of_le _ _ hle] at *
  have hval : decimal [d] = d.toNat - (ascii '0').toNat := by simp [decimal]
  rw [hval, UInt32.toNat_ofNat_of_lt']
  exact Nat.lt_trans hlt (by decide)

/-- A short item prints what the grammar says, and the rest follows. -/
theorem emit_item {item : Item} (h : item.Short) (ps : List Piece) (items : List Item) (n : Nat)
    (hrest : ∀ n, emit m va ps n = formatted m va items n) :
    emit m va (item.pieces ++ ps) n = formatted m va (item :: items) n := by
  cases item with
  | lit c hc => simp [Item.pieces, emit, formatted, hrest]
  | conv digits hd k =>
    have hconv : ∀ w : UInt32, emit m va (.conv k.char w :: ps) n = (do
        let out ← k.render m w (va n)
        let (more, n) ← formatted m va items (n + 1)
        return (out ++ more, n)) := by
      intro w
      rw [emit, kprintfConvert_char]
      cases k.render m w (va n) <;> simp [hrest]
    match digits, hd with
    | [], _ => exact hconv 0
    | [d], hd =>
      have hwidth := decimal_digit (hd d List.mem_cons_self)
      rw [formatted, ← hwidth]
      exact hconv _
    | d :: e :: digits, hd => simp [Item.Short] at h

theorem emit_items {items : List Item} (h : ∀ item ∈ items, item.Short) (n : Nat) :
    emit m va (items.flatMap Item.pieces) n = formatted m va items n := by
  induction items generalizing n with
  | nil => rfl
  | cons item items ih =>
    rw [List.flatMap_cons]
    exact emit_item m va (h item List.mem_cons_self) _ _ n
      (ih fun i hi => h i (List.mem_cons_of_mem _ hi))

theorem formatted_count {items : List Item} {n n' : Nat} {out : List UInt8}
    (h : formatted m va items n = some (out, n')) : n' = n + items.countP Item.isConv := by
  induction items generalizing n n' out with
  | nil =>
    simp only [formatted, Option.some.injEq, Prod.mk.injEq] at h
    simp [h.2]
  | cons item items ih =>
    cases item with
    | lit c hc =>
      obtain ⟨⟨more, k⟩, hmore, heq⟩ := Option.bind_eq_some_iff.mp h
      obtain ⟨_, rfl⟩ := Prod.mk.inj (Option.some.inj heq)
      rw [ih hmore, List.countP_cons]
      simp [Item.isConv]
    | conv digits hd k =>
      obtain ⟨out₁, _, hrest⟩ := Option.bind_eq_some_iff.mp h
      obtain ⟨⟨more, j⟩, hmore, heq⟩ := Option.bind_eq_some_iff.mp hrest
      obtain ⟨_, rfl⟩ := Prod.mk.inj (Option.some.inj heq)
      rw [ih hmore, List.countP_cons]
      simp only [Item.isConv, if_true]
      omega

theorem formatted_some {items : List Item} {n : Nat} (h : Matches m va items n) :
    ∃ out n', formatted m va items n = some (out, n') := by
  induction items generalizing n with
  | nil => exact ⟨[], n, rfl⟩
  | cons item items ih =>
    cases item with
    | lit c hc =>
      obtain ⟨out, n', hrest⟩ := ih h
      exact ⟨c :: out, n', by simp [formatted, hrest]⟩
    | conv digits hd k =>
      obtain ⟨hstr, hmatch⟩ := h
      obtain ⟨more, n', hrest⟩ := ih hmatch
      obtain ⟨out, hout⟩ : ∃ out, k.render m (UInt32.ofNat (decimal digits)) (va n) = some out := by
        cases k with
        | x => exact ⟨_, rfl⟩
        | d => exact ⟨_, rfl⟩
        | s => exact Option.isSome_iff_exists.mp (hstr rfl)
        | c => exact ⟨_, rfl⟩
      exact ⟨out ++ more, n', by simp [formatted, hout, hrest]⟩

/-- A conversion that is not short is missing in the count of the short ones. -/
theorem short_of_count {items : List Item}
    (h : items.countP (fun item => decide (item.isConv = true ∧ item.Short)) =
      items.countP Item.isConv) : ∀ item ∈ items, item.Short := by
  induction items with
  | nil => simp
  | cons item items ih =>
    have hle : items.countP (fun item => decide (item.isConv = true ∧ item.Short)) ≤
        items.countP Item.isConv := by
      apply List.countP_mono_left
      intro i _ hi
      exact (of_decide_eq_true hi).1
    rw [List.countP_cons, List.countP_cons] at h
    have hhead : item.Short := by
      cases item with
      | lit c hc => trivial
      | conv digits hd k =>
        by_contra hlong
        have hconv : (Item.conv digits hd k).isConv = true := rfl
        rw [if_neg (by simp [hlong]), if_pos hconv] at h
        omega
    intro i hi
    rcases List.mem_cons.mp hi with rfl | hi
    · exact hhead
    · refine ih ?_ i hi
      simp only [hhead, and_true, Bool.decide_eq_true] at h
      simpa [hhead] using h

/-- For every format of the grammar and every argument list that fits it: `kprintf` prints
    what the grammar says and uses one argument for each conversion, exactly when no width
    has more than one digit. -/
theorem kprintf_grammar_iff {items : List Item} (h : Matches m va items 0) (after : List UInt8) :
    kprintf m va (formatOf items after) = formatted m va items 0 ↔
      ∀ item ∈ items, item.Short := by
  have hcut : kprintf m va (formatOf items after) = emit m va (items.flatMap Item.pieces) 0 := by
    rw [kprintf, kprintfLoop_eq_emit, pieces_formatOf]
    rfl
  rw [hcut]
  constructor
  · intro heq
    obtain ⟨out, n, hout⟩ := formatted_some m va h
    have hcount := formatted_count m va hout
    rw [hout] at heq
    have hused := emit_count m va heq
    -- as many arguments are used as there are short conversions
    rw [countP_items, hcount] at hused
    have hall : items.countP (fun item => decide (item.isConv = true ∧ item.Short)) =
        items.countP Item.isConv := by omega
    exact short_of_count hall
  · intro hshort
    exact emit_items m va hshort 0

end Grammar

/-- `"a%4x %d"`, with its two arguments. -/
def narrow : List Item :=
  [.lit (ascii 'a') (by decide), .conv [ascii '4'] (List.forall_mem_singleton.mpr rfl) .x,
    .lit (ascii ' ') (by decide), .conv [] (List.forall_mem_nil _) .d]

theorem kprintf_narrow : kprintf (fun _ => 0) (fun n => if n = 0 then 0xBEEF else 10)
    (formatOf narrow []) = some (bytesOf "a0xBEEF 10", 2) := by
  have hmatch : Matches (fun _ => 0) (fun n => if n = 0 then 0xBEEF else 10) narrow 0 := by
    simp [narrow, Matches]
  have hshort : ∀ item ∈ narrow, item.Short := by simp [narrow, Item.Short]
  rw [(kprintf_grammar_iff _ _ hmatch []).mpr hshort]
  decide +kernel

/-- `"%12x"`. -/
def wide : List Item :=
  [.conv [ascii '1', ascii '2']
    (List.forall_mem_cons.mpr ⟨rfl, List.forall_mem_singleton.mpr rfl⟩) .x]

/-- `"%12x"` prints `x`, and takes no argument. -/
theorem kprintf_wide_width :
    ¬ ∀ (m : Memory) (va : Nat → UInt64) (items : List Item) (after : List UInt8),
      Matches m va items 0 → kprintf m va (formatOf items after) = formatted m va items 0 := by
  intro h
  have hcall := h (fun _ => 0) (fun _ => 255) wide [] (by simp [wide, Matches])
  have hprint : kprintf (fun _ => 0) (fun _ => 255) (formatOf wide []) = some ([ascii 'x'], 0) := by
    decide +kernel
  rw [hprint] at hcall
  have hcount := formatted_count _ _ hcall.symm
  simp [wide, Item.isConv] at hcount

end Horizon64
