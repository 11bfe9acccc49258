import Horizon64.Kprint

/- The two ways to the kernel log.

   `klogi` is `kprintf`; `kloge` and `klogd` are `klog_implementation`, which prints
   the tag of its level and then calls `kprintf(format, argp)`: the `va_list` itself
   is the one argument, and `va_arg` finds its address first and then whatever lies
   behind it. So the two agree exactly on the formats that take no argument
   (`klog_agrees_iff`).

   That they differ on every other format is shown with two argument lists that
   differ in one word: `klogi` prints that word in two ways, `klog_implementation`
   does not look at it. -/
namespace Horizon64
open Bytes

/-- `klogi`, which is `kprintf`: the characters it prints. -/
def klogi (m : Memory) (format : List UInt8) (va : Nat → UInt64) : Option (List UInt8) :=
  (kprintf m va format).map Prod.fst

def levelLog : Int32 := 0
def levelError : Int32 := 1
def levelDebug : Int32 := 2

/-- The string printed for a level. -/
def levelTag (level : Int32) : List UInt8 :=
  if level = levelLog then bytesOf "\x1b[32m[INFO] \x1b[0m "
  else if level = levelError then bytesOf "\x1b[31m[ERROR]\x1b[0m "
  else if level = levelDebug then bytesOf "\x1b[34m[DEBUG]\x1b[0m "
  else []

/-- `klog_implementation`. The call `kprintf(format, argp)` passes the address `argp` of the
    `va_list`; what `va_arg` finds behind it is whatever is there. -/
def klogImplementation (m : Memory) (level : Int32) (format : List UInt8) (argp : UInt64)
    (behind : Nat → UInt64) : Option (List UInt8) := do
  let (tag, _) ← kprintf m behind (levelTag level ++ [0])
  let (out, _) ← kprintf m (fun n => if n = 0 then argp else behind (n - 1)) format
  return tag ++ out

/-- `kprintf` uses no argument for the format. -/
def TakesNone (format : List UInt8) : Prop :=
  ∀ ps, pieces format = some ps → ∀ p ∈ ps, p.takes = false

theorem kprintf_levelTag (m : Memory) (va : Nat → UInt64) (level : Int32) :
    kprintf m va (levelTag level ++ [0]) = some (levelTag level, 0) := by
  have hplain : ∀ c ∈ levelTag level, c ≠ 0 ∧ c ≠ ascii '%' := by
    have hall : (levelTag level).all (fun c => decide (c ≠ 0 ∧ c ≠ ascii '%')) = true := by
      unfold levelTag
      split_ifs <;> rfl
    intro c hc
    exact of_decide_eq_true (List.all_eq_true.mp hall c hc)
  have hend : pieces [0] = some [] := by
    rw [pieces.eq_def]
    simp
  have hlits : ∀ (l : List UInt8) (n : Nat), emit m va (l.map Piece.lit) n = some (l, n) := by
    intro l n
    induction l with
    | nil => rfl
    | cons c l ih => simp [emit, ih]
  rw [kprintf, kprintfLoop_eq_emit, pieces_lits hplain, hend]
  simp [hlits]

section Arguments
variable {m : Memory} {va va' : Nat → UInt64}

theorem emit_congr {ps : List Piece} {n : Nat} (h : ∀ k, n ≤ k → va k = va' k) :
    emit m va ps n = emit m va' ps n := by
  induction ps generalizing n with
  | nil => rfl
  | cons p ps ih =>
    cases p with
    | lit c => rw [emit, emit, ih h]
    | conv c w =>
      have hconv : kprintfConvert m va c w n = kprintfConvert m va' c w n := by
        unfold kprintfConvert
        rw [h n (Nat.le_refl n)]
      rw [emit, emit, hconv]
      cases hc : kprintfConvert m va' c w n with
      | none => rfl
      | some r =>
        have hle : n ≤ r.2 := by
          rw [kprintfConvert_count m va' hc]
          omega
        simp only [Option.bind_eq_bind, Option.bind_some]
        rw [ih fun k hk => h k (Nat.le_trans hle hk)]

theorem emit_takesNone {ps : List Piece} (h : ∀ p ∈ ps, p.takes = false) (n n' : Nat) :
    ∃ out, emit m va ps n = some (out, n) ∧ emit m va' ps n' = some (out, n') := by
  induction ps with
  | nil => exact ⟨[], rfl, rfl⟩
  | cons p ps ih =>
    obtain ⟨out, h₁, h₂⟩ := ih fun p hp => h p (List.mem_cons_of_mem _ hp)
    cases p with
    | lit c => exact ⟨c :: out, by simp [emit, h₁], by simp [emit, h₂]⟩
    | conv c w =>
      have htake := h _ List.mem_cons_self
      simp only [Piece.takes, Bool.or_eq_false_iff, decide_eq_false_iff_not] at htake
      obtain ⟨⟨⟨hx, hd⟩, hs⟩, hc⟩ := htake
      have hskip (va : Nat → UInt64) (n : Nat) : kprintfConvert m va c w n = some ([], n) := by
        simp [kprintfConvert, hx, hd, hs, hc]
      exact ⟨out, by simp [emit, hskip, h₁], by simp [emit, hskip, h₂]⟩

theorem emit_some (h : ∀ n, (kprint m (va n)).isSome) (ps : List Piece) (n : Nat) :
    ∃ out n', emit m va ps n = some (out, n') := by
  induction ps generalizing n with
  | nil => exact ⟨[], n, rfl⟩
  | cons p ps ih =>
    cases p with
    | lit c =>
      obtain ⟨out, n', hrest⟩ := ih n
      exact ⟨c :: out, n', by simp [emit, hrest]⟩
    | conv c w =>
      obtain ⟨s, hs⟩ := Option.isSome_iff_exists.mp (h n)
      obtain ⟨r, hr⟩ : ∃ r, kprintfConvert m va c w n = some r := by
        unfold kprintfConvert
        split_ifs
        · exact ⟨_, rfl⟩
        · exact ⟨_, rfl⟩
        · exact ⟨_, by rw [hs]; rfl⟩
        · exact ⟨_, rfl⟩
        · exact ⟨_, rfl⟩
      obtain ⟨out, n', hrest⟩ := ih r.2
      exact ⟨r.1 ++ out, n', by simp [emit, hr, hrest]⟩

end Arguments

/-- A memory with the string `"A"` at address 1 and empty strings elsewhere. -/
def oneString : Memory := fun p => if p = 1 then 65 else 0

theorem kprint_oneString : kprint oneString 0 = some [] ∧ kprint oneString 1 = some [65] := by
  decide +kernel

theorem kprintHex_one (w : UInt32) : kprintHex 0 w ≠ kprintHex 1 w := by
  have hloop : kprintHexLoop w 16 15 1 [] = [] ∨ kprintHexLoop w 16 15 1 [] = [ascii '1'] := by
    rw [kprintHexLoop]
    split
    · right
      rw [kprintHexLoop, if_neg (by simp)]
      decide
    · left
      rfl
  have hzero : kprintHex 0 w = bytesOf "0x0" := rfl
  have hone : kprintHex 1 w = bytesOf "0x" ++ kprintHexLoop w 16 15 1 [] := rfl
  rw [hzero, hone]
  rcases hloop with h | h <;> rw [h] <;> decide

/-- Every conversion prints 0 and 1 differently, if there are different strings there. -/
theorem kprintfConvert_differs {c : UInt8} {w : UInt32} (h : (Piece.conv c w).takes = true)
    {va va' : Nat → UInt64} (hva : va 0 = 0) (hva' : va' 0 = 1) :
    ∃ out out', out ≠ out' ∧ kprintfConvert oneString va c w 0 = some (out, 1) ∧
      kprintfConvert oneString va' c w 0 = some (out', 1) := by
  simp only [Piece.takes, Bool.or_eq_true, decide_eq_true_eq] at h
  unfold kprintfConvert
  rw [hva, hva', kprint_oneString.1, kprint_oneString.2]
  rcases h with ((rfl | rfl) | rfl) | rfl
  · exact ⟨_, _, kprintHex_one w, rfl, rfl⟩
  · exact ⟨_, _, by decide, rfl, rfl⟩
  · exact ⟨_, _, by decide, rfl, rfl⟩
  · exact ⟨_, _, by decide, rfl, rfl⟩

/-- Arguments that differ in the first word only make a difference to a format that takes one. -/
theorem takesNone_of_same {format : List UInt8}
    (h : ∀ va va' : Nat → UInt64, klogi oneString format va = klogi oneString format va') :
    TakesNone format := by
  intro ps hps
  by_contra htakes
  have hsome : (ps.find? Piece.takes).isSome = true := by
    rw [List.find?_isSome]
    push Not at htakes
    simpa using htakes
  -- `before` is what comes before the first piece that takes an argument
  obtain ⟨p, hp⟩ := Option.isSome_iff_exists.mp hsome
  obtain ⟨htake, before, behind, rfl, hbefore⟩ := List.find?_eq_some_iff_append.mp hp
  obtain ⟨va, hva⟩ : ∃ va : Nat → UInt64, va = fun _ => 0 := ⟨_, rfl⟩
  obtain ⟨va', hva'⟩ : ∃ va' : Nat → UInt64, va' = fun n => if n = 0 then 1 else 0 := ⟨_, rfl⟩
  obtain ⟨out, hout, hout'⟩ := @emit_takesNone oneString va va' before
    (fun q hq => by simpa using hbefore q hq) 0 0
  have hends : ∀ n, (kprint oneString (va n)).isSome := by
    intro n
    rw [hva, kprint_oneString.1]
    rfl
  obtain ⟨more, n, hmore⟩ := emit_some hends behind 1
  have hmore' : emit oneString va' behind 1 = some (more, n) := by
    rw [← hmore]
    apply emit_congr
    intro k hk
    rw [hva, hva']
    simp only
    rw [if_neg (by omega)]
  have heq := h va va'
  simp only [klogi, kprintf, kprintfLoop_eq_emit, hps, Option.bind_some, emit_append, hout, hout']
    at heq
  cases p with
  | lit c => simp [Piece.takes] at htake
  | conv c w =>
    obtain ⟨s, s', hne, hs, hs'⟩ := kprintfConvert_differs htake
      (show va 0 = 0 by rw [hva]) (show va' 0 = 1 by rw [hva']; rfl)
    simp [emit, hs, hs', hmore, hmore', hne] at heq

/-- `klog_implementation` prints the tag of its level and then what `klogi` prints for the
    same format and arguments, whatever these are, exactly when the format takes none. -/
theorem klog_agrees_iff (level : Int32) (format : List UInt8) (argp : UInt64)
    (behind : Nat → UInt64) :
    (∀ (m : Memory) (va : Nat → UInt64), klogImplementation m level format argp behind =
      (klogi m format va).map (levelTag level ++ ·)) ↔ TakesNone format := by
  have hklog (m : Memory) : klogImplementation m level format argp behind =
      (klogi m format fun n => if n = 0 then argp else behind (n - 1)).map (levelTag level ++ ·) := by
    rw [klogImplementation, kprintf_levelTag, klogi]
    cases kprintf m (fun n => if n = 0 then argp else behind (n - 1)) format <;> rfl
  simp only [hklog]
  constructor
  · intro h
    apply takesNone_of_same
    intro va va'
    have hinj : Function.Injective (Option.map (levelTag level ++ ·)) :=
      Option.map_injective fun _ _ => List.append_cancel_left
    exact hinj ((h oneString va).symm.trans (h oneString va'))
  · intro hnone m va
    congr 1
    simp only [klogi, kprintf, kprintfLoop_eq_emit]
    cases hps : pieces format with
    | none => rfl
    | some ps =>
      obtain ⟨out, hout, hout'⟩ := @emit_takesNone m va
        (fun n => if n = 0 then argp else behind (n - 1)) ps (hnone ps hps) 0 0
      simp [hout, hout']

/-- `kloge("%d", 5)` prints the address of its `va_list`. -/
theorem kloge_prints_va_list :
    ¬ ∀ (level : Int32) (format : List UInt8) (argp : UInt64) (behind va : Nat → UInt64) (m : Memory),
      klogImplementation m level format argp behind =
        (klogi m format va).map (levelTag level ++ ·) := by
  intro h
  have hcall := h levelError (bytesOf "%d" ++ [0]) 0xFFFF800000001000 (fun _ => 0) (fun _ => 5)
    (fun _ => 0)
  revert hcall
  decide +kernel

end Horizon64
