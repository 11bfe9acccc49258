import Mathlib.Logic.Function.Basic
import Horizon64.Lib.Words

/- A stack of 64-bit words that grows down.

   The memory gives the word at each address (all accesses are aligned to 8 bytes).
   `Holds mem sp ws`: from `sp` up, the memory holds the words `ws`, and addresses wrap
   at `2^64`. A push puts a word below them (`Holds.push`), and a memory that has the
   same words there holds them too (`Holds.congr`). -/
namespace Stack

abbrev Memory := UInt64 → UInt64

/-- The `i`th word from `sp` up. -/
def word (mem : Memory) (sp : UInt64) (i : Nat) : UInt64 := mem (sp + 8 * UInt64.ofNat i)

def Holds (mem : Memory) (sp : UInt64) : List UInt64 → Prop
  | [] => True
  | w :: ws => mem sp = w ∧ Holds mem (sp + 8) ws

@[simp] theorem word_zero (mem : Memory) (sp : UInt64) : word mem sp 0 = mem sp := by
  simp [word]

theorem step_add (sp : UInt64) (i : Nat) :
    sp + 8 * UInt64.ofNat (i + 1) = sp + 8 + 8 * UInt64.ofNat i := by
  rw [Words.ofNat_add, UInt64.mul_add, UInt64.add_comm (8 * _), ← UInt64.add_assoc]
  rfl

@[simp] theorem word_succ (mem : Memory) (sp : UInt64) (i : Nat) :
    word mem sp (i + 1) = word mem (sp + 8) i := by
  rw [word, word, step_add]

/-- Only the words that it holds matter. -/
theorem Holds.congr {mem mem' : Memory} {sp : UInt64} {ws : List UInt64} (h : Holds mem sp ws)
    (hsame : ∀ i < ws.length, word mem' sp i = word mem sp i) : Holds mem' sp ws := by
  induction ws generalizing sp with
  | nil => trivial
  | cons w ws ih =>
    refine ⟨?_, ih h.2 fun i hi => ?_⟩
    · have hfirst := hsame 0 (Nat.succ_pos _)
      rw [word_zero, word_zero] at hfirst
      exact hfirst.trans h.1
    · have hnext := hsame (i + 1) (Nat.succ_lt_succ hi)
      rwa [word_succ, word_succ] at hnext

/-- The word below a stack is none of its words. -/
theorem below_ne {sp : UInt64} {i : Nat} (hi : i + 1 < 2 ^ 61) :
    sp + 8 * UInt64.ofNat i ≠ sp - 8 := by
  intro heq
  have hnat := congrArg UInt64.toNat heq
  have h8 : (8 : UInt64).toNat = 8 := rfl
  rw [UInt64.toNat_add, UInt64.toNat_mul, UInt64.toNat_sub, Words.toNat_ofNat_of_lt (by omega),
    h8] at hnat
  have hsp := sp.toNat_lt
  omega

theorem Holds.push {mem : Memory} {sp : UInt64} {ws : List UInt64} (h : Holds mem sp ws)
    (hlen : ws.length < 2 ^ 61) (w : UInt64) :
    Holds (Function.update mem (sp - 8) w) (sp - 8) (w :: ws) := by
  refine ⟨Function.update_self .., ?_⟩
  rw [UInt64.sub_add_cancel]
  refine h.congr fun i hi => ?_
  rw [word, Function.update_of_ne (below_ne (by omega)), word]

theorem Holds.drop {mem : Memory} {ws vs : List UInt64} {sp : UInt64}
    (h : Holds mem sp (ws ++ vs)) : Holds mem (sp + 8 * UInt64.ofNat ws.length) vs := by
  induction ws generalizing sp with
  | nil => simpa using h
  | cons w ws ih =>
    rw [List.length_cons, step_add]
    exact ih h.2

end Stack
