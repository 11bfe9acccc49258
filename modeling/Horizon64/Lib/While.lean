import Mathlib.Data.Nat.Find
import Mathlib.Logic.Function.Iterate

/- Loops without a bound of their own.

   `run cond body` is the loop `while (cond) body` with fuel: `none` says that the
   fuel ran out. The state after `n` rounds is an iterate of the body, so a loop that
   returns, returns the first iterate at which its condition fails
   (`run_eq_some_iff`), and whether it returns is a question about the iterates only
   (`returns_iff`). -/
namespace While
variable {σ : Type*} {cond : σ → Bool} {body : σ → σ}

def run (cond : σ → Bool) (body : σ → σ) : Nat → σ → Option σ
  | 0, _ => none
  | fuel + 1, s => if cond s then run cond body fuel (body s) else some s

/-- Round `n` is started: the condition held at every round up to it. -/
def Starts (cond : σ → Bool) (body : σ → σ) (s : σ) (n : Nat) : Prop :=
  ∀ m ≤ n, cond (body^[m] s) = true

/-- The loop ends after `n` rounds. -/
def EndsAfter (cond : σ → Bool) (body : σ → σ) (s : σ) (n : Nat) : Prop :=
  (∀ m < n, cond (body^[m] s) = true) ∧ cond (body^[n] s) = false

theorem run_eq_some_iff {fuel : Nat} {s t : σ} :
    run cond body fuel s = some t ↔ ∃ n < fuel, EndsAfter cond body s n ∧ t = body^[n] s := by
  induction fuel generalizing s with
  | zero => simp [run]
  | succ fuel ih =>
    rw [run]
    cases hc : cond s with
    | false =>
      constructor
      · intro h
        refine ⟨0, Nat.succ_pos fuel, ⟨fun m hm => absurd hm (Nat.not_lt_zero m), hc⟩, ?_⟩
        exact (Option.some.inj h).symm
      · intro h
        obtain ⟨n, _, ⟨hall, _⟩, rfl⟩ := h
        cases n with
        | zero => rfl
        | succ n =>
          have h0 : cond s = true := hall 0 (Nat.succ_pos n)
          rw [hc] at h0
          cases h0
    | true =>
      rw [if_pos rfl, ih]
      constructor
      · intro h
        obtain ⟨n, hn, ⟨hall, hend⟩, rfl⟩ := h
        refine ⟨n + 1, Nat.succ_lt_succ hn, ⟨fun m hm => ?_, hend⟩, rfl⟩
        cases m with
        | zero => exact hc
        | succ m => exact hall m (Nat.lt_of_succ_lt_succ hm)
      · intro h
        obtain ⟨n, hn, ⟨hall, hend⟩, rfl⟩ := h
        cases n with
        | zero =>
          have h0 : cond s = false := hend
          rw [hc] at h0
          cases h0
        | succ n =>
          exact ⟨n, Nat.lt_of_succ_lt_succ hn,
            ⟨fun m hm => hall (m + 1) (Nat.succ_lt_succ hm), hend⟩, rfl⟩

/-- The loop returns exactly when its condition fails at some iterate of the body. -/
theorem returns_iff {s : σ} :
    (∃ fuel t, run cond body fuel s = some t) ↔ ∃ n, cond (body^[n] s) = false := by
  constructor
  · intro h
    obtain ⟨fuel, t, ht⟩ := h
    obtain ⟨n, _, hends, _⟩ := run_eq_some_iff.mp ht
    exact ⟨n, hends.2⟩
  · intro h
    classical
    have hbefore : ∀ m < Nat.find h, cond (body^[m] s) = true :=
      fun m hm => Bool.not_eq_false _ ▸ Nat.find_min h hm
    exact ⟨Nat.find h + 1, _, run_eq_some_iff.mpr
      ⟨Nat.find h, Nat.lt_succ_self _, ⟨hbefore, Nat.find_spec h⟩, rfl⟩⟩

/-- A measure that every round lowers bounds the number of rounds. -/
theorem returns_of_measure {s : σ} (μ : σ → Nat)
    (hdec : ∀ n, Starts cond body s n → μ (body^[n + 1] s) < μ (body^[n] s)) :
    ∃ n, cond (body^[n] s) = false := by
  by_contra hno
  have hall : ∀ n, cond (body^[n] s) = true :=
    fun n => by_contra fun h => hno ⟨n, Bool.not_eq_true _ ▸ h⟩
  have hbound : ∀ n, μ (body^[n] s) + n ≤ μ s := by
    intro n
    induction n with
    | zero => exact Nat.le_refl _
    | succ n ih =>
      have hlt := hdec n fun m _ => hall m
      omega
  have hover := hbound (μ s + 1)
  omega

end While
