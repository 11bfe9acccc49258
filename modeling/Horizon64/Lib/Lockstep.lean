import Mathlib.Data.Option.Basic

/- A computation that may halt, and one that returns whenever it does.

   `Lockstep R x y`: when `x` returns, `y` does, and their results are related. It goes through
   a sequence of steps (`bind`, `map`) and a loop (`foldlM`), as the relation of two programs
   that differ in their states only. -/
variable {α β γ δ σ τ ι : Type*}

def Lockstep (R : α → β → Prop) (x : Option α) (y : Option β) : Prop :=
  ∀ a, x = some a → ∃ b, y = some b ∧ R a b

namespace Lockstep
variable {R : α → β → Prop} {T : γ → δ → Prop} {x : Option α} {y : Option β}

theorem pure {a : α} {b : β} (h : R a b) : Lockstep R (some a) (some b) :=
  fun _ ha => ⟨b, rfl, Option.some.inj ha ▸ h⟩

theorem halt : Lockstep R none y := fun _ ha => absurd ha (Option.some_ne_none _).symm

theorem bind {f : α → Option γ} {g : β → Option δ} (h : Lockstep R x y)
    (hf : ∀ a b, R a b → Lockstep T (f a) (g b)) : Lockstep T (x.bind f) (y.bind g) := by
  intro c hc
  obtain ⟨a, ha, hfa⟩ := Option.bind_eq_some_iff.mp hc
  obtain ⟨b, rfl, hab⟩ := h a ha
  exact hf a b hab c hfa

theorem map {f : α → γ} {g : β → δ} (h : Lockstep R x y) (hf : ∀ a b, R a b → T (f a) (g b)) :
    Lockstep T (x.map f) (y.map g) := by
  rw [Option.map_eq_bind, Option.map_eq_bind]
  exact h.bind fun a b hab => pure (hf a b hab)

theorem ite {c : Prop} [Decidable c] {x' : Option α} {y' : Option β} (h : Lockstep R x y)
    (h' : Lockstep R x' y') : Lockstep R (if c then x else x') (if c then y else y') := by
  split
  · exact h
  · exact h'

theorem foldlM {Q : σ → τ → Prop} {f : σ → ι → Option σ} {g : τ → ι → Option τ} {l : List ι}
    (hstep : ∀ s t i, Q s t → Lockstep Q (f s i) (g t i)) {s : σ} {t : τ} (h : Q s t) :
    Lockstep Q (l.foldlM f s) (l.foldlM g t) := by
  induction l generalizing s t with
  | nil => exact pure h
  | cons i l ih =>
    rw [List.foldlM_cons, List.foldlM_cons]
    exact (hstep s t i h).bind fun s' t' hst => ih hst

end Lockstep
