import Mathlib.Logic.Relation
import Mathlib.Logic.Function.Basic

/- Processes that take turns on a shared state.

   `act s l s' l'` says what one action of a process with local state `l` can do. A
   run takes actions of the processes in any order. A flag in the shared state guards
   a region of the processes' code (`Guards`) when an action that enters the region
   finds the flag clear and sets it, and an action that clears it leaves the region:
   then at most one process is in the region (`run_exclusive`), and an assertion that
   a process makes about itself holds in every state if its own actions keep it and
   the actions of the others keep it as long as they are not in the region together
   (`run_local`). -/
namespace Interleaving
variable {ι S L : Type*}

/-- A shared state, and a local state for each process. -/
structure State (ι S L : Type*) where
  shared : S
  locals : ι → L

variable [DecidableEq ι]

/-- One action of process `i`. -/
def Step (act : S → L → S → L → Prop) (i : ι) (σ σ' : State ι S L) : Prop :=
  ∃ l', act σ.shared (σ.locals i) σ'.shared l' ∧ σ'.locals = Function.update σ.locals i l'

abbrev Run (act : S → L → S → L → Prop) : State ι S L → State ι S L → Prop :=
  Relation.ReflTransGen fun σ σ' => ∃ i, Step act i σ σ'

/-- The flag `taken` guards the region `inside`: an action takes the flag and enters,
    leaves and gives it back, or changes neither. -/
def Guards (act : S → L → S → L → Prop) (taken : S → Prop) (inside : L → Prop) : Prop :=
  ∀ s l s' l', act s l s' l' →
    (¬ taken s ∧ taken s' ∧ inside l') ∨ (inside l ∧ ¬ inside l') ∨
      ((taken s → taken s') ∧ (inside l' → inside l))

/-- At most one process is in the region, and then the flag is taken. -/
structure Exclusive (taken : S → Prop) (inside : L → Prop) (σ : State ι S L) : Prop where
  one : ∀ i j, inside (σ.locals i) → inside (σ.locals j) → i = j
  taken : ∀ i, inside (σ.locals i) → taken σ.shared

section Guarded
variable {act : S → L → S → L → Prop} {taken : S → Prop} {inside : L → Prop}
  (hguards : Guards act taken inside)
include hguards

theorem step_exclusive {σ σ' : State ι S L} {i : ι} (h : Exclusive taken inside σ)
    (hstep : Step act i σ σ') : Exclusive taken inside σ' := by
  obtain ⟨l', hact, hlocals⟩ := hstep
  -- a process other than `i` is where it was
  have hother : ∀ j, j ≠ i → σ'.locals j = σ.locals j := by
    intro j hj
    rw [hlocals, Function.update_of_ne hj]
  have hself : σ'.locals i = l' := by rw [hlocals, Function.update_self]
  rcases hguards _ _ _ _ hact with ⟨hfree, htaken, hin⟩ | ⟨hin, hout⟩ | ⟨hkeep, hstay⟩
  · have hnone : ∀ j, j ≠ i → ¬ inside (σ'.locals j) := by
      intro j hj hjin
      rw [hother j hj] at hjin
      exact hfree (h.taken j hjin)
    have honly : ∀ j, inside (σ'.locals j) → j = i := fun j hj =>
      by_contra fun hne => hnone j hne hj
    exact ⟨fun j k hj hk => (honly j hj).trans (honly k hk).symm, fun _ _ => htaken⟩
  · have hnone : ∀ j, ¬ inside (σ'.locals j) := by
      intro j hj
      by_cases hji : j = i
      · rw [hji, hself] at hj
        exact hout hj
      · rw [hother j hji] at hj
        exact hji (h.one j i hj hin)
    exact ⟨fun j _ hj => absurd hj (hnone j), fun j hj => absurd hj (hnone j)⟩
  · have hback : ∀ j, inside (σ'.locals j) → inside (σ.locals j) := by
      intro j hj
      by_cases hji : j = i
      · rw [hji, hself] at hj
        rw [hji]
        exact hstay hj
      · rwa [hother j hji] at hj
    exact ⟨fun j k hj hk => h.one j k (hback j hj) (hback k hk),
      fun j hj => hkeep (h.taken j (hback j hj))⟩

theorem run_exclusive {σ σ' : State ι S L} (h : Exclusive taken inside σ)
    (hrun : Run act σ σ') : Exclusive taken inside σ' := by
  induction hrun with
  | refl => exact h
  | tail _ hstep ih =>
    obtain ⟨i, hstep⟩ := hstep
    exact step_exclusive hguards ih hstep

/-- An assertion of each process about its own state and the shared one. -/
theorem run_local {holds : S → L → Prop}
    (hown : ∀ s l s' l', act s l s' l' → holds s l → holds s' l')
    (hothers : ∀ s l m s' m', act s m s' m' → ¬ (inside l ∧ inside m) → holds s l → holds s' l)
    {σ σ' : State ι S L} (h : Exclusive taken inside σ)
    (hstart : ∀ i, holds σ.shared (σ.locals i)) (hrun : Run act σ σ') :
    ∀ i, holds σ'.shared (σ'.locals i) := by
  induction hrun with
  | refl => exact hstart
  | @tail σ' σ'' hrun hstep ih =>
    obtain ⟨j, l', hact, hlocals⟩ := hstep
    have hex := run_exclusive hguards h hrun
    intro i
    by_cases hij : i = j
    · rw [hlocals, hij, Function.update_self]
      exact hown _ _ _ _ hact (ih j)
    · rw [hlocals, Function.update_of_ne hij]
      exact hothers _ _ _ _ _ hact (fun hboth => hij (hex.one i j hboth.1 hboth.2)) (ih i)

end Guarded

end Interleaving
