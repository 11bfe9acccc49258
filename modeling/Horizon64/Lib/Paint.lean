import Mathlib.Logic.Function.Basic
import Mathlib.Data.List.Basic

/- Loops that overwrite the cells of a store one after the other.

   `paint f ps s` runs `for p in ps: s[p] = f(s, p)`. The value of a cell may depend on
   other cells, those of the store as it then is. When no value depends on a cell painted
   before it (`InOrder`), the loop gives every cell of `ps` its value in the store at the
   beginning (`paint_apply`), as if all were painted at once. A loop over another state
   that shows such a store paints what it shows (`view_foldl_apply`); rounds whose cell is
   not shown do not count. -/
namespace Paint
variable {ι α σ : Type*} [DecidableEq ι]

def paint (f : (ι → α) → ι → α) (ps : List ι) (s : ι → α) : ι → α :=
  ps.foldl (fun s p => Function.update s p (f s p)) s

/-- No value depends on a cell that is painted before its own. -/
def InOrder (f : (ι → α) → ι → α) (ps : List ι) : Prop :=
  ps.Pairwise fun p q => ∀ s a, f (Function.update s p a) q = f s q

theorem paint_apply {f : (ι → α) → ι → α} {ps : List ι} (h : InOrder f ps) (s : ι → α) (q : ι) :
    paint f ps s q = if q ∈ ps then f s q else s q := by
  induction ps generalizing s with
  | nil => simp [paint]
  | cons p ps ih =>
    obtain ⟨hp, hps⟩ := List.pairwise_cons.mp h
    have hrest : paint f (p :: ps) s = paint f ps (Function.update s p (f s p)) := rfl
    rw [hrest, ih hps]
    by_cases hq : q ∈ ps
    · rw [if_pos hq, if_pos (List.mem_cons_of_mem p hq), hp q hq]
    · rw [if_neg hq]
      by_cases heq : q = p
      · subst heq
        rw [Function.update_self, if_pos List.mem_cons_self]
      · rw [Function.update_of_ne heq, if_neg]
        intro hmem
        rcases List.mem_cons.mp hmem with hhead | htail
        · exact heq hhead
        · exact hq htail

theorem inOrder_const (c : ι → α) (ps : List ι) : InOrder (fun _ p => c p) ps := by
  apply List.pairwise_of_forall
  intro p q s a
  rfl

section View
variable {view : σ → ι → α} {f : (ι → α) → ι → α} {g : σ → ι → σ} {ps : List ι} {V : ι → Prop}
  [DecidablePred V]

/-- A loop over a state paints what the state shows. -/
theorem view_foldl (hround : ∀ s, ∀ p ∈ ps,
      view (g s p) = if V p then Function.update (view s) p (f (view s) p) else view s) (s : σ) :
    view (ps.foldl g s) = paint f (ps.filter V) (view s) := by
  induction ps generalizing s with
  | nil => rfl
  | cons p ps ih =>
    have htail := ih (fun s q hq => hround s q (List.mem_cons_of_mem p hq)) (g s p)
    rw [List.foldl_cons, htail, hround s p List.mem_cons_self]
    by_cases hp : V p
    · rw [if_pos hp, List.filter_cons_of_pos (by simpa using hp)]
      rfl
    · rw [if_neg hp, List.filter_cons_of_neg (by simpa using hp)]

/-- What such a loop leaves to be seen, cell by cell. -/
theorem view_foldl_apply (hround : ∀ s, ∀ p ∈ ps,
      view (g s p) = if V p then Function.update (view s) p (f (view s) p) else view s)
    (horder : InOrder f (ps.filter V)) (s : σ) (q : ι) :
    view (ps.foldl g s) q = if q ∈ ps ∧ V q then f (view s) q else view s q := by
  rw [view_foldl hround, paint_apply horder]
  simp only [List.mem_filter, decide_eq_true_iff]

end View

end Paint
