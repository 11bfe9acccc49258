import Mathlib.Data.List.Basic

/- Loops that may halt.

   A loop of the source over a list of values is `List.foldlM` of its body in
   `Option`, with `none` where the body halts. When every round of the loop that
   returns simulates a round of a total loop on abstract values, so does the whole
   loop (`foldlM_sim`); when every round returns, so does the loop (`foldlM_returns`),
   and when one round never does, neither does the loop (`foldlM_halts`).
   `trace` collects what the rounds of a loop touch; it is the same for two loops of which one
   follows the other (`trace_sim`). A loop that counts up or down is
   one over a list, too (`fold_range`, `foldRev_range`). -/
namespace Folds
variable {σ α β : Type*} {f : σ → β → Option σ} {g : α → β → α} {R : σ → α → Prop}

/-- A loop that returns ends in a state that shows what the abstract loop ends in. -/
theorem foldlM_sim {l : List β}
    (hstep : ∀ s a s', ∀ x ∈ l, R s a → f s x = some s' → R s' (g a x)) {s s' : σ} {a : α}
    (h : R s a) (hrun : l.foldlM f s = some s') : R s' (l.foldl g a) := by
  induction l generalizing s a with
  | nil =>
    rw [List.foldlM_nil] at hrun
    cases hrun
    exact h
  | cons x l ih =>
    rw [List.foldlM_cons, Option.bind_eq_bind, Option.bind_eq_some_iff] at hrun
    obtain ⟨t, ht, hrest⟩ := hrun
    rw [List.foldl_cons]
    apply ih (fun s a s' y hy => hstep s a s' y (List.mem_cons_of_mem x hy)) _ hrest
    exact hstep s a t x List.mem_cons_self h ht

/-- A loop whose rounds return what those of another return, whenever these return. -/
theorem foldlM_mono {f' : σ → β → Option σ} (h : ∀ s x s', f s x = some s' → f' s x = some s')
    {l : List β} {s s' : σ} (hrun : l.foldlM f s = some s') : l.foldlM f' s = some s' := by
  induction l generalizing s with
  | nil => exact hrun
  | cons x l ih =>
    rw [List.foldlM_cons, Option.bind_eq_bind, Option.bind_eq_some_iff] at hrun ⊢
    obtain ⟨t, ht, hrest⟩ := hrun
    exact ⟨t, h s x t ht, ih hrest⟩

theorem foldlM_keeps {P : σ → Prop} {l : List β}
    (hstep : ∀ s x s', x ∈ l → P s → f s x = some s' → P s') {s s' : σ} (h : P s)
    (hrun : l.foldlM f s = some s') : P s' :=
  foldlM_sim (R := fun s (_ : Unit) => P s) (g := fun _ _ => ()) (a := ())
    (fun s _ s' x hx hs hs' => hstep s x s' hx hs hs') h hrun

/-- A loop whose every round returns from a good state to a good state returns. -/
theorem foldlM_returns {Good : σ → Prop} {l : List β}
    (hstep : ∀ s, ∀ x ∈ l, Good s → ∃ s', f s x = some s' ∧ Good s') {s : σ} (h : Good s) :
    ∃ s', l.foldlM f s = some s' ∧ Good s' := by
  induction l generalizing s with
  | nil => exact ⟨s, by rw [List.foldlM_nil]; rfl, h⟩
  | cons x l ih =>
    obtain ⟨t, ht, hgood⟩ := hstep s x List.mem_cons_self h
    obtain ⟨s', hs', hgood'⟩ :=
      ih (fun s y hy => hstep s y (List.mem_cons_of_mem x hy)) hgood
    refine ⟨s', ?_, hgood'⟩
    rw [List.foldlM_cons, Option.bind_eq_bind, ht, Option.bind_some, hs']

theorem foldlM_range {f : σ → Nat → Option σ} {P : Nat → σ → Prop} {n : Nat}
    (hstep : ∀ j < n, ∀ s, P j s → ∃ s', f s j = some s' ∧ P (j + 1) s') {s : σ} (h : P 0 s) :
    ∃ s', (List.range n).foldlM f s = some s' ∧ P n s' := by
  induction n with
  | zero => exact ⟨s, rfl, h⟩
  | succ n ih =>
    obtain ⟨t, ht, hP⟩ := ih fun j hj => hstep j (Nat.lt_succ_of_lt hj)
    obtain ⟨s', hs', hP'⟩ := hstep n (Nat.lt_succ_self n) t hP
    refine ⟨s', ?_, hP'⟩
    rw [List.range_succ, List.foldlM_append, Option.bind_eq_bind, ht, Option.bind_some]
    simp [hs']

/-- A loop halts when one of its rounds does, from whatever state it starts. -/
theorem foldlM_halts {l : List β} {x : β} (hx : x ∈ l) (hnone : ∀ s, f s x = none) (s : σ) :
    l.foldlM f s = none := by
  induction l generalizing s with
  | nil => cases hx
  | cons y l ih =>
    rw [List.foldlM_cons, Option.bind_eq_bind, Option.bind_eq_none_iff]
    intro t ht
    rcases List.mem_cons.mp hx with rfl | hx
    · rw [hnone s] at ht
      cases ht
    · exact ih hx t

theorem foldlM_appends {γ : Type*} {f : List γ → β → Option (List γ)} {g : β → List γ}
    {l : List β} (hstep : ∀ s, ∀ x ∈ l, f s x = some (s ++ g x)) (s : List γ) :
    l.foldlM f s = some (s ++ l.flatMap g) := by
  induction l generalizing s with
  | nil => rw [List.foldlM_nil, List.flatMap_nil, List.append_nil]; rfl
  | cons x l ih =>
    rw [List.foldlM_cons, Option.bind_eq_bind, hstep s x List.mem_cons_self, Option.bind_some,
      ih fun s y hy => hstep s y (List.mem_cons_of_mem x hy), List.flatMap_cons,
      List.append_assoc]

/-- When one round only appends something, the loop appends what that round does. -/
theorem flatMap_single {γ : Type*} {g : β → List γ} {l : List β} {a : β} (hnodup : l.Nodup)
    (ha : a ∈ l) (hnil : ∀ x ∈ l, x ≠ a → g x = []) : l.flatMap g = g a := by
  induction l with
  | nil => cases ha
  | cons x l ih =>
    obtain ⟨hx, hl⟩ := List.nodup_cons.mp hnodup
    have htail : ∀ y ∈ l, y ≠ a → g y = [] := fun y hy => hnil y (List.mem_cons_of_mem x hy)
    rw [List.flatMap_cons]
    by_cases hxa : x = a
    · subst hxa
      have hrest : l.flatMap g = [] :=
        List.flatMap_eq_nil_iff.mpr fun y hy => htail y hy fun h => hx (h ▸ hy)
      rw [hrest, List.append_nil]
    · have hal : a ∈ l := (List.mem_cons.mp ha).resolve_left (Ne.symm hxa)
      rw [hnil x List.mem_cons_self hxa, List.nil_append, ih hl hal htail]

/-! Loops that count. -/

theorem fold_range (n : Nat) (f : σ → Nat → σ) (s : σ) :
    Nat.fold n (fun i _ s => f s i) s = (List.range n).foldl f s := by
  induction n with
  | zero => rfl
  | succ n ih =>
    rw [Nat.fold_succ, ih, List.range_succ, List.foldl_append, List.foldl_cons, List.foldl_nil]

theorem foldRev_range (n : Nat) (f : σ → Nat → σ) (s : σ) :
    Nat.foldRev n (fun i _ s => f s i) s = (List.range n).reverse.foldl f s := by
  induction n generalizing s with
  | zero => rfl
  | succ n ih =>
    rw [Nat.foldRev_succ, ih, List.range_succ, List.reverse_append, List.reverse_singleton,
      List.singleton_append, List.foldl_cons]

/-- A loop over different entries of a table changes each of them once. -/
theorem fold_update {ι : Type*} [DecidableEq ι] (f : ι → α → α) {l : List ι} (h : l.Nodup)
    (t : ι → α) (i : ι) :
    l.foldl (fun t k => Function.update t k (f k (t k))) t i = if i ∈ l then f i (t i) else t i := by
  induction l generalizing t with
  | nil => rfl
  | cons k l ih =>
    obtain ⟨hk, hl⟩ := List.nodup_cons.mp h
    rw [List.foldl_cons, ih hl]
    by_cases hi : i = k
    · subst hi
      simp [hk]
    · simp [hi, Function.update_of_ne]

/-- What a loop touches: the touches of every round, in the state it starts from. -/
def trace {τ : Type*} (step : σ → β → σ) (touch : σ → β → List τ) : σ → List β → List τ
  | _, [] => []
  | s, x :: l => touch s x ++ trace step touch (step s x) l

theorem trace_cons {τ : Type*} (step : σ → β → σ) (touch : σ → β → List τ) (s : σ) (x : β)
    (l : List β) : trace step touch s (x :: l) = touch s x ++ trace step touch (step s x) l := rfl

theorem trace_append {τ : Type*} (step : σ → β → σ) (touch : σ → β → List τ) (s : σ)
    (l l' : List β) :
    trace step touch s (l ++ l') = trace step touch s l ++ trace step touch (l.foldl step s) l' := by
  induction l generalizing s with
  | nil => rfl
  | cons x l ih => rw [List.cons_append, trace_cons, trace_cons, ih, List.append_assoc, List.foldl_cons]

/-- When what a round touches depends on its value only, so does what the loop
    touches. -/
theorem mem_trace {τ : Type*} {step : σ → β → σ} {touch : σ → β → List τ} {P : β → τ → Prop}
    {l : List β} (h : ∀ s, ∀ x ∈ l, ∀ y, y ∈ touch s x ↔ P x y) (s : σ) (y : τ) :
    y ∈ trace step touch s l ↔ ∃ x ∈ l, P x y := by
  induction l generalizing s with
  | nil => simp [trace]
  | cons x l ih =>
    rw [trace_cons, List.mem_append, h s x List.mem_cons_self,
      ih fun s x hx => h s x (List.mem_cons_of_mem _ hx)]
    simp

/-- A loop that is followed, step by step, by one over another state touches what that one
    touches. -/
theorem trace_sim {τ υ : Type*} {step : σ → β → σ} {touch : σ → β → List τ}
    {step' : υ → β → υ} {touch' : υ → β → List τ} {Inv : σ → Prop} {abs : σ → υ}
    (hinv : ∀ s x, Inv s → Inv (step s x))
    (hstep : ∀ s x, Inv s → abs (step s x) = step' (abs s) x)
    (htouch : ∀ s x, Inv s → touch s x = touch' (abs s) x) (l : List β) {s : σ} (h : Inv s) :
    Inv (l.foldl step s) ∧ abs (l.foldl step s) = l.foldl step' (abs s) ∧
    trace step touch s l = trace step' touch' (abs s) l := by
  induction l generalizing s with
  | nil => exact ⟨h, rfl, rfl⟩
  | cons x l ih =>
    obtain ⟨hend, habs, htrace⟩ := ih (hinv s x h)
    refine ⟨hend, ?_, ?_⟩
    · rw [List.foldl_cons, habs, hstep s x h, List.foldl_cons]
    · rw [trace_cons, trace_cons, htrace, htouch s x h, hstep s x h]

end Folds
