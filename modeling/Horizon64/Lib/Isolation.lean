import Horizon64.Lib.Interleaving

/- Processes that hold resources of one shared state.

   `Owner` says what a process may rely on: its invariant is about the resources it holds
   and about what no action changes (`inv_local`), and these resources are taken (`inv_used`).
   An action is `Framed` when it keeps the process's own invariant and leaves alone every
   taken resource that the process does not hold. Then it keeps the invariant of every owner
   of other resources (`Framed.other`), and two owners side by side are one (`Owner.star`),
   for which the actions of either are framed. In any number of processes no two ever hold the
   same resource, whichever acts (`step_coexist`), and what a process holds is the same after
   any actions of the others (`run_others`).

   Where the resources are only a way to look at another state, the processes there are
   `Shown`: an action that is framed in what it is a view of gives a run of framed actions
   (`run_shown`). -/
namespace Isolation
open Interleaving
variable {ι S L M ρ β : Type*}

/-- The resources of a shared state, and what of it no action changes. -/
structure Resources (S ρ β : Type*) where
  used : S → ρ → Prop
  /-- The resource is the same in both states. -/
  same : S → S → ρ → Prop
  const : S → β
  same_refl : ∀ s r, same s s r
  same_trans : ∀ s s' s'' r, same s s' r → same s' s'' r → same s s'' r

/-- What a process with local states `L` holds, and what it relies on. -/
structure Owner (B : Resources S ρ β) (L : Type*) where
  holds : L → ρ → Prop
  inv : S → L → Prop
  inv_used : ∀ s l r, inv s l → holds l r → B.used s r
  inv_local : ∀ s s' l, inv s l → B.const s' = B.const s →
    (∀ r, holds l r → B.used s' r ∧ B.same s s' r) → inv s' l

variable {B : Resources S ρ β}

/-- An action that keeps the invariant, and the taken resources that others may hold. -/
structure Framed (R : Owner B L) (s : S) (l : L) (s' : S) (l' : L) : Prop where
  const : B.const s' = B.const s
  inv : R.inv s' l'
  keep : ∀ r, B.used s r → ¬ R.holds l r → B.used s' r ∧ ¬ R.holds l' r ∧ B.same s s' r

/-! Actions in sequence, and other owners. -/

section Owners
variable {R : Owner B L} {R' : Owner B M} {s s' s'' : S} {l l' l'' : L} {m m' : M}

theorem Framed.refl (h : R.inv s l) : Framed R s l s l :=
  ⟨rfl, h, fun r hused hout => ⟨hused, hout, B.same_refl s r⟩⟩

theorem Framed.trans (h : Framed R s l s' l') (h' : Framed R s' l' s'' l'') :
    Framed R s l s'' l'' := by
  refine ⟨h'.const.trans h.const, h'.inv, fun r hused hout => ?_⟩
  obtain ⟨hused', hout', hsame⟩ := h.keep r hused hout
  obtain ⟨hused'', hout'', hsame'⟩ := h'.keep r hused' hout'
  exact ⟨hused'', hout'', B.same_trans _ _ _ r hsame hsame'⟩

theorem Framed.other (h : Framed R s l s' l') (hinv : R'.inv s m)
    (hapart : ∀ r, R'.holds m r → ¬ R.holds l r) :
    R'.inv s' m ∧ ∀ r, R'.holds m r → B.used s' r ∧ ¬ R.holds l' r ∧ B.same s s' r := by
  have hkeep : ∀ r, R'.holds m r → B.used s' r ∧ ¬ R.holds l' r ∧ B.same s s' r :=
    fun r hr => h.keep r (R'.inv_used s m r hinv hr) (hapart r hr)
  exact ⟨R'.inv_local s s' m hinv h.const fun r hr => ⟨(hkeep r hr).1, (hkeep r hr).2.2⟩, hkeep⟩

/-- The owner as a process whose local state is looked up in another. -/
def Owner.comap (R : Owner B L) (f : M → L) : Owner B M where
  holds m := R.holds (f m)
  inv s m := R.inv s (f m)
  inv_used s m := R.inv_used s (f m)
  inv_local s s' m := R.inv_local s s' (f m)

theorem Framed.comap {f : M → L} (h : Framed R s (f m) s' (f m')) :
    Framed (R.comap f) s m s' m' := ⟨h.const, h.inv, h.keep⟩

/-- The owner, with a condition on its local state. -/
def Owner.restrict (R : Owner B L) (P : L → Prop) : Owner B L where
  holds := R.holds
  inv s l := R.inv s l ∧ P l
  inv_used s l r h := R.inv_used s l r h.1
  inv_local s s' l h hconst hkeep := ⟨R.inv_local s s' l h.1 hconst hkeep, h.2⟩

theorem Framed.restrict {P : L → Prop} (h : Framed R s l s' l') (hP : P l') :
    Framed (R.restrict P) s l s' l' := ⟨h.const, ⟨h.inv, hP⟩, h.keep⟩

/-- Two owners, of different resources. -/
def Owner.star (R : Owner B L) (R' : Owner B M) : Owner B (L × M) where
  holds l r := R.holds l.1 r ∨ R'.holds l.2 r
  inv s l := R.inv s l.1 ∧ R'.inv s l.2 ∧ ∀ r, R.holds l.1 r → ¬ R'.holds l.2 r
  inv_used s l r h hr := hr.elim (R.inv_used s l.1 r h.1) (R'.inv_used s l.2 r h.2.1)
  inv_local s s' l h hconst hkeep :=
    ⟨R.inv_local s s' l.1 h.1 hconst fun r hr => hkeep r (Or.inl hr),
      R'.inv_local s s' l.2 h.2.1 hconst fun r hr => hkeep r (Or.inr hr), h.2.2⟩

theorem Framed.left (h : Framed R s l s' l') (hinv : (R.star R').inv s (l, m)) :
    Framed (R.star R') s (l, m) s' (l', m) := by
  obtain ⟨-, hinv', hapart⟩ := hinv
  obtain ⟨hother, hkeep⟩ := h.other hinv' fun r hr hin => hapart r hin hr
  refine ⟨h.const, ⟨h.inv, hother, fun r hin hr => (hkeep r hr).2.1 hin⟩, fun r hused hout => ?_⟩
  obtain ⟨hused', hout', hsame⟩ := h.keep r hused fun hin => hout (Or.inl hin)
  exact ⟨hused', fun hin => hin.elim hout' fun hr => hout (Or.inr hr), hsame⟩

theorem Framed.right (h : Framed R' s m s' m') (hinv : (R.star R').inv s (l, m)) :
    Framed (R.star R') s (l, m) s' (l, m') := by
  obtain ⟨hinv', -, hapart⟩ := hinv
  obtain ⟨hother, hkeep⟩ := h.other hinv' hapart
  refine ⟨h.const, ⟨hother, h.inv, fun r hr => (hkeep r hr).2.1⟩, fun r hused hout => ?_⟩
  obtain ⟨hused', hout', hsame⟩ := h.keep r hused fun hin => hout (Or.inr hin)
  exact ⟨hused', fun hin => hin.elim (fun hr => hout (Or.inl hr)) hout', hsame⟩

/-- A process that holds nothing. -/
def nobody (B : Resources S ρ β) : Owner B Unit where
  holds _ _ := False
  inv _ _ := True
  inv_used _ _ _ _ h := h.elim
  inv_local _ _ _ _ _ _ := trivial

/-- What it does is framed for every other. -/
theorem Framed.anyone (h : Framed (nobody B) s () s' ()) (hinv : R.inv s l) : Framed R s l s' l :=
  ⟨h.const, (h.other hinv fun _ _ => id).1, fun r hused hout =>
    ⟨(h.keep r hused id).1, hout, (h.keep r hused id).2.2⟩⟩

section Three
variable {N : Type*} {Q : Owner B M} {T : Owner B N} {n : N}
  (h : (R.star (Q.star T)).inv s (l, (m, n)))
include h

theorem star_left : (R.star Q).inv s (l, m) :=
  ⟨h.1, h.2.1.1, fun r hr hin => h.2.2 r hr (Or.inl hin)⟩

theorem star_right : (R.star T).inv s (l, n) :=
  ⟨h.1, h.2.1.2.1, fun r hr hin => h.2.2 r hr (Or.inr hin)⟩

end Three

end Owners

/-! Any number of processes. -/

variable (R : Owner B L)

/-- The processes keep their invariants, and no two of them hold the same resource. -/
structure Coexist (σ : State ι S L) : Prop where
  inv : ∀ i, R.inv σ.shared (σ.locals i)
  apart : ∀ i j, i ≠ j → ∀ r, R.holds (σ.locals i) r → ¬ R.holds (σ.locals j) r

variable {R}

section Actions
variable [DecidableEq ι] {act : S → L → S → L → Prop}
  (hact : ∀ s l s' l', R.inv s l → act s l s' l' → Framed R s l s' l')
include hact

theorem step_others {σ σ' : State ι S L} {i j : ι} (h : Coexist R σ) (hstep : Step act i σ σ')
    (hne : j ≠ i) : σ'.locals j = σ.locals j ∧ B.const σ'.shared = B.const σ.shared ∧
      R.inv σ'.shared (σ.locals j) ∧ ∀ r, R.holds (σ.locals j) r →
        B.used σ'.shared r ∧ ¬ R.holds (σ'.locals i) r ∧ B.same σ.shared σ'.shared r := by
  obtain ⟨l', hrun, hlocals⟩ := hstep
  have hframed := hact _ _ _ _ (h.inv i) hrun
  have hself : σ'.locals i = l' := by rw [hlocals, Function.update_self]
  have hother := hframed.other (h.inv j) (h.apart j i hne)
  rw [← hself] at hother
  exact ⟨by rw [hlocals, Function.update_of_ne hne], hframed.const, hother⟩

theorem step_coexist {σ σ' : State ι S L} {i : ι} (h : Coexist R σ) (hstep : Step act i σ σ') :
    Coexist R σ' := by
  have hothers := fun j (hne : j ≠ i) => step_others hact h hstep hne
  obtain ⟨l', hrun, hlocals⟩ := hstep
  have hself : σ'.locals i = l' := by rw [hlocals, Function.update_self]
  refine ⟨fun j => ?_, fun j k hjk r hj hk => ?_⟩
  · by_cases hne : j = i
    · rw [hne, hself]
      exact (hact _ _ _ _ (h.inv i) hrun).inv
    · obtain ⟨hsame, -, hinv, -⟩ := hothers j hne
      rw [hsame]
      exact hinv
  · by_cases hji : j = i
    · have hki : k ≠ i := fun hki => hjk (hji.trans hki.symm)
      obtain ⟨hsame, -, -, hkeep⟩ := hothers k hki
      rw [hsame] at hk
      exact (hkeep r hk).2.1 (hji ▸ hj)
    · obtain ⟨hsame, -, -, hkeep⟩ := hothers j hji
      rw [hsame] at hj
      by_cases hki : k = i
      · exact (hkeep r hj).2.1 (hki ▸ hk)
      · rw [(hothers k hki).1] at hk
        exact h.apart j k hjk r hj hk

/-- Actions of the processes other than `j`: what `j` holds is as it was. -/
theorem run_others {σ σ' : State ι S L} {j : ι} (h : Coexist R σ)
    (hrun : Relation.ReflTransGen (fun σ σ' => ∃ i, i ≠ j ∧ Step act i σ σ') σ σ') :
    Coexist R σ' ∧ σ'.locals j = σ.locals j ∧ B.const σ'.shared = B.const σ.shared ∧
      ∀ r, R.holds (σ.locals j) r → B.same σ.shared σ'.shared r := by
  induction hrun with
  | refl => exact ⟨h, rfl, rfl, fun r _ => B.same_refl _ r⟩
  | tail _ hstep ih =>
    obtain ⟨i, hne, hstep⟩ := hstep
    obtain ⟨hcoexist, hlocal, hconst, hsame⟩ := ih
    obtain ⟨hlocal', hconst', -, hkeep⟩ := step_others hact hcoexist hstep (Ne.symm hne)
    refine ⟨step_coexist hact hcoexist hstep, hlocal'.trans hlocal, hconst'.trans hconst,
      fun r hr => B.same_trans _ _ _ r (hsame r hr) (hkeep r ?_).2.2⟩
    rw [hlocal]
    exact hr

end Actions

/-! Processes seen through a view. -/

/-- The processes of `τ` are those of `σ` in other words. They coexist, beside an owner that
    does nothing. -/
structure Shown {C U K : Type*} (F : Owner B K) (k : K) (R : Owner B L) (shared : S → C)
    (view : L → U) (σ : State ι S L) (τ : State ι C U) : Prop where
  shared : τ.shared = shared σ.shared
  locals : ∀ i, τ.locals i = view (σ.locals i)
  base : F.inv σ.shared k
  away : ∀ i r, F.holds k r → ¬ R.holds (σ.locals i) r
  coexist : Coexist R σ

section Shown
variable {C U K : Type*} {F : Owner B K} {k : K} {shared : S → C} {view : L → U}
  {σ : State ι S L} {τ τ' : State ι C U}

theorem Shown.inv (h : Shown F k R shared view σ τ) (i : ι) :
    (F.star R).inv σ.shared (k, σ.locals i) := ⟨h.base, h.coexist.inv i, h.away i⟩

variable [DecidableEq ι] {act : C → U → C → U → Prop}
  (hact : ∀ s l c' u', (F.star R).inv s (k, l) → act (shared s) (view l) c' u' →
    ∃ s' l', c' = shared s' ∧ u' = view l' ∧ Framed R s l s' l')
include hact

/-- An action of a process that is shown is a framed one. -/
theorem step_shown {i : ι} (h : Shown F k R shared view σ τ) (hstep : Step act i τ τ') :
    ∃ σ', Step (Framed R) i σ σ' ∧ Shown F k R shared view σ' τ' := by
  obtain ⟨u', hrun, hlocals⟩ := hstep
  rw [h.shared, h.locals i] at hrun
  obtain ⟨s', l', hshared, rfl, hframed⟩ := hact _ _ _ _ (h.inv i) hrun
  have hstep' : Step (Framed R) i σ ⟨s', Function.update σ.locals i l'⟩ := ⟨l', hframed, rfl⟩
  obtain ⟨hbase, hkeep⟩ := hframed.other h.base (h.away i)
  refine ⟨_, hstep', hshared, fun j => ?_, hbase, fun j r hr => ?_,
    step_coexist (fun _ _ _ _ _ => id) h.coexist hstep'⟩
  · rw [hlocals, Function.apply_update (fun _ => view)]
    exact congrFun (congrArg (Function.update · i (view l')) (funext h.locals)) j
  · show ¬ R.holds (Function.update σ.locals i l' j) r
    by_cases hj : j = i
    · rw [hj, Function.update_self]
      exact (hkeep r hr).2.1
    · rw [Function.update_of_ne hj]
      exact h.away j r hr

theorem run_shown {P : ι → Prop} (h : Shown F k R shared view σ τ)
    (hrun : Relation.ReflTransGen (fun τ τ' => ∃ i, P i ∧ Step act i τ τ') τ τ') :
    ∃ σ', Relation.ReflTransGen (fun σ σ' => ∃ i, P i ∧ Step (Framed R) i σ σ') σ σ' ∧
      Shown F k R shared view σ' τ' := by
  induction hrun with
  | refl => exact ⟨σ, .refl, h⟩
  | tail _ hstep ih =>
    obtain ⟨σ', hrun, h'⟩ := ih
    obtain ⟨i, hi, hstep⟩ := hstep
    obtain ⟨σ'', hstep', h''⟩ := step_shown hact h' hstep
    exact ⟨σ'', .tail hrun ⟨i, hi, hstep'⟩, h''⟩

end Shown

end Isolation
