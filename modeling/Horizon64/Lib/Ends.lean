import Horizon64.Lib.Folds

/- What a computation that may halt comes to.

   `Ends E x G`: what `x` returns is good, and where `E` holds it does return. The two go
   together through a sequence of steps (`bind`) and a loop (`foldlM`), so that one walk through
   a function proves both. -/
variable {α β σ : Type*}

structure Ends (E : Prop) (x : Option α) (G : α → Prop) : Prop where
  good : ∀ a, x = some a → G a
  returns : E → x.isSome

namespace Ends
variable {E : Prop} {x : Option α} {G : α → Prop}

theorem pure {a : α} (h : G a) : Ends E (some a) G :=
  ⟨fun _ hb => Option.some.inj hb ▸ h, fun _ => rfl⟩

theorem halt (h : ¬ E) : Ends E (none : Option α) G :=
  ⟨fun _ ha => absurd ha (Option.some_ne_none _).symm, fun hE => absurd hE h⟩

theorem mono {H : α → Prop} (h : Ends E x G) (himp : ∀ a, G a → H a) : Ends E x H :=
  ⟨fun a ha => himp a (h.good a ha), h.returns⟩

theorem bind {f : α → Option β} {H : β → Prop} (h : Ends E x G)
    (hf : ∀ a, G a → Ends E (f a) H) : Ends E (x.bind f) H := by
  cases x with
  | none => exact halt fun hE => absurd (h.returns hE) Bool.false_ne_true
  | some a => exact hf a (h.good a rfl)

theorem map {f : α → β} {H : β → Prop} (h : Ends E x G) (hf : ∀ a, G a → H (f a)) :
    Ends E (x.map f) H := by
  rw [Option.map_eq_bind]
  exact h.bind fun a ha => pure (hf a ha)

theorem ex (h : Ends E x G) (hE : E) : ∃ a, x = some a ∧ G a := by
  obtain ⟨a, ha⟩ := Option.isSome_iff_exists.mp (h.returns hE)
  exact ⟨a, ha, h.good a ha⟩

/-- A loop whose rounds follow the rounds of a loop on abstract values. -/
theorem foldlM {f : σ → β → Option σ} {g : α → β → α} {R : σ → α → Prop} {l : List β}
    (hstep : ∀ s a, ∀ x ∈ l, R s a → Ends E (f s x) fun s' => R s' (g a x)) {s : σ} {a : α}
    (h : R s a) : Ends E (l.foldlM f s) fun s' => R s' (l.foldl g a) := by
  induction l generalizing s a with
  | nil => exact pure h
  | cons x l ih =>
    rw [List.foldlM_cons, List.foldl_cons]
    exact (hstep s a x List.mem_cons_self h).bind fun t ht =>
      ih (fun s a y hy => hstep s a y (List.mem_cons_of_mem x hy)) ht

end Ends
