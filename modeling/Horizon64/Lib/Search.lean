import Mathlib.Data.List.Pairwise

/- First-fit search.

   A search that tries candidates in order finds the first one that passes its test
   (`List.find?`). Over a list that a relation orders strictly, the first is the
   least (`find?_iff_least`); and what is found always has a property exactly when no
   candidate without the property passes the test unless one with it comes before
   (`found_good_iff`). A search whose candidates stand for groups goes on in the group of the
   first one that has something to offer (`findSome?_eq_bind`). -/
namespace Search
variable {α : Type*} {before : α → α → Prop} {p : α → Bool} {l : List α}

/-- What the search finds is the least candidate that passes. -/
theorem find?_iff_least (hsorted : l.Pairwise before) (hasymm : ∀ a b, before a b → ¬ before b a)
    (x : α) : l.find? p = some x ↔ x ∈ l ∧ p x = true ∧ ∀ y ∈ l, before y x → p y = false := by
  induction l with
  | nil => simp
  | cons a l ih =>
    obtain ⟨ha, hl⟩ := List.pairwise_cons.mp hsorted
    cases hp : p a with
    | true =>
      rw [List.find?_cons_of_pos hp, Option.some.injEq]
      constructor
      · intro hax
        subst hax
        refine ⟨List.mem_cons_self, hp, fun y hy hbefore => ?_⟩
        rcases List.mem_cons.mp hy with rfl | hy
        · exact absurd hbefore (hasymm y y hbefore)
        · exact absurd hbefore (hasymm a y (ha y hy))
      · intro h
        obtain ⟨hx, _, hleast⟩ := h
        rcases List.mem_cons.mp hx with rfl | hx
        · rfl
        · have hfalse := hleast a List.mem_cons_self (ha x hx)
          rw [hp] at hfalse
          cases hfalse
    | false =>
      rw [List.find?_cons_of_neg (by simp [hp]), ih hl]
      constructor
      · intro h
        obtain ⟨hx, hpx, hleast⟩ := h
        refine ⟨List.mem_cons_of_mem a hx, hpx, fun y hy hbefore => ?_⟩
        rcases List.mem_cons.mp hy with rfl | hy
        · exact hp
        · exact hleast y hy hbefore
      · intro h
        obtain ⟨hx, hpx, hleast⟩ := h
        refine ⟨?_, hpx, fun y hy => hleast y (List.mem_cons_of_mem a hy)⟩
        refine (List.mem_cons.mp hx).resolve_left fun hxa => ?_
        rw [hxa, hp] at hpx
        cases hpx

/-- When what the search finds has the property `good`. -/
theorem found_good_iff (hsorted : l.Pairwise before)
    (hasymm : ∀ a b, before a b → ¬ before b a) (good : α → Prop) :
    (∀ x, l.find? p = some x → good x) ↔
      ∀ x ∈ l, p x = true → good x ∨ ∃ y ∈ l, before y x ∧ p y = true ∧ good y := by
  constructor
  · intro h x hx hpx
    obtain ⟨y, hy⟩ := Option.isSome_iff_exists.mp (List.find?_isSome.mpr ⟨x, hx, hpx⟩)
    obtain ⟨hyl, hpy, hleast⟩ := (find?_iff_least hsorted hasymm y).mp hy
    have hgood := h y hy
    by_cases hxy : x = y
    · exact Or.inl (hxy ▸ hgood)
    · refine Or.inr ⟨y, hyl, ?_, hpy, hgood⟩
      -- two different candidates are in order, and `x` does not come first
      have : Std.Symm fun a b => before a b ∨ before b a := ⟨fun _ _ => Or.symm⟩
      have htri : l.Pairwise fun a b => before a b ∨ before b a := hsorted.imp Or.inl
      rcases htri.forall hx hyl hxy with hb | hb
      · rw [hleast x hx hb] at hpx
        cases hpx
      · exact hb
  · intro h x hx
    obtain ⟨hxl, hpx, hleast⟩ := (find?_iff_least hsorted hasymm x).mp hx
    rcases h x hxl hpx with hgood | ⟨y, hy, hb, hpy, _⟩
    · exact hgood
    · rw [hleast y hy hb] at hpy
      cases hpy

theorem findSome?_eq_bind {β : Type*} {offer next : α → Option β}
    (hpass : ∀ a, p a = true → offer a = next a ∧ (offer a).isSome)
    (hfail : ∀ a, p a = false → offer a = none) : l.findSome? offer = (l.find? p).bind next := by
  induction l with
  | nil => rfl
  | cons a l ih =>
    cases hp : p a with
    | true =>
      obtain ⟨hnext, hsome⟩ := hpass a hp
      obtain ⟨b, hb⟩ := Option.isSome_iff_exists.mp hsome
      rw [List.findSome?_cons_of_isSome hsome, List.find?_cons_of_pos hp, Option.bind_some, hnext]
    | false =>
      rw [List.findSome?_cons_of_isNone (by rw [hfail a hp]; rfl),
        List.find?_cons_of_neg (by simp [hp]), ih]

end Search
