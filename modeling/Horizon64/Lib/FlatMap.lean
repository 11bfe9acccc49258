import Mathlib.Data.List.Basic

/- Flat maps from addresses to entries.

   An address is looked up by its key (`key v`), so two addresses with one key hold
   the same entry. `assign` writes one key, `assignAll` a list of them in order; what
   it leaves at an address depends on the last assignment to the address's key, and on
   the map before only where there is none (`assignAll_covered`, `assignAll_off`).
   `wipe` drops a whole region of addresses when the address it is given holds an
   entry. -/
namespace FlatMap
variable {V K R L : Type*} [DecidableEq K] [DecidableEq R]

/-- The map with entry `e` at the key of `v`. -/
def assign (key : V → K) (f : V → Option L) (v : V) (e : Option L) : V → Option L :=
  fun w => if key w = key v then e else f w

def assignAll (key : V → K) (f : V → Option L) (l : List (V × Option L)) : V → Option L :=
  l.foldl (fun f x => assign key f x.1 x.2) f

/-- Drop every address in the region of `v`, when `v` holds an entry. -/
def wipe (region : V → R) (f : V → Option L) (v : V) : V → Option L :=
  if (f v).isSome then fun w => if region w = region v then none else f w else f

def wipeAll (region : V → R) (f : V → Option L) (vs : List V) : V → Option L :=
  vs.foldl (wipe region) f

variable {key : V → K} {region : V → R}

theorem assignAll_append (f : V → Option L) (l l' : List (V × Option L)) :
    assignAll key f (l ++ l') = assignAll key (assignAll key f l) l' := List.foldl_append

theorem assignAll_off {l : List (V × Option L)} {w : V} (h : ∀ x ∈ l, key w ≠ key x.1)
    (f : V → Option L) : assignAll key f l w = f w := by
  induction l generalizing f with
  | nil => rfl
  | cons x l ih =>
    rw [assignAll, List.foldl_cons, ← assignAll,
      ih (fun y hy => h y (List.mem_cons_of_mem x hy)), assign, if_neg (h x List.mem_cons_self)]

/-- What is assigned to a key does not depend on the map before. -/
theorem assignAll_covered {l : List (V × Option L)} {w : V} (h : ∃ x ∈ l, key w = key x.1)
    (f g : V → Option L) : assignAll key f l w = assignAll key g l w := by
  induction l generalizing f g with
  | nil =>
    obtain ⟨x, hx, _⟩ := h
    simp at hx
  | cons x l ih =>
    rw [assignAll, assignAll, List.foldl_cons, List.foldl_cons, ← assignAll, ← assignAll]
    by_cases hl : ∃ y ∈ l, key w = key y.1
    · exact ih hl _ _
    · have hoff : ∀ y ∈ l, key w ≠ key y.1 := fun y hy he => hl ⟨y, hy, he⟩
      obtain ⟨y, hy, hk⟩ := h
      rcases List.mem_cons.mp hy with rfl | hy
      · rw [assignAll_off hoff, assignAll_off hoff, assign, assign, if_pos hk, if_pos hk]
      · exact absurd hk (hoff y hy)

/-- Where every assignment to a key puts the same entry, that entry is there. -/
theorem assignAll_same {l : List (V × Option L)} {w : V} {e : Option L}
    (hex : ∃ x ∈ l, key w = key x.1) (hall : ∀ x ∈ l, key w = key x.1 → x.2 = e)
    (f : V → Option L) : assignAll key f l w = e := by
  induction l generalizing f with
  | nil =>
    obtain ⟨x, hx, _⟩ := hex
    simp at hx
  | cons x l ih =>
    have hall' : ∀ y ∈ l, key w = key y.1 → y.2 = e :=
      fun y hy => hall y (List.mem_cons_of_mem x hy)
    rw [assignAll, List.foldl_cons, ← assignAll]
    by_cases hl : ∃ y ∈ l, key w = key y.1
    · exact ih hl hall' _
    · have hoff : ∀ y ∈ l, key w ≠ key y.1 := fun y hy he => hl ⟨y, hy, he⟩
      obtain ⟨y, hy, hk⟩ := hex
      rcases List.mem_cons.mp hy with rfl | hy
      · rw [assignAll_off hoff, assign, if_pos hk, hall y List.mem_cons_self hk]
      · exact absurd hk (hoff y hy)

/-- What is at an assigned key was put there by one of the assignments to it. -/
theorem assignAll_mem {l : List (V × Option L)} {w : V} (h : ∃ x ∈ l, key w = key x.1)
    (f : V → Option L) : ∃ x ∈ l, key w = key x.1 ∧ assignAll key f l w = x.2 := by
  induction l generalizing f with
  | nil =>
    obtain ⟨x, hx, _⟩ := h
    simp at hx
  | cons x l ih =>
    rw [assignAll, List.foldl_cons, ← assignAll]
    by_cases hl : ∃ y ∈ l, key w = key y.1
    · obtain ⟨y, hy, hrest⟩ := ih hl (assign key f x.1 x.2)
      exact ⟨y, List.mem_cons_of_mem x hy, hrest⟩
    · have hoff : ∀ y ∈ l, key w ≠ key y.1 := fun y hy he => hl ⟨y, hy, he⟩
      obtain ⟨y, hy, hk⟩ := h
      rcases List.mem_cons.mp hy with rfl | hy
      · exact ⟨y, List.mem_cons_self, hk, by rw [assignAll_off hoff, assign, if_pos hk]⟩
      · exact absurd hk (hoff y hy)

theorem isSome_of_wipe {f : V → Option L} {v w : V} (h : (wipe region f v w).isSome) :
    (f w).isSome := by
  rw [wipe] at h
  split at h
  · dsimp only at h
    split at h
    · cases h
    · exact h
  · exact h

/-- After wiping at a list of addresses: the regions of those that held an entry at
    the start are gone, the rest is as it was. -/
theorem wipeAll_apply (f : V → Option L) (vs : List V) (w : V) :
    wipeAll region f vs w =
      if ∃ v ∈ vs, (f v).isSome ∧ region w = region v then none else f w := by
  induction vs generalizing f with
  | nil => simp [wipeAll]
  | cons v vs ih =>
    rw [wipeAll, List.foldl_cons, ← wipeAll, ih]
    cases hv : (f v).isSome with
    | false => simp [wipe, hv]
    | true =>
      by_cases hw : region w = region v
      · simp [wipe, hv, hw]
      · have hiff : (∃ u ∈ vs, (wipe region f v u).isSome ∧ region w = region u) ↔
            ∃ u ∈ vs, (f u).isSome ∧ region w = region u := by
          refine exists_congr fun u => and_congr_right fun _ => ?_
          refine and_congr_left fun hu => ?_
          rw [wipe, if_pos hv, if_neg (fun h => hw (hu.trans h))]
        simp only [hiff, List.mem_cons, exists_eq_or_imp, hv, hw, and_false, false_or]
        simp [wipe, hv, hw]

end FlatMap
