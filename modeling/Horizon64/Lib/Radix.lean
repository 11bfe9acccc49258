import Mathlib.Data.List.Basic

/- Trees of tables in a flat store.

   A store gives for a table `t` and an index `i` the table that the entry refers
   to, if it refers to one (`sub t i`). From a root, a list of indices leads to at
   most one table (`descend`). `Tree sub root d` says that within depth `d` no table
   is reached by two paths, so writing one entry changes what lies below one path
   and nothing else.

   An `Edit` writes one slot of one table of a tree. When nothing lies below the
   slot before and after, every path other than the slot's own leads where it led
   (`Edit.descend_eq`), and the result is a tree again (`Edit.tree'`). -/
namespace Radix
variable {F I : Type*}

/-- The table the path leads to. -/
def descend (sub : F → I → Option F) : F → List I → Option F
  | t, [] => some t
  | t, i :: p => (sub t i).bind fun u => descend sub u p

variable {sub sub' : F → I → Option F} {root t₀ : F} {d : Nat} {p₀ q : List I} {i₀ : I}
  {v : Option F}

@[simp] theorem descend_nil (t : F) : descend sub t [] = some t := rfl

@[simp] theorem descend_cons (t : F) (i : I) (p : List I) :
    descend sub t (i :: p) = (sub t i).bind fun u => descend sub u p := rfl

theorem descend_append (t : F) (p q : List I) :
    descend sub t (p ++ q) = (descend sub t p).bind fun u => descend sub u q := by
  induction p generalizing t with
  | nil => rfl
  | cons i p ih => simp only [List.cons_append, descend_cons, ih, Option.bind_assoc]

theorem descend_snoc (t : F) (p : List I) (i : I) :
    descend sub t (p ++ [i]) = (descend sub t p).bind fun u => sub u i := by
  rw [descend_append]
  congr 1
  funext u
  cases h : sub u i <;> simp [h]

theorem descend_three {A : Type*} (t : F) (i j k : I) (g : F → Option A) :
    (descend sub t [i, j, k]).bind g =
      (sub t i).bind fun u => (sub u j).bind fun w => (sub w k).bind g := by
  simp only [descend_cons, descend_nil, Option.bind_assoc, Option.bind_some]

theorem descend_congr {root : F} {q : List I}
    (h : ∀ r i s t, q = r ++ i :: s → descend sub root r = some t → sub' t i = sub t i) :
    descend sub' root q = descend sub root q := by
  induction q generalizing root with
  | nil => rfl
  | cons i q ih =>
    rw [descend_cons, descend_cons, h [] i q root rfl rfl]
    cases hu : sub root i with
    | none => rfl
    | some u =>
      apply ih
      intro r j s t hq hr
      apply h (i :: r) j s t (by rw [hq, List.cons_append])
      rw [descend_cons, hu]
      exact hr

/-- Within depth `d`, every table is reached by one path only. -/
def Tree (sub : F → I → Option F) (root : F) (d : Nat) : Prop :=
  ∀ p q t, p.length ≤ d → q.length ≤ d → descend sub root p = some t →
    descend sub root q = some t → p = q

/-- `t` is one of the tables within depth `d`. -/
def Reached (sub : F → I → Option F) (root : F) (d : Nat) (t : F) : Prop :=
  ∃ p, p.length ≤ d ∧ descend sub root p = some t

/-- The store changes in one slot of a table of the tree: slot `i₀` of the table
    that `p₀` leads to now holds `v`. -/
structure Edit (sub sub' : F → I → Option F) (root : F) (d : Nat) (p₀ : List I) (t₀ : F) (i₀ : I)
    (v : Option F) : Prop where
  tree : Tree sub root d
  table : descend sub root p₀ = some t₀
  depth : p₀.length < d
  slot : sub' t₀ i₀ = v
  off : ∀ p t i, p.length < d → descend sub root p = some t → ¬ (t = t₀ ∧ i = i₀) →
    sub' t i = sub t i

namespace Edit
variable (h : Edit sub sub' root d p₀ t₀ i₀ v)
include h

theorem descend_off (hq : q.length ≤ d) (hoff : ¬ p₀ ++ [i₀] <+: q) :
    descend sub' root q = descend sub root q := by
  apply descend_congr
  intro r i s t hqs hr
  have hlen : r.length < d := by
    rw [hqs, List.length_append, List.length_cons] at hq
    omega
  apply h.off r t i hlen hr
  intro ⟨ht, hi⟩
  subst ht hi
  apply hoff
  have hrp : r = p₀ := h.tree r p₀ t (by omega) (Nat.le_of_lt h.depth) hr h.table
  exact ⟨s, by rw [hqs, hrp, List.append_assoc, List.singleton_append]⟩

/-- A path through the slot goes on from what the slot holds. -/
theorem descend_under (s : List I) :
    descend sub' root (p₀ ++ i₀ :: s) = v.bind fun u => descend sub' u s := by
  have hp : descend sub' root p₀ = some t₀ := by
    rw [h.descend_off (Nat.le_of_lt h.depth), h.table]
    intro hpre
    have hle := hpre.length_le
    rw [List.length_append, List.length_singleton] at hle
    omega
  rw [descend_append, hp, Option.bind_some, descend_cons, h.slot]

variable [DecidableEq I]
  (hbelow : ∀ s, s ≠ [] → (p₀ ++ i₀ :: s).length ≤ d → descend sub root (p₀ ++ i₀ :: s) = none)
  (hnew : ∀ f, v = some f → ∀ j, sub' f j = none)
include hbelow hnew

/-- With nothing below the slot, before or after, only the slot's own path leads
    elsewhere. -/
theorem descend_eq (hq : q.length ≤ d) :
    descend sub' root q = if q = p₀ ++ [i₀] then v else descend sub root q := by
  by_cases hpre : p₀ ++ [i₀] <+: q
  · obtain ⟨s, rfl⟩ := hpre
    rw [List.append_assoc, List.singleton_append] at hq ⊢
    rw [h.descend_under]
    cases s with
    | nil =>
      rw [if_pos rfl]
      cases v <;> rfl
    | cons j s =>
      rw [if_neg (by simp), hbelow (j :: s) (by simp) hq]
      cases hv : v with
      | none => rfl
      | some f => rw [Option.bind_some, descend_cons, hnew f hv j, Option.bind_none]
  · rw [h.descend_off hq hpre, if_neg]
    intro heq
    exact hpre (heq ▸ List.prefix_rfl)

/-- Putting a table there that was not in the tree, or nothing, leaves a tree. -/
theorem tree' (hfresh : ∀ f, v = some f → ¬ Reached sub root d f) : Tree sub' root d := by
  intro p q t hp hq hpt hqt
  rw [h.descend_eq hbelow hnew hp] at hpt
  rw [h.descend_eq hbelow hnew hq] at hqt
  split at hpt
  · next hpe =>
    split at hqt
    · next hqe => rw [hpe, hqe]
    · exact absurd ⟨q, hq, hqt⟩ (hfresh t hpt)
  · split at hqt
    · exact absurd ⟨p, hp, hpt⟩ (hfresh t hqt)
    · exact h.tree p q t hp hq hpt hqt

/-- The tables afterwards: the others, and the one the slot holds. -/
theorem reached_iff (t : F) :
    Reached sub' root d t ↔ v = some t ∨ (Reached sub root d t ∧ sub t₀ i₀ ≠ some t) := by
  have hslot : descend sub root (p₀ ++ [i₀]) = sub t₀ i₀ := by
    rw [descend_snoc, h.table, Option.bind_some]
  have hlen : (p₀ ++ [i₀]).length ≤ d := by
    have hd := h.depth
    rw [List.length_append, List.length_singleton]
    omega
  refine ⟨?_, ?_⟩
  · intro ⟨p, hp, hpt⟩
    rw [h.descend_eq hbelow hnew hp] at hpt
    split at hpt
    · exact Or.inl hpt
    · next hpe =>
      refine Or.inr ⟨⟨p, hp, hpt⟩, fun hs => hpe ?_⟩
      exact h.tree p _ t hp hlen hpt (hslot.trans hs)
  · intro hor
    rcases hor with hv | ⟨⟨p, hp, hpt⟩, hne⟩
    · exact ⟨p₀ ++ [i₀], hlen, by rw [h.descend_eq hbelow hnew hlen, if_pos rfl, hv]⟩
    · refine ⟨p, hp, ?_⟩
      rw [h.descend_eq hbelow hnew hp, if_neg, hpt]
      intro hpe
      exact hne (by rw [← hslot, ← hpe, hpt])

end Edit

end Radix
