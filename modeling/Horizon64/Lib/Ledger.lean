import Mathlib.Logic.Relation
import Mathlib.Data.List.Pairwise

/- Runs of a step relation, and the ledger of an allocator.

   A run is the reflexive transitive closure of a step relation; what every step
   preserves holds at the end of every run (`run_preserves`).

   A ledger lists the live blocks of some allocator. `cells b` says which
   resources block `b` is made of and `used` which resources are taken.
   `Owned cells used live` says that every live block is made of used resources
   and that no two live blocks share one. Handing out a block of unused resources
   and taking back a live block keep it (`Owned.alloc`, `Owned.release`), whatever
   else happens to resources no live block is made of. `Books` says more, for an
   allocator that works alone: what is used is what was used at the start and what
   the live blocks are made of, so the books close when no block is live. -/
namespace Ledger

/-- What holds at the start of a run and is kept by every step holds at its end. -/
theorem run_preserves {σ : Type*} {Step : σ → σ → Prop} (Inv : σ → Prop)
    (hstep : ∀ s s', Inv s → Step s s' → Inv s') {s s' : σ} (hinv : Inv s)
    (hrun : Relation.ReflTransGen Step s s') : Inv s' := by
  induction hrun with
  | refl => exact hinv
  | tail _ h ih => exact hstep _ _ ih h

section Owned
variable {ρ β : Type*} {cells : β → ρ → Prop} {used used' : ρ → Prop} {live : List β} {b c : β}

/-- Two blocks have no resource in common. -/
def Apart (cells : β → ρ → Prop) (a b : β) : Prop := ∀ r, cells a r → ¬ cells b r

theorem Apart.symm (h : Apart cells b c) : Apart cells c b := fun r hc hb => h r hb hc

/-- The live blocks are made of used resources, no two of the same one. -/
structure Owned (cells : β → ρ → Prop) (used : ρ → Prop) (live : List β) : Prop where
  used : ∀ b ∈ live, ∀ r, cells b r → used r
  apart : live.Pairwise (Apart cells)

instance : Std.Symm (Apart cells) := ⟨fun _ _ h => h.symm⟩

theorem Owned.nil : Owned cells used [] := ⟨by simp, List.Pairwise.nil⟩

theorem Owned.apart_of_ne (h : Owned cells used live) (hb : b ∈ live) (hc : c ∈ live)
    (hne : b ≠ c) : Apart cells b c :=
  h.apart.forall hb hc hne

theorem Owned.perm {live' : List β} (h : Owned cells used live) (hp : live.Perm live') :
    Owned cells used live' :=
  ⟨fun b hb => h.used b (hp.mem_iff.mpr hb), (hp.pairwise_iff (fun h => h.symm)).mp h.apart⟩

theorem Owned.fresh (h : Owned cells used live) (hfree : ∀ r, cells b r → ¬ used r) :
    ∀ c ∈ live, Apart cells b c :=
  fun c hc r hb hr => hfree r hb (h.used c hc r hr)

theorem Owned.alloc (h : Owned cells used live) (hfree : ∀ r, cells b r → ¬ used r)
    (hkeep : ∀ r, used r ∨ cells b r → used' r) : Owned cells used' (b :: live) := by
  refine ⟨?_, List.pairwise_cons.mpr ⟨h.fresh hfree, h.apart⟩⟩
  intro c hc r hr
  rcases List.mem_cons.mp hc with rfl | hc
  · exact hkeep r (Or.inr hr)
  · exact hkeep r (Or.inl (h.used c hc r hr))

theorem Owned.apart_erase [DecidableEq β] (h : Owned cells used live) (hb : b ∈ live) :
    ∀ c ∈ live.erase b, Apart cells b c := by
  have hperm := (List.perm_cons_erase hb).pairwise_iff (R := Apart cells) (fun h => h.symm)
  exact (List.pairwise_cons.mp (hperm.mp h.apart)).1

theorem Owned.release [DecidableEq β] (h : Owned cells used live) (hb : b ∈ live)
    (hkeep : ∀ r, used r → ¬ cells b r → used' r) : Owned cells used' (live.erase b) := by
  refine ⟨?_, h.apart.sublist List.erase_sublist⟩
  intro c hc r hr
  have hcb : ¬ cells b r := fun hbr => h.apart_erase hb c hc r hbr hr
  exact hkeep r (h.used c (List.mem_of_mem_erase hc) r hr) hcb

end Owned

section Books
variable {ρ β : Type*} {cells : β → ρ → Prop} {used₀ used used' : ρ → Prop} {live : List β}
  {b c : β}

/-- What is used is what was used at the start and what the live blocks are made
    of, nothing twice. -/
structure Books (cells : β → ρ → Prop) (used₀ used : ρ → Prop) (live : List β) : Prop where
  used_iff : ∀ r, used r ↔ used₀ r ∨ ∃ b ∈ live, cells b r
  fresh : ∀ b ∈ live, ∀ r, cells b r → ¬ used₀ r
  apart : live.Pairwise (Apart cells)

theorem Books.nil : Books cells used used [] := ⟨by simp, by simp, List.Pairwise.nil⟩

theorem Books.owned (h : Books cells used₀ used live) : Owned cells used live :=
  ⟨fun b hb r hr => (h.used_iff r).mpr (Or.inr ⟨b, hb, hr⟩), h.apart⟩

/-- With no live block, what is used is what was used at the start. -/
theorem Books.close (h : Books cells used₀ used []) (r : ρ) : used r ↔ used₀ r := by
  simpa using h.used_iff r

theorem Books.alloc (h : Books cells used₀ used live) (hfree : ∀ r, cells b r → ¬ used r)
    (huse : ∀ r, used' r ↔ used r ∨ cells b r) : Books cells used₀ used' (b :: live) := by
  refine ⟨fun r => ?_, fun c hc r hr => ?_, List.pairwise_cons.mpr ⟨h.owned.fresh hfree, h.apart⟩⟩
  · rw [huse, h.used_iff]
    simp only [List.mem_cons, exists_eq_or_imp]
    exact or_assoc.trans (or_congr_right or_comm)
  · rcases List.mem_cons.mp hc with rfl | hc
    · exact fun h₀ => hfree r hr ((h.used_iff r).mpr (Or.inl h₀))
    · exact h.fresh c hc r hr

theorem Books.release [DecidableEq β] (h : Books cells used₀ used live) (hb : b ∈ live)
    (huse : ∀ r, used' r ↔ used r ∧ ¬ cells b r) : Books cells used₀ used' (live.erase b) := by
  refine ⟨fun r => ?_, fun c hc => h.fresh c (List.mem_of_mem_erase hc),
    h.apart.sublist List.erase_sublist⟩
  rw [huse, h.used_iff]
  constructor
  · intro ⟨hr, hout⟩
    rcases hr with hr | ⟨c, hc, hr⟩
    · exact Or.inl hr
    · have hne : c ≠ b := fun he => hout (he ▸ hr)
      exact Or.inr ⟨c, (List.mem_erase_of_ne hne).mpr hc, hr⟩
  · intro hr
    rcases hr with hr | ⟨c, hc, hr⟩
    · exact ⟨Or.inl hr, fun hbr => h.fresh b hb r hbr hr⟩
    · exact ⟨Or.inr ⟨c, List.mem_of_mem_erase hc, hr⟩,
        fun hbr => h.owned.apart_erase hb c hc r hbr hr⟩

theorem Books.replace [DecidableEq β] (h : Books cells used₀ used live) (hb : b ∈ live)
    (hsame : ∀ r, cells c r ↔ cells b r) : Books cells used₀ used (c :: live.erase b) := by
  apply (h.release hb (fun _ => Iff.rfl)).alloc
  · exact fun r hr hused => hused.2 ((hsame r).mp hr)
  · intro r
    rw [hsame r]
    have hbr : cells b r → used r := h.owned.used b hb r
    by_cases hr : cells b r
    · simp [hr, hbr hr]
    · simp [hr]

end Books

end Ledger
