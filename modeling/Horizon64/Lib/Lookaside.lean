import Horizon64.Lib.FlatMap

/- Lookaside buffers: entries of a map, kept by a processor that looks them up.

   The processor may load an entry of the map at any time, and forget one (`Loads`). The buffer
   is coherent with the map when all it has are entries of the map. Who writes to the map has
   to drop what the buffer may have: for one key this is enough, whatever is loaded between
   the write and the drop (`coherent_assign`); for a whole region, one key is enough exactly
   when the region has no other entry (`coherent_wipe_iff`). -/
namespace Lookaside
open FlatMap
variable {V K L R : Type*}

/-- What the buffer can be after the processor worked with the map `f`. -/
def Loads (f buf buf' : V → Option L) : Prop :=
  ∀ v e, buf' v = some e → buf v = some e ∨ f v = some e

/-- The buffer has entries of the map only. -/
def Coherent (f buf : V → Option L) : Prop := ∀ v e, buf v = some e → f v = some e

/-- What the processor works with: what it has, or what it finds in the map. -/
def lookup (f buf : V → Option L) (v : V) : Option L := (buf v).or (f v)

variable {f buf buf' : V → Option L}

/-- A coherent buffer cannot be told from none. -/
theorem coherent_iff_lookup : Coherent f buf ↔ ∀ v, lookup f buf v = f v := by
  constructor
  · intro h v
    cases hv : buf v with
    | none => simp [lookup, hv]
    | some e => simp [lookup, hv, h v e hv]
  · intro h v e he
    have hv := h v
    simpa [lookup, he] using hv.symm

theorem Loads.refl (f buf : V → Option L) : Loads f buf buf := fun _ _ h => Or.inl h

theorem Loads.all (f buf : V → Option L) : Loads f buf f := fun _ _ h => Or.inr h

theorem coherent_empty (f : V → Option L) : Coherent f fun _ => none := by simp [Coherent]

theorem Coherent.load (h : Coherent f buf) (hload : Loads f buf buf') : Coherent f buf' :=
  fun v e he => (hload v e he).elim (h v e) id

variable [DecidableEq K] [DecidableEq R] {key : V → K} {region : V → R}

/-- Drop a key from the buffer. -/
def drop (key : V → K) (buf : V → Option L) (v : V) : V → Option L := assign key buf v none

theorem drop_eq_some {v w : V} {e : L} :
    drop key buf v w = some e ↔ key w ≠ key v ∧ buf w = some e := by
  by_cases hw : key w = key v <;> simp [drop, assign, hw]

/-- Write a key, then drop it: what was loaded before the write and what was loaded after it
    are both fine. -/
theorem coherent_assign (h : Coherent f buf) {v : V} {x : Option L}
    (hload : Loads (assign key f v x) buf buf') :
    Coherent (assign key f v x) (drop key buf' v) := by
  intro w e he
  obtain ⟨hne, hw⟩ := drop_eq_some.mp he
  rcases hload w e hw with hold | hnew
  · have hf := h w e hold
    simpa [assign, hne] using hf
  · exact hnew

/-- The region of `v` goes, after the key of `v` was cleared and dropped. -/
theorem coherent_wipe_iff {v : V} (hv : (f v).isSome) :
    (∀ buf, Coherent (assign key f v none) buf → Coherent (wipe region f v) buf) ↔
      ∀ w, region w = region v → (f w).isSome → key w = key v := by
  rw [wipe, if_pos hv]
  constructor
  · intro h w hregion hw
    by_contra hne
    obtain ⟨e, he⟩ := Option.isSome_iff_exists.mp hw
    have hkept := h _ (fun _ _ hall => hall) w e (by simpa [assign, hne] using he)
    simp [hregion] at hkept
  · intro h buf hbuf w e he
    have hw := hbuf w e he
    by_cases hk : key w = key v
    · simp [assign, hk] at hw
    · rw [assign, if_neg hk] at hw
      have hregion : region w ≠ region v := fun hr => hk (h w hr (by simp [hw]))
      simpa [hregion] using hw

end Lookaside
