import Horizon64.Lib.Bytes

/- One memory laid over another.

   `splice P f g` holds what `f` holds where `P` is true, and what `g` holds elsewhere. A
   transformation that reads and writes only at the points of a set (`Acts S F`) does not
   notice what lies outside of it: it acts on a splice as on `g` alone, when `P` is true
   nowhere in its set (`Acts.splice`).

   1. `Acts`, which composition, loops and a larger set preserve.
   2. The stores, fills and copies of `Bytes`. -/
namespace Splice
open Bytes

variable {α β : Type*}

def splice (P : α → Prop) [DecidablePred P] (f g : α → β) : α → β :=
  fun x => if P x then f x else g x

theorem splice_off {P : α → Prop} [DecidablePred P] {f g : α → β} {x : α} (h : ¬ P x) :
    splice P f g x = g x := if_neg h

/-- `F` changes `m` in `S` only, and what it leaves there depends on what was there. -/
structure Acts (S : α → Prop) (F : (α → β) → α → β) : Prop where
  off : ∀ m x, ¬ S x → F m x = m x
  congr : ∀ m m', (∀ x, S x → m x = m' x) → ∀ x, S x → F m x = F m' x

namespace Acts
variable {S T : α → Prop} {F G : (α → β) → α → β}

theorem splice (h : Acts S F) {P : α → Prop} [DecidablePred P] (hP : ∀ x, S x → ¬ P x)
    (f g : α → β) : F (splice P f g) = Splice.splice P f (F g) := by
  funext x
  by_cases hx : S x
  · rw [splice_off (hP x hx)]
    exact h.congr _ _ (fun y hy => splice_off (hP y hy)) x hx
  · rw [h.off _ x hx, Splice.splice, Splice.splice, h.off g x hx]

theorem id : Acts S fun m : α → β => m := ⟨fun _ _ _ => rfl, fun _ _ h => h⟩

theorem comp (hG : Acts S G) (hF : Acts S F) : Acts S fun m => G (F m) := by
  refine ⟨fun m x hx => ?_, fun m m' h => ?_⟩
  · rw [hG.off _ x hx, hF.off m x hx]
  · exact hG.congr _ _ (hF.congr m m' h)

theorem mono (h : Acts S F) (hST : ∀ x, S x → T x) : Acts T F := by
  refine ⟨fun m x hx => h.off m x fun hS => hx (hST x hS), fun m m' heq x hx => ?_⟩
  by_cases hS : S x
  · exact h.congr m m' (fun y hy => heq y (hST y hy)) x hS
  · rw [h.off m x hS, h.off m' x hS]
    exact heq x hx

theorem foldl {ι : Type*} {F : ι → (α → β) → α → β} :
    ∀ {l : List ι}, (∀ i ∈ l, Acts S (F i)) → Acts S fun m => l.foldl (fun m i => F i m) m
  | [], _ => id
  | i :: _, h => (foldl fun j hj => h j (List.mem_cons_of_mem i hj)).comp (h i List.mem_cons_self)

end Acts

/-! The operations of `Bytes`. -/

section Bytes
variable {S : UInt64 → Prop}

theorem acts_write {a : UInt64} (h : S a) (v : UInt8) : Acts S (write · a v) := by
  refine ⟨fun m x hx => if_neg ?_, fun m m' heq x hx => ?_⟩
  · rintro rfl
    exact hx h
  · rw [write, write, heq x hx]

theorem acts_copy {a b : UInt64} (ha : S a) (hb : S b) : Acts S fun m => write m a (m b) := by
  refine ⟨fun m x hx => if_neg ?_, fun m m' heq x hx => ?_⟩
  · rintro rfl
    exact hx ha
  · simp only [write, heq x hx, heq b hb]

theorem acts_store64 {p : UInt64} (h : ∀ x, x - p < 8 → S x) (v : UInt64) :
    Acts S (store64 · p v) := by
  refine ⟨fun m x hx => store64_off fun hlt => hx (h x hlt), fun m m' heq x hx => ?_⟩
  simp only [store64, heq x hx]

theorem acts_storeBytes {p : UInt64} {xs : List UInt8} (h : ∀ x, (x - p).toNat < xs.length → S x) :
    Acts S (storeBytes · p xs) := by
  refine ⟨fun m x hx => storeBytes_off fun hlt => hx (h x hlt), fun m m' heq x hx => ?_⟩
  simp only [storeBytes, heq x hx]

theorem acts_memset {p n : UInt64} (h : ∀ x, x - p < n → S x) (v : UInt8) :
    Acts S (memset · p v n) := by
  refine ⟨fun m x hx => ?_, fun m m' heq x hx => ?_⟩
  · rw [memset_apply, if_neg fun hlt => hx (h x hlt)]
  · rw [memset_apply, memset_apply, heq x hx]

theorem acts_memcpy {dst src n : UInt64} (hdst : ∀ x, x - dst < n → S x)
    (hsrc : ∀ x, x - src < n → S x) : Acts S (memcpy · dst src n) := by
  have hbyte : ∀ k ∈ List.range n.toNat, ∀ p : UInt64, p + UInt64.ofNat k - p < n := by
    intro k hk p
    have hlt := n.toNat_lt
    rw [List.mem_range] at hk
    rw [Words.add_sub_left, UInt64.lt_iff_toNat_lt, Words.toNat_ofNat_of_lt (by omega)]
    exact hk
  have hloop := Acts.foldl (S := S)
    (F := fun k (m : Memory) => write m (dst + UInt64.ofNat k) (m (src + UInt64.ofNat k)))
    fun k hk => acts_copy (hdst _ (hbyte k hk dst)) (hsrc _ (hbyte k hk src))
  have hfold : (memcpy · dst src n) = fun m => (List.range n.toNat).foldl
      (fun m k => write m (dst + UInt64.ofNat k) (m (src + UInt64.ofNat k))) m := by
    funext m
    exact Folds.fold_range n.toNat (fun m k =>
      write m (dst + UInt64.ofNat k) (m (src + UInt64.ofNat k))) m
  rw [hfold]
  exact hloop

end Bytes

end Splice
