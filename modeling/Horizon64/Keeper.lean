import Horizon64.Ram
import Horizon64.PageOwners
import Horizon64.Lib.Ends

/- Lists that the page-table code keeps.

   `memory_list` and `global_mem_map` are vectors: the elements are bytes of a block from
   `krealloc`, and `vector_erase` copies `size * length - index - 1` bytes, past the last
   element and, for the later elements of a long vector, past the pages of the block. A
   `Keeper` is the four things that the code does with such a list. One keeper is the vector
   itself, in memory (`vecKeeper`), and another a list that has no place in memory
   (`listKeeper`).

   A keeper that has `Laws` is a list for whoever uses it, in pages of its own. The vector has
   them as long as the copies of `vector_erase` stay in the pages of its block (`guarded`).

   1. The macros of `vector.h` with the bitmap in memory, and the keepers.
   2. What a keeper promises.
   3. The vector keeps it. -/
namespace Horizon64
open Words Bytes Isolation

namespace Ram

/-- The first part of `vector_append`. -/
def vectorGrow (size : UInt64) (c : Ram) (v : Vec) (func : Nat → UInt8) (line : UInt64) :
    Option (Ram × Vec) :=
  let v := { v with length := v.length + 1 }
  if v.capacity < v.length * size then
    let v := { v with capacity := v.length * size * resize }
    (c.kreallocImpl v.data v.capacity func line).map fun (data, c) => (c, { v with data := data })
  else some (c, v)

/-- `vector_append`. -/
def vectorAppend (size : UInt64) (c : Ram) (v : Vec) (elem : List UInt8) (func : Nat → UInt8)
    (line : UInt64) : Option (Ram × Vec) :=
  (c.vectorGrow size v func line).map fun (c, v) =>
    (⟨c.kmem, storeBytes c.mem (v.addr size (v.length - 1)) elem⟩, v)

/-- `vector_erase`. -/
def vectorErase (size : UInt64) (c : Ram) (v : Vec) (index : UInt64) : Ram × Vec :=
  (⟨c.kmem, (Horizon64.vectorErase size c.mem v index).1⟩,
    (Horizon64.vectorErase size c.mem v index).2)

end Ram

/-- What the code does with a list of `α` that it keeps in `σ`. -/
structure Keeper (α σ : Type) where
  /-- `vector_append`, in the given line; `none` where it halts. -/
  append : Ram → σ → α → UInt64 → Option (Ram × σ)
  /-- `vector_len`. -/
  length : σ → Nat
  /-- `vector_at`. -/
  get : Ram → σ → Nat → α
  /-- `vector_erase`. -/
  erase : Ram → σ → Nat → Option (Ram × σ)
  /-- The copy that `vector_erase` makes stays in the pages of the list's block. -/
  inside : σ → Nat → Bool
  /-- The pages of that block. -/
  Pages : σ → Nat → Prop

variable {α σ : Type}

/-- The loop over a list that erases the first element with the property. -/
def Keeper.eraseFirst (K : Keeper α σ) (c : Ram) (v : σ) (p : α → Bool) : Option (Ram × σ) :=
  match (List.range (K.length v)).find? fun i => p (K.get c v i) with
  | none => some (c, v)
  | some i => K.erase c v i

/-- The keeper whose `erase` is made only where its copy stays inside. -/
def Keeper.guarded (K : Keeper α σ) : Keeper α σ :=
  { K with erase := fun c v i => if K.inside v i then K.erase c v i else none }

/-- A list with no place in memory. -/
def listKeeper [Inhabited α] : Keeper α (List α) where
  append c l a _ := some (c, l ++ [a])
  length := List.length
  get _ l i := l.getD i default
  erase c l i := some (c, l.eraseIdx i)
  inside _ _ := true
  Pages _ _ := False

/-- A vector of elements of `size` bytes; `func` is the caller's name. -/
def vecKeeper (size : UInt64) (enc : α → List UInt8) (dec : List UInt8 → α)
    (func : Nat → UInt8) : Keeper α Vec where
  append c v a line := c.vectorAppend size v (enc a) func line
  length v := v.length.toNat
  get c v i := dec (vectorAt size c.mem v (UInt64.ofNat i))
  erase c v i := some (c.vectorErase size v (UInt64.ofNat i))
  inside v i := (i + 1) * size.toNat + (eraseLength size v (UInt64.ofNat i)).toNat ≤
    4096 * (numPages v.capacity).toNat
  Pages := Vec.Pages

theorem Keeper.eraseFirst_guarded {K : Keeper α σ} {c : Ram} {v : σ} {p : α → Bool} {r : Ram × σ}
    (h : K.guarded.eraseFirst c v p = some r) : K.eraseFirst c v p = some r := by
  rw [Keeper.eraseFirst] at h ⊢
  change (match (List.range (K.length v)).find? fun i => p (K.get c v i) with
    | none => some (c, v)
    | some i => if K.inside v i then K.erase c v i else none) = some r at h
  cases hfind : (List.range (K.length v)).find? fun i => p (K.get c v i) with
  | none =>
    rw [hfind] at h
    exact h
  | some i =>
    rw [hfind] at h
    dsimp only at h ⊢
    split at h
    · exact h
    · cases h

/-! What a keeper promises. -/

/-- The pages that no block may have, as something that holds them. -/
def fence : Owner machinePages KernelMemInfo where
  holds k₀ p := k₀.Kept p
  inv s k₀ := machinePages.const s = (k₀.physicalLimit, k₀.bitmap) ∧ ∀ p, k₀.Kept p → s.kmem.Used p
  inv_used _ _ p h hp := h.2 p hp
  inv_local _ _ _ h hconst hkeep := ⟨hconst.trans h.1, fun p hp => (hkeep p hp).1⟩

/-- The keeper is a list that is read and shortened: `R` holds its pages, and says which list it
    shows. -/
structure Keeper.Erases (K : Keeper α σ) (R : Owner machinePages (σ × List α)) : Prop where
  length : ∀ {s v l}, R.inv s (v, l) → K.length v = l.length
  get : ∀ {s k₀ v l}, (fence.star R).inv s (k₀, (v, l)) →
    ∀ i (hi : i < l.length), K.get s.ram v i = l[i]
  erase : ∀ {s k₀ v l i c v'}, (fence.star R).inv s (k₀, (v, l)) → i < l.length →
    K.erase s.ram v i = some (c, v') →
    ∃ s' : Machine, c = s'.ram ∧ Framed R s (v, l) s' (v', l.eraseIdx i)

/-- The keeper is a list. -/
structure Keeper.Laws (K : Keeper α σ) (R : Owner machinePages (σ × List α)) : Prop
    extends Keeper.Erases K R where
  pages : ∀ {x p}, R.holds x p → K.Pages x.1 p
  append : ∀ {s k₀ v l a line c v'}, (fence.star R).inv s (k₀, (v, l)) →
    K.append s.ram v a line = some (c, v') →
    ∃ s' : Machine, c = s'.ram ∧ Framed R s (v, l) s' (v', l ++ [a])

section Fence
variable {s : Machine} {k₀ : KernelMemInfo} (h : fence.inv s k₀)
include h

theorem fence_kept (p : Nat) : s.kmem.Kept p ↔ k₀.Kept p :=
  KernelMemInfo.kept_congr (congrArg Prod.fst h.1) (congrArg Prod.snd h.1) p

theorem fence_fenced : s.kmem.Fenced := fun p hp => h.2 p ((fence_kept h p).mp hp)

end Fence

/-- The first element with the property is the one that `List.eraseP` takes. -/
theorem Keeper.Erases.eraseFirst {K : Keeper α σ} {R : Owner machinePages (σ × List α)}
    (hK : K.Erases R) {E : Prop}
    (hE : E → ∀ {s v l i}, R.inv s (v, l) → i < l.length → (K.erase s.ram v i).isSome)
    {s : Machine} {k₀ : KernelMemInfo} {v : σ} {l : List α}
    (h : (fence.star R).inv s (k₀, (v, l))) (p : α → Bool) :
    Ends E (K.eraseFirst s.ram v p) fun r =>
      ∃ s' : Machine, r.1 = s'.ram ∧ Framed R s (v, l) s' (r.2, l.eraseP p) := by
  have hfind : (List.range (K.length v)).find? (fun i => p (K.get s.ram v i)) = l.findIdx? p := by
    have hat : ∀ i (hi : i < l.length), p (K.get s.ram v i) = p l[i] :=
      fun i hi => congrArg p (hK.get h i hi)
    rw [hK.length h.2.1]
    cases hidx : l.findIdx? p with
    | none =>
      rw [List.findIdx?_eq_none_iff] at hidx
      rw [List.find?_eq_none]
      intro i hi
      rw [hat i (List.mem_range.mp hi), hidx _ (List.getElem_mem _)]
      exact Bool.false_ne_true
    | some i =>
      obtain ⟨hi, hp, hbefore⟩ := List.findIdx?_eq_some_iff_getElem.mp hidx
      rw [List.find?_range_eq_some]
      refine ⟨(hat i hi).trans hp, List.mem_range.mpr hi, fun j hj => ?_⟩
      rw [hat j (hj.trans hi), Bool.not_eq_true']
      exact Bool.eq_false_iff.mpr (hbefore j hj)
  rw [Keeper.eraseFirst, hfind]
  cases hidx : l.findIdx? p with
  | none =>
    have hsame : l.eraseP p = l := by rw [List.eraseP_eq_eraseIdx, hidx]
    rw [hsame]
    exact .pure ⟨s, rfl, .refl h.2.1⟩
  | some i =>
    have hsame : l.eraseP p = l.eraseIdx i := by rw [List.eraseP_eq_eraseIdx, hidx]
    rw [hsame]
    obtain ⟨hi, -, -⟩ := List.findIdx?_eq_some_iff_getElem.mp hidx
    exact ⟨fun r hr => hK.erase h hi hr, fun he => hE he h.2.1 hi⟩

theorem Keeper.Erases.restrict {K : Keeper α σ} {R : Owner machinePages (σ × List α)}
    (hK : K.Erases R) {P : σ × List α → Prop}
    (hP : ∀ {c v l i c' v'}, P (v, l) → i < l.length → K.length v = l.length →
      K.erase c v i = some (c', v') → P (v', l.eraseIdx i)) : K.Erases (R.restrict P) where
  length h := hK.length h.1
  get := by
    intro s k₀ v l h
    obtain ⟨hfence, ⟨hinv, -⟩, hapart⟩ := h
    exact hK.get ⟨hfence, hinv, hapart⟩
  erase := by
    intro s k₀ v l i c v' h hi herase
    obtain ⟨hfence, ⟨hinv, hshort⟩, hapart⟩ := h
    obtain ⟨s', rfl, hframed⟩ := hK.erase ⟨hfence, hinv, hapart⟩ hi herase
    exact ⟨s', rfl, hframed.restrict (hP hshort hi (hK.length hinv) herase)⟩

/-- A list with no place in memory, as something that holds no page. -/
def noPage : Owner machinePages (List α × List α) where
  holds _ _ := False
  inv _ x := x.1 = x.2
  inv_used _ _ _ _ h := h.elim
  inv_local _ _ _ h _ _ := h

theorem listKeeper_laws [Inhabited α] : (listKeeper : Keeper α (List α)).Laws noPage where
  pages h := h
  length h := congrArg List.length h
  get := by
    intro s k₀ v l h i hi
    have hshown : v = l := h.2.1
    subst hshown
    exact List.getD_eq_getElem v default hi
  append := by
    intro s k₀ v l a line c v' h happ
    have hshown : v = l := h.2.1
    subst hshown
    obtain ⟨rfl, rfl⟩ := Prod.mk.inj (Option.some.inj happ)
    exact ⟨s, rfl, rfl, rfl, fun p hused _ => ⟨hused, id, fun _ _ => rfl⟩⟩
  erase := by
    intro s k₀ v l i c v' h hi herase
    have hshown : v = l := h.2.1
    subst hshown
    obtain ⟨rfl, rfl⟩ := Prod.mk.inj (Option.some.inj herase)
    exact ⟨s, rfl, rfl, rfl, fun p hused _ => ⟨hused, id, fun _ _ => rfl⟩⟩

/-! The vector. -/

/-- A vector of elements that `enc` stores, with the pages of its block. -/
def vecOwner (size : UInt64) (enc : α → List UInt8) : Owner machinePages (Vec × List α) :=
  (vectorOwner size).comap fun x => (x.1, x.2.map enc)

section Vector
variable {size : UInt64} {k₀ k : KernelMemInfo} {s : Machine} {v : Vec} {xs : List (List UInt8)}

theorem VecBlock.behind {b : HeapBlock} (hb : VecBlock k s v b)
    (haway : ∀ p, s.kmem.Kept p → ¬ v.Pages p) : b.block.Clear s.kmem := by
  intro p hp hkept
  refine haway p hkept ⟨hb.nonnull, ?_⟩
  rw [hb.eq_newBlock]
  exact hp

/-- It ends below the limit, so there is room for one more element in 2^62 bytes. -/
theorem VecInv.room_more (h : VecInv size k s v xs) (haway : ∀ p, s.kmem.Kept p → ¬ v.Pages p)
    (hlim : k.physicalLimit.toNat + 4096 ≤ 2 ^ 47) (hsize : size.toNat ≤ 2 ^ 32) :
    (v.length.toNat + 1) * size.toNat * 4 ≤ 2 ^ 62 := by
  have hroom := h.room
  have hstep : (v.length.toNat + 1) * size.toNat = v.length.toNat * size.toNat + size.toNat :=
    Nat.succ_mul _ _
  rcases h.buffer with ⟨-, hcap, -⟩ | ⟨b, hblock⟩
  · rw [hcap, UInt64.toNat_zero] at hroom
    omega
  · obtain ⟨-, -, hfit⟩ := hblock.heap.reserved.shape b List.mem_cons_self
    have hlimit : s.kmem.physicalLimit = k.physicalLimit := hblock.heap.reserved.limit
    -- the last page of the block is below the limit
    have hlast : ¬ s.kmem.physicalLimit.toNat ≤ 4096 * (pageOf b.block.address + (b.block.n.toNat - 1)) :=
      fun hle => hblock.behind haway _ ⟨by omega, by omega⟩ (Or.inl hle)
    rw [← hblock.capacity] at hroom
    rw [hlimit] at hlast
    omega

section Append
variable (h : VecInv size k s v xs) (hf : s.kmem.Fenced)
  (haway : ∀ p, s.kmem.Kept p → ¬ v.Pages p) (hlim : k.physicalLimit.toNat + 4096 ≤ 2 ^ 47)
  (hsize : 1 ≤ size.toNat) (hfit : (v.length.toNat + 1) * size.toNat * 4 ≤ 2 ^ 62)
  (func : Nat → UInt8) (line : UInt64)
include h hf haway hlim hsize hfit

theorem ram_vectorGrow : s.ram.vectorGrow size v func line =
    (vectorGrow size s v func line).map fun r => (r.1.ram, r.2) := by
  obtain ⟨-, -, hcap⟩ := grow_numbers hsize hfit
  have hroom := fun (hlimit : s.kmem.physicalLimit = k.physicalLimit) =>
    inSpace_of_limit (fits_of_limit hlimit hlim
      (n := (v.length + 1) * size * resize) (by rw [hcap]; exact hfit))
  have hre : s.ram.kreallocImpl v.data ((v.length + 1) * size * resize) func line =
      (kreallocImpl s v.data ((v.length + 1) * size * resize) func line).map
        fun r => (r.1, r.2.ram) := by
    rcases h.buffer with ⟨hdata, -, hinv⟩ | ⟨b, hblock⟩
    · rw [hdata, Ram.kreallocImpl, kreallocImpl, if_pos rfl, if_pos rfl]
      exact ram_kmalloc hf (hroom hinv.reserved.limit)
    · have hb : b ∈ [b] := List.mem_cons_self
      obtain ⟨hwhole, -, hblockroom⟩ := hblock.heap.reserved.shape b hb
      have hone := (hblock.heap.reserved.pages_pos hb).2
      have hused := hblock.heap.reserved.books.owned.used b hb
      have hnull := hblock.nonnull
      rw [← hblock.data] at hnull ⊢
      exact ram_krealloc hwhole hone (hblock.behind haway) (hblock.heap.headers b hb) hf hused
        hblockroom hnull (hroom hblock.heap.reserved.limit)
  rw [Ram.vectorGrow, vectorGrow]
  dsimp only
  split
  · rw [hre, Option.map_map, Option.map_map]
    rfl
  · rfl

theorem ram_vectorAppend {elem : List UInt8} (helem : elem.length = size.toNat) :
    s.ram.vectorAppend size v elem func line =
      (vectorAppend size s v elem func line).map fun r => (r.1.ram, r.2) := by
  rw [Ram.vectorAppend, vectorAppend, ram_vectorGrow h hf haway hlim hsize hfit, Option.map_map,
    Option.map_map]
  cases hgrow : vectorGrow size s v func line with
  | none => rfl
  | some r =>
    obtain ⟨t, w⟩ := r
    have happ : vectorAppend size s v elem func line =
        some (⟨t.kmem, storeBytes t.mem (w.addr size (w.length - 1)) elem⟩, w) := by
      rw [vectorAppend, hgrow]
      rfl
    have hinv' := vecInv_append hlim hsize h helem hfit happ
    obtain ⟨live, hheap, -⟩ := h.buffer.heap
    obtain ⟨live', hheap', -⟩ := hinv'.buffer.heap
    have hkept : ∀ p, t.kmem.Kept p ↔ s.kmem.Kept p := KernelMemInfo.kept_congr
      (hheap'.reserved.limit.trans hheap.reserved.limit.symm)
      (hheap'.reserved.bitmap.trans hheap.reserved.bitmap.symm)
    -- the new element is in the block, which is behind the fence
    have hoff : ∀ x, w.buffer.Has x → ¬ t.kmem.InBitmap x := fun x hx hin => by
      have hp := (hkept _).mp (Or.inr ⟨x, hin, rfl⟩)
      exact (h.buffer.keep hinv'.buffer (hf _ hp) (haway _ hp)).2 (hinv'.buffer.holds hx)
    have hram := ram_acts (Splice.acts_storeBytes (S := w.buffer.Has) fun x hx =>
      stored_within hsize hfit hgrow (helem ▸ hx)) t hoff
    rw [Option.map_some, Option.map_some]
    exact congrArg (fun c => some (c, w)) hram.symm

end Append

/-- The copy of `vector_erase`, where it stays in the pages of the block. -/
theorem acts_vectorErase {b : HeapBlock} (hb : VecBlock k s v b) {i : Nat}
    (hsmall : (i + 1) * size.toNat < 2 ^ 63)
    (hinside : (i + 1) * size.toNat + (eraseLength size v (UInt64.ofNat i)).toNat ≤
      4096 * (numPages v.capacity).toNat) :
    Splice.Acts b.block.Holds fun m => (vectorErase size m v (UInt64.ofNat i)).1 := by
  obtain ⟨hwhole, hn, -⟩ := hb.heap.reserved.shape b List.mem_cons_self
  have hpages : b.block.n.toNat = (numPages v.capacity).toNat + 1 := by
    have hlt := numPages_lt v.capacity
    rw [hn, hb.capacity, toNat_add_of_lt (by rw [UInt64.toNat_one]; omega), UInt64.toNat_one]
  -- a range of the elements' bytes
  have hrange : ∀ {off : Nat} {n x : UInt64}, off < 2 ^ 63 → off + n.toNat ≤
      4096 * (numPages v.capacity).toNat → x - (v.data + UInt64.ofNat off) < n →
      b.block.Holds x := by
    intro off n x hoff hend hx
    have hat : v.data + UInt64.ofNat off = b.block.base + (pageSize + UInt64.ofNat off) := by
      rw [← hb.data, HeapBlock.ptr, UInt64.add_assoc]
    have hsum : (pageSize + UInt64.ofNat off).toNat = 4096 + off := by
      have hof : (UInt64.ofNat off).toNat = off := toNat_ofNat_of_lt (by omega)
      rw [toNat_add_of_lt (by rw [hof, pageSize_toNat]; omega), hof, pageSize_toNat]
    rw [hat] at hx
    exact holds_off hwhole (by rw [hsum]; omega) (UInt64.lt_iff_toNat_lt.mp hx)
  have hstep : (i + 1) * size.toNat = i * size.toNat + size.toNat := Nat.succ_mul _ _
  have hdst : v.addr size (UInt64.ofNat i) = v.data + UInt64.ofNat (i * size.toNat) := by
    rw [Vec.addr, UInt64.ofNat_mul, UInt64.ofNat_toNat]
  have hsrc : v.addr size (UInt64.ofNat i + 1) = v.data + UInt64.ofNat ((i + 1) * size.toNat) := by
    rw [← UInt64.ofNat_one, ← Words.ofNat_add, Vec.addr, UInt64.ofNat_mul, UInt64.ofNat_toNat]
  refine Splice.acts_memcpy (fun x hx => ?_) fun x hx => ?_
  · rw [hdst] at hx
    exact hrange (by omega) (by omega) hx
  · rw [hsrc] at hx
    exact hrange hsmall hinside hx

theorem ram_elements {k₀ : KernelMemInfo}
    (h : (fence.star (vectorOwner size)).inv s (k₀, (v, xs))) : elements size s.ram.mem v = xs := by
  obtain ⟨hfence, ⟨-, k, -, hinv⟩, hapart⟩ := h
  replace hinv : VecInv size k s v xs := hinv
  have hbytes : ∀ o < v.length.toNat * size.toNat,
      s.ram.mem (v.data + UInt64.ofNat o) = s.mem (v.data + UInt64.ofNat o) :=
    fun o ho => s.ram_mem fun hin =>
      hapart _ ((fence_kept hfence _).mp (Or.inr ⟨_, hin, rfl⟩)) (hinv.holds_elem ho)
  exact (firstElements_congr hbytes).trans hinv.elems

theorem vectorAppend_ram {k₀ : KernelMemInfo}
    (h : (fence.star (vectorOwner size)).inv s (k₀, (v, xs))) (hsmall : size.toNat ≤ 2 ^ 32)
    {elem : List UInt8} (helem : elem.length = size.toNat) {func : Nat → UInt8} {line : UInt64}
    {c : Ram} {v' : Vec} (happ : s.ram.vectorAppend size v elem func line = some (c, v')) :
    ∃ s' : Machine, c = s'.ram ∧ Framed (vectorOwner size) s (v, xs) s' (v', xs ++ [elem]) := by
  obtain ⟨hfence, ⟨hsize, k, hlim, hinv⟩, hapart⟩ := h
  replace hinv : VecInv size k s v xs := hinv
  have haway : ∀ p, s.kmem.Kept p → ¬ v.Pages p :=
    fun p hp => hapart p ((fence_kept hfence p).mp hp)
  have hfit := hinv.room_more haway hlim hsmall
  have hram := ram_vectorAppend hinv (fence_fenced hfence) haway hlim hsize hfit func line helem
  obtain ⟨⟨s', w⟩, hs', heq⟩ := Option.map_eq_some_iff.mp (hram.symm.trans happ)
  obtain ⟨rfl, rfl⟩ := Prod.mk.inj heq
  exact ⟨s', rfl, vector_framed hlim hsize hinv (vecInv_append hlim hsize hinv helem hfit hs')
    fun x hused hout => vectorAppend_off hlim hsize hinv hused hout helem hfit hs'⟩

theorem vectorErase_ram {k₀ : KernelMemInfo}
    (h : (fence.star (vectorOwner size)).inv s (k₀, (v, xs))) {i : Nat} (hi : i < xs.length)
    (hinside : (i + 1) * size.toNat + (eraseLength size v (UInt64.ofNat i)).toNat ≤
      4096 * (numPages v.capacity).toNat) :
    ∃ s' : Machine, (s.ram.vectorErase size v (UInt64.ofNat i)).1 = s'.ram ∧
      Framed (vectorOwner size) s (v, xs) s'
        ((s.ram.vectorErase size v (UInt64.ofNat i)).2, xs.eraseIdx i) := by
  obtain ⟨hfence, ⟨hsize, k, hlim, hinv⟩, hapart⟩ := h
  replace hinv : VecInv size k s v xs := hinv
  have hlen := @elements_length size s.mem v
  rw [hinv.elems] at hlen
  have hivec : i < v.length.toNat := by omega
  have hbound := v.length.toNat_lt
  have hof : (UInt64.ofNat i).toNat = i := toNat_ofNat_of_lt (by omega)
  have hlt : UInt64.ofNat i < v.length := by
    rw [UInt64.lt_iff_toNat_lt, hof]
    exact hivec
  obtain ⟨b, hblock⟩ := hinv.block hsize (Nat.zero_lt_of_lt hivec)
  have hnext : (i + 1) * size.toNat ≤ v.length.toNat * size.toNat :=
    Nat.mul_le_mul_right _ hivec
  have hbig := hinv.small
  have hacts := acts_vectorErase hblock (by omega) hinside
  have haway : ∀ p, s.kmem.Kept p → ¬ v.Pages p :=
    fun p hp => hapart p ((fence_kept hfence p).mp hp)
  have hram := ram_acts hacts s fun x hx => (hblock.behind haway).off hx
  have hinv' := vecInv_erase hsize hinv hlt
  rw [hof] at hinv'
  refine ⟨_, hram.symm, vector_framed hlim hsize hinv hinv' fun x _ hout =>
    hacts.off s.mem x fun hx => hout ?_⟩
  refine ⟨hblock.nonnull, ?_⟩
  rw [hblock.eq_newBlock]
  exact hx

variable {enc : α → List UInt8} {dec : List UInt8 → α} {func : Nat → UInt8}

/-- A vector with the block's pages for itself is a list, as long as what `vector_erase` copies
    stays in these pages. -/
theorem vecKeeper_laws (hsmall : size.toNat ≤ 2 ^ 32)
    (henc : ∀ a, (enc a).length = size.toNat) (hdec : ∀ a, dec (enc a) = a) :
    (vecKeeper size enc dec func).guarded.Laws (vecOwner size enc) where
  pages h := h
  length := by
    intro s v l h
    obtain ⟨-, k, -, hinv⟩ := h
    have hlen := @elements_length size s.mem v
    rw [hinv.elems, List.length_map] at hlen
    exact hlen.symm
  get := by
    intro s k₀ v l h i hi
    have hlist : elements size s.ram.mem v = l.map enc := ram_elements h
    have hlen := @elements_length size s.ram.mem v
    rw [hlist, List.length_map] at hlen
    have helem : (elements size s.ram.mem v)[i]? = some (enc l[i]) := by
      rw [hlist, List.getElem?_map, List.getElem?_eq_getElem hi, Option.map_some]
    rw [elements, List.getElem?_map, List.getElem?_range (by omega), Option.map_some] at helem
    show dec (vectorAt size s.ram.mem v (UInt64.ofNat i)) = l[i]
    rw [Option.some.inj helem, hdec]
  append := by
    intro s k₀ v l a line c v' h happ
    obtain ⟨s', rfl, hframed⟩ := vectorAppend_ram h hsmall (henc a) happ
    refine ⟨s', rfl, Framed.comap ?_⟩
    rw [List.map_append, List.map_singleton]
    exact hframed
  erase := by
    intro s k₀ v l i c v' h hi herase
    -- the erase was made, so its copy stays in the block
    change (if (decide _ : Bool) then some (s.ram.vectorErase size v (UInt64.ofNat i)) else none) =
      some (c, v') at herase
    split at herase
    · next hinside =>
      obtain ⟨rfl, rfl⟩ := Prod.mk.inj (Option.some.inj herase)
      obtain ⟨s', hs', hframed⟩ := vectorErase_ram h
        (by rw [List.length_map]; exact hi) (of_decide_eq_true hinside)
      refine ⟨s', hs', Framed.comap ?_⟩
      rw [← List.eraseIdx_map]
      exact hframed
    · cases herase

/-- The elements take no more than half of the block's pages. -/
def ShortVec (size : UInt64) (x : Vec × List α) : Prop :=
  2 * (x.1.length.toNat * size.toNat) ≤ 4096 * (numPages x.1.capacity).toNat

/-- Then all copies stay in the block, and its elements are erased. -/
theorem vecKeeper_short (hsmall : size.toNat ≤ 2 ^ 32)
    (henc : ∀ a, (enc a).length = size.toNat) (hdec : ∀ a, dec (enc a) = a) :
    (vecKeeper size enc dec func).guarded.Erases ((vecOwner size enc).restrict (ShortVec size)) := by
  refine (vecKeeper_laws hsmall henc hdec).toErases.restrict ?_
  intro c v l i c' v' hshort hi hlength herase
  have hlen : v.length.toNat = l.length := hlength
  have hone : (1 : UInt64).toNat = 1 := rfl
  change (if (decide _ : Bool) then some (c.vectorErase size v (UInt64.ofNat i)) else none) =
    some (c', v') at herase
  split at herase
  · obtain ⟨-, rfl⟩ := Prod.mk.inj (Option.some.inj herase)
    have hless : (v.length - 1).toNat ≤ v.length.toNat := by
      rw [UInt64.toNat_sub_of_le _ _ (UInt64.le_iff_toNat_le.mpr (by omega))]
      exact Nat.sub_le _ _
    exact (Nat.mul_le_mul_left 2 (Nat.mul_le_mul_right _ hless)).trans hshort
  · cases herase

theorem short_erase (hsize : 1 ≤ size.toNat) {v : Vec} {l : List α} {i : Nat}
    (h : ((vecOwner size enc).restrict (ShortVec size)).inv s (v, l)) (hi : i < l.length) :
    ((vecKeeper size enc dec func).guarded.erase s.ram v i).isSome := by
  obtain ⟨⟨-, k, -, hinv⟩, hshort⟩ := h
  replace hinv : VecInv size k s v (l.map enc) := hinv
  replace hshort : 2 * (v.length.toNat * size.toNat) ≤ 4096 * (numPages v.capacity).toNat := hshort
  have hlen := @elements_length size s.mem v
  rw [hinv.elems, List.length_map] at hlen
  have hbig := hinv.small
  have hof : (UInt64.ofNat i).toNat = i :=
    toNat_ofNat_of_lt (by have hv := v.length.toNat_lt; omega)
  have hivec : (UInt64.ofNat i).toNat < v.length.toNat := by omega
  have hle : (i + 1) * size.toNat ≤ v.length.toNat * size.toNat :=
    Nat.mul_le_mul_right _ (by omega)
  have hinside : (i + 1) * size.toNat + (eraseLength size v (UInt64.ofNat i)).toNat ≤
      4096 * (numPages v.capacity).toNat := by
    rw [eraseLength_toNat hsize hivec (by omega)]
    omega
  change (if (decide _ : Bool) then some (s.ram.vectorErase size v (UInt64.ofNat i)) else none).isSome
  rw [if_pos (decide_eq_true hinside)]
  rfl

end Vector

end Horizon64
