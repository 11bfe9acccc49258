import Horizon64.AddressSpaces
import Horizon64.Lib.Lockstep

/- A lower physical limit.

   `pm_get` looks at the pages below `kmem.physical_limit`, from the first one on, and no other
   function of the allocator reads the limit. So what a call does on the same memory with a lower
   limit, when it does not halt there, it does with the real one: it finds the same pages. Below
   a limit at which `Guarded` holds the rest of the development says what that is. -/
namespace Horizon64
open Words Bytes

/-! `pm_get` and `pm_free`, as functions of the limit. -/

/-- The same bitmap with another limit. -/
def KernelMemInfo.withLimit (limit : UInt64) (k : KernelMemInfo) : KernelMemInfo :=
  { k with physicalLimit := limit }

section Limit
variable (limit : UInt64) (k : KernelMemInfo)

theorem bitmapSet_withLimit (address n : UInt64) :
    bitmapSet (k.withLimit limit) address n = (bitmapSet k address n).withLimit limit := by
  rw [bitmapSet, bitmapSet]
  exact List.foldl_hom (KernelMemInfo.withLimit limit) fun _ _ => rfl

theorem pmAllocate_withLimit (address n : UInt64) :
    pmAllocate (k.withLimit limit) address n =
      ((pmAllocate k address n).1, (pmAllocate k address n).2.withLimit limit) := by
  have hfree : bitmapFree (k.withLimit limit) address n = bitmapFree k address n := rfl
  rw [pmAllocate, pmAllocate, hfree]
  cases bitmapFree k address n with
  | allocated => rfl
  | free =>
    dsimp only
    rw [bitmapSet_withLimit]
    rfl

theorem pmGetLoop_withLimit (n : UInt64) (l : List UInt64) :
    pmGetLoop n l (k.withLimit limit) =
      (pmGetLoop n l k).map fun r => (r.1, r.2.withLimit limit) := by
  induction l generalizing k with
  | nil => rfl
  | cons i l ih =>
    rw [pmGetLoop, pmGetLoop, pmAllocate_withLimit]
    obtain ⟨status, k'⟩ := pmAllocate k i n
    cases status with
    | sysOk => rfl
    | sysErr => exact ih k'

theorem pmFreePage_withLimit (r : Status × KernelMemInfo) (i : UInt64) :
    pmFreePage (r.1, r.2.withLimit limit) i =
      ((pmFreePage r i).1, (pmFreePage r i).2.withLimit limit) := by
  have hfree : bitmapFree (r.2.withLimit limit) i 1 = bitmapFree r.2 i 1 := rfl
  rw [pmFreePage, pmFreePage, hfree]
  cases bitmapFree r.2 i 1 <;> rfl

theorem pmFree_withLimit (address n : UInt64) :
    pmFree (k.withLimit limit) address n =
      ((pmFree k address n).1, (pmFree k address n).2.withLimit limit) := by
  rw [pmFree, pmFree]
  exact @List.foldl_hom _ _ _ (fun r : Status × KernelMemInfo => (r.1, r.2.withLimit limit))
    pmFreePage pmFreePage _ (.sysOk, k) (pmFreePage_withLimit limit)

end Limit

/-- The search up to a greater limit starts with the search up to the lower one. -/
theorem pages_append {low high : UInt64} (hle : low ≤ high) (start : UInt64) :
    ∃ rest, pages start high = pages start low ++ rest := by
  rw [UInt64.le_iff_toNat_le] at hle
  simp only [pages]
  generalize 2 ^ 52 = fuel
  induction fuel generalizing start with
  | zero => exact ⟨[], rfl⟩
  | succ fuel ih =>
    rw [loopValues, loopValues]
    by_cases hlow : start < low
    · have hhigh : start < high := by
        rw [UInt64.lt_iff_toNat_lt] at hlow ⊢
        omega
      obtain ⟨rest, hrest⟩ := ih (start + pageSize)
      rw [if_pos hlow, if_pos hhigh, hrest]
      exact ⟨rest, rfl⟩
    · rw [if_neg hlow]
      exact ⟨_, rfl⟩

theorem pmGetLoop_append {n : UInt64} {l : List UInt64} {k : KernelMemInfo}
    {r : UInt64 × KernelMemInfo} (h : pmGetLoop n l k = some r) (rest : List UInt64) :
    pmGetLoop n (l ++ rest) k = some r := by
  induction l generalizing k with
  | nil => cases h
  | cons i l ih =>
    rw [pmGetLoop] at h
    rw [List.cons_append, pmGetLoop]
    split at h
    · exact h
    · exact ih h

/-! The functions of memory. -/

/-- The same memory with another limit. -/
def Ram.at (c : Ram) (limit : UInt64) : Ram := ⟨{ c.kmem with physicalLimit := limit }, c.mem⟩

/-- `c` has the limit `high`, and `d` is the same with the limit `low`. -/
def Raised (low high : UInt64) (d c : Ram) : Prop := c.kmem.physicalLimit = high ∧ d = c.at low

theorem Raised.mem {low high : UInt64} {d c : Ram} (h : Raised low high d c) : d.mem = c.mem := by
  rw [h.2]
  rfl

theorem Raised.write {low high : UInt64} {d c : Ram} (h : Raised low high d c) (m : Memory) :
    Raised low high ⟨d.kmem, m⟩ ⟨c.kmem, m⟩ := by
  obtain ⟨hlimit, rfl⟩ := h
  exact ⟨hlimit, rfl⟩

/-- The same results, on the two memories. -/
def RaisedLeft (low high : UInt64) {α : Type} (r r' : Ram × α) : Prop :=
  Raised low high r.1 r'.1 ∧ r.2 = r'.2

def RaisedRight (low high : UInt64) {α : Type} (r r' : α × Ram) : Prop :=
  r.1 = r'.1 ∧ Raised low high r.2 r'.2

section Raise
variable {low high : UInt64} (hle : low ≤ high) {c d : Ram} (h : Raised low high d c)
include h

theorem raise_pmFree (address n : UInt64) :
    (d.pmFree address n).1 = (c.pmFree address n).1 ∧
      Raised low high (d.pmFree address n).2 (c.pmFree address n).2 := by
  obtain ⟨hlimit, rfl⟩ := h
  have hlow : (c.at low).load = c.load.withLimit low := rfl
  have hhigh : c.load = c.load.withLimit high := by
    rw [← hlimit]
    rfl
  rw [Ram.pmFree, Ram.pmFree, hlow, pmFree_withLimit]
  refine ⟨rfl, ?_, rfl⟩
  rw [hhigh, pmFree_withLimit]
  rfl

theorem raise_kfree (address : UInt64) :
    Raised low high (d.kfreeImpl address) (c.kfreeImpl address) := by
  rw [Ram.kfreeImpl, Ram.kfreeImpl, h.mem]
  dsimp only
  split
  · have hfreed := (raise_pmFree h (virtToPhys (address - pageSize))
      (load64 c.mem (address - pageSize + numPagesOff) + 1)).2
    rw [hfreed.mem]
    exact hfreed.write _
  · exact h

include hle

theorem raise_pmGet (n address : UInt64) :
    Lockstep (RaisedRight low high) (d.pmGet n address) (c.pmGet n address) := by
  obtain ⟨hlimit, rfl⟩ := h
  have hlow : (c.at low).load = c.load.withLimit low := rfl
  have hhigh : c.load = c.load.withLimit high := by
    rw [← hlimit]
    rfl
  obtain ⟨rest, hrest⟩ := pages_append hle address
  rw [Ram.pmGet, Ram.pmGet]
  refine Lockstep.map (R := fun r r' => r.1 = r'.1 ∧ r.2 = r'.2.withLimit low ∧
    r'.2.physicalLimit = high) (fun r hr => ?_) fun r r' hr => ⟨hr.1, hr.2.2, by rw [hr.2.1]; rfl⟩
  rw [pmGet, hlow, pmGetLoop_withLimit] at hr
  obtain ⟨⟨p, k⟩, hget, rfl⟩ := Option.map_eq_some_iff.mp hr
  refine ⟨(p, k), ?_, rfl, rfl, ?_⟩
  · rw [pmGet, show c.load.physicalLimit = high from hlimit, hrest]
    exact pmGetLoop_append hget rest
  · rw [hhigh, pmGetLoop_withLimit] at hget
    obtain ⟨r, -, heq⟩ := Option.map_eq_some_iff.mp hget
    rw [← (Prod.mk.inj heq).2]
    rfl

theorem raise_kmalloc (size : UInt64) (func : Nat → UInt8) (line : UInt64) :
    Lockstep (RaisedRight low high) (d.kmallocImpl size func line)
      (c.kmallocImpl size func line) := by
  rw [Ram.kmallocImpl, Ram.kmallocImpl]
  intro r hr
  cases hget : d.pmGet (numPages size + 1) 0 with
  | none =>
    rw [hget] at hr
    cases hr
  | some q =>
    obtain ⟨q', hq', hp, hraised⟩ := raise_pmGet hle h _ _ q hget
    rw [hget] at hr
    rw [hq']
    obtain ⟨p, d'⟩ := q
    obtain ⟨p', c'⟩ := q'
    obtain rfl : p = p' := hp
    rw [← Option.some.inj hr]
    dsimp only
    rw [hraised.mem]
    exact ⟨_, rfl, rfl, hraised.write _⟩

theorem raise_krealloc (address newSize : UInt64) (func : Nat → UInt8) (line : UInt64) :
    Lockstep (RaisedRight low high) (d.kreallocImpl address newSize func line)
      (c.kreallocImpl address newSize func line) := by
  rw [Ram.kreallocImpl, Ram.kreallocImpl]
  refine .ite (raise_kmalloc hle h newSize func line) ?_
  dsimp only
  rw [h.mem]
  refine .ite (.pure ⟨rfl, h.write _⟩) ?_
  intro r hr
  cases hk : d.kmallocImpl newSize func line with
  | none =>
    rw [hk] at hr
    cases hr
  | some q =>
    obtain ⟨q', hq', hp, hraised⟩ := raise_kmalloc hle h _ _ _ q hk
    rw [hk] at hr
    rw [hq']
    obtain ⟨p, d'⟩ := q
    obtain ⟨p', c'⟩ := q'
    obtain rfl : p = p' := hp
    rw [← Option.some.inj hr]
    dsimp only
    rw [hraised.mem]
    refine ⟨_, rfl, rfl, raise_kfree (hraised.write _) address⟩

theorem raise_vectorGrow (size : UInt64) (v : Vec) (func : Nat → UInt8) (line : UInt64) :
    Lockstep (RaisedLeft low high) (d.vectorGrow size v func line)
      (c.vectorGrow size v func line) := by
  rw [Ram.vectorGrow, Ram.vectorGrow]
  dsimp only
  refine .ite ((raise_krealloc hle h _ _ _ _).map fun r r' hr => ⟨hr.2, ?_⟩) (.pure ⟨h, rfl⟩)
  rw [hr.1]

theorem raise_vectorAppend (size : UInt64) (v : Vec) (elem : List UInt8) (func : Nat → UInt8)
    (line : UInt64) : Lockstep (RaisedLeft low high) (d.vectorAppend size v elem func line)
      (c.vectorAppend size v elem func line) := by
  rw [Ram.vectorAppend, Ram.vectorAppend]
  refine (raise_vectorGrow hle h size v func line).map fun r r' hr => ?_
  obtain ⟨d', w⟩ := r
  obtain ⟨c', w'⟩ := r'
  obtain ⟨hraised, rfl⟩ : Raised low high d' c' ∧ w = w' := hr
  dsimp only
  rw [hraised.mem]
  exact ⟨hraised.write _, rfl⟩

end Raise

/-- So does appending to a list. -/
def Keeper.Raises {α σ : Type} (K : Keeper α σ) (low high : UInt64) : Prop :=
  ∀ {d c}, Raised low high d c → ∀ v a line,
    Lockstep (RaisedLeft low high) (K.append d v a line) (K.append c v a line)

theorem vecKeeper_raises {α : Type} {low high : UInt64} (hle : low ≤ high) (size : UInt64)
    (enc : α → List UInt8) (dec : List UInt8 → α) (func : Nat → UInt8) :
    (vecKeeper size enc dec func).Raises low high :=
  fun h v a line => raise_vectorAppend hle h size v (enc a) func line

section RaiseTables
variable {σ τ : Type} {K : Keeper UInt64 σ} {low high : UInt64} (hle : low ≤ high)
  (hK : K.Raises low high)
include hle hK

theorem raise_nextTable {c d : Ram} (h : Raised low high d c) (as : Space σ) (table : UInt64)
    (i : Nat) (line : UInt64) :
    Lockstep (RaisedLeft low high) (d.nextTable K as table i line)
      (c.nextTable K as table i line) := by
  rw [Ram.nextTable, Ram.nextTable, h.mem]
  dsimp only
  refine .ite ?_ (.pure ⟨h, rfl⟩)
  intro r hr
  cases hget : d.pmGet defaultPages 0 with
  | none =>
    rw [hget] at hr
    cases hr
  | some q =>
    obtain ⟨q', hq', hp, hraised⟩ := raise_pmGet hle h _ _ q hget
    rw [hget] at hr
    rw [hq']
    obtain ⟨p, d'⟩ := q
    obtain ⟨p', c'⟩ := q'
    obtain rfl : p = p' := hp
    dsimp only at hr ⊢
    rw [hraised.mem] at hr
    refine Lockstep.ite .halt ?_ r hr
    refine (hK (hraised.write _) _ _ _).map fun r r' hr => ⟨hr.1, ?_⟩
    rw [hr.2]

theorem raise_mapPageEntry {r r' : Ram × Space σ} (h : RaisedLeft low high r r')
    (v physAddr flags : UInt64) : Lockstep (RaisedLeft low high)
      (r.1.mapPageEntry K r.2 v physAddr flags) (r'.1.mapPageEntry K r'.2 v physAddr flags) := by
  obtain ⟨d, as⟩ := r
  obtain ⟨c, as'⟩ := r'
  obtain ⟨hraised, rfl⟩ : Raised low high d c ∧ as = as' := h
  rw [Ram.mapPageEntry, Ram.mapPageEntry]
  refine (raise_nextTable hle hK hraised _ _ _ _).bind fun r r' hr => ?_
  obtain ⟨c₁, as₁, pdpt⟩ := r
  obtain ⟨c₁', as₁', pdpt'⟩ := r'
  obtain ⟨hraised₁, heq⟩ := hr
  obtain ⟨rfl, rfl⟩ := Prod.mk.inj heq
  refine (raise_nextTable hle hK hraised₁ _ _ _ _).bind fun r r' hr => ?_
  obtain ⟨c₂, as₂, pd⟩ := r
  obtain ⟨c₂', as₂', pd'⟩ := r'
  obtain ⟨hraised₂, heq⟩ := hr
  obtain ⟨rfl, rfl⟩ := Prod.mk.inj heq
  refine (raise_nextTable hle hK hraised₂ _ _ _ _).bind fun r r' hr => ?_
  obtain ⟨c₃, as₃, pt⟩ := r
  obtain ⟨c₃', as₃', pt'⟩ := r'
  obtain ⟨hraised₃, heq⟩ := hr
  obtain ⟨rfl, rfl⟩ := Prod.mk.inj heq
  dsimp only at hraised₃ ⊢
  rw [hraised₃.mem]
  exact .pure ⟨hraised₃.write _, rfl⟩

theorem raise_mapPages {c d : Ram} (h : Raised low high d c) (as : Space σ)
    (v physAddr n flags : UInt64) : Lockstep (RaisedLeft low high)
      (d.mapPages K as v physAddr n flags) (c.mapPages K as v physAddr n flags) :=
  .foldlM (fun _ _ i hr => raise_mapPageEntry hle hK hr (v + i) (physAddr + i) flags) ⟨h, rfl⟩

/-- The same kernel, with another limit. -/
def RaisedKernel (low high : UInt64) (s s' : Kernel σ τ) : Prop :=
  Raised low high s.ram s'.ram ∧ s.kernelAddrSpace = s'.kernelAddrSpace ∧
    s.globalMemMap = s'.globalMemMap

theorem raise_vmMap {M : Keeper MemMap τ} (hM : M.Raises low high) {s s' : Kernel σ τ}
    (h : RaisedKernel low high s s') (v physAddr n flags : UInt64) :
    Lockstep (fun r r' => RaisedKernel low high r.1 r'.1) (vmMap K M s none v physAddr n flags)
      (vmMap K M s' none v physAddr n flags) := by
  intro r hr
  obtain ⟨t, u, happ, hmap, rfl⟩ := vmMap_none.mp hr
  obtain ⟨t', happ', hraised, hgm⟩ := hM h.1 _ _ _ t happ
  obtain ⟨u', hmap', hraised', has⟩ := raise_mapPages hle hK hraised _ _ _ _ _ u hmap
  rw [h.2.1] at hmap'
  rw [h.2.2] at happ'
  exact ⟨_, vmMap_none.mpr ⟨t', u', happ', hmap', rfl⟩, hraised', has, hgm⟩

theorem raise_vmInitEntry {M : Keeper MemMap τ} (hM : M.Raises low high) {s s' : Kernel σ τ}
    (h : RaisedKernel low high s s') (kernel : LimineKAddrRes) (entry : LimineMemmapEntry) :
    Lockstep (RaisedKernel low high) (vmInitEntry K M kernel s entry)
      (vmInitEntry K M kernel s' entry) := by
  rw [vmInitEntry, vmInitEntry]
  cases entryMap kernel entry with
  | none => exact .pure h
  | some map => exact (raise_vmMap hle hK hM h _ _ _ _).map fun r r' hr => hr

end RaiseTables

end Horizon64
