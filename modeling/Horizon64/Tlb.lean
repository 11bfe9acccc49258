import Horizon64.MemoryClients
import Horizon64.KernelMap
import Horizon64.Lib.Lookaside

/- The translations that the processor keeps (`sys/mmu.c`).

   The processor keeps leaves of the tables that `cr3` refers to, and does not look at the
   tables again. `map_page_entry` and `unmap_page_entry` drop the page they work on when
   `cr3` refers to their address space (`invlpg`), and a write to `cr3` drops everything.
   Here the address spaces are among the users of memory of `MemoryClients`, and the
   processor loads entries whenever it likes.

   1. The rounds of `vm_map` and `vm_unmap` with what the processor loads between their
      writes, and `ProcessorStep`, everything that can happen.
   2. What a round does to the tables and to the buffer.
   3. `tlb_coherent`: the processor never uses a translation that the tables do not have,
      as long as pages are only unmapped that are alone in their region; for other
      pages it may. -/
namespace Horizon64
open Words Bytes Isolation Interleaving Lookaside

/-! The processor. -/

/-- The memory with its users; `cr3`, which is `none` while the tables of the boot loader are
    in use; and the leaves that the processor keeps. -/
structure Processor (ι : Type*) where
  memory : State ι Ram Client
  cr3 : Option UInt64
  tlb : UInt64 → Option UInt64

/-- `if (cr3_value == VIRT_TO_PHYS(addr_space->pml4)) invlpg(virt_addr)`. -/
def invlpgInUse (cr3 : Option UInt64) (pml4 : UInt64) (tlb : UInt64 → Option UInt64)
    (virtAddr : UInt64) : UInt64 → Option UInt64 :=
  if cr3 = some (virtToPhys pml4) then drop pageNum tlb virtAddr else tlb

/-- What the processor loads from the tables of a PML4, when it is in use. -/
def LoadsInUse (cr3 : Option UInt64) (pml4 : UInt64) (m : Memory)
    (tlb tlb' : UInt64 → Option UInt64) : Prop :=
  if cr3 = some (virtToPhys pml4) then Loads (walk m ⟨pml4, []⟩) tlb tlb' else tlb' = tlb

/-- The memory when `unmap_page_entry` has run `pt[pte] = 0`. -/
def clearLeaf (m : Memory) (pml4 virtAddr : UInt64) : Memory :=
  let pdpt := physToVirt (tableEntry m pml4 (pml4e virtAddr) &&& ~~~0x1FF)
  let pd := physToVirt (tableEntry m pdpt (pdpe virtAddr) &&& ~~~0x1FF)
  let pt := physToVirt (tableEntry m pd (pde virtAddr) &&& ~~~0x1FF)
  setTableEntry m pt (pte virtAddr) 0

section Rounds
variable {ι : Type*} [DecidableEq ι]

/-- User `i` is the address space `as'` now, in the memory `c`. -/
def Processor.setSpace (p : Processor ι) (i : ι) (c : Ram) (as' : Space Vec)
    (tlb : UInt64 → Option UInt64) : Processor ι :=
  { p with memory := ⟨c, Function.update p.memory.locals i (.space as')⟩, tlb := tlb }

@[simp]
theorem setSpace_locals (p : Processor ι) (i : ι) (c : Ram) (as' : Space Vec)
    (tlb : UInt64 → Option UInt64) : (p.setSpace i c as' tlb).memory.locals i = .space as' :=
  Function.update_self ..

/-- A round of the loop of `vm_map`. -/
inductive MapRound (p : Processor ι) (i : ι) (func : Nat → UInt8) (v a flags : UInt64) :
    Processor ι → Prop where
  | intro {as as' : Space Vec} {c : Ram} {tlb₁ tlb₂ : UInt64 → Option UInt64}
      (hi : p.memory.locals i = .space as)
      (hmap : p.memory.shared.mapPageEntry (memoryList func) as v a flags = some (c, as'))
      (hbefore : LoadsInUse p.cr3 as.pml4 p.memory.shared.mem p.tlb tlb₁)
      (hafter : LoadsInUse p.cr3 as'.pml4 c.mem tlb₁ tlb₂) :
      MapRound p i func v a flags (p.setSpace i c as' (invlpgInUse p.cr3 as'.pml4 tlb₂ v))

/-- A round of the loop of `vm_unmap` that finds the page mapped; the other rounds return at
    once. What `vector_erase` copies stays in the pages of the list. -/
inductive UnmapRound (p : Processor ι) (i : ι) (func : Nat → UInt8) (v : UInt64) :
    Processor ι → Prop where
  | intro {as as' : Space Vec} {c : Ram} {tlb₁ tlb₂ tlb₃ : UInt64 → Option UInt64}
      (hi : p.memory.locals i = .space as)
      (hmapped : (walk p.memory.shared.mem as.tables v).isSome)
      (hinside : p.memory.shared.ErasesInside (memoryList func) as v 1)
      (hunmap : p.memory.shared.unmapPageEntry (memoryList func) as v = some (c, as'))
      (hbefore : LoadsInUse p.cr3 as.pml4 p.memory.shared.mem p.tlb tlb₁)
      (hcleared : LoadsInUse p.cr3 as.pml4 (clearLeaf p.memory.shared.mem as.pml4 v) tlb₁ tlb₂)
      (hdropped : LoadsInUse p.cr3 as.pml4 (clearLeaf p.memory.shared.mem as.pml4 v)
        (invlpgInUse p.cr3 as.pml4 tlb₂ v) tlb₃) :
      UnmapRound p i func v (p.setSpace i c as' tlb₃)

/-- No other page of the region of `v` is mapped. -/
def AloneInRegion (m : Memory) (as : AddrSpace) (v : UInt64) : Prop :=
  ∀ w, regionNum w = regionNum v → (walk m as w).isSome → pageNum w = pageNum v

/-- What can happen, in any order. Pages of the space in use are only unmapped when they are
    alone in their region. -/
inductive ProcessorStep : Processor ι → Processor ι → Prop where
  | bootLoad {p : Processor ι} (tlb : UInt64 → Option UInt64) (hcr3 : p.cr3 = none) :
      ProcessorStep p { p with tlb := tlb }
  | load {p : Processor ι} {tlb : UInt64 → Option UInt64} (i : ι) {as : Space Vec}
      (hi : p.memory.locals i = .space as) (hcr3 : p.cr3 = some (virtToPhys as.pml4))
      (hload : Loads (walk p.memory.shared.mem as.tables) p.tlb tlb) :
      ProcessorStep p { p with tlb := tlb }
  | writeCr3 {p : Processor ι} (i : ι) {as : Space Vec} (hi : p.memory.locals i = .space as) :
      ProcessorStep p { p with cr3 := some (virtToPhys as.pml4), tlb := fun _ => none }
  | call {p : Processor ι} {τ : State ι Ram Client} (i : ι)
      (hi : ∀ as, p.memory.locals i ≠ .space as) (hstep : Step ClientStep i p.memory τ) :
      ProcessorStep p { p with memory := τ }
  | mapRound {p p' : Processor ι} (i : ι) (func : Nat → UInt8) (v a flags : UInt64)
      (h : MapRound p i func v a flags p') : ProcessorStep p p'
  | unmapRound {p p' : Processor ι} (i : ι) (func : Nat → UInt8) (v : UInt64)
      (h : UnmapRound p i func v p')
      (halone : ∀ as, p.memory.locals i = .space as → p.cr3 = some (virtToPhys as.pml4) →
        AloneInRegion p.memory.shared.mem as.tables v) : ProcessorStep p p'

end Rounds

/-! The tables of a space in a round. -/

section Tables
variable {func : Nat → UInt8} {c c' : Ram} {as as' : Space Vec} {l : List UInt64} {v : UInt64}
  (h : Stands listOwner c as l)
include h

theorem Stands.mapPage {a flags : UInt64}
    (hmap : c.mapPageEntry (memoryList func) as v a flags = some (c', as')) :
    as'.pml4 = as.pml4 ∧ walk c'.mem as'.tables =
      FlatMap.assign pageNum (walk c.mem as.tables) v (pageEntry a flags) := by
  obtain ⟨s, k₀, rfl, h⟩ := h
  have hup := mapPageEntry_ram (memoryList_laws func) h hmap
  have hwalk := (hup.stands h).2
  obtain ⟨s', w, l', heq, -, -⟩ := hup
  rw [ram_walk h]
  exact ⟨congrArg (fun r => r.2.pml4) heq, hwalk⟩

theorem Stands.unmapPage (hinside : c.ErasesInside (memoryList func) as v 1) :
    ∃ r, c.unmapPageEntry (memoryList func) as v = some r ∧ r.2.pml4 = as.pml4 ∧
      walk r.1.mem r.2.tables = FlatMap.wipe regionNum (walk c.mem as.tables) v := by
  obtain ⟨s, k₀, rfl, h⟩ := h
  obtain ⟨r, hr⟩ := Option.isSome_iff_exists.mp hinside
  rw [Ram.unmapPages_one] at hr
  have hup := (unmapPageEntry_ram (memoryList_laws func).toErases (E := False) False.elim h v).good
    r hr
  have hwalk := (hup.stands h).2
  obtain ⟨s', w, l', heq, -, -⟩ := hup
  rw [ram_walk h]
  exact ⟨r, unmapPageEntry_guarded hr, congrArg (fun r => r.2.pml4) heq, hwalk⟩

/-- Clearing the leaf of a mapped page, through the pointers of `unmap_page_entry`. -/
theorem clearLeaf_walk (hv : (walk c.mem as.tables v).isSome) :
    walk (clearLeaf c.mem as.pml4 v) as.tables =
      FlatMap.assign pageNum (walk c.mem as.tables) v none := by
  obtain ⟨k, hpaged, -⟩ := h.paged
  have hroot : as.pml4 = physToVirt as.tables.root := (physToVirt_virtToPhys as.pml4).symm
  have hnil : Radix.descend (sub c.mem) as.tables.root ([] : List (Fin 512)) = some as.tables.root :=
    by rw [Radix.descend_nil]
  rw [walk] at hv
  rcases hpaged.entry_cases hnil (by simp) (pml4e v) with ⟨_, hsub4⟩ | ⟨pdpt, _, hsub4, hm4, h4⟩
  · rw [hsub4] at hv
    cases hv
  rcases hpaged.entry_cases h4 (by simp) (pdpe v) with ⟨_, hsub3⟩ | ⟨pd, _, hsub3, hm3, h3⟩
  · rw [hsub4, Option.bind_some, hsub3] at hv
    cases hv
  rcases hpaged.entry_cases h3 (by simp) (pde v) with ⟨_, hsub2⟩ | ⟨pt, _, hsub2, hm2, h2⟩
  · rw [hsub4, Option.bind_some, hsub3, Option.bind_some, hsub2] at hv
    cases hv
  obtain ⟨-, -, -, hwalk⟩ := setLeaf_spec hpaged h2 0
  have hclear : clearLeaf c.mem as.pml4 v = setTableEntry c.mem (physToVirt pt) (pte v) 0 := by
    rw [clearLeaf, hroot, hm4, hm3, hm2]
  rw [hclear]
  exact funext hwalk

end Tables

/-! What a round does to the buffer. -/

section Buffer
variable {cr3 : Option UInt64} {func : Nat → UInt8} {c c' : Ram} {as as' : Space Vec}
  {l : List UInt64} {tlb tlb₁ tlb₂ tlb₃ : UInt64 → Option UInt64} {v : UInt64}

theorem loadsInUse_iff (hcr3 : cr3 = some (virtToPhys as.pml4)) {m : Memory} :
    LoadsInUse cr3 as.pml4 m tlb tlb₁ ↔ Loads (walk m as.tables) tlb tlb₁ := by
  rw [LoadsInUse, if_pos hcr3]
  rfl

theorem loadsInUse_other {pml4 : UInt64} (hcr3 : cr3 ≠ some (virtToPhys pml4)) {m : Memory} :
    LoadsInUse cr3 pml4 m tlb tlb₁ ↔ tlb₁ = tlb := by
  rw [LoadsInUse, if_neg hcr3]

theorem loadsInUse_refl (cr3 : Option UInt64) (pml4 : UInt64) (m : Memory)
    (tlb : UInt64 → Option UInt64) : LoadsInUse cr3 pml4 m tlb tlb := by
  rw [LoadsInUse]
  split
  · exact Loads.refl _ _
  · rfl

theorem invlpgInUse_eq {pml4 : UInt64} (hcr3 : cr3 = some (virtToPhys pml4)) :
    invlpgInUse cr3 pml4 tlb v = drop pageNum tlb v := if_pos hcr3

theorem invlpgInUse_other {pml4 : UInt64} (hcr3 : cr3 ≠ some (virtToPhys pml4)) :
    invlpgInUse cr3 pml4 tlb v = tlb := if_neg hcr3

variable (h : Stands listOwner c as l)
include h

theorem map_coherent {a flags : UInt64} (hcr3 : cr3 = some (virtToPhys as.pml4))
    (hmap : c.mapPageEntry (memoryList func) as v a flags = some (c', as'))
    (hbefore : LoadsInUse cr3 as.pml4 c.mem tlb tlb₁)
    (hafter : LoadsInUse cr3 as'.pml4 c'.mem tlb₁ tlb₂)
    (hold : Coherent (walk c.mem as.tables) tlb) :
    Coherent (walk c'.mem as'.tables) (invlpgInUse cr3 as'.pml4 tlb₂ v) := by
  obtain ⟨hpml4, hwalk⟩ := h.mapPage hmap
  have hcr3' : cr3 = some (virtToPhys as'.pml4) := by rw [hcr3, hpml4]
  rw [loadsInUse_iff hcr3] at hbefore
  rw [loadsInUse_iff hcr3', hwalk] at hafter
  rw [invlpgInUse_eq hcr3', hwalk]
  exact coherent_assign (hold.load hbefore) hafter

/-- What the buffer can have when `unmap_page_entry` has cleared the leaf and dropped it. -/
theorem cleared_coherent (hmapped : (walk c.mem as.tables v).isSome)
    (hcr3 : cr3 = some (virtToPhys as.pml4)) (hbefore : LoadsInUse cr3 as.pml4 c.mem tlb tlb₁)
    (hcleared : LoadsInUse cr3 as.pml4 (clearLeaf c.mem as.pml4 v) tlb₁ tlb₂)
    (hdropped : LoadsInUse cr3 as.pml4 (clearLeaf c.mem as.pml4 v)
      (invlpgInUse cr3 as.pml4 tlb₂ v) tlb₃) (hold : Coherent (walk c.mem as.tables) tlb) :
    Coherent (FlatMap.assign pageNum (walk c.mem as.tables) v none) tlb₃ := by
  rw [loadsInUse_iff hcr3] at hbefore hcleared hdropped
  rw [clearLeaf_walk h hmapped] at hcleared hdropped
  rw [invlpgInUse_eq hcr3] at hdropped
  exact (coherent_assign (hold.load hbefore) hcleared).load hdropped

end Buffer

/-! Steps. -/

section Steps
variable {ι : Type*} [DecidableEq ι] {τ₀ : State ι Ram Client} {p p' : Processor ι}

theorem MapRound.step {i : ι} {func : Nat → UInt8} {v a flags : UInt64}
    (h : MapRound p i func v a flags p') : Step ClientStep i p.memory p'.memory := by
  obtain ⟨hi, hmap, -, -⟩ := h
  refine ⟨_, ?_, rfl⟩
  rw [hi]
  exact .vmMap v a 1 flags func ((Ram.mapPages_one ..).trans hmap)

theorem UnmapRound.step {i : ι} {func : Nat → UInt8} {v : UInt64} (h : UnmapRound p i func v p') :
    Step ClientStep i p.memory p'.memory := by
  obtain ⟨hi, -, hinside, hunmap, -, -, -⟩ := h
  refine ⟨_, ?_, rfl⟩
  rw [hi]
  exact .vmUnmap v 1 func hinside ((Ram.unmapPages_one ..).trans hunmap)

/-- What is true of the processor in every state: the users are in memory, `cr3` refers to one
    of the spaces, and the buffer has leaves of that space's tables only. -/
structure Processor.Ok (c₀ : Ram) (p : Processor ι) : Prop where
  users : ∃ σ, Users c₀ σ p.memory
  inUse : ∀ r, p.cr3 = some r → ∃ i as, p.memory.locals i = .space as ∧ virtToPhys as.pml4 = r
  coherent : ∀ i as, p.memory.locals i = .space as → p.cr3 = some (virtToPhys as.pml4) →
    Coherent (walk p.memory.shared.mem as.tables) p.tlb

omit [DecidableEq ι] in
/-- Two address spaces have different PML4s. -/
theorem root_unique {τ : State ι Ram Client} (h : ∃ σ, Users τ₀.shared σ τ) {i j : ι}
    {as bs : Space Vec} (hi : τ.locals i = .space as) (hj : τ.locals j = .space bs)
    (hroot : virtToPhys as.pml4 = virtToPhys bs.pml4) : i = j := by
  obtain ⟨σ, h⟩ := h
  by_contra hne
  have height : 0 < (8 : UInt64).toNat := by decide
  have hpage : ∀ as : Space Vec, TablePage as.tables.root (pageOf as.tables.root) :=
    fun _ => ⟨Nat.le_refl _, Nat.lt_add_of_pos_right height⟩
  have hheld : ∀ {k : ι} {as : Space Vec}, τ.locals k = .space as →
      (τ.locals k).Page τ.shared (pageOf as.tables.root) := by
    intro k as hk
    rw [hk]
    exact Or.inl ⟨_, ⟨[], Nat.zero_le _, Radix.descend_nil _⟩, hpage as⟩
  have hsame : as.tables.root = bs.tables.root := hroot
  exact users_apart h hne (hheld hi) (hsame ▸ hheld hj)

omit [DecidableEq ι] in
theorem space_stands {τ : State ι Ram Client} (h : ∃ σ, Users τ₀.shared σ τ) {i : ι}
    {as : Space Vec} (hi : τ.locals i = .space as) : ∃ l, Stands listOwner τ.shared as l := by
  obtain ⟨σ, h⟩ := h
  have hfinds := users_finds h i
  rw [hi] at hfinds
  exact hfinds

variable (hlim : τ₀.shared.kmem.physicalLimit.toNat + 4096 ≤ 2 ^ 47)
include hlim

theorem users_step {τ τ' : State ι Ram Client} (h : ∃ σ, Users τ₀.shared σ τ) {i : ι}
    (hstep : Step ClientStep i τ τ') : ∃ σ, Users τ₀.shared σ τ' := by
  obtain ⟨σ, h⟩ := h
  have hany : Relation.ReflTransGen (fun τ τ' => ∃ i, True ∧ Step ClientStep i τ τ') τ τ' :=
    .single ⟨i, trivial, hstep⟩
  obtain ⟨σ', -, h'⟩ := users_run hlim h hany
  exact ⟨σ', h'⟩

theorem Processor.Ok.quiet (h : p.Ok τ₀.shared) {i : ι} {τ : State ι Ram Client}
    (hstep : Step ClientStep i p.memory τ)
    (hquiet : ∀ as, p.memory.locals i = .space as → p.cr3 ≠ some (virtToPhys as.pml4)) :
    Processor.Ok τ₀.shared ⟨τ, p.cr3, p.tlb⟩ := by
  have husers := users_step hlim h.users hstep
  -- the space in use is another user
  have hother : ∀ j bs, p.memory.locals j = .space bs → p.cr3 = some (virtToPhys bs.pml4) →
      τ.locals j = .space bs ∧
        walk τ.shared.mem bs.tables = walk p.memory.shared.mem bs.tables := by
    intro j bs hj hcr3
    have hne : i ≠ j := fun heq => hquiet bs (heq ▸ hj) hcr3
    obtain ⟨σ, hσ⟩ := h.users
    obtain ⟨hlocal, -, hwalk⟩ := users_others hlim hσ (.single ⟨i, hne, hstep⟩)
    exact ⟨hlocal.trans hj, hwalk bs hj⟩
  refine ⟨husers, fun r hr => ?_, fun k cs hk hr => ?_⟩
  · obtain ⟨j, bs, hj, hroot⟩ := h.inUse r hr
    exact ⟨j, bs, (hother j bs hj (by rw [hroot]; exact hr)).1, hroot⟩
  · obtain ⟨j, bs, hj, hroot⟩ := h.inUse _ hr
    have hcr3 : p.cr3 = some (virtToPhys bs.pml4) := by
      rw [hroot]
      exact hr
    obtain ⟨hj', hwalk⟩ := hother j bs hj hcr3
    obtain rfl : k = j := root_unique husers hk hj' hroot.symm
    obtain rfl : cs = bs := Client.space.inj (hk.symm.trans hj')
    rw [hwalk]
    exact h.coherent k cs hj hcr3

omit hlim in
theorem setSpace_ok {i : ι} {as as' : Space Vec} {c : Ram} {tlb : UInt64 → Option UInt64}
    (husers : ∃ σ, Users τ₀.shared σ (p.setSpace i c as' tlb).memory)
    (hcr3 : p.cr3 = some (virtToPhys as.pml4)) (hpml4 : as'.pml4 = as.pml4)
    (hcoherent : Coherent (walk c.mem as'.tables) tlb) :
    (p.setSpace i c as' tlb).Ok τ₀.shared := by
  have hself : (p.setSpace i c as' tlb).memory.locals i = .space as' := setSpace_locals ..
  refine ⟨husers, fun r hr => ⟨i, as', hself, ?_⟩, fun j cs hj hr => ?_⟩
  · rw [hpml4]
    exact Option.some.inj (hcr3.symm.trans hr)
  · have hsame : virtToPhys cs.pml4 = virtToPhys as'.pml4 := by
      rw [hpml4]
      exact Option.some.inj (hr.symm.trans hcr3)
    obtain rfl : j = i := root_unique husers hj hself hsame
    obtain rfl : cs = as' := Client.space.inj (hj.symm.trans hself)
    exact hcoherent

theorem ok_step (h : p.Ok τ₀.shared) (hstep : ProcessorStep p p') : p'.Ok τ₀.shared := by
  cases hstep with
  | bootLoad tlb hcr3 =>
    refine ⟨h.users, h.inUse, fun i as _ hr => ?_⟩
    have hnone : p.cr3 = some (virtToPhys as.pml4) := hr
    rw [hcr3] at hnone
    cases hnone
  | @load tlb i as hi hcr3 hload =>
    refine ⟨h.users, h.inUse, fun j bs hj hr => ?_⟩
    have hroot : virtToPhys bs.pml4 = virtToPhys as.pml4 := Option.some.inj (hr.symm.trans hcr3)
    obtain rfl : j = i := root_unique h.users hj hi hroot
    obtain rfl : bs = as := Client.space.inj (hj.symm.trans hi)
    exact (h.coherent j bs hi hcr3).load hload
  | @writeCr3 i as hi =>
    refine ⟨h.users, fun r hr => ⟨i, as, hi, Option.some.inj hr⟩, fun _ bs _ _ => ?_⟩
    exact coherent_empty _
  | @call τ i hi hcall => exact h.quiet hlim hcall fun as has => absurd has (hi as)
  | mapRound i func v a flags hround =>
    have hcall := hround.step
    obtain ⟨hi, hmap, hbefore, hafter⟩ := hround
    rename_i as as' c tlb₁ tlb₂
    obtain ⟨l, hstands⟩ := space_stands h.users hi
    have hpml4 := (hstands.mapPage hmap).1
    by_cases hcr3 : p.cr3 = some (virtToPhys as.pml4)
    · exact setSpace_ok (users_step hlim h.users hcall) hcr3 hpml4
        (map_coherent hstands hcr3 hmap hbefore hafter (h.coherent i as hi hcr3))
    · have hcr3' : p.cr3 ≠ some (virtToPhys as'.pml4) := by
        rw [hpml4]
        exact hcr3
      obtain rfl := (loadsInUse_other hcr3).mp hbefore
      obtain rfl := (loadsInUse_other hcr3').mp hafter
      rw [invlpgInUse_other hcr3'] at hcall ⊢
      refine h.quiet hlim hcall fun bs hbs => ?_
      obtain rfl : bs = as := Client.space.inj (hbs.symm.trans hi)
      exact hcr3
  | unmapRound i func v hround halone =>
    have hcall := hround.step
    obtain ⟨hi, hmapped, hinside, hunmap, hbefore, hcleared, hdropped⟩ := hround
    rename_i as as' c tlb₁ tlb₂ tlb₃
    obtain ⟨l, hstands⟩ := space_stands h.users hi
    obtain ⟨r, hr, hpml4, hwalk⟩ := hstands.unmapPage hinside
    obtain rfl : r = (c, as') := Option.some.inj (hr.symm.trans hunmap)
    by_cases hcr3 : p.cr3 = some (virtToPhys as.pml4)
    · have hcoherent := cleared_coherent hstands hmapped hcr3 hbefore hcleared hdropped
        (h.coherent i as hi hcr3)
      refine setSpace_ok (users_step hlim h.users hcall) hcr3 hpml4 ?_
      rw [hwalk]
      exact (coherent_wipe_iff hmapped).mpr (halone as hi hcr3) tlb₃ hcoherent
    · obtain rfl := (loadsInUse_other hcr3).mp hbefore
      obtain rfl := (loadsInUse_other hcr3).mp hcleared
      rw [invlpgInUse_other hcr3] at hdropped
      obtain rfl := (loadsInUse_other hcr3).mp hdropped
      refine h.quiet hlim hcall fun bs hbs => ?_
      obtain rfl : bs = as := Client.space.inj (hbs.symm.trans hi)
      exact hcr3

theorem run_ok (h : p.Ok τ₀.shared) (hrun : Relation.ReflTransGen ProcessorStep p p') :
    p'.Ok τ₀.shared := by
  induction hrun with
  | refl => exact h
  | tail _ hstep ih => exact ok_step hlim ih hstep

end Steps

/-! The loops of `vm_map` and `vm_unmap`. -/

section Loops
variable {ι : Type*} [DecidableEq ι] {p : Processor ι} {i : ι} {func : Nat → UInt8}
  {as : Space Vec}

/-- What a loop reaches: a state of the memory and of the space, the others as they were. -/
def Processor.Reaches (p : Processor ι) (i : ι) (r : Ram × Space Vec) : Prop :=
  ∃ tlb, Relation.ReflTransGen ProcessorStep p (p.setSpace i r.1 r.2 tlb)

theorem Processor.Reaches.tail {r r' : Ram × Space Vec} (h : p.Reaches i r)
    (hround : ∀ q : Processor ι, q.memory.shared = r.1 → q.memory.locals i = .space r.2 →
      ∃ tlb, ProcessorStep q (q.setSpace i r'.1 r'.2 tlb)) : p.Reaches i r' := by
  obtain ⟨tlb, hrun⟩ := h
  obtain ⟨tlb', hstep⟩ := hround (p.setSpace i r.1 r.2 tlb) rfl (setSpace_locals ..)
  refine ⟨tlb', hrun.tail ?_⟩
  simpa [Processor.setSpace] using hstep

theorem reaches_refl (hi : p.memory.locals i = .space as) :
    p.Reaches i (p.memory.shared, as) := by
  refine ⟨p.tlb, ?_⟩
  have hsame : p.setSpace i p.memory.shared as p.tlb = p := by
    rw [Processor.setSpace, ← hi, Function.update_eq_self]
  rw [hsame]

/-- `vm_map` is its rounds. -/
theorem vmMap_rounds (hi : p.memory.locals i = .space as) {v a n flags : UInt64}
    {r : Ram × Space Vec}
    (hmap : p.memory.shared.mapPages (memoryList func) as v a n flags = some r) :
    p.Reaches i r := by
  refine Folds.foldlM_keeps (fun t j t' _ ht hj => ?_) (reaches_refl hi) hmap
  refine ht.tail fun q hq hqi => ⟨_, .mapRound i func (v + j) (a + j) flags (.intro hqi ?_
    (loadsInUse_refl ..) (loadsInUse_refl ..))⟩
  rw [hq]
  exact hj

/-- What unmapping keeps: the tables are in order, and no page is mapped that was not. -/
structure Shrinks (c : Ram) (as : Space Vec) (r : Ram × Space Vec) : Prop where
  stands : ∃ l, Stands listOwner r.1 r.2 l
  mapped : ∀ w, (walk r.1.mem r.2.tables w).isSome → (walk c.mem as.tables w).isSome

theorem Shrinks.unmap {c : Ram} {r r' : Ram × Space Vec} (h : Shrinks c as r) {v : UInt64}
    (hunmap : r.1.unmapPageEntry (memoryList func).guarded r.2 v = some r') : Shrinks c as r' := by
  obtain ⟨l, hstands⟩ := h.stands
  rw [← Ram.unmapPages_one] at hunmap
  obtain ⟨t, ht, hstands', -⟩ := hstands.unmap (memoryList_laws func).toErases (v := v) (n := 1)
    (Option.isSome_of_eq_some hunmap)
  obtain ⟨u, hu, -, hwalk⟩ := hstands.unmapPage (Option.isSome_of_eq_some hunmap)
  rw [← Ram.unmapPages_one, ht, Option.some.injEq] at hu
  obtain rfl : t = r' := Option.some.inj (ht.symm.trans (unmapPages_guarded hunmap))
  refine ⟨hstands', fun w hw => h.mapped w ?_⟩
  rw [hu, hwalk] at hw
  exact FlatMap.isSome_of_wipe hw

/-- An unmapped page stays so, and nothing else happens. -/
theorem unmapPageEntry_absent {K : Keeper UInt64 Vec} {c : Ram} {l : List UInt64}
    (h : Stands listOwner c as l) {v : UInt64} (hv : ¬ (walk c.mem as.tables v).isSome) :
    c.unmapPageEntry K as v = some (c, as) := by
  obtain ⟨k, hpaged, -⟩ := h.paged
  have hroot : as.pml4 = physToVirt as.tables.root := (physToVirt_virtToPhys as.pml4).symm
  have hnil : Radix.descend (sub c.mem) as.tables.root ([] : List (Fin 512)) = some as.tables.root :=
    by rw [Radix.descend_nil]
  simp only [Ram.unmapPageEntry]
  rw [hroot]
  rcases hpaged.entry_cases hnil (by simp) (pml4e v) with ⟨hn, _⟩ | ⟨pdpt, hy4, hsub4, hm4, h4⟩
  · rw [if_pos hn]
  rw [if_neg (by simp [hy4]), hm4]
  rcases hpaged.entry_cases h4 (by simp) (pdpe v) with ⟨hn, _⟩ | ⟨pd, hy3, hsub3, hm3, h3⟩
  · rw [if_pos hn]
  rw [if_neg (by simp [hy3]), hm3]
  rcases hpaged.entry_cases h3 (by simp) (pde v) with ⟨hn, _⟩ | ⟨pt, hy2, hsub2, hm2, h2⟩
  · rw [if_pos hn]
  rw [if_neg (by simp [hy2]), hm2]
  refine if_pos ?_
  rw [walk, hsub4, Option.bind_some, hsub3, Option.bind_some, hsub2, Option.bind_some, leaf] at hv
  by_contra hpresent
  rw [if_neg hpresent] at hv
  exact hv rfl

/-- `vm_unmap` is its rounds, when its pages are alone in their regions. -/
theorem vmUnmap_rounds (hi : p.memory.locals i = .space as) {l : List UInt64}
    (h : Stands listOwner p.memory.shared as l) {v n : UInt64}
    (halone : ∀ j ∈ pages 0 (n * pageSize),
      AloneInRegion p.memory.shared.mem as.tables (v + j))
    (hinside : p.memory.shared.ErasesInside (memoryList func) as v n) :
    ∃ r, p.memory.shared.unmapPages (memoryList func) as v n = some r ∧ p.Reaches i r := by
  obtain ⟨r, hr⟩ := Option.isSome_iff_exists.mp hinside
  have hrun := Folds.foldlM_keeps
    (P := fun t => p.Reaches i t ∧ Shrinks p.memory.shared as t)
    (fun t j t' hj ht hround => ?_) ⟨reaches_refl hi, ⟨l, h⟩, fun _ hw => hw⟩ hr
  · exact ⟨r, unmapPages_guarded hr, hrun.1⟩
  · obtain ⟨hreach, hshrinks⟩ := ht
    refine ⟨?_, hshrinks.unmap hround⟩
    by_cases hv : (walk t.1.mem t.2.tables (v + j)).isSome
    · refine hreach.tail fun q hq hqi => ⟨_, .unmapRound i func (v + j) (.intro hqi ?_ ?_ ?_
        (loadsInUse_refl ..) (loadsInUse_refl ..) (loadsInUse_refl ..)) fun bs hbs _ => ?_⟩
      · rw [hq]
        exact hv
      · rw [hq, Ram.ErasesInside, Ram.unmapPages_one]
        exact Option.isSome_of_eq_some hround
      · rw [hq]
        exact unmapPageEntry_guarded hround
      · obtain rfl : bs = t.2 := Client.space.inj (hbs.symm.trans hqi)
        rw [hq]
        exact fun w hregion hw => halone j hj w hregion (hshrinks.mapped w hw)
    · obtain ⟨m, hstands⟩ := hshrinks.stands
      rw [unmapPageEntry_absent hstands hv, Option.some.injEq] at hround
      rw [← hround]
      exact hreach

end Loops

/-! The buffer and the tables. -/

section Coherence
variable {ι : Type*} [DecidableEq ι] {p₀ p : Processor ι}

/-- What the processor uses for an address. -/
def Processor.translate (p : Processor ι) (as : Space Vec) : UInt64 → Option UInt64 :=
  lookup (walk p.memory.shared.mem as.tables) p.tlb

/-- All that the processor may keep after a mapped page is unmapped is right exactly when the
    page is alone in its region. -/
theorem unmapRound_coherent_iff {c₀ : State ι Ram Client} (h : p.Ok c₀.shared) {i : ι}
    {as : Space Vec} (hi : p.memory.locals i = .space as)
    (hcr3 : p.cr3 = some (virtToPhys as.pml4)) {func : Nat → UInt8} {v : UInt64}
    (hmapped : (walk p.memory.shared.mem as.tables v).isSome)
    (hinside : p.memory.shared.ErasesInside (memoryList func) as v 1) :
    (∀ p', UnmapRound p i func v p' → ∀ as', p'.memory.locals i = .space as' →
      ∀ w, p'.translate as' w = walk p'.memory.shared.mem as'.tables w) ↔
    AloneInRegion p.memory.shared.mem as.tables v := by
  obtain ⟨l, hstands⟩ := space_stands h.users hi
  obtain ⟨⟨c, as'⟩, hunmap, -, hwalk⟩ := hstands.unmapPage hinside
  have hiff : (∀ buf, Coherent (FlatMap.assign pageNum (walk p.memory.shared.mem as.tables) v none)
      buf → Coherent (walk c.mem as'.tables) buf) ↔
      AloneInRegion p.memory.shared.mem as.tables v := by
    rw [hwalk]
    exact coherent_wipe_iff hmapped
  rw [← hiff]
  constructor
  · intro hall buf hbuf
    rw [coherent_iff_lookup]
    refine hall _ (.intro hi hmapped hinside hunmap (loadsInUse_refl ..) (loadsInUse_refl ..) ?_)
      as' (setSpace_locals ..)
    rw [loadsInUse_iff hcr3, clearLeaf_walk hstands hmapped]
    exact fun w e he => Or.inr (hbuf w e he)
  · intro hall p' hround bs hbs
    obtain ⟨hi', _, _, hunmap', hbefore, hcleared, hdropped⟩ := hround
    obtain rfl := Client.space.inj (hi.symm.trans hi')
    rw [hunmap, Option.some.injEq, Prod.mk.injEq] at hunmap'
    obtain ⟨rfl, rfl⟩ := hunmap'
    obtain rfl := Client.space.inj (hbs.symm.trans (setSpace_locals ..))
    exact coherent_iff_lookup.mp (hall _ (cleared_coherent hstands hmapped hcr3 hbefore hcleared
      hdropped (h.coherent i as hi hcr3)))

/-- Users of memory that start with nothing, under the boot loader's tables: in every state
    reached, the processor translates every address as the tables in use do, whatever it has
    kept. An unmapping of a page that is not alone in its region may end that. -/
theorem tlb_coherent (hguard : p₀.memory.shared.Guarded)
    (hlim : p₀.memory.shared.kmem.physicalLimit.toNat + 4096 ≤ 2 ^ 47)
    (hfresh : ∀ i, (p₀.memory.locals i).Fresh) (hboot : p₀.cr3 = none)
    (hrun : Relation.ReflTransGen ProcessorStep p₀ p) {i : ι} {as : Space Vec}
    (hi : p.memory.locals i = .space as) (hcr3 : p.cr3 = some (virtToPhys as.pml4)) :
    (∀ w, p.translate as w = walk p.memory.shared.mem as.tables w) ∧
    ∀ func v, (walk p.memory.shared.mem as.tables v).isSome →
      p.memory.shared.ErasesInside (memoryList func) as v 1 →
      ((∀ p', UnmapRound p i func v p' → ∀ as', p'.memory.locals i = .space as' →
        ∀ w, p'.translate as' w = walk p'.memory.shared.mem as'.tables w) ↔
      AloneInRegion p.memory.shared.mem as.tables v) := by
  have hok : p₀.Ok p₀.memory.shared := by
    refine ⟨⟨_, users_start hguard hlim hfresh⟩, fun r hr => ?_, fun i as _ hr => ?_⟩
    · rw [hboot] at hr
      cases hr
    · rw [hboot] at hr
      cases hr
  have h := run_ok hlim hok hrun
  exact ⟨coherent_iff_lookup.mp (h.coherent i as hi hcr3),
    fun func v hv hinside => unmapRound_coherent_iff h hi hcr3 hv hinside⟩

/-- A space with one page mapped, in use, with all of it kept; the page can be unmapped. -/
theorem tlb_coherent_boot : ∃ (p : Processor Bool) (as : Space Vec),
    p.cr3 = some (virtToPhys as.pml4) ∧ p.tlb 0x400000 = some (0x10000 ||| vmDefault) ∧
    p.memory.shared.ErasesInside (memoryList fun _ => 0) as 0x400000 1 ∧
    (∀ w, p.translate as w = walk p.memory.shared.mem as.tables w) ∧
    ∀ func v, (walk p.memory.shared.mem as.tables v).isSome →
      p.memory.shared.ErasesInside (memoryList func) as v 1 →
      ((∀ p', UnmapRound p true func v p' → ∀ as', p'.memory.locals true = .space as' →
        ∀ w, p'.translate as' w = walk p'.memory.shared.mem as'.tables w) ↔
      AloneInRegion p.memory.shared.mem as.tables v) := by
  obtain ⟨p₀, hp₀⟩ : ∃ p₀ : Processor Bool,
    p₀ = ⟨⟨fencedMachine.ram, fun _ => .absent⟩, none, fun _ => none⟩ := ⟨_, rfl⟩
  have hguard : p₀.memory.shared.Guarded := by
    rw [hp₀]
    exact (blank_fenced vectorNew).guarded
  have hlim : p₀.memory.shared.kmem.physicalLimit.toNat + 4096 ≤ 2 ^ 47 := by
    rw [hp₀]
    decide
  have hfresh : ∀ i, (p₀.memory.locals i).Fresh := fun i => by
    rw [hp₀]
    trivial
  have hfence : fence.inv fencedMachine fencedPages := ⟨rfl, fencedPages_fenced⟩
  have hnine : (numPages (defaultPages * pageSize) + 1).toNat = 9 := by decide
  obtain ⟨pml4, m, hk, -, -, -, hs⟩ := ram_kmalloc_returns hfence (by decide) (by decide) hnine
    (n := 200) (by decide) (by decide) (fencedPages_stock.mono (by decide)) (fun _ => 0) 0
  have hnew : ClientStep p₀.memory.shared .absent m.ram (.space ⟨pml4, vectorNew⟩) := by
    rw [hp₀]
    exact .newSpace 0 (fun _ => 0) hk
  -- the space is made, mapped and put in use, and the processor loads what it has
  obtain ⟨p₁, hp₁⟩ : ∃ p₁, p₁ = p₀.setSpace true m.ram ⟨pml4, vectorNew⟩ p₀.tlb := ⟨_, rfl⟩
  have hcall : Step ClientStep true p₀.memory p₁.memory := by
    rw [hp₁]
    refine ⟨.space ⟨pml4, vectorNew⟩, ?_, rfl⟩
    rw [hp₀] at hnew ⊢
    exact hnew
  have hstep₁ : ProcessorStep p₀ p₁ := by
    rw [hp₁] at hcall ⊢
    exact .call true (by simp [hp₀]) hcall
  have hspace₁ : p₁.memory.locals true = .space ⟨pml4, vectorNew⟩ := by
    rw [hp₁]
    exact setSpace_locals ..
  have hshared₁ : p₁.memory.shared = m.ram := by
    rw [hp₁]
    rfl
  obtain ⟨l, hstands⟩ := space_stands
    (users_step hlim ⟨_, users_start hguard hlim hfresh⟩ hcall) hspace₁
  rw [hshared₁] at hstands
  have hregion : ∀ i ∈ pages 0 (1 * pageSize), regionNum (0x400000 + i) = regionNum 0x400000 := by
    rw [pages_single]
    intro i hi
    rw [List.mem_singleton.mp hi, UInt64.add_zero]
  have hempty : VecRoom 8 (0 + 3) vectorNew := ⟨by decide, Or.inl rfl⟩
  obtain ⟨⟨c, as⟩, hmap, -, hroom⟩ := hstands.map_returns (memoryList_laws fun _ => 0)
    (memoryList_takes fun _ => 0) 0x10000 vmDefault hregion hempty
    (((stock_ram m).mpr hs).mono (by decide : 3 * (8 + 2) + 0 ≤ 200))
  rw [Ram.mapPages_one] at hmap
  obtain ⟨-, hwalk⟩ := hstands.mapPage hmap
  have hat : walk c.mem as.tables 0x400000 = some (0x10000 ||| vmDefault) := by
    rw [hwalk, FlatMap.assign, if_pos rfl]
    exact pageEntry_aligned (by decide) (by decide) (by decide)
  obtain ⟨p₂, hp₂⟩ : ∃ p₂, p₂ = p₁.setSpace true c as (invlpgInUse p₁.cr3 as.pml4 p₁.tlb 0x400000) :=
    ⟨_, rfl⟩
  have hstep₂ : ProcessorStep p₁ p₂ := by
    rw [hp₂]
    exact .mapRound true (fun _ => 0) 0x400000 0x10000 vmDefault (.intro hspace₁
      (hshared₁ ▸ hmap) (loadsInUse_refl ..) (loadsInUse_refl ..))
  have hspace₂ : p₂.memory.locals true = .space as := by
    rw [hp₂]
    exact setSpace_locals ..
  have hshared₂ : p₂.memory.shared = c := by
    rw [hp₂]
    rfl
  have hstep₃ := ProcessorStep.writeCr3 true hspace₂
  have hstep₄ : ProcessorStep
      { p₂ with cr3 := some (virtToPhys as.pml4), tlb := fun _ => none }
      ⟨p₂.memory, some (virtToPhys as.pml4), walk c.mem as.tables⟩ :=
    .load true hspace₂ rfl (hshared₂ ▸ Loads.all _ _)
  have hrun : Relation.ReflTransGen ProcessorStep p₀
      ⟨p₂.memory, some (virtToPhys as.pml4), walk c.mem as.tables⟩ :=
    .tail (.tail (.tail (.single hstep₁) hstep₂) hstep₃) hstep₄
  obtain ⟨l', hstands'⟩ := (hstands.map (memoryList_laws fun _ => 0)
    ((Ram.mapPages_one ..).trans hmap)).1
  refine ⟨⟨p₂.memory, some (virtToPhys as.pml4), walk c.mem as.tables⟩, as, rfl, hat, ?_, ?_⟩
  · rw [hshared₂]
    exact short_erasesInside hstands' (shortVec_of_room hstands' hroom) 0x400000 1
  · exact tlb_coherent hguard hlim hfresh (by rw [hp₀]) hrun hspace₂ rfl

end Coherence

end Horizon64
