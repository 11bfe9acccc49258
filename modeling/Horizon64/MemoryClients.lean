import Horizon64.AddressSpaces
import Horizon64.RamHeap

/- The users of physical memory, all of them at once.

   Any number of address spaces, vectors, pieces of code that work on the heap and pieces of
   code that take pages themselves share one memory, with the bitmap in it. Each makes its
   calls as `sys/mmu.c`, `common/kmalloc.c` and `vector.h` have them, in any order.

   What a user holds is seen on the machine that memory is taken apart into, where each is an
   owner of pages (`PageOwners`): the list of the tables of a space is in the bytes of its
   vector there (`clientOwner`). A call is a framed action of that owner (`clientStep_framed`),
   so no order of calls brings two users to one page (`memory_isolated`).

   1. `Client`, what a user of memory has, and `ClientStep`, the calls it makes.
   2. The owners, and the calls one by one.
   3. `memory_isolated`. -/
namespace Horizon64
open Words Bytes Isolation Interleaving

/-- A user of memory: nobody yet, an address space, code that works on the heap, code that
    takes pages itself, or a vector of elements of `size` bytes. -/
inductive Client where
  | absent
  | space (as : Space Vec)
  | heap (live : List HeapBlock)
  | pages (live : List Block)
  | vector (size : UInt64) (v : Vec) (xs : List (List UInt8))

/-- A call of a user on its own data. What it writes itself is in the bytes it asked for. -/
inductive ClientStep : Ram → Client → Ram → Client → Prop where
  | newSpace {c c' : Ram} {pml4 : UInt64} (line : UInt64) (func : Nat → UInt8)
      (h : c.kmallocImpl (defaultPages * pageSize) func line = some (pml4, c')) :
      ClientStep c .absent c' (.space ⟨pml4, vectorNew⟩)
  | vmMap {c c' : Ram} {as as' : Space Vec} (v p n flags : UInt64) (func : Nat → UInt8)
      (h : c.mapPages (memoryList func) as v p n flags = some (c', as')) :
      ClientStep c (.space as) c' (.space as')
  | vmUnmap {c c' : Ram} {as as' : Space Vec} (v n : UInt64) (func : Nat → UInt8)
      (hinside : c.ErasesInside (memoryList func) as v n)
      (h : c.unmapPages (memoryList func) as v n = some (c', as')) :
      ClientStep c (.space as) c' (.space as')
  | heap {c c' : Ram} {live live' : List HeapBlock} (h : RamHeapStep ⟨c, live⟩ ⟨c', live'⟩) :
      ClientStep c (.heap live) c' (.heap live')
  | pmGet {c c' : Ram} {live : List Block} {i : UInt64} (n a : UInt64) (hal : a.toNat % 4096 = 0)
      (hlim : c.kmem.physicalLimit.toNat + n.toNat * 4096 ≤ 2 ^ 64)
      (h : c.pmGet n a = some (i, c')) :
      ClientStep c (.pages live) c' (.pages (⟨i, n⟩ :: live))
  | pmFree {c : Ram} {live : List Block} (b : Block) (hb : b ∈ live) :
      ClientStep c (.pages live) (c.pmFree b.address b.n).2 (.pages (live.erase b))
  | writePage {c : Ram} {live : List Block} (b : Block) (hb : b ∈ live) (x : UInt64) (v : UInt8)
      (hx : b.Holds x) : ClientStep c (.pages live) { c with mem := write c.mem x v } (.pages live)
  | vectorAppend {c c' : Ram} {size : UInt64} {v v' : Vec} {xs : List (List UInt8)}
      (elem : List UInt8) (func : Nat → UInt8) (line : UInt64) (helem : elem.length = size.toNat)
      (h : c.vectorAppend size v elem func line = some (c', v')) :
      ClientStep c (.vector size v xs) c' (.vector size v' (xs ++ [elem]))
  | vectorErase {c : Ram} {size : UInt64} {v : Vec} {xs : List (List UInt8)} (i : Nat)
      (hi : i < xs.length)
      (hinside : (i + 1) * size.toNat + (eraseLength size v (UInt64.ofNat i)).toNat ≤
        4096 * (numPages v.capacity).toNat) :
      ClientStep c (.vector size v xs) (c.vectorErase size v (UInt64.ofNat i)).1
        (.vector size (c.vectorErase size v (UInt64.ofNat i)).2 (xs.eraseIdx i))

/-- The pages of a user's data. -/
def Client.Page (c : Ram) : Client → Nat → Prop
  | .absent, _ => False
  | .space as, p =>
    (∃ t, Radix.Reached (sub c.mem) as.tables.root 3 t ∧ TablePage t p) ∨ as.memoryList.Pages p
  | .heap live, p => HeldBy live p
  | .pages live, p => ∃ b ∈ live, b.Page p
  | .vector _ v _, p => v.Pages p

/-- What a user finds in memory: tables that are a tree with the frames in their list, headers
    of disjoint blocks that have room for their data, disjoint runs of pages, its elements. -/
def Client.Finds (c : Ram) : Client → Prop
  | .absent => True
  | .space as => ∃ l, Stands listOwner c as l
  | .heap live =>
    (∀ b ∈ live, load64 c.mem (b.ptr - pageSize + magicOff) = kmemMagicNumber ∧
      load64 c.mem (b.ptr - pageSize + numPagesOff) + 1 = b.block.n ∧
      b.size.toNat + 4096 ≤ b.block.n.toNat * 4096) ∧
    (live.map HeapBlock.block).Pairwise (Ledger.Apart Block.Addr)
  | .pages live => live.Pairwise (Ledger.Apart Block.Page)
  | .vector size v xs => elements size c.mem v = xs

/-- A user that has nothing yet. -/
def Client.Fresh : Client → Prop
  | .absent => True
  | .space _ => False
  | .heap live => live = []
  | .pages live => live = []
  | .vector size v xs => 1 ≤ size.toNat ∧ size.toNat ≤ 2 ^ 32 ∧ v = vectorNew ∧ xs = []

/-! The owners. -/

/-- A user as an owner of pages; the frames in the list of a space are kept beside it. -/
def clientOwner : Owner machinePages (Client × List UInt64) where
  holds
    | (.absent, _), _ => False
    | (.space as, l), p => (spaceOwner listOwner).holds (as, l) p
    | (.heap live, _), p => heapOwner.holds live p
    | (.pages live, _), p => pagesOwner.holds live p
    | (.vector size v xs, _), p => (vectorOwner size).holds (v, xs) p
  inv
    | _, (.absent, _) => True
    | s, (.space as, l) => (spaceOwner listOwner).inv s (as, l)
    | s, (.heap live, _) => heapOwner.inv s live
    | s, (.pages live, _) => pagesOwner.inv s live
    | s, (.vector size v xs, _) => (vectorOwner size).inv s (v, xs) ∧ size.toNat ≤ 2 ^ 32
  inv_used := by
    rintro s ⟨u, l⟩ p hinv hp
    cases u with
    | absent => exact hp.elim
    | space as => exact (spaceOwner listOwner).inv_used s (as, l) p hinv hp
    | heap live => exact heapOwner.inv_used s live p hinv hp
    | pages live => exact pagesOwner.inv_used s live p hinv hp
    | vector size v xs => exact (vectorOwner size).inv_used s (v, xs) p hinv.1 hp
  inv_local := by
    rintro s s' ⟨u, l⟩ hinv hconst hkeep
    cases u with
    | absent => trivial
    | space as => exact (spaceOwner listOwner).inv_local s s' (as, l) hinv hconst hkeep
    | heap live => exact heapOwner.inv_local s s' live hinv hconst hkeep
    | pages live => exact pagesOwner.inv_local s s' live hinv hconst hkeep
    | vector size v xs =>
      exact ⟨(vectorOwner size).inv_local s s' (v, xs) hinv.1 hconst hkeep, hinv.2⟩

section Call
variable {s : Machine} {k₀ : KernelMemInfo}

/-- The heap of a user behind the fence has a start that is behind it too. -/
theorem heap_behind {live : List HeapBlock} (h : (fence.star heapOwner).inv s (k₀, live)) :
    ∃ k : KernelMemInfo, k.Fenced ∧ HeapInv k ⟨s, live⟩ := by
  obtain ⟨hfence, ⟨k, hinv⟩, hapart⟩ := h
  refine ⟨k, fun p hp => ?_, hinv⟩
  have hkept := (KernelMemInfo.kept_congr hinv.reserved.limit hinv.reserved.bitmap p).mpr hp
  refine ((hinv.reserved.books.used_iff p).mp (fence_fenced hfence p hkept)).resolve_right ?_
  exact hapart p ((fence_kept hfence p).mp hkept)

theorem client_page {u : Client} {l : List UInt64}
    (h : (fence.star clientOwner).inv s (k₀, (u, l))) (p : Nat) :
    u.Page s.ram p ↔ clientOwner.holds (u, l) p := by
  cases u with
  | absent => exact Iff.rfl
  | space as =>
    obtain ⟨k, hpaged, -⟩ := Stands.paged (R := listOwner) (c := s.ram) ⟨s, k₀, rfl, h⟩
    have htables : (∃ t, Radix.Reached (sub s.ram.mem) as.tables.root 3 t ∧ TablePage t p) ↔
        ∃ t ∈ (⟨as.pml4, l⟩ : AddrSpace).frames, TablePage t p :=
      exists_congr fun t => and_congr_left fun _ => (hpaged.reached t).symm
    exact or_congr_left htables
  | heap live => exact Iff.rfl
  | pages live => exact Iff.rfl
  | vector size v xs => exact Iff.rfl

theorem client_finds {u : Client} {l : List UInt64}
    (h : (fence.star clientOwner).inv s (k₀, (u, l))) : u.Finds s.ram := by
  cases u with
  | absent => trivial
  | space as => exact ⟨l, s, k₀, rfl, h⟩
  | heap live =>
    obtain ⟨k, hk, hinv⟩ := heap_behind h
    refine ⟨fun b hb => ?_, hinv.disjoint⟩
    obtain ⟨hmagic, hpages⟩ := hinv.ram_header hk hb
    exact ⟨hmagic, hpages, (hinv.reserved.shape b hb).2.2⟩
  | pages live => exact h.2.1.2.apart
  | vector size v xs => exact ram_elements ⟨h.1, h.2.1.1, h.2.2⟩

theorem newSpace_framed {l : List UInt64} {pml4 line : UInt64} {func : Nat → UInt8} {c : Ram}
    (hlim : k₀.physicalLimit.toNat + 4096 ≤ 2 ^ 47)
    (h : (fence.star clientOwner).inv s (k₀, (.absent, l)))
    (hk : s.ram.kmallocImpl (defaultPages * pageSize) func line = some (pml4, c)) :
    ∃ s' : Machine, c = s'.ram ∧
      Framed clientOwner s (.absent, l) s' (.space ⟨pml4, vectorNew⟩, []) := by
  have hnobody : (fence.star (nobody machinePages)).inv s (k₀, ()) := ⟨h.1, trivial, fun _ _ => id⟩
  obtain ⟨s', rfl, hframed, -, hinv, -, hfresh⟩ := newSpace_ram (R := listOwner) hnobody
    (fun _ => vectorOwner_new (by decide)) (fun p hp => hp.1 rfl) hlim rfl hk
  exact ⟨s', rfl, hframed.const, hinv.2.1.2.1, fun p hused _ =>
    ⟨(hframed.keep p hused id).1, hfresh p hused, (hframed.keep p hused id).2.2⟩⟩

/-- Every call is one of its owner's. -/
theorem clientStep_framed {l : List UInt64} {u u' : Client} {c : Ram}
    (hlim : k₀.physicalLimit.toNat + 4096 ≤ 2 ^ 47)
    (h : (fence.star clientOwner).inv s (k₀, (u, l))) (hstep : ClientStep s.ram u c u') :
    ∃ (s' : Machine) (x : Client × List UInt64), c = s'.ram ∧ u' = x.1 ∧
      Framed clientOwner s (u, l) s' x := by
  have hfence := fence_fenced h.1
  cases hstep with
  | newSpace line func hk =>
    obtain ⟨s', rfl, hframed⟩ := newSpace_framed hlim h hk
    exact ⟨s', _, rfl, rfl, hframed⟩
  | vmMap v p n flags func hmap =>
    obtain ⟨s', w, l', heq, hframed, -⟩ := mapPages_ram (memoryList_laws func) h hmap
    obtain ⟨rfl, rfl⟩ := Prod.mk.inj heq
    exact ⟨s', (_, l'), rfl, rfl, hframed.const, hframed.inv, hframed.keep⟩
  | vmUnmap v n func hinside hunmap =>
    obtain ⟨r, hr⟩ := Option.isSome_iff_exists.mp hinside
    obtain rfl : r = (c, _) := Option.some.inj ((unmapPages_guarded hr).symm.trans hunmap)
    obtain ⟨s', w, l', heq, hframed, -⟩ :=
      (unmapPages_ram (memoryList_laws func).toErases (E := False) False.elim h v n).good _ hr
    obtain ⟨rfl, rfl⟩ := Prod.mk.inj heq
    exact ⟨s', (_, l'), rfl, rfl, hframed.const, hframed.inv, hframed.keep⟩
  | heap hheap =>
    obtain ⟨k, hk, hinv⟩ := heap_behind h
    obtain ⟨t, ht, heq⟩ := ramHeapStep_machine hk hinv hheap
    obtain ⟨rfl, rfl⟩ := RamHeap.mk.inj heq
    have hframed := heapStep_framed h.2.1 ht
    exact ⟨t.machine, (_, l), rfl, rfl, hframed.const, hframed.inv, hframed.keep⟩
  | pmGet n a hal hfit hget =>
    rw [ram_pmGet hfence] at hget
    obtain ⟨⟨i, k⟩, hk, heq⟩ := Option.map_eq_some_iff.mp hget
    obtain ⟨rfl, rfl⟩ := Prod.mk.inj heq
    have hframed := pmGet_framed h.2.1 hal hfit hk
    exact ⟨⟨k, s.mem⟩, (_, l), rfl, rfl, hframed.const, hframed.inv, hframed.keep⟩
  | pmFree b hb =>
    have hclear : b.Clear s.kmem :=
      fun p hp hkept => h.2.2 p ((fence_kept h.1 p).mp hkept) ⟨b, hb, hp⟩
    have hwhole : b.Whole := h.2.1.1 b hb
    have hram := ram_pmFree s fun x hx =>
      hclear.inside ((mem_run_pages hwhole.2 (pageOf x)).mp ⟨x, hx, rfl⟩)
    have hframed := pmFree_framed h.2.1 hb
    exact ⟨_, (_, l), congrArg Prod.snd hram, rfl, hframed.const, hframed.inv, hframed.keep⟩
  | writePage b hb x v hx =>
    have hclear : b.Clear s.kmem :=
      fun p hp hkept => h.2.2 p ((fence_kept h.1 p).mp hkept) ⟨b, hb, hp⟩
    have hram := ram_acts (Splice.acts_write hx v) s fun y hy => hclear.off hy
    have hframed := writePage_framed h.2.1 hb hx v
    exact ⟨_, (_, l), hram.symm, rfl, hframed.const, hframed.inv, hframed.keep⟩
  | vectorAppend elem func line helem happ =>
    obtain ⟨s', rfl, hframed⟩ := vectorAppend_ram ⟨h.1, h.2.1.1, h.2.2⟩ h.2.1.2 helem happ
    exact ⟨s', (_, l), rfl, rfl, hframed.const, ⟨hframed.inv, h.2.1.2⟩, hframed.keep⟩
  | vectorErase i hi hinside =>
    obtain ⟨s', hs', hframed⟩ := vectorErase_ram ⟨h.1, h.2.1.1, h.2.2⟩ hi hinside
    exact ⟨s', (_, l), hs', rfl, hframed.const, ⟨hframed.inv, h.2.1.2⟩, hframed.keep⟩

end Call

/-! Runs. -/

section Runs
variable {ι : Type*}

/-- The users of `τ` are in the memory of a machine, behind the fence of the start. -/
abbrev Users (c₀ : Ram) : State ι Machine (Client × List UInt64) → State ι Ram Client → Prop :=
  Shown fence c₀.apart.kmem clientOwner Machine.ram Prod.fst

theorem Client.Fresh.owns {s : Machine} (hlim : s.kmem.physicalLimit.toNat + 4096 ≤ 2 ^ 47)
    {u : Client} (h : u.Fresh) :
    clientOwner.inv s (u, []) ∧ ∀ p, ¬ clientOwner.holds (u, []) p := by
  cases u with
  | absent => exact ⟨trivial, fun _ => id⟩
  | space as => exact h.elim
  | heap live =>
    obtain rfl : live = [] := h
    exact ⟨⟨_, Reserved.nil _, fun b hb => absurd hb List.not_mem_nil⟩,
      fun p ⟨b, hb, _⟩ => absurd hb List.not_mem_nil⟩
  | pages live =>
    obtain rfl : live = [] := h
    exact ⟨⟨fun b hb => absurd hb List.not_mem_nil, Ledger.Owned.nil⟩,
      fun p ⟨b, hb, _⟩ => absurd hb List.not_mem_nil⟩
  | vector size v xs =>
    obtain ⟨hsize, hsmall, rfl, rfl⟩ := h
    exact ⟨⟨vectorOwner_new hsize hlim, hsmall⟩, fun p hp => hp.1 rfl⟩

variable {τ₀ τ : State ι Ram Client} {σ : State ι Machine (Client × List UInt64)}

theorem users_start (hguard : τ₀.shared.Guarded)
    (hlim : τ₀.shared.kmem.physicalLimit.toNat + 4096 ≤ 2 ^ 47)
    (hfresh : ∀ i, (τ₀.locals i).Fresh) :
    Users τ₀.shared ⟨τ₀.shared.apart, fun i => (τ₀.locals i, [])⟩ τ₀ := by
  have howns := fun i => (hfresh i).owns (s := τ₀.shared.apart) hlim
  exact ⟨τ₀.shared.ram_apart.symm, fun _ => rfl, ⟨rfl, hguard.fenced⟩, fun i p _ => (howns i).2 p,
    fun i => (howns i).1, fun i _ _ p hp => absurd hp ((howns i).2 p)⟩

section Users
variable (h : Users τ₀.shared σ τ) (i : ι)
include h

theorem users_at :
    (fence.star clientOwner).inv σ.shared (τ₀.shared.apart.kmem, (τ.locals i, (σ.locals i).2)) := by
  rw [h.locals i]
  exact h.inv i

theorem users_page (p : Nat) :
    (τ.locals i).Page τ.shared p ↔ clientOwner.holds (σ.locals i) p := by
  rw [h.shared, h.locals i]
  exact client_page (h.inv i) p

theorem users_byte {x : UInt64} (hx : clientOwner.holds (σ.locals i) (pageOf (virtToPhys x))) :
    τ.shared.mem x = σ.shared.mem x := by
  rw [h.shared]
  exact σ.shared.ram_mem fun hin =>
    h.away i _ ((fence_kept h.base _).mp (Or.inr ⟨x, hin, rfl⟩)) hx

theorem users_used {p : Nat} (hp : clientOwner.holds (σ.locals i) p) :
    τ.shared.load.Used p ∧ ¬ τ₀.shared.load.Kept p := by
  have hout : ¬ τ₀.shared.apart.kmem.Kept p := fun hk => h.away i p hk hp
  refine ⟨?_, fun hk => hout ((KernelMemInfo.kept_congr rfl rfl p).mp hk)⟩
  rw [h.shared]
  refine (ram_used σ.shared (KernelMemInfo.inside_of_not_kept fun hk =>
    hout ((fence_kept h.base p).mp hk))).mpr ?_
  exact clientOwner.inv_used _ _ p (h.coexist.inv i) hp

end Users

section Calls
variable [DecidableEq ι] (hlim : τ₀.shared.kmem.physicalLimit.toNat + 4096 ≤ 2 ^ 47)
  (h : Users τ₀.shared σ τ)
include hlim h

theorem users_run {P : ι → Prop} {τ' : State ι Ram Client}
    (hrun : Relation.ReflTransGen (fun τ τ' => ∃ i, P i ∧ Step ClientStep i τ τ') τ τ') :
    ∃ σ', Relation.ReflTransGen (fun σ σ' => ∃ i, P i ∧ Step (Framed clientOwner) i σ σ') σ σ' ∧
      Users τ₀.shared σ' τ' :=
  run_shown (fun _ _ _ _ => clientStep_framed hlim) h hrun

/-- Calls of the others leave a user's pages alone. -/
theorem users_others {i : ι} {τ' : State ι Ram Client}
    (hothers : Relation.ReflTransGen (fun τ τ' => ∃ j, j ≠ i ∧ Step ClientStep j τ τ') τ τ') :
    τ'.locals i = τ.locals i ∧
    (∀ x, (τ.locals i).Page τ.shared (pageOf (virtToPhys x)) →
      τ'.shared.mem x = τ.shared.mem x) ∧
    ∀ as, τ.locals i = .space as → walk τ'.shared.mem as.tables = walk τ.shared.mem as.tables := by
  obtain ⟨σ', hothers', h'⟩ := users_run hlim h hothers
  obtain ⟨-, hlocal, -, hsame⟩ := run_others (fun _ _ _ _ _ => id) h.coexist hothers'
  have hbytes : ∀ x, clientOwner.holds (σ.locals i) (pageOf (virtToPhys x)) →
      τ'.shared.mem x = τ.shared.mem x := by
    intro x hx
    rw [users_byte h i hx, users_byte h' i (hlocal.symm ▸ hx)]
    exact hsame _ hx x rfl
  refine ⟨by rw [h'.locals, h.locals, hlocal], fun x hx => hbytes x ((users_page h i _).mp hx),
    fun as hi => ?_⟩
  have hspace := users_at h i
  rw [hi] at hspace
  obtain ⟨k, hpaged, -⟩ := Stands.paged (R := listOwner) (c := τ.shared)
    ⟨σ.shared, _, h.shared, hspace⟩
  refine funext (@Paged.of_same _ ⟨k, τ'.shared.mem⟩ _ hpaged rfl hpaged.owned.used
    fun t ht x hx => hbytes x ?_).2
  have heq : σ.locals i = (.space as, (σ.locals i).2) :=
    Prod.ext ((h.locals i).symm.trans hi) rfl
  rw [heq]
  exact Or.inl ⟨t, ht, hx⟩

end Calls

/-- No page has two users. -/
theorem users_apart (h : Users τ₀.shared σ τ) {i j : ι} (hij : i ≠ j) {p : Nat}
    (hi : (τ.locals i).Page τ.shared p) : ¬ (τ.locals j).Page τ.shared p := fun hj =>
  h.coexist.apart i j hij p ((users_page h i p).mp hi) ((users_page h j p).mp hj)

theorem users_finds (h : Users τ₀.shared σ τ) (i : ι) : (τ.locals i).Finds τ.shared := by
  rw [h.shared]
  exact client_finds (users_at h i)

/-- Users that start with nothing and make calls in any order: in every state they reach, each
    finds its data in memory, no page has two of them, and calls of the others change no byte in
    a user's pages and no translation of an address space. -/
theorem memory_isolated [DecidableEq ι] (hguard : τ₀.shared.Guarded)
    (hlim : τ₀.shared.kmem.physicalLimit.toNat + 4096 ≤ 2 ^ 47)
    (hfresh : ∀ i, (τ₀.locals i).Fresh) (hrun : Run ClientStep τ₀ τ) :
    (∀ i, (τ.locals i).Finds τ.shared) ∧
    (∀ i p, (τ.locals i).Page τ.shared p → τ.shared.load.Used p ∧ ¬ τ₀.shared.load.Kept p) ∧
    (∀ i j, i ≠ j → ∀ p, (τ.locals i).Page τ.shared p → ¬ (τ.locals j).Page τ.shared p) ∧
    ∀ i τ', Relation.ReflTransGen (fun τ τ' => ∃ j, j ≠ i ∧ Step ClientStep j τ τ') τ τ' →
      τ'.locals i = τ.locals i ∧
      (∀ x, (τ.locals i).Page τ.shared (pageOf (virtToPhys x)) →
        τ'.shared.mem x = τ.shared.mem x) ∧
      ∀ as, τ.locals i = .space as → walk τ'.shared.mem as.tables = walk τ.shared.mem as.tables := by
  have hany : Relation.ReflTransGen (fun τ τ' => ∃ i, True ∧ Step ClientStep i τ τ') τ₀ τ :=
    hrun.lift id fun _ _ ⟨i, hstep⟩ => ⟨i, trivial, hstep⟩
  obtain ⟨σ, -, h⟩ := users_run hlim (users_start hguard hlim hfresh) hany
  exact ⟨users_finds h, fun i p hp => users_used h i ((users_page h i p).mp hp),
    fun i j hij p => users_apart h hij, fun i τ' => users_others hlim h⟩

end Runs

/-- A vector of words, and code that takes pages itself. -/
def vectorAndPages (v : Vec) (xs : List (List UInt8)) (live : List Block) : Bool → Client
  | true => .vector 8 v xs
  | false => .pages live

/-- A word is appended and a page taken. -/
theorem memory_isolated_two : ∃ (c : Ram) (v : Vec) (b : Block),
    elements 8 c.mem v = [wordBytes 7] ∧ ∀ p, v.Pages p → ¬ b.Page p := by
  have hblank := blank_fenced vectorNew
  have hstart : (fence.star listOwner).inv fencedMachine (fencedPages, (vectorNew, [])) :=
    ⟨⟨rfl, fencedPages_fenced⟩, vectorOwner_new (by decide) (by decide), fun _ _ hp => hp.1 rfl⟩
  have hgrow : ∃ c v, (memoryList fun _ => 0).guarded.append fencedMachine.ram vectorNew 7 0 =
      some (c, v) ∧ Stock c.load 100 ∧ VecRoom 8 0 v :=
    (memoryList_takes fun _ => 0).append hstart ⟨by decide, Or.inl rfl⟩
      (fencedPages_stock.mono (by decide))
  obtain ⟨c, v, happ, hstock, -⟩ := hgrow
  obtain ⟨i, k, hget, -, -⟩ := Stock.get (m := 1) (n := 99) hstock (by decide) (by decide)
  have hlimit : c.kmem.physicalLimit.toNat + 10 * 4096 ≤ 2 ^ 64 := hstock.limit
  have hroom : c.kmem.physicalLimit.toNat + (1 : UInt64).toNat * 4096 ≤ 2 ^ 64 := by
    rw [UInt64.toNat_one]
    omega
  have hget' : c.pmGet 1 0 = some (i, k.store) := by rw [Ram.pmGet, hget, Option.map_some]
  have hstep : Step ClientStep true ⟨fencedMachine.ram, vectorAndPages vectorNew [] []⟩
      ⟨c, vectorAndPages v [wordBytes 7] []⟩ :=
    ⟨_, .vectorAppend (wordBytes 7) (fun _ => 0) 0 rfl happ, funext fun i => by cases i <;> rfl⟩
  have hstep' : Step ClientStep false ⟨c, vectorAndPages v [wordBytes 7] []⟩
      ⟨k.store, vectorAndPages v [wordBytes 7] [⟨i, 1⟩]⟩ :=
    ⟨_, .pmGet 1 0 rfl hroom hget', funext fun i => by cases i <;> rfl⟩
  have hfresh : ∀ i, (vectorAndPages vectorNew [] [] i).Fresh := by
    intro i
    cases i
    · rfl
    · exact ⟨by decide, by decide, rfl, rfl⟩
  obtain ⟨hfinds, -, hapart, -⟩ := @memory_isolated Bool
    ⟨fencedMachine.ram, vectorAndPages vectorNew [] []⟩ _ _ hblank.guarded (by decide) hfresh
    (.tail (.single ⟨true, hstep⟩) ⟨false, hstep'⟩)
  exact ⟨k.store, v, ⟨i, 1⟩, hfinds true, fun p hp hin =>
    hapart true false (by decide) p hp ⟨_, List.mem_cons_self, hin⟩⟩

end Horizon64
