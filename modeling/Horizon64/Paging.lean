import Horizon64.Regions
import Horizon64.Lib.FlatMap
import Horizon64.Lib.Radix

/- The page tables of `sys/mmu.c`.

   Tables are 8-page blocks of memory with a 64-bit word for each entry; the code
   reaches a table at its frame plus `MEM_VIRT_OFFSET`. The functions here work
   on the address space that `CONVERT_ADDR_SPACE` picks; `cr3` and `invlpg` are left
   out (`Tlb` has them).

   This is the level at which the walks are computed: the bitmap is apart from
   memory, and an address space is its PML4 pointer and the list of the table
   frames it owns. `RamPaging` has the code with the bitmap in memory and any
   representation of `memory_list`, the vector of `vector.h` with its overrunning
   copy among them, and says when its runs are runs of these functions.

   1. The functions, line for line; a block that the source writes three times
      (`nextTable`, `dropTable`) is one definition.
   2. `walk`: the 4-level walk of the processor, which is what the tables mean.
   3. Indices: two addresses have the same indices when their page numbers agree
      in the low 36 bits. -/
namespace Horizon64
open Words Bytes

/-! Constants and macros. -/

def vmPresent : UInt64 := 1
def vmReadWrite : UInt64 := 2
def vmUser : UInt64 := 4
def vmDefault : UInt64 := vmPresent ||| vmReadWrite
def vmUsermode : UInt64 := vmDefault ||| vmUser

/-- `MAKE_TABLE_ENTRY(addr, flags)`. -/
def makeTableEntry (addr flags : UInt64) : UInt64 := (addr &&& ~~~0xFFF) ||| flags

/-- `CHECK_NOT_PRESENT(entry)`. -/
def checkNotPresent (entry : UInt64) : Bool := entry &&& vmPresent = 0

/-- `table[i]`, for a `uint64_t *table`. -/
def tableEntry (m : Memory) (table : UInt64) (i : Nat) : UInt64 :=
  load64 m (table + 8 * UInt64.ofNat i)

/-- `table[i] = entry`. -/
def setTableEntry (m : Memory) (table : UInt64) (i : Nat) (entry : UInt64) : Memory :=
  store64 m (table + 8 * UInt64.ofNat i) entry

/-- `x & 0x1FF`. -/
def tableIndex (x : UInt64) : Fin 512 :=
  ⟨(x &&& 0x1FF).toNat, by
    rw [UInt64.toNat_and]
    exact Nat.lt_of_le_of_lt Nat.and_le_right (by decide)⟩

def pte (virtAddr : UInt64) : Fin 512 := tableIndex (virtAddr >>> 12)
def pde (virtAddr : UInt64) : Fin 512 := tableIndex (virtAddr >>> 21)
def pdpe (virtAddr : UInt64) : Fin 512 := tableIndex (virtAddr >>> 30)
def pml4e (virtAddr : UInt64) : Fin 512 := tableIndex (virtAddr >>> 39)

/-- `ADDR_SPACE`, without its lock. -/
structure AddrSpace where
  pml4 : UInt64
  memoryList : List UInt64
  deriving DecidableEq

/-! `map_page_entry`. -/

/-- The table below entry `i` of `table`, made when the entry is not present. -/
def nextTable (s : Machine) (as : AddrSpace) (table : UInt64) (i : Nat) :
    Option (Machine × AddrSpace × UInt64) :=
  let entry := tableEntry s.mem table i
  if checkNotPresent entry then
    match pmGet s.kmem defaultPages 0 with
    | none => none
    | some (buffer, k) =>
      if buffer = 0 then none
      else
        let next := physToVirt buffer
        let m := memset s.mem next 0 (pageSize * defaultPages)
        let m := setTableEntry m table i (makeTableEntry (virtToPhys next) vmUsermode)
        some (⟨k, m⟩, { as with memoryList := as.memoryList ++ [virtToPhys next] }, next)
  else some (s, as, physToVirt (entry &&& ~~~0xFFF))

/-- `map_page_entry`; `none` where it halts, out of memory. -/
def mapPageEntry (s : Machine) (as : AddrSpace) (virtAddr physAddr flags : UInt64) :
    Option (Machine × AddrSpace) := do
  let (s, as, pdpt) ← nextTable s as as.pml4 (pml4e virtAddr)
  let (s, as, pd) ← nextTable s as pdpt (pdpe virtAddr)
  let (s, as, pt) ← nextTable s as pd (pde virtAddr)
  let entry := makeTableEntry (physAddr &&& ~~~0xFFF) flags
  return (⟨s.kmem, setTableEntry s.mem pt (pte virtAddr) entry⟩, as)

/-! `unmap_page_entry`. -/

/-- Take `table` out of entry `i` of `parent` and free it; `none` where it halts. -/
def dropTable (s : Machine) (as : AddrSpace) (parent : UInt64) (i : Nat) (table : UInt64) :
    Option (Machine × AddrSpace) :=
  let m := setTableEntry s.mem parent i 0
  match pmFree s.kmem (virtToPhys table) defaultPages with
  | (.sysErr, _) => none
  | (.sysOk, k) => some (⟨k, m⟩, { as with memoryList := as.memoryList.erase (virtToPhys table) })

/-- `for (i = 0; i < PAGE_SIZE; i++) if (table[i] != 0) return;` runs to its end. -/
def tableEmpty (m : Memory) (table : UInt64) : Bool :=
  (List.range 4096).all fun i => tableEntry m table i = 0

/-- `unmap_page_entry`; `none` where it halts. -/
def unmapPageEntry (s : Machine) (as : AddrSpace) (virtAddr : UInt64) :
    Option (Machine × AddrSpace) :=
  let pml4 := as.pml4
  let e4 := tableEntry s.mem pml4 (pml4e virtAddr)
  if checkNotPresent e4 then some (s, as)
  else
    let pdpt := physToVirt (e4 &&& ~~~0x1FF)
    let e3 := tableEntry s.mem pdpt (pdpe virtAddr)
    if checkNotPresent e3 then some (s, as)
    else
      let pd := physToVirt (e3 &&& ~~~0x1FF)
      let e2 := tableEntry s.mem pd (pde virtAddr)
      if checkNotPresent e2 then some (s, as)
      else
        let pt := physToVirt (e2 &&& ~~~0x1FF)
        if checkNotPresent (tableEntry s.mem pt (pte virtAddr)) then some (s, as)
        else do
          let s := ⟨s.kmem, setTableEntry s.mem pt (pte virtAddr) 0⟩
          let (s, as) ← dropTable s as pd (pde virtAddr) pt
          if !tableEmpty s.mem pd then return (s, as)
          let (s, as) ← dropTable s as pdpt (pdpe virtAddr) pd
          if !tableEmpty s.mem pdpt then return (s, as)
          dropTable s as pml4 (pml4e virtAddr) pdpt

/-! `vm_get_phys_addr`. -/

/-- `vm_get_phys_addr`, with the entries it follows to a table, in order. The third
    test reads `pd[pte]`, as the source does. -/
def vmGetPhysAddr (m : Memory) (as : AddrSpace) (virtAddr : UInt64) : UInt64 × List UInt64 :=
  let e4 := tableEntry m as.pml4 (pml4e virtAddr)
  if checkNotPresent e4 then (0, [])
  else
    let pdpt := physToVirt (e4 &&& ~~~0x1FF)
    let e3 := tableEntry m pdpt (pdpe virtAddr)
    if checkNotPresent e3 then (0, [e4])
    else
      let pd := physToVirt (e3 &&& ~~~0x1FF)
      if checkNotPresent (tableEntry m pd (pte virtAddr)) then (0, [e4, e3])
      else
        let e2 := tableEntry m pd (pde virtAddr)
        let pt := physToVirt (e2 &&& ~~~0x1FF)
        let e1 := tableEntry m pt (pte virtAddr)
        if checkNotPresent e1 then (0, [e4, e3, e2])
        else (e1 &&& 0xFFFFFFFFFFFFF000, [e4, e3, e2])

/-! The loops of `vm_map` and `vm_unmap`. -/

def mapPages (s : Machine) (as : AddrSpace) (virtAddr physAddr n flags : UInt64) :
    Option (Machine × AddrSpace) :=
  (pages 0 (n * pageSize)).foldlM
    (fun r i => mapPageEntry r.1 r.2 (virtAddr + i) (physAddr + i) flags) (s, as)

def unmapPages (s : Machine) (as : AddrSpace) (virtAddr n : UInt64) :
    Option (Machine × AddrSpace) :=
  (pages 0 (n * pageSize)).foldlM (fun r i => unmapPageEntry r.1 r.2 (virtAddr + i)) (s, as)

/-! What the tables mean. -/

/-- The physical address of the PML4. -/
def AddrSpace.root (as : AddrSpace) : UInt64 := virtToPhys as.pml4

/-- The frame of the table that entry `i` of the table at frame `t` refers to. -/
def sub (m : Memory) (t : UInt64) (i : Fin 512) : Option UInt64 :=
  let entry := tableEntry m (physToVirt t) i
  if checkNotPresent entry then none else some (entry &&& ~~~0xFFF)

/-- Entry `i` of the page table at frame `t`, when present. -/
def leaf (m : Memory) (t : UInt64) (i : Fin 512) : Option UInt64 :=
  let entry := tableEntry m (physToVirt t) i
  if checkNotPresent entry then none else some entry

/-- The processor's walk: the leaf of `v`, when all four levels are present. -/
def walk (m : Memory) (as : AddrSpace) (v : UInt64) : Option UInt64 :=
  (sub m as.root (pml4e v)).bind fun pdpt =>
  (sub m pdpt (pdpe v)).bind fun pd =>
  (sub m pd (pde v)).bind fun pt =>
  leaf m pt (pte v)

/-- The indices of the three upper levels. -/
def path (v : UInt64) : List (Fin 512) := [pml4e v, pdpe v, pde v]

theorem path_length (v : UInt64) : (path v).length = 3 := rfl

theorem walk_eq (m : Memory) (as : AddrSpace) (v : UInt64) :
    walk m as v = (Radix.descend (sub m) as.root (path v)).bind fun pt => leaf m pt (pte v) := by
  rw [walk, path, Radix.descend_three]

/-- A table reference and a leaf are read from one entry. -/
theorem sub_congr {m m' : Memory} {t : UInt64} {i : Fin 512}
    (h : tableEntry m' (physToVirt t) i = tableEntry m (physToVirt t) i) :
    sub m' t i = sub m t i := by
  rw [sub, sub, h]

theorem leaf_congr {m m' : Memory} {t : UInt64} {i : Fin 512}
    (h : tableEntry m' (physToVirt t) i = tableEntry m (physToVirt t) i) :
    leaf m' t i = leaf m t i := by
  rw [leaf, leaf, h]

/-! Indices and page numbers. -/

/-- The number of the page of `v` in the 48-bit address space. -/
def pageNum (v : UInt64) : Nat := v.toNat / 4096 % 2 ^ 36

/-- The 2 MiB region of `v`: the pages that share its page table. -/
def regionNum (v : UInt64) : Nat := pageNum v / 512

theorem tableIndex_val (v : UInt64) {k : UInt64} (hk : k.toNat < 64) :
    (tableIndex (v >>> k)).val = v.toNat / 2 ^ k.toNat % 512 := by
  have h : (0x1FF : UInt64).toNat = 2 ^ 9 - 1 := rfl
  show (v >>> k &&& 0x1FF).toNat = _
  rw [UInt64.toNat_and, h, Nat.and_two_pow_sub_one_eq_mod, UInt64.toNat_shiftRight,
    Nat.mod_eq_of_lt hk, Nat.shiftRight_eq_div_pow]

theorem pte_val (v : UInt64) : (pte v).val = pageNum v % 512 := by
  rw [pte, tableIndex_val v (by decide), pageNum, show (12 : UInt64).toNat = 12 from rfl]
  omega

theorem pde_val (v : UInt64) : (pde v).val = pageNum v / 512 % 512 := by
  rw [pde, tableIndex_val v (by decide), pageNum, show (21 : UInt64).toNat = 21 from rfl]
  omega

theorem pdpe_val (v : UInt64) : (pdpe v).val = pageNum v / 2 ^ 18 % 512 := by
  rw [pdpe, tableIndex_val v (by decide), pageNum, show (30 : UInt64).toNat = 30 from rfl]
  omega

theorem pml4e_val (v : UInt64) : (pml4e v).val = pageNum v / 2 ^ 27 := by
  rw [pml4e, tableIndex_val v (by decide), pageNum, show (39 : UInt64).toNat = 39 from rfl]
  omega

theorem path_eq_iff (v w : UInt64) : path w = path v ↔ regionNum w = regionNum v := by
  have h4 := pml4e_val v
  have h3 := pdpe_val v
  have h2 := pde_val v
  have h4' := pml4e_val w
  have h3' := pdpe_val w
  have h2' := pde_val w
  simp only [path, List.cons.injEq, and_true, Fin.ext_iff, regionNum]
  omega

theorem index_eq_iff (v w : UInt64) :
    path w = path v ∧ pte w = pte v ↔ pageNum w = pageNum v := by
  rw [path_eq_iff, Fin.ext_iff, pte_val, pte_val, regionNum, regionNum]
  omega

end Horizon64
