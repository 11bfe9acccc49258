import Mathlib.Data.List.Basic

/- Layout of C structures, as the System V ABI has it.

   A member goes to the lowest position behind the ones before it that its alignment
   allows; in a packed structure every alignment is 1. A bit-field goes behind the bits
   before it, and to the next unit of its type where it would cross the end of one. A
   structure has the largest alignment of its members, and its size is a multiple of that.
   Positions of members are in bits, sizes and alignments of types in bytes. -/
namespace Layout
variable {ι : Type*} [DecidableEq ι]

structure TypeLayout where
  size : Nat
  align : Nat
  deriving DecidableEq, Repr

/-- A number of `n` bytes, with its size as alignment. -/
def scalar (n : Nat) : TypeLayout := ⟨n, n⟩

def array (n : Nat) (t : TypeLayout) : TypeLayout := ⟨n * t.size, t.align⟩

/-- Where element `i` of an array begins. -/
def element (t : TypeLayout) (i : Nat) : Nat := i * t.size

inductive Member where
  | plain (t : TypeLayout)
  | bits (unit : TypeLayout) (width : Nat)

def roundUp (n a : Nat) : Nat := (n + a - 1) / a * a

/-- The position of a member when what comes before ends at `pos`. -/
def Member.start (packed : Bool) (pos : Nat) : Member → Nat
  | .plain t => roundUp pos (8 * if packed then 1 else t.align)
  | .bits unit width =>
    if packed ∨ pos / (8 * unit.size) = (pos + width - 1) / (8 * unit.size) then pos
    else roundUp pos (8 * unit.align)

def Member.width : Member → Nat
  | .plain t => 8 * t.size
  | .bits _ width => width

def Member.align (packed : Bool) : Member → Nat
  | .plain t => if packed then 1 else t.align
  | .bits unit _ => if packed then 1 else unit.align

/-- The position of a field among the members from `pos` on. -/
def offsetFrom (packed : Bool) (field : ι) : Nat → List (ι × Member) → Option Nat
  | _, [] => none
  | pos, (f, m) :: ms =>
    if f = field then some (m.start packed pos)
    else offsetFrom packed field (m.start packed pos + m.width) ms

/-- `offsetof`, in bits. -/
def offsetOf (packed : Bool) (ms : List (ι × Member)) (field : ι) : Nat :=
  (offsetFrom packed field 0 ms).getD 0

/-- Where the members end. -/
def endFrom (packed : Bool) : Nat → List (ι × Member) → Nat
  | pos, [] => pos
  | pos, (_, m) :: ms => endFrom packed (m.start packed pos + m.width) ms

def structLayout (packed : Bool) (ms : List (ι × Member)) : TypeLayout :=
  let align := (ms.map fun m => m.2.align packed).foldl max 1
  ⟨roundUp (endFrom packed 0 ms) (8 * align) / 8, align⟩

/-- Elements of an array do not overlap. -/
theorem element_disjoint (t : TypeLayout) {i j : Nat} (h : i < j) :
    element t i + t.size ≤ element t j :=
  calc element t i + t.size = (i + 1) * t.size := (Nat.succ_mul i t.size).symm
    _ ≤ element t j := Nat.mul_le_mul_right t.size h

end Layout
