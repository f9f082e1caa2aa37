import WalletWire.Cell.Basic
import WalletWire.Cell.Error

/-!
# Reading cells

A slice is what is still unread of a cell.  Load operations take bits and references off its
front, independently of each other.  They rest on `Load.bits` and `Load.ref`, which leave the
slice as it was when they fail (`bits_eq`, `bits_short`, `ref_eq`, `ref_short`).  The slice
survives a failure, so an operation made of several loads can leave the part it did not read.
-/

namespace WalletWire

/-- What is unread of a cell. -/
structure Slice extends Content

namespace Slice

/-- The whole cell, unread. -/
def ofCell (cell : Cell) : Slice := ⟨cell.content⟩

/-- The unread rest as a cell of its own. -/
def toCell (slice : Slice) : Cell := .ofContent slice.toContent

/-- Whether everything has been read. -/
def isEmpty (slice : Slice) : Bool := slice.bits.isEmpty && slice.refs.isEmpty

/-- The slice after its next `count` bits. -/
def dropBits (slice : Slice) (count : Nat) : Slice :=
  { slice with
    bits := slice.bits.drop count
    bits_le := by
      have := slice.bits_le
      rw [List.length_drop]; omega }

/-- The slice after its next `count` references. -/
def dropRefs (slice : Slice) (count : Nat) : Slice :=
  { slice with
    refs := slice.refs.drop count
    refs_le := by
      have := slice.refs_le
      rw [List.length_drop]; omega
    depth_lt := fun child mem => slice.depth_lt child (List.mem_of_mem_drop mem) }

end Slice

/-- An operation that reads from a slice and may fail with an `ε`. -/
abbrev Load (ε : Type) := EStateM ε Slice

namespace Load

/-- Takes bits. -/
def bits (count : Nat) : Load Cell.Error Bits := fun slice =>
  if count ≤ slice.bits.length then .ok (slice.bits.take count) (slice.dropBits count)
  else .error (.notEnoughBits count slice.bits.length) slice

/-- Takes one bit. -/
def bit : Load Cell.Error Bool :=
  return (← bits 1).headD false

/-- Takes a number of the given width, at most 64. -/
def uint (width : Nat) : Load Cell.Error Nat :=
  if width ≤ 64 then return (← bits width).toNat else throw (.integerOverflow 0 width)

/-- Takes a number of 8 bits. -/
def u8 : Load Cell.Error UInt8 := return .ofNat (← uint 8)

/-- Takes a signed number of 8 bits, in two's complement. -/
def i8 : Load Cell.Error Int8 := return (← u8).toInt8

/-- Takes a number of 16 bits. -/
def u16 : Load Cell.Error UInt16 := return .ofNat (← uint 16)

/-- Takes a number of 32 bits. -/
def u32 : Load Cell.Error UInt32 := return .ofNat (← uint 32)

/-- Takes a number of 64 bits. -/
def u64 : Load Cell.Error UInt64 := return .ofNat (← uint 64)

/-- Takes whole bytes. -/
def bytes (count : Nat) : Load Cell.Error (Bytes count) :=
  return (← bits (8 * count)).toBytes count

/-- Takes a reference. -/
def ref : Load Cell.Error Cell := fun slice =>
  match slice.refs.head? with
  | some cell => .ok cell (slice.dropRefs 1)
  | none => .error .notEnoughRefs slice

/-- The unread rest as a cell, without taking it. -/
def rest : Load Cell.Error Cell :=
  return (← get).toCell

/-- Fails unless everything has been taken. -/
def finish : Load Cell.Error Unit := fun slice =>
  if slice.isEmpty then .ok () slice
  else .error (.trailingData slice.bits.length slice.refs.length) slice

/-! ## The two reads -/

section Primitive

variable {slice : Slice} {count : Nat}

/-- With enough bits left, the next ones are taken. -/
theorem bits_eq (enough : count ≤ slice.bits.length) :
    bits count slice = .ok (slice.bits.take count) (slice.dropBits count) := by
  simp only [bits, if_pos enough]

/-- With too few bits left, none is taken. -/
theorem bits_short (short : slice.bits.length < count) :
    bits count slice = .error (.notEnoughBits count slice.bits.length) slice := by
  simp only [bits, if_neg (Nat.not_le.2 short)]

/-- With a reference left, the next one is taken. -/
theorem ref_eq {cell : Cell} {cells : List Cell} (some_left : slice.refs = cell :: cells) :
    ref slice = .ok cell (slice.dropRefs 1) := by
  simp only [ref, some_left, List.head?_cons]

/-- With no reference left, none is taken. -/
theorem ref_short (none_left : slice.refs = []) : ref slice = .error .notEnoughRefs slice := by
  simp only [ref, none_left, List.head?_nil]

end Primitive

end Load

/-- What an operation reads from a slice. -/
def Slice.read {ε α : Type} (slice : Slice) (action : Load ε α) : Except ε α :=
  match action slice with
  | .ok value _ => .ok value
  | .error e _ => .error e

/-- What an operation reads from a cell. -/
def Cell.read {ε α : Type} (cell : Cell) (action : Load ε α) : Except ε α :=
  (Slice.ofCell cell).read action

end WalletWire
