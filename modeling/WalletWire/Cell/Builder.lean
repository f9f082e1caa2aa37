import WalletWire.Cell.Basic
import WalletWire.Cell.Error

/-!
# Writing cells

A builder is what has been written so far; it always fits in one cell.  Store operations append
to it.  They all go through `Store.append`, which checks for room and then writes everything or
nothing (`append_eq`, `append_of_bits`, `append_of_refs`).  The builder survives a failure, so an
operation made of several stores can leave the part that was written.
-/

namespace WalletWire

/-- A cell being written. -/
structure Builder extends Content

namespace Builder

/-- Nothing written yet. -/
def empty : Builder := ⟨.empty⟩

/-- The bits that can still be written. -/
def freeBits (builder : Builder) : Nat := maxBits - builder.bits.length

/-- The finished cell. -/
def build (builder : Builder) : Cell := .ofContent builder.toContent

/-- The builder with bits and references appended that are known to fit. -/
def append (builder : Builder) (bits : Bits) (refs : List Cell)
    (bits_fit : builder.bits.length + bits.length ≤ maxBits)
    (refs_fit : builder.refs.length + refs.length ≤ maxRefs)
    (shallow : ∀ child ∈ refs, child.depth < maxDepth) : Builder where
  bits := builder.bits ++ bits
  refs := builder.refs ++ refs
  bits_le := by simpa using bits_fit
  refs_le := by simpa using refs_fit
  depth_lt := by
    intro child mem
    rcases List.mem_append.1 mem with mem | mem
    · exact builder.depth_lt child mem
    · exact shallow child mem

end Builder

/-- An operation that writes to a builder and may fail with an `ε`. -/
abbrev Store (ε : Type) := EStateM ε Builder

namespace Store

/-- Appends bits and references if there is room for both. -/
def append (bits : Bits) (refs : List Cell) (shallow : ∀ child ∈ refs, child.depth < maxDepth) :
    Store Cell.Error Unit := fun builder =>
  if bits_fit : builder.bits.length + bits.length ≤ maxBits then
    if refs_fit : builder.refs.length + refs.length ≤ maxRefs then
      .ok () (builder.append bits refs bits_fit refs_fit shallow)
    else .error .refOverflow builder
  else .error (.bitOverflow bits.length builder.freeBits) builder

/-- Appends bits. -/
def bits (bits : Bits) : Store Cell.Error Unit :=
  append bits [] depth_lt_of_mem_nil

/-- Appends one bit. -/
def bit (bit : Bool) : Store Cell.Error Unit :=
  bits [bit]

/-- Appends whole bytes. -/
def bytes (bytes : List UInt8) : Store Cell.Error Unit :=
  bits (.ofBytes bytes)

/-- Appends a number of the given width, which must not exceed 64. -/
def uint (value width : Nat) : Store Cell.Error Unit :=
  if width ≤ 64 && Bits.fits value width then bits (.ofNat width value)
  else throw (.integerOverflow value width)

/-- Appends a number of 8 bits. -/
def u8 (value : UInt8) : Store Cell.Error Unit := uint value.toNat 8

/-- Appends a signed number of 8 bits, in two's complement. -/
def i8 (value : Int8) : Store Cell.Error Unit := u8 value.toUInt8

/-- Appends a number of 16 bits. -/
def u16 (value : UInt16) : Store Cell.Error Unit := uint value.toNat 16

/-- Appends a number of 32 bits. -/
def u32 (value : UInt32) : Store Cell.Error Unit := uint value.toNat 32

/-- Appends a number of 64 bits. -/
def u64 (value : UInt64) : Store Cell.Error Unit := uint value.toNat 64

/-- Appends a reference.  A cell of the greatest depth cannot be referred to. -/
def ref (cell : Cell) : Store Cell.Error Unit := fun builder =>
  if shallow : cell.depth < maxDepth then append [] [cell] (by simpa using shallow) builder
  else if builder.refs.length < maxRefs then
    .error (.depthOverflow cell.depth maxDepth) builder
  else .error .refOverflow builder

/-- Appends references one after the other. -/
def refs (cells : List Cell) : Store Cell.Error Unit :=
  cells.forM ref

/-- Appends a content in place. -/
def content (content : Content) : Store Cell.Error Unit :=
  append content.bits content.refs content.depth_lt

/-- Appends the bits and references of a cell in place. -/
def inline (cell : Cell) : Store Cell.Error Unit :=
  content cell.content

/-! ## The one write -/

section Append

variable {bs : Bits} {cells : List Cell} {shallow : ∀ child ∈ cells, child.depth < maxDepth}
  {builder : Builder}

/-- With room for both, everything is appended. -/
theorem append_eq (bits_fit : builder.bits.length + bs.length ≤ maxBits)
    (refs_fit : builder.refs.length + cells.length ≤ maxRefs) :
    append bs cells shallow builder =
      .ok () (builder.append bs cells bits_fit refs_fit shallow) := by
  simp only [append, dif_pos bits_fit, dif_pos refs_fit]

/-- Without room for the bits, nothing is. -/
theorem append_of_bits (full : maxBits < builder.bits.length + bs.length) :
    append bs cells shallow builder =
      .error (.bitOverflow bs.length builder.freeBits) builder := by
  simp only [append, dif_neg (Nat.not_le.2 full)]

/-- Without room for the references, nothing is. -/
theorem append_of_refs (bits_fit : builder.bits.length + bs.length ≤ maxBits)
    (full : maxRefs < builder.refs.length + cells.length) :
    append bs cells shallow builder = .error .refOverflow builder := by
  simp only [append, dif_pos bits_fit, dif_neg (Nat.not_le.2 full)]

end Append

end Store

/-- The cell that a write produces when it starts from nothing. -/
def Cell.build {ε : Type} (write : Store ε Unit) : Except ε Cell :=
  match write .empty with
  | .ok _ builder => .ok builder.build
  | .error e _ => .error e

end WalletWire
