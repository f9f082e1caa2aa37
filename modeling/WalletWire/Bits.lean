/-!
# Bit strings

Cells carry bit strings, read from the front and most significant bit first.  A bit string is a
list of bits; this file converts between bit strings, numbers of a given width, and bytes.
-/

namespace WalletWire

/-- A string of bits, most significant first. -/
abbrev Bits := List Bool

/-- The first `count` pieces of `size` elements each; pieces past the end come out short. -/
def pieces {α : Type} (size : Nat) : Nat → List α → List (List α)
  | 0, _ => []
  | count + 1, xs => xs.take size :: pieces size count (xs.drop size)

@[simp] theorem length_pieces {α : Type} (size count : Nat) (xs : List α) :
    (pieces size count xs).length = count := by
  induction count generalizing xs with
  | zero => rfl
  | succ count ih => simp only [pieces, List.length_cons, ih]

namespace Bits

/-! ## Numbers -/

/-- The low `width` bits of `n`. -/
def ofNat : (width : Nat) → (n : Nat) → Bits
  | 0, _ => []
  | width + 1, n => n.testBit width :: ofNat width n

/-- The number a bit string spells. -/
def toNat (bs : Bits) : Nat :=
  bs.foldl (fun n bit => 2 * n + bit.toNat) 0

/-- Whether a number has at most `width` bits. -/
def fits (n width : Nat) : Bool :=
  n >>> width == 0

@[simp] theorem length_ofNat (width n : Nat) : (ofNat width n).length = width := by
  induction width with
  | zero => rfl
  | succ width ih => simp only [ofNat, List.length_cons, ih]

/-! ## Bytes -/

/-- The bits of a byte string, eight to a byte. -/
def ofBytes (bytes : List UInt8) : Bits :=
  bytes.flatMap fun byte => ofNat 8 byte.toNat

/-- The first `count` bytes of a bit string. -/
def toBytes (count : Nat) (bs : Bits) : Vector UInt8 count :=
  ⟨((pieces 8 count bs).map fun piece => UInt8.ofNat (toNat piece)).toArray, by simp⟩

/-- The bytes that hold a bit string, the last one filled up with zero bits. -/
def paddedBytes (bs : Bits) : List UInt8 :=
  (toBytes ((bs.length + 7) / 8) (bs ++ List.replicate 7 false)).toList

@[simp] theorem length_ofBytes (bytes : List UInt8) :
    (ofBytes bytes).length = 8 * bytes.length := by
  induction bytes with
  | nil => rfl
  | cons byte bytes ih =>
    simp only [ofBytes, List.flatMap_cons, List.length_append, length_ofNat, List.length_cons]
      at ih ⊢
    omega

end Bits

end WalletWire
