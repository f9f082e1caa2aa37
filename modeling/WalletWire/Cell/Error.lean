/-!
# What can go wrong with cells

The causes for which a cell cannot be written or read, dictionaries included, and their texts.
-/

namespace WalletWire.Cell

/-- Why a cell could not be written or read. -/
inductive Error where
  /-- A read asked for more bits than are left. -/
  | notEnoughBits (requested available : Nat)
  /-- A read asked for a reference and none is left. -/
  | notEnoughRefs
  /-- A write needs more bits than are free. -/
  | bitOverflow (requested available : Nat)
  /-- A write needs more references than are free. -/
  | refOverflow
  /-- A reference would make the tree too deep. -/
  | depthOverflow (depth max : Nat)
  /-- A number does not fit its width, or the width is above 64. -/
  | integerOverflow (value width : Nat)
  /-- Something is left where everything must have been read. -/
  | trailingData (bits refs : Nat)
  /-- A dictionary label is longer than what is left of the key. -/
  | invalidLabel (length max : Nat)
  /-- A dictionary holds a key twice. -/
  | duplicateKey (key : Nat)
  /-- A dictionary key does not fit the key width. -/
  | keyOutOfRange (key width : Nat)
  /-- A dictionary key width is outside 1 to 64. -/
  | unsupportedKeyWidth (width : Nat)
  deriving DecidableEq, Repr

/-- The text of an error. -/
def Error.message : Error → String
  | notEnoughBits requested available =>
    s!"Not enough bits: requested {requested}, available {available}"
  | notEnoughRefs => "Not enough refs"
  | bitOverflow requested available =>
    s!"Cell bit overflow: requested {requested}, free {available}"
  | refOverflow => "Cell ref overflow"
  | depthOverflow depth max => s!"Cell depth overflow: child depth {depth}, max {max}"
  | integerOverflow value width => s!"Value {value} does not fit in {width} bits"
  | trailingData bits refs => s!"Unexpected trailing data: {bits} bits, {refs} refs"
  | invalidLabel length max => s!"Invalid dictionary label: length {length} exceeds {max}"
  | duplicateKey key => s!"Duplicate dictionary key: {key}"
  | keyOutOfRange key width => s!"Dictionary key {key} exceeds {width}-bit width"
  | unsupportedKeyWidth width => s!"Unsupported dictionary key width: {width}"

end WalletWire.Cell
