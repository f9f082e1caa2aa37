import WalletWire.Dictionary.Label

/-!
# Dictionary tries

The entries of a dictionary form a binary trie.  Every edge has a label, and an edge on which key
bits remain forks into the keys that go on with a zero and those that go on with a one.  This file
builds the trie of a list of entries, lists the paths of a trie, and writes and reads tries as
trees of cells: a node holds its label, then its value in place or two references.
-/

namespace WalletWire

/-- A trie of cells: an edge that ends in a value or in two edges. -/
inductive Trie where
  | leaf (label : Bits) (value : Cell)
  | fork (label : Bits) (zero one : Trie)

namespace Trie

/-- The trie with one bit more in front of its label. -/
def prepend (bit : Bool) : Trie → Trie
  | leaf label value => leaf (bit :: label) value
  | fork label zero one => fork (bit :: label) zero one

/-- The trie of the keys with a zero in front and those with a one in front. -/
def join : Option Trie → Option Trie → Option Trie
  | some zero, some one => some (fork [] zero one)
  | some zero, none => some (zero.prepend false)
  | none, some one => some (one.prepend true)
  | none, none => none

/-- The trie of entries whose keys differ in their low `width` bits; none without entries. -/
def ofEntries : (width : Nat) → List (Nat × Cell) → Option Trie
  | _, [] => none
  | 0, entry :: _ => some (leaf [] entry.2)
  | width + 1, entries =>
    join (ofEntries width (entries.filter fun entry => !entry.1.testBit width))
      (ofEntries width (entries.filter fun entry => entry.1.testBit width))

/-- Each value with the key bits on the way to it, from left to right. -/
def paths : Trie → List (Bits × Cell)
  | leaf label value => [(label, value)]
  | fork label zero one =>
    (zero.paths.map fun path => (label ++ false :: path.1, path.2))
      ++ (one.paths.map fun path => (label ++ true :: path.1, path.2))

/-! ## As cells -/

/-- The cell of a trie with `width` key bits. -/
def encode : (width : Nat) → Trie → Except Cell.Error Cell
  | width, leaf label value =>
    Cell.build do
      Label.store width label
      Store.inline value
  | width, fork label zero one => do
    let zero ← encode (width - label.length - 1) zero
    let one ← encode (width - label.length - 1) one
    Cell.build do
      Label.store width label
      Store.ref zero
      Store.ref one

/-- Takes the two branches of a node, which hold nothing else. -/
def branches : Load Cell.Error (Cell × Cell) := do
  let zero ← Load.ref
  let one ← Load.ref
  Load.finish
  return (zero, one)

/-- The trie with `width` key bits that a cell holds. -/
def decode (width : Nat) (root : Cell) : Except Cell.Error Trie := do
  let (label, rest) ← root.read do return (← Label.load width, ← get)
  if _more : label.length < width then
    let (zero, one) ← rest.read branches
    let zero ← decode (width - label.length - 1) zero
    let one ← decode (width - label.length - 1) one
    return fork label zero one
  else
    return leaf label rest.toCell
termination_by width

end Trie

end WalletWire
