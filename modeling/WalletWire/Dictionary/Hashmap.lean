import WalletWire.Dictionary.Basic
import WalletWire.Dictionary.Trie

/-!
# Dictionaries as cells

A dictionary with keys of `width` bits, from 1 to 64, is written as a zero bit when it is empty,
and otherwise as a one bit and a reference to the root of its trie.
-/

namespace WalletWire.Dictionary

/-- Fails unless keys can have the given width. -/
def checkWidth (width : Nat) : Except Cell.Error Unit :=
  if 1 ≤ width ∧ width ≤ 64 then .ok () else .error (.unsupportedKeyWidth width)

/-- Fails with the first key that does not fit the width. -/
def checkKeys (dictionary : Dictionary) (width : Nat) : Except Cell.Error Unit :=
  match dictionary.keys.find? (!Bits.fits · width) with
  | some key => .error (.keyOutOfRange key width)
  | none => .ok ()

/-- The root of the trie of a dictionary; none when the dictionary is empty. -/
def encode (dictionary : Dictionary) (width : Nat) : Except Cell.Error (Option Cell) := do
  checkWidth width
  dictionary.checkKeys width
  (Trie.ofEntries width dictionary.entries).mapM (Trie.encode width)

/-- The dictionary whose trie has the given root. -/
def decode (width : Nat) (root : Cell) : Except Cell.Error Dictionary := do
  checkWidth width
  let trie ← Trie.decode width root
  ofEntries (trie.paths.map fun path => (path.1.toNat, path.2))

end WalletWire.Dictionary

namespace WalletWire

/-- Writes a dictionary.  The trie is built before anything is written. -/
def Store.dictionary (width : Nat) (dictionary : Dictionary) : Store Cell.Error Unit := do
  match ← MonadExcept.ofExcept (dictionary.encode width) with
  | none => Store.bit false
  | some root =>
    Store.bit true
    Store.ref root

/-- Reads a dictionary. -/
def Load.dictionary (width : Nat) : Load Cell.Error Dictionary := do
  MonadExcept.ofExcept (Dictionary.checkWidth width)
  if ← Load.bit then
    MonadExcept.ofExcept (Dictionary.decode width (← Load.ref))
  else
    return .empty

end WalletWire
