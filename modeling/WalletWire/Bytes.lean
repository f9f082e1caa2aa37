/-!
# Byte strings

Digests, keys, signatures and wallet identifiers are byte strings of a fixed length.  This file
reads them as little-endian numbers and writes them in hexadecimal.
-/

namespace WalletWire

/-- A byte string of `n` bytes. -/
abbrev Bytes (n : Nat) := Vector UInt8 n

namespace Bytes

/-- The number a byte string spells, least significant byte first. -/
def littleEndian : List UInt8 → Nat
  | [] => 0
  | byte :: bytes => byte.toNat + 256 * littleEndian bytes

/-- The `count` low bytes of a number, least significant first. -/
def ofLittleEndian (count n : Nat) : Bytes count :=
  .ofFn fun i => UInt8.ofNat (n >>> (8 * i.val))

/-- The lowercase hexadecimal text of a byte string. -/
def hex (bytes : List UInt8) : String :=
  String.ofList (bytes.flatMap fun byte =>
    [Nat.digitChar (byte.toNat / 16), Nat.digitChar (byte.toNat % 16)])

end Bytes

end WalletWire
