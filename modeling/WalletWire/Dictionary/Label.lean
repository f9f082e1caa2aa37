import WalletWire.Cell.Builder
import WalletWire.Cell.Slice

/-!
# Edge labels

An edge of a dictionary trie carries the key bits that all entries below it share.  A label of at
most `max` bits is written in one of three forms:

* short: `0`, the length in unary, and the bits;
* long: `10`, the length in the width of `max`, and the bits;
* same: `11`, one bit, and the number of times it is repeated, in the width of `max`.

Writing takes the cheapest form; reading takes any.
-/

namespace WalletWire.Label

/-- The width of numbers up to `max`. -/
def lengthWidth (max : Nat) : Nat :=
  if max = 0 then 0 else max.log2 + 1

/-- A way to write a label. -/
inductive Form where
  | short
  | long
  | same
  deriving DecidableEq, Repr

/-- How many bits a form takes. -/
def Form.cost (max length : Nat) : Form → Nat
  | short => 2 * length + 2
  | long => 2 + lengthWidth max + length
  | same => 3 + lengthWidth max

/-- The bits of a label in a given form. -/
def Form.write (max : Nat) (label : Bits) : Form → Bits
  | short => false :: (List.replicate label.length true ++ false :: label)
  | long => true :: false :: (Bits.ofNat (lengthWidth max) label.length ++ label)
  | same => true :: true :: label.headD false :: Bits.ofNat (lengthWidth max) label.length

/-- Whether a label is one bit repeated, at least once. -/
def uniform : Bits → Bool
  | [] => false
  | bit :: bits => bits.all (· == bit)

/-- The cheapest form.  Of equally cheap ones a short label is preferred to a long one, and
either of them to a repeated bit. -/
def form (max : Nat) (label : Bits) : Form :=
  let cost := Form.cost max label.length
  if uniform label && cost .same < cost .short && cost .same < cost .long then .same
  else if cost .long < cost .short then .long
  else .short

/-- The bits of a label in its cheapest form. -/
def write (max : Nat) (label : Bits) : Bits :=
  (form max label).write max label

/-- Writes a label in its cheapest form. -/
def store (max : Nat) (label : Bits) : Store Cell.Error Unit :=
  Store.bits (write max label)

/-! ## Reading -/

/-- Takes ones up to the next zero and counts them; there may be `room` of them. -/
def ones (max : Nat) : (room : Nat) → Load Cell.Error Nat
  | 0 => do
    if ← Load.bit then throw (.invalidLabel (max + 1) max) else return 0
  | room + 1 => do
    if ← Load.bit then return (← ones max room) + 1 else return 0

/-- Takes a length in the width of `max`. -/
def length (max : Nat) : Load Cell.Error Nat := do
  let length ← Load.uint (lengthWidth max)
  if length ≤ max then return length else throw (.invalidLabel length max)

/-- Takes a label of at most `max` bits in any form. -/
def load (max : Nat) : Load Cell.Error Bits := do
  if !(← Load.bit) then
    Load.bits (← ones max max)
  else if !(← Load.bit) then
    Load.bits (← length max)
  else
    let bit ← Load.bit
    return List.replicate (← length max) bit

end WalletWire.Label
