import WalletWire.Bits

/-!
# The field of the curve

Arithmetic modulo the prime `2 ^ 255 - 19`.  Addition, multiplication and their kin are those of
`Fin`; this file adds powers, inverses and square roots of quotients.
-/

namespace WalletWire.Ed25519

/-- The field has `2 ^ 255 - 19` elements. -/
def fieldSize : Nat := (1 <<< 255) - 19

/-- An element of the field. -/
abbrev Field := Fin fieldSize

namespace Field

/-- The element a number stands for. -/
def ofNat (n : Nat) : Field := ⟨n % fieldSize, Nat.mod_lt n (by decide)⟩

/-- A power, by squaring along the bits of the exponent. -/
def power (x : Field) (exponent : Nat) : Field :=
  (Bits.ofNat 255 exponent).foldl (fun acc bit => if bit then acc * acc * x else acc * acc)
    (ofNat 1)

/-- The inverse, and zero for zero. -/
def inverse (x : Field) : Field :=
  x.power (fieldSize - 2)

/-- A square root of minus one. -/
def rootOfMinusOne : Field :=
  (ofNat 2).power ((fieldSize - 1) / 4)

/-- A square root of `u / v`, if there is one. -/
def quotientRoot? (u v : Field) : Option Field :=
  let v₃ := v * v * v
  let root := u * v₃ * (u * v₃ * v₃ * v).power ((fieldSize - 5) / 8)
  if v * root * root = u then some root
  else if v * root * root = -u then some (root * rootOfMinusOne)
  else none

end Field

end WalletWire.Ed25519
