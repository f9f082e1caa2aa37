import WalletWire.Bytes
import WalletWire.Ed25519.Field

/-!
# The points of the curve

The curve is `- x² + y² = 1 + d x² y²`.  A point is kept in extended coordinates, in which one
addition formula serves all pairs of points.  On the wire a point is its `y` in 255 bits and the
parity of its `x` in the last one.
-/

namespace WalletWire.Ed25519

/-- The coefficient `d` of the curve, `- 121665 / 121666`. -/
def curveCoefficient : Field :=
  - Field.ofNat 121665 * (Field.ofNat 121666).inverse

/-- The order of the base point. -/
def groupOrder : Nat := (1 <<< 252) + 27742317777372353535851937790883648493

/-- A point of the curve: `x / z`, `y / z`, and `t = x y / z`. -/
structure Point where
  x : Field
  y : Field
  z : Field
  t : Field

namespace Point

/-- The neutral element. -/
def identity : Point := ⟨.ofNat 0, .ofNat 1, .ofNat 1, .ofNat 0⟩

/-- The point with the given affine coordinates. -/
def ofAffine (x y : Field) : Point := ⟨x, y, .ofNat 1, x * y⟩

/-- The sum of two points, equal or not. -/
def add (p q : Point) : Point :=
  let a := (p.y - p.x) * (q.y - q.x)
  let b := (p.y + p.x) * (q.y + q.x)
  let c := Field.ofNat 2 * curveCoefficient * p.t * q.t
  let d := Field.ofNat 2 * p.z * q.z
  let e := b - a
  let f := d - c
  let g := d + c
  let h := b + a
  ⟨e * f, g * h, f * g, e * h⟩

/-- Twice a point. -/
def double (p : Point) : Point := p.add p

/-- The opposite point. -/
def neg (p : Point) : Point := ⟨-p.x, p.y, p.z, -p.t⟩

/-- A multiple of a point by a factor of at most 256 bits. -/
def multiple (factor : Nat) (p : Point) : Point :=
  (Bits.ofNat 256 factor).foldl
    (fun acc bit => if bit then acc.double.add p else acc.double) identity

/-- Whether eight times the point is the identity. -/
def isSmallOrder (p : Point) : Bool :=
  let q := p.double.double.double
  q.x == .ofNat 0 && q.y == q.z

/-! ## Encoding -/

/-- The canonical encoding. -/
def encode (p : Point) : Bytes 32 :=
  let inverse := p.z.inverse
  let x := p.x * inverse
  let y := p.y * inverse
  Bytes.ofLittleEndian 32 (y.val + ((x.val % 2) <<< 255))

/-- The point that 32 bytes stand for, if any.  The low 255 bits may exceed the field size, and
the sign bit is free when `x` is zero. -/
def decode? (bytes : Bytes 32) : Option Point := do
  let n := Bytes.littleEndian bytes.toList
  let y := Field.ofNat (n % (1 <<< 255))
  let one := Field.ofNat 1
  let x ← Field.quotientRoot? (y * y - one) (curveCoefficient * y * y + one)
  return ofAffine (if x.val % 2 = n >>> 255 then x else -x) y

/-- The base point: `y = 4 / 5`, with even `x`. -/
def base : Point :=
  let y := Field.ofNat 4 * (Field.ofNat 5).inverse
  (decode? (Bytes.ofLittleEndian 32 y.val)).getD identity

end Point

end WalletWire.Ed25519
