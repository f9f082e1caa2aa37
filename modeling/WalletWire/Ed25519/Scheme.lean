import WalletWire.Sha2.Basic
import WalletWire.Ed25519.Point

/-!
# Ed25519 signatures

Keys, signatures, and the two operations on them.  Signing is deterministic.  Verification is
strict: the scalar must be reduced, neither point may have small order, and the commitment must
be the canonical encoding of the point that the other values determine.
-/

namespace WalletWire.Ed25519

/-- Why a key or a signature is refused. -/
inductive Error where
  | signatureRejected
  | invalidPublicKey
  deriving DecidableEq, Repr

/-- The text of an error. -/
def Error.message : Error → String
  | .signatureRejected => "Signature verification failed"
  | .invalidPublicKey => "Invalid public key"

/-- The length of a signature in bits. -/
def signatureBits : Nat := 512

/-- A signature: a commitment point and a scalar, 32 bytes each. -/
structure Signature where
  bytes : Bytes 64
  deriving DecidableEq

namespace Signature

/-- The signature of zero bytes. -/
def blank : Signature := ⟨.replicate 64 0⟩

instance : Inhabited Signature := ⟨blank⟩

/-- The encoding of the commitment. -/
def commitment (signature : Signature) : Bytes 32 :=
  .ofFn fun i => signature.bytes[i.val]

/-- The scalar. -/
def scalar (signature : Signature) : Nat :=
  Bytes.littleEndian (signature.bytes.toList.drop 32)

end Signature

/-- The hash of a message as a scalar, which is a number below the group order. -/
def challenge (message : List UInt8) : Nat :=
  Bytes.littleEndian (sha512 message).toList % groupOrder

/-! ## Public keys -/

/-- A public key, as the bytes it was given. -/
structure PublicKey where
  bytes : Bytes 32
  deriving DecidableEq

namespace PublicKey

/-- The public key of the given bytes, which must stand for a point. -/
def ofBytes (bytes : Bytes 32) : Except Error PublicKey :=
  if (Point.decode? bytes).isSome then .ok ⟨bytes⟩ else .error .invalidPublicKey

/-- Whether `signature` is strictly valid for `message` under the key point `a`. -/
def accepts (key : PublicKey) (a : Point) (message : List UInt8) (signature : Signature) : Bool :=
  match Point.decode? signature.commitment with
  | none => false
  | some r =>
    let k := challenge (signature.commitment.toList ++ key.bytes.toList ++ message)
    signature.scalar < groupOrder && !r.isSmallOrder && !a.isSmallOrder &&
      ((Point.base.multiple signature.scalar).add (a.multiple k).neg).encode == signature.commitment

/-- Checks a signature of `message`. -/
def verify (key : PublicKey) (message : List UInt8) (signature : Signature) : Except Error Unit :=
  match Point.decode? key.bytes with
  | none => .error .invalidPublicKey
  | some a => if key.accepts a message signature then .ok () else .error .signatureRejected

end PublicKey

/-! ## Key pairs -/

/-- A key pair, as its secret seed. -/
structure KeyPair where
  seed : Bytes 32

namespace KeyPair

/-- The secret scalar: the lower half of the hashed seed, a multiple of 8 with its top bit at
position 254. -/
def scalar (pair : KeyPair) : Nat :=
  let n := Bytes.littleEndian ((sha512 pair.seed.toList).toList.take 32)
  (1 <<< 254) + n % (1 <<< 254) / 8 * 8

/-- The upper half of the hashed seed, from which commitments are drawn. -/
def nonceKey (pair : KeyPair) : List UInt8 :=
  (sha512 pair.seed.toList).toList.drop 32

/-- The public half. -/
def publicKey (pair : KeyPair) : PublicKey :=
  ⟨(Point.base.multiple pair.scalar).encode⟩

/-- The signature of a message. -/
def sign (pair : KeyPair) (message : List UInt8) : Signature :=
  let r := challenge (pair.nonceKey ++ message)
  let commitment := (Point.base.multiple r).encode
  let k := challenge (commitment.toList ++ pair.publicKey.bytes.toList ++ message)
  ⟨commitment ++ Bytes.ofLittleEndian 32 ((r + k * pair.scalar) % groupOrder)⟩

end KeyPair

end WalletWire.Ed25519
