import WalletWire.Cell.Builder
import WalletWire.Cell.Slice
import WalletWire.Ed25519.Scheme
import WalletWire.Wallet.Error

/-!
# Signatures of bodies

A signature is made over the hash of a cell.  There are two ways to put it into a body: in front
of the bits of the signed cell, which is an `Envelope`, or behind them.
-/

namespace WalletWire

open Ed25519

/-- Checks a signature over the hash of a cell.  Whatever is wrong with it is a mismatch. -/
def Cell.verify (signed : Cell) (signature : Signature) (key : PublicKey) :
    Except BodyError Unit :=
  (key.verify signed.hash.toList signature).mapError fun _ => .signatureMismatch

/-! ## In front -/

/-- A signature and the cell it is for. -/
@[ext] structure Envelope where
  signature : Signature
  payload : Cell

namespace Envelope

/-- The two parts of a body that begins with a signature. -/
def ofBody (body : Cell) : Except BodyError Envelope :=
  body.read do
    let signature ← Load.bytes 64
    let payload ← Load.rest
    return ⟨⟨signature⟩, payload⟩

/-- The body that begins with the signature. -/
def toBody (envelope : Envelope) : Except BodyError Cell :=
  Cell.build do
    Store.bytes envelope.signature.bytes.toList
    Store.inline envelope.payload

/-- A payload with its signature. -/
def sign (payload : Cell) (pair : KeyPair) : Envelope :=
  ⟨pair.sign payload.hash.toList, payload⟩

/-- Checks the signature. -/
def verify (envelope : Envelope) (key : PublicKey) : Except BodyError Unit :=
  envelope.payload.verify envelope.signature key

end Envelope

/-! ## Behind -/

/-- The two parts of a body whose bits end with a signature: the cell without it, and the
signature. -/
def splitTrailing (body : Cell) : Except BodyError (Cell × Signature) :=
  let total := body.bits.length
  if total < signatureBits then .error (.ofCell (.notEnoughBits signatureBits total))
  else do
    let (bits, bytes) ← body.read do
      return (← Load.bits (total - signatureBits), ← Load.bytes 64)
    let signed ← Cell.build do
      Store.bits bits
      Store.refs body.refs
    return (signed, ⟨bytes⟩)

/-- Checks the signature behind a body. -/
def verifyTrailing (body : Cell) (key : PublicKey) : Except BodyError Unit := do
  let (signed, signature) ← splitTrailing body
  signed.verify signature key

end WalletWire
