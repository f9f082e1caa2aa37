import WalletWire.Ed25519.Scheme
import WalletWire.Request.ActionChain

/-!
# Signed requests

The body of a message to a wallet of the fifth version.  A tag tells through which channel the
request comes; then follow the fields, a signature, and a reference to a chain of actions.  What
is signed is the same cell without the signature.
-/

namespace WalletWire

/-- The way in which a request reaches the wallet. -/
inductive Channel where
  /-- In a message from another contract. -/
  | internal
  /-- In a message from outside. -/
  | external
  deriving DecidableEq, Repr

namespace Channel

/-- The tag of requests through a channel. -/
def tag : Channel → UInt32
  | internal => 0x73696e74
  | external => 0x7369676e

/-- The channel with a given tag. -/
def ofTag? (tag : UInt32) : Option Channel :=
  [internal, external].find? (·.tag = tag)

theorem ofTag?_tag (channel : Channel) : ofTag? channel.tag = some channel := by
  cases channel <;> decide

end Channel

/-- A request to a wallet of the fifth version. -/
@[ext] structure SignedRequest where
  channel : Channel
  walletId : Bytes 10
  validUntil : UInt32
  seqno : UInt32
  flag : Bool
  signature : Ed25519.Signature
  messages : List Outgoing

namespace SignedRequest

/-- Writes what precedes the signature. -/
def storeFields (request : SignedRequest) : Store Cell.Error Unit := do
  Store.u32 request.channel.tag
  Store.bytes request.walletId.toList
  Store.u32 request.validUntil
  Store.u32 request.seqno
  Store.bit request.flag

/-- The cell of a request, with its signature. -/
def encode (request : SignedRequest) : Except BodyError Cell := do
  let chain ← ActionChain.encode request.messages
  Cell.build do
    request.storeFields
    Store.bytes request.signature.bytes.toList
    Store.ref chain

/-- The cell that the signature is for. -/
def unsigned (request : SignedRequest) : Except BodyError Cell := do
  let chain ← ActionChain.encode request.messages
  Cell.build do
    request.storeFields
    Store.ref chain

/-- Signs the request in place and gives its cell. -/
def sign (pair : Ed25519.KeyPair) : EStateM BodyError SignedRequest Cell := do
  let unsigned ← MonadExcept.ofExcept (← get).unsigned
  modify fun request => { request with signature := pair.sign unsigned.hash.toList }
  MonadExcept.ofExcept (← get).encode

/-- Reads a request with at most `limit` actions. -/
def load (limit : Option Nat) : Load BodyError SignedRequest := do
  let tag ← Load.u32
  match Channel.ofTag? tag with
  | none => throw (.layout (.requestTag tag))
  | some channel =>
    let walletId ← Load.bytes 10
    let validUntil ← Load.u32
    let seqno ← Load.u32
    let flag ← Load.bit
    let signature ← Load.bytes 64
    let chain ← Load.ref
    Load.finish
    let messages ← MonadExcept.ofExcept (ActionChain.decode limit chain)
    return ⟨channel, walletId, validUntil, seqno, flag, ⟨signature⟩, messages⟩

/-- The request in a cell, with at most `limit` actions. -/
def decode (limit : Option Nat) (body : Cell) : Except BodyError SignedRequest :=
  body.read (load limit)

end SignedRequest

end WalletWire
