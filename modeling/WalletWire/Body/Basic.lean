import WalletWire.Body.Signature
import WalletWire.Payload.FixedSlot
import WalletWire.Request.Basic
import WalletWire.Wallet.Settings
import WalletWire.Wallet.Version

/-!
# Message bodies by wallet version

The version of the wallet comes from the caller and is looked at first; it decides how a body is
read and where its signature is.
-/

namespace WalletWire

/-! ## Signed payloads -/

/-- The payload of a signed body for a wallet of the third version. -/
def PayloadV3.ofBody (body : Cell) : Except BodyError PayloadV3 := do
  PayloadV3.decode (← Envelope.ofBody body).payload

/-- The payload of a signed body for a wallet of the fourth version. -/
def PayloadV4.ofBody (body : Cell) : Except BodyError PayloadV4 := do
  PayloadV4.decode (← Envelope.ofBody body).payload

/-- The payload of a signed body for a highload wallet. -/
def HighloadPayload.ofBody (policy : IndexPolicy) (body : Cell) :
    Except BodyError HighloadPayload := do
  HighloadPayload.decode policy (← Envelope.ofBody body).payload

/-! ## Any body -/

/-- What a body says, for each layout. -/
inductive Body where
  | v3 (payload : PayloadV3)
  | v4 (payload : PayloadV4)
  | highloadV2 (payload : HighloadPayload)
  | v5 (request : SignedRequest)

namespace Body

/-- The messages that the wallet is to send. -/
def messages : Body → List Outgoing
  | v3 payload => payload.messages
  | v4 payload => payload.messages
  | highloadV2 payload => payload.messages
  | v5 request => request.messages

/-- What a body says to a wallet of the given version. -/
def decode (settings : Settings) (version : Version) (body : Cell) : Except BodyError Body := do
  match ← version.generation with
  | .v3 => return v3 (← PayloadV3.ofBody body)
  | .v4 => return v4 (← PayloadV4.ofBody body)
  | .highloadV2 => return highloadV2 (← HighloadPayload.ofBody settings.indexPolicy body)
  | .v5 => return v5 (← SignedRequest.decode settings.chainLimit body)

/-- The messages that a wallet of the given version is to send on receiving a body. -/
def extractMessages (settings : Settings) (version : Version) (body : Cell) :
    Except BodyError (List Outgoing) :=
  messages <$> decode settings version body

/-- Checks the signature of a body for a wallet of the given version. -/
def verify (settings : Settings) (version : Version) (body : Cell) (key : Ed25519.PublicKey) :
    Except BodyError Unit := do
  match ← version.generation with
  | .v3 | .v4 | .highloadV2 => (← Envelope.ofBody body).verify key
  | .v5 =>
    if settings.verifiesTrailing then verifyTrailing body key
    else throw (.unsupportedVersion version.name)

end Body

end WalletWire
