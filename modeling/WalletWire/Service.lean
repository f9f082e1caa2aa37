import WalletWire.Body.Basic
import WalletWire.Wallet.Document

/-!
# The service

The operations on message bodies under fixed settings that have been found usable.
-/

namespace WalletWire

/-- Usable settings. -/
structure Service where
  settings : Settings
  valid : settings.Valid

namespace Service

/-- The service with the default settings. -/
def default : Service := ⟨{}, by decide⟩

instance : Inhabited Service := ⟨default⟩

/-- The service with the given settings, which must be usable. -/
def ofSettings (settings : Settings) : Except SettingsError Service :=
  if valid : settings.Valid then .ok ⟨settings, valid⟩ else .error .zeroChainLimit

variable (service : Service)

/-- The messages that a wallet of the given version is to send. -/
def extractMessages (version : Version) (body : Cell) : Except BodyError (List Outgoing) :=
  Body.extractMessages service.settings version body

/-- Checks the signature of a body for a wallet of the given version. -/
def verify (version : Version) (body : Cell) (key : Ed25519.PublicKey) : Except BodyError Unit :=
  Body.verify service.settings version body key

/-- The payload of a signed body for a highload wallet. -/
def highloadPayload (body : Cell) : Except BodyError HighloadPayload :=
  HighloadPayload.ofBody service.settings.indexPolicy body

/-- The request in a body for a wallet of the fifth version. -/
def signedRequest (body : Cell) : Except BodyError SignedRequest :=
  SignedRequest.decode service.settings.chainLimit body

end Service

end WalletWire
