import WalletWire.Cell.Error
import WalletWire.Bits
import WalletWire.Bytes

/-!
# What can go wrong with message bodies

A body that does not have the layout of its wallet is refused for a `LayoutError`; `BodyError`
adds the causes that lie in the request itself.  Operations on cells take part in operations on
bodies through the lifts at the end of this file.
-/

namespace WalletWire

/-- How a cell fails to have the layout that is asked for. -/
inductive LayoutError where
  /-- A cell cannot be read or written as the layout says. -/
  | cell (error : Cell.Error)
  /-- A chain node holds neither an action nor nothing. -/
  | chainBits (count : Nat)
  /-- A chain node has the wrong number of references for its kind. -/
  | chainRefs (expected actual : Nat)
  /-- No request begins with this tag. -/
  | requestTag (tag : UInt32)
  /-- No action begins with this tag. -/
  | actionTag (tag : UInt32)
  /-- The indices of the messages have a gap. -/
  | indexGap (expected found : Nat)
  deriving DecidableEq, Repr

/-- Why a message body is refused. -/
inductive BodyError where
  /-- The body does not have the layout of its wallet. -/
  | layout (error : LayoutError)
  /-- The wallet cannot carry so many messages. -/
  | capacityExceeded (count max : Nat)
  /-- The wallet version is unknown or its layout is. -/
  | unsupportedVersion (name : String)
  /-- The signature does not belong to the signed cell and the key. -/
  | signatureMismatch
  deriving DecidableEq, Repr

/-! ## Texts -/

/-- A tag as eight hexadecimal digits. -/
def tagText (tag : UInt32) : String :=
  "0x" ++ Bytes.hex (Bits.toBytes 4 (Bits.ofNat 32 tag.toNat)).toList

/-- The text of a layout error. -/
def LayoutError.message : LayoutError → String
  | cell error => error.message
  | chainBits count => s!"Unexpected bits available in action chain: {count}"
  | chainRefs expected actual =>
    s!"Unexpected refs in action chain node: expected {expected}, got {actual}"
  | requestTag tag => "Unknown signed request tag: " ++ tagText tag
  | actionTag tag => "Unknown action tag: " ++ tagText tag
  | indexGap expected found =>
    s!"Non-contiguous message index: expected {expected}, found {found}"

/-- The text of an error. -/
def BodyError.message : BodyError → String
  | layout error => "Structural decode error: " ++ error.message
  | capacityExceeded count max =>
    s!"Capacity exceeded: {count} messages, at most {max} supported"
  | unsupportedVersion name => "Wallet version is not supported: " ++ name
  | signatureMismatch => "Failed to verify msg signature"

/-! ## Cell errors as body errors -/

/-- A cell error is a layout error of the body. -/
def BodyError.ofCell (error : Cell.Error) : BodyError :=
  .layout (.cell error)

/-- Reading and writing cells is part of reading and writing bodies. -/
instance {σ : Type} : MonadLift (EStateM Cell.Error σ) (EStateM BodyError σ) :=
  ⟨fun action => EStateM.adaptExcept BodyError.ofCell action⟩

/-- The outcome of an operation on cells is an outcome of one on bodies. -/
instance : MonadLift (Except Cell.Error) (Except BodyError) :=
  ⟨Except.mapError BodyError.ofCell⟩

end WalletWire
