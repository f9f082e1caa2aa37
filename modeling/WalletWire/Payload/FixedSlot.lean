import WalletWire.Cell.Builder
import WalletWire.Cell.Slice
import WalletWire.Wallet.Error
import WalletWire.Wallet.Outgoing

/-!
# Payloads with message slots

The wallets of the third and fourth version take their messages in the payload cell itself: after
a header, one mode byte and one reference for each message.  The references of a cell are the
slots, so there are at most four messages, and the references left tell how many there are.
-/

namespace WalletWire

/-- The most messages in slots. -/
def maxSlots : Nat := 4

/-- Writes messages into slots.  Too many of them are refused before anything is written. -/
def Store.slots (messages : List Outgoing) : Store BodyError Unit := do
  if maxSlots < messages.length then
    throw (.capacityExceeded messages.length maxSlots)
  messages.forM fun outgoing => do
    Store.u8 outgoing.mode
    Store.ref outgoing.message

/-- Reads a number of messages from slots; nothing may be left after them. -/
def Load.slotsOf : (count : Nat) → Load BodyError (List Outgoing)
  | 0 => do
    Load.finish
    return []
  | count + 1 => do
    let message ← Load.ref
    let mode ← Load.u8
    return ⟨mode, message⟩ :: (← slotsOf count)

/-- Reads one message for each reference left. -/
def Load.slots : Load BodyError (List Outgoing) := do
  Load.slotsOf (← get).refs.length

/-- What precedes the messages. -/
structure Header where
  subwallet : UInt32
  validUntil : UInt32
  seqno : UInt32
  deriving DecidableEq, Repr

/-- Writes a header. -/
def Store.header (header : Header) : Store BodyError Unit := do
  Store.u32 header.subwallet
  Store.u32 header.validUntil
  Store.u32 header.seqno

/-- Reads a header. -/
def Load.header : Load BodyError Header := do
  let subwallet ← Load.u32
  let validUntil ← Load.u32
  let seqno ← Load.u32
  return ⟨subwallet, validUntil, seqno⟩

/-! ## Third version -/

/-- The payload for a wallet of the third version. -/
@[ext] structure PayloadV3 where
  header : Header
  messages : List Outgoing

namespace PayloadV3

/-- The cell of a payload. -/
def encode (payload : PayloadV3) : Except BodyError Cell :=
  Cell.build do
    Store.header payload.header
    Store.slots payload.messages

/-- The payload in a cell. -/
def decode (cell : Cell) : Except BodyError PayloadV3 :=
  cell.read do
    let header ← Load.header
    let messages ← Load.slots
    return ⟨header, messages⟩

end PayloadV3

/-! ## Fourth version -/

/-- The operations of a wallet of the fourth version. -/
inductive Operation where
  | simpleSend
  | deployAndInstallPlugin
  | installPlugin
  | removePlugin
  deriving DecidableEq, Repr

namespace Operation

/-- The code of an operation. -/
def code : Operation → Int8
  | simpleSend => 0
  | deployAndInstallPlugin => 1
  | installPlugin => 2
  | removePlugin => 3

/-- The operation with a given code. -/
def ofCode? (code : Int8) : Option Operation :=
  [simpleSend, deployAndInstallPlugin, installPlugin, removePlugin].find? (·.code = code)

theorem ofCode?_code (operation : Operation) : ofCode? operation.code = some operation := by
  cases operation <;> decide

end Operation

/-- The payload for a wallet of the fourth version.  Any operation code is carried. -/
@[ext] structure PayloadV4 where
  header : Header
  op : Int8
  messages : List Outgoing

namespace PayloadV4

/-- The operation, if its code is known. -/
def operation? (payload : PayloadV4) : Option Operation :=
  Operation.ofCode? payload.op

/-- The cell of a payload. -/
def encode (payload : PayloadV4) : Except BodyError Cell :=
  Cell.build do
    Store.header payload.header
    Store.i8 payload.op
    Store.slots payload.messages

/-- The payload in a cell. -/
def decode (cell : Cell) : Except BodyError PayloadV4 :=
  cell.read do
    let header ← Load.header
    let op ← Load.i8
    let messages ← Load.slots
    return ⟨header, op, messages⟩

end PayloadV4

end WalletWire
