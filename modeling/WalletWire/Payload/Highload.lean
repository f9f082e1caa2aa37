import WalletWire.Dictionary.Hashmap
import WalletWire.Wallet.Error
import WalletWire.Wallet.Outgoing

/-!
# Payloads with a message dictionary

A highload wallet takes its messages in a dictionary, each under its position in the list.  The
value of an entry is a mode byte and a reference.
-/

namespace WalletWire

/-- The most messages written into one dictionary. -/
def maxIndexed : Nat := 254

/-- The width of a message index. -/
def indexWidth : Nat := 16

/-- Which message indices are accepted. -/
inductive IndexPolicy where
  /-- The indices count up from zero. -/
  | contiguous
  /-- Any indices; the messages come in their order. -/
  | ascending
  deriving DecidableEq, Repr

/-- The values of a list under their positions, counted from `start`. -/
def Dictionary.positions (start : Nat) : List Cell → List (Nat × Cell)
  | [] => []
  | value :: values => (start, value) :: positions (start + 1) values

theorem Dictionary.le_of_mem_positions {start : Nat} {values : List Cell} {entry : Nat × Cell}
    (mem : entry ∈ positions start values) : start ≤ entry.1 := by
  induction values generalizing start with
  | nil => simp [positions] at mem
  | cons value values ih =>
    rcases List.mem_cons.1 mem with rfl | mem
    · exact Nat.le_refl _
    · exact Nat.le_of_succ_le (ih mem)

theorem Dictionary.pairwise_positions (start : Nat) (values : List Cell) :
    (positions start values).Pairwise fun e f => e.1 < f.1 := by
  induction values generalizing start with
  | nil => exact .nil
  | cons value values ih =>
    exact List.pairwise_cons.2 ⟨fun entry mem => le_of_mem_positions mem, ih (start + 1)⟩

/-- The dictionary of a list of values, each under its position. -/
def Dictionary.ofList (values : List Cell) : Dictionary :=
  ⟨positions 0 values, pairwise_positions 0 values⟩

namespace Outgoing

/-- A message as the value of an entry. -/
def toValue (outgoing : Outgoing) : Except Cell.Error Cell :=
  Cell.build do
    Store.u8 outgoing.mode
    Store.ref outgoing.message

/-- The message that the value of an entry holds. -/
def ofValue (value : Cell) : Except Cell.Error Outgoing :=
  value.read do
    let mode ← Load.u8
    let message ← Load.ref
    Load.finish
    return ⟨mode, message⟩

end Outgoing

/-- Writes messages into a dictionary.  Too many of them are refused before anything is built. -/
def Store.indexed (messages : List Outgoing) : Store BodyError Unit := do
  if maxIndexed < messages.length then
    throw (.capacityExceeded messages.length maxIndexed)
  let values ← (MonadExcept.ofExcept (messages.mapM Outgoing.toValue) : Store Cell.Error _)
  Store.dictionary indexWidth (.ofList values)

/-- The messages of dictionary entries, the first of which is expected under the given index. -/
def IndexPolicy.collect (policy : IndexPolicy) :
    (expected : Nat) → List (Nat × Cell) → Except BodyError (List Outgoing)
  | _, [] => .ok []
  | expected, (index, value) :: entries => do
    if policy = contiguous ∧ index ≠ expected then
      throw (.layout (.indexGap expected index))
    let outgoing ← Outgoing.ofValue value
    return outgoing :: (← collect policy (expected + 1) entries)

/-- Reads messages from a dictionary, in the order of their indices. -/
def Load.indexed (policy : IndexPolicy) : Load BodyError (List Outgoing) := do
  let dictionary ← Load.dictionary indexWidth
  MonadExcept.ofExcept (policy.collect 0 dictionary.entries)

/-- The payload for a highload wallet. -/
@[ext] structure HighloadPayload where
  subwallet : UInt32
  queryId : UInt64
  messages : List Outgoing

namespace HighloadPayload

/-- The cell of a payload. -/
def encode (payload : HighloadPayload) : Except BodyError Cell :=
  Cell.build do
    Store.u32 payload.subwallet
    Store.u64 payload.queryId
    Store.indexed payload.messages

/-- The payload in a cell. -/
def decode (policy : IndexPolicy) (cell : Cell) : Except BodyError HighloadPayload :=
  cell.read do
    let subwallet ← Load.u32
    let queryId ← Load.u64
    let messages ← Load.indexed policy
    Load.finish
    return ⟨subwallet, queryId, messages⟩

end HighloadPayload

end WalletWire
