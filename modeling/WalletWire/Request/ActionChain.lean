import WalletWire.Cell.Builder
import WalletWire.Cell.Slice
import WalletWire.Wallet.Error
import WalletWire.Wallet.Outgoing

/-!
# Action chains

The actions of a request are a linked list of cells.  A node with an action holds a tag and a mode
byte, and refers to the next node and to the message, in this order.  The last node is empty.
Reading follows the chain down the tree, so it ends with the depth of the head.
-/

namespace WalletWire.ActionChain

/-- The tag of an action that sends a message. -/
def sendTag : UInt32 := 0x0ec3c86d

/-- The number of bits of a node with an action: a tag and a mode byte. -/
def actionBits : Nat := 40

/-- The head of the chain of the given messages. -/
def encode : List Outgoing → Except BodyError Cell
  | [] => .ok .empty
  | outgoing :: rest => do
    let next ← encode rest
    Cell.build do
      Store.u32 sendTag
      Store.u8 outgoing.mode
      Store.ref next
      Store.ref outgoing.message

/-- Reads the tag of an action and its mode byte. -/
def loadMode : Load BodyError UInt8 := do
  let tag ← Load.u32
  if tag ≠ sendTag then throw (.layout (.actionTag tag))
  Load.u8

/-- The messages of a chain, of which `count` have gone before and `limit` are allowed. -/
def decodeFrom (limit : Option Nat) (count : Nat) (head : Cell) :
    Except BodyError (List Outgoing) :=
  if head.bits.length = 0 then
    if head.refs.length = 0 then .ok []
    else .error (.layout (.chainRefs 0 head.refs.length))
  else if head.bits.length = actionBits then
    match nodes : head.refs with
    | [next, message] =>
      if limit = some count then .error (.capacityExceeded (count + 1) count)
      else do
        let mode ← head.read loadMode
        let rest ← decodeFrom limit (count + 1) next
        return ⟨mode, message⟩ :: rest
    | refs => .error (.layout (.chainRefs 2 refs.length))
  else .error (.layout (.chainBits head.bits.length))
termination_by head.depth
decreasing_by
  exact Cell.depth_lt_of_mem (by rw [nodes]; exact List.mem_cons_self ..)

/-- The messages of the chain with the given head. -/
def decode (limit : Option Nat) (head : Cell) : Except BodyError (List Outgoing) :=
  decodeFrom limit 0 head

end WalletWire.ActionChain
