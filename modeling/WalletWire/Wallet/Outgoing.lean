import WalletWire.Cell.Basic

/-!
# Outgoing messages

What every wallet request comes down to: the messages that the wallet is to send.
-/

namespace WalletWire

/-- A message to be sent, and the byte that says how. -/
@[ext] structure Outgoing where
  mode : UInt8
  message : Cell

end WalletWire
