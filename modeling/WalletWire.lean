import WalletWire.Bits
import WalletWire.Bits.Lemmas
import WalletWire.Bytes
import WalletWire.Text.Blank
import WalletWire.Sha2.Constants
import WalletWire.Sha2.Basic
import WalletWire.Ed25519.Field
import WalletWire.Ed25519.Point
import WalletWire.Ed25519.Scheme
import WalletWire.Cell.Error
import WalletWire.Cell.Basic
import WalletWire.Cell.Builder
import WalletWire.Cell.Slice
import WalletWire.Dictionary.Basic
import WalletWire.Dictionary.Label
import WalletWire.Dictionary.Trie
import WalletWire.Dictionary.Hashmap
import WalletWire.Wallet.Error
import WalletWire.Wallet.Outgoing
import WalletWire.Wallet.Version
import WalletWire.Wallet.Settings
import WalletWire.Wallet.Document
import WalletWire.Payload.FixedSlot
import WalletWire.Payload.Highload
import WalletWire.Request.ActionChain
import WalletWire.Request.Basic
import WalletWire.Body.Signature
import WalletWire.Body.Basic
import WalletWire.Service
import WalletWire.Proofs.Cell.Reading
import WalletWire.Proofs.Cell.Writing
import WalletWire.Proofs.Cell.Layout
import WalletWire.Proofs.Cell.Tree
import WalletWire.Proofs.Cell.Failure
import WalletWire.Proofs.Cell.Identity
import WalletWire.Proofs.Cell.Plain
import WalletWire.Proofs.Dictionary.Label
import WalletWire.Proofs.Dictionary.Trie
import WalletWire.Proofs.Dictionary.Entries
import WalletWire.Proofs.Dictionary.RoundTrip
import WalletWire.Proofs.Dictionary.Paths
import WalletWire.Proofs.Dictionary.Grammar
import WalletWire.Proofs.Dictionary.Normal
import WalletWire.Proofs.Dictionary.Depth
import WalletWire.Proofs.Dictionary.Failure
import WalletWire.Proofs.Dictionary.Forks
import WalletWire.Proofs.Dictionary.Walk
import WalletWire.Proofs.Payload.Slots
import WalletWire.Proofs.Payload.Exact
import WalletWire.Proofs.Payload.Highload
import WalletWire.Proofs.Payload.Positions
import WalletWire.Proofs.Payload.Gaps
import WalletWire.Proofs.Payload.Normal
import WalletWire.Proofs.Request.Chain
import WalletWire.Proofs.Body.Signature
import WalletWire.Proofs.Request.Frame
import WalletWire.Proofs.Request.Exact
import WalletWire.Proofs.Request.Trailing
import WalletWire.Proofs.Request.Depth
import WalletWire.Proofs.Request.Signing
import WalletWire.Proofs.Request.Limit
import WalletWire.Proofs.Request.Walk
import WalletWire.Proofs.Body.Content
import WalletWire.Proofs.Body.Decision
import WalletWire.Proofs.Body.Parts
import WalletWire.Proofs.Body.Refusal
import WalletWire.Proofs.Body.Separation
import WalletWire.Proofs.Body.Signing
import WalletWire.Proofs.Cell.Item
import WalletWire.Proofs.Cell.Stream
import WalletWire.Proofs.Cell.Cursor
import WalletWire.Proofs.Payload.Residue
import WalletWire.Proofs.Payload.Conservation
import WalletWire.Proofs.Cell.Copies
import WalletWire.Proofs.Dictionary.Word
import WalletWire.Proofs.Dictionary.Build
