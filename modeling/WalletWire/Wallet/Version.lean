import WalletWire.Text.Blank
import WalletWire.Wallet.Error

/-!
# Wallet versions

The wallet contracts that were deployed, their names, and the layout of the requests that each of
them takes.  `parse_name` says that every name is read back.
-/

namespace WalletWire

/-- A wallet contract. -/
inductive Version where
  | v1r1 | v1r2 | v1r3
  | v2r1 | v2r2
  | v3r1 | v3r2
  | v4r1 | v4r2
  | v5beta | v5r1
  | highloadV1r1 | highloadV1r2
  | highloadV2 | highloadV2r1 | highloadV2r2
  deriving DecidableEq, Repr

/-- A layout of requests. -/
inductive Generation where
  /-- A signed header and up to four messages. -/
  | v3
  /-- As `v3`, with an operation. -/
  | v4
  /-- A signed header and a dictionary of messages. -/
  | highloadV2
  /-- A tagged request with a trailing signature and a chain of actions. -/
  | v5
  deriving DecidableEq, Repr

namespace Version

/-- All versions, oldest first, highload wallets last. -/
def all : List Version :=
  [v1r1, v1r2, v1r3, v2r1, v2r2, v3r1, v3r2, v4r1, v4r2, v5beta, v5r1, highloadV1r1, highloadV1r2,
    highloadV2, highloadV2r1, highloadV2r2]

/-- The name of a version. -/
def name : Version → String
  | v1r1 => "v1r1"
  | v1r2 => "v1r2"
  | v1r3 => "v1r3"
  | v2r1 => "v2r1"
  | v2r2 => "v2r2"
  | v3r1 => "v3r1"
  | v3r2 => "v3r2"
  | v4r1 => "v4r1"
  | v4r2 => "v4r2"
  | v5beta => "v5beta"
  | v5r1 => "v5r1"
  | highloadV1r1 => "highload_v1r1"
  | highloadV1r2 => "highload_v1r2"
  | highloadV2 => "highload_v2"
  | highloadV2r1 => "highload_v2r1"
  | highloadV2r2 => "highload_v2r2"

/-- The version of the given name, which may be in capitals and between blanks. -/
def parse (text : String) : Except BodyError Version :=
  let wanted := (Text.trim text.toList).map Char.toLower
  match all.find? fun version => version.name.toList == wanted with
  | some version => .ok version
  | none => .error (.unsupportedVersion text)

/-- The layout of the requests to a version. -/
def generation : Version → Except BodyError Generation
  | v3r1 | v3r2 => .ok .v3
  | v4r1 | v4r2 => .ok .v4
  | highloadV2r2 => .ok .highloadV2
  | v5r1 => .ok .v5
  | version => .error (.unsupportedVersion version.name)

theorem parse_name (version : Version) : parse version.name = .ok version := by
  cases version <;> rfl

end Version

end WalletWire
