import WalletWire.Wallet.Settings
import WalletWire.Wallet.Version

/-!
# Documents

Settings and versions can come as a value of a data format with records, lists, texts and
numbers.  A record of settings may leave fields out and may hold fields that are not known; a
list of settings gives the fields in their order and may end early.
-/

namespace WalletWire

/-- A value of a data format. -/
inductive Document where
  | null
  | bool (value : Bool)
  | integer (value : Int)
  /-- A number that is not written as an integer. -/
  | real (written : String)
  | text (value : String)
  | list (items : List Document)
  /-- Named values; no name comes twice. -/
  | record (fields : List (String × Document))

namespace IndexPolicy

/-- The policy of a name. -/
def ofName? : String → Option IndexPolicy
  | "contiguous" => some .contiguous
  | "ascending" => some .ascending
  | _ => none

/-- The name of a policy. -/
def name : IndexPolicy → String
  | contiguous => "contiguous"
  | ascending => "ascending"

/-- The policy in a document: its name, alone or as the only field of a record, without a value. -/
def ofDocument? : Document → Option IndexPolicy
  | .text name => ofName? name
  | .record [(name, .null)] => ofName? name
  | _ => none

end IndexPolicy

namespace Settings

/-- The limit for chains in a document: nothing, or a number of 64 bits. -/
def chainLimitOfDocument? : Document → Option (Option Nat)
  | .null => some none
  | .integer (.ofNat limit) => if Bits.fits limit 64 then some (some limit) else none
  | _ => none

/-- A truth value in a document. -/
def boolOfDocument? : Document → Option Bool
  | .bool value => some value
  | _ => none

/-- The settings with those fields that are there. -/
def ofFields? (policy limit trailing : Option Document) : Option Settings := do
  let defaults : Settings := {}
  let indexPolicy ← policy.elim (some defaults.indexPolicy) IndexPolicy.ofDocument?
  let chainLimit ← limit.elim (some defaults.chainLimit) chainLimitOfDocument?
  let verifiesTrailing ← trailing.elim (some defaults.verifiesTrailing) boolOfDocument?
  return { indexPolicy, chainLimit, verifiesTrailing }

/-- The settings in a document, usable or not. -/
def ofDocument? : Document → Option Settings
  | .record fields =>
    ofFields? (fields.lookup "dictionary_keys") (fields.lookup "max_action_chain")
      (fields.lookup "unified_v5_verification")
  | .list items =>
    if items.length ≤ 3 then ofFields? items[0]? items[1]? items[2]? else none
  | _ => none

end Settings

/-- Why a document holds no version. -/
inductive VersionDocumentError where
  /-- It is not a text. -/
  | notText
  /-- It is a text, but no name of a version. -/
  | unknownName (error : BodyError)

/-- The version in a document, given by its name. -/
def Version.ofDocument : Document → Except VersionDocumentError Version
  | .text name => (Version.parse name).mapError .unknownName
  | _ => .error .notText

end WalletWire
