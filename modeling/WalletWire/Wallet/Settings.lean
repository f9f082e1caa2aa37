import WalletWire.Payload.Highload

/-!
# Settings

How strictly bodies are read and which of them are verified.
-/

namespace WalletWire

/-- How bodies are read and verified. -/
structure Settings where
  /-- Which indices are accepted in message dictionaries. -/
  indexPolicy : IndexPolicy := .contiguous
  /-- The most actions accepted in a chain. -/
  chainLimit : Option Nat := none
  /-- Whether trailing signatures are verified along with the others. -/
  verifiesTrailing : Bool := true
  deriving DecidableEq, Repr

/-- Why settings are refused. -/
inductive SettingsError where
  /-- No chain with an action would be accepted. -/
  | zeroChainLimit
  deriving DecidableEq, Repr

/-- The text of an error. -/
def SettingsError.message : SettingsError → String
  | zeroChainLimit => "Invalid codec parameters: max_action_chain must be at least 1 when set"

namespace Settings

/-- Settings that can be used. -/
def Valid (settings : Settings) : Prop := settings.chainLimit ≠ some 0

instance (settings : Settings) : Decidable settings.Valid :=
  inferInstanceAs (Decidable (settings.chainLimit ≠ some 0))

/-- Fails unless the settings can be used. -/
def validate (settings : Settings) : Except SettingsError Unit :=
  if settings.Valid then .ok () else .error .zeroChainLimit

/-- The settings with another index policy. -/
def withIndexPolicy (settings : Settings) (policy : IndexPolicy) : Settings :=
  { settings with indexPolicy := policy }

/-- The settings with a limit for chains. -/
def withChainLimit (settings : Settings) (limit : Nat) : Settings :=
  { settings with chainLimit := some limit }

/-- Choices for some of the settings; the others keep their defaults. -/
structure Choices where
  indexPolicy : Option IndexPolicy := none
  chainLimit : Option Nat := none
  verifiesTrailing : Option Bool := none

/-- The default settings with some choices made, which must be usable. -/
def ofChoices (choices : Choices) : Except SettingsError Settings := do
  let defaults : Settings := {}
  let settings : Settings :=
    { indexPolicy := choices.indexPolicy.getD defaults.indexPolicy
      chainLimit := choices.chainLimit <|> defaults.chainLimit
      verifiesTrailing := choices.verifiesTrailing.getD defaults.verifiesTrailing }
  settings.validate
  return settings

end Settings

end WalletWire
