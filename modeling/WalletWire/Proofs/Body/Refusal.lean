import WalletWire.Proofs.Body.Decision
import WalletWire.Proofs.Request.Exact

/-!
# What a body is refused for

Without a layout for the version, nothing is read and the version is the error.  Otherwise
`Generation.Refuses` says for each error what is the case when a body is refused for it: all
generations can read too little or too much, only a highload wallet finds a gap in the indices, and
only the fifth version a wrong tag, a wrong node of the chain or too many actions.  None of the
errors of writing comes up (`Body.refusal_of_extractMessages`).
-/

namespace WalletWire

namespace Generation

/-- What is the case when a body is refused for an error under the layout of a generation. -/
def Refuses (settings : Settings) (g : Generation) : BodyError → Prop
  | .layout (.cell cause) => cause.OfReading
  | .layout (.chainBits count) => g = v5 ∧ count ≠ 0 ∧ count ≠ ActionChain.actionBits
  | .layout (.chainRefs expected actual) =>
    g = v5 ∧ (expected = 0 ∨ expected = 2) ∧ actual ≠ expected
  | .layout (.requestTag tag) => g = v5 ∧ Channel.ofTag? tag = none
  | .layout (.actionTag tag) => g = v5 ∧ tag ≠ ActionChain.sendTag
  | .layout (.indexGap expected found) =>
    g = highloadV2 ∧ settings.indexPolicy = .contiguous ∧ expected < found
  | .capacityExceeded count max => g = v5 ∧ settings.chainLimit = some max ∧ count = max + 1
  | .unsupportedVersion _ => False
  | .signatureMismatch => False

variable {settings : Settings} {g : Generation} {e : BodyError}

theorem refuses_of_reading (reading : e.OfReading) : g.Refuses settings e := by
  cases reading
  assumption

theorem refuses_of_indices (refused : settings.indexPolicy.Refuses e) :
    highloadV2.Refuses settings e := by
  cases refused with
  | reading reading => exact refuses_of_reading reading
  | gap strict above => exact ⟨rfl, strict, above⟩

theorem refuses_of_request (refused : SignedRequest.Refuses settings.chainLimit e) :
    v5.Refuses settings e := by
  cases refused with
  | reading reading => exact refuses_of_reading reading
  | channel unknown => exact ⟨rfl, unknown⟩
  | chain refused =>
    cases refused with
    | bits some_left other => exact ⟨rfl, some_left, other⟩
    | refs kind other => exact ⟨rfl, kind, other⟩
    | tag other => exact ⟨rfl, other⟩
    | full reached => exact ⟨rfl, reached, rfl⟩

/-- Only the chain of a request can be too long. -/
theorem Refuses.inLayout (refused : g.Refuses settings e) (other : g ≠ v5) : e.InLayout := by
  cases e with
  | layout cause => exact ⟨cause, rfl⟩
  | capacityExceeded => exact absurd refused.1 other
  | unsupportedVersion => exact refused.elim
  | signatureMismatch => exact refused.elim

end Generation

namespace Body

variable {settings : Settings} {version : Version} {g : Generation} {body : Cell} {e : BodyError}

theorem refuses_of_decode (supported : version.generation = .ok g)
    (failed : decode settings version body = .error e) : g.Refuses settings e := by
  unfold decode at failed
  rw [supported, Outcome.ok_bind] at failed
  cases g with
  | v3 =>
    have fails := Envelope.failsOnly_payload PayloadV3.failsOnly_decode (fun _ => id) body
    exact Generation.refuses_of_reading ((fails.bind fun _ => Outcome.failsOnly_ok _) e failed)
  | v4 =>
    have fails := Envelope.failsOnly_payload PayloadV4.failsOnly_decode (fun _ => id) body
    exact Generation.refuses_of_reading ((fails.bind fun _ => Outcome.failsOnly_ok _) e failed)
  | highloadV2 =>
    have fails := Envelope.failsOnly_payload (HighloadPayload.failsOnly_decode settings.indexPolicy)
      (fun _ => .reading) body
    exact Generation.refuses_of_indices ((fails.bind fun _ => Outcome.failsOnly_ok _) e failed)
  | v5 =>
    have fails := SignedRequest.failsOnly_decode settings.chainLimit body
    exact Generation.refuses_of_request ((fails.bind fun _ => Outcome.failsOnly_ok _) e failed)

theorem decode_of_unsupported (unsupported : ∀ g, version.generation ≠ .ok g) :
    decode settings version body = .error (.unsupportedVersion version.name) := by
  cases generation : version.generation with
  | ok g => exact absurd generation (unsupported g)
  | error e =>
    unfold decode
    rw [generation, Version.unsupported_of_generation generation]
    rfl

/-- The version is the error just when it has no layout, whatever the body is.  A body for any other
version is refused for an error that its generation explains, and never for its signature. -/
theorem refusal_of_extractMessages (settings : Settings) (version : Version) (body : Cell) :
    (∀ name, extractMessages settings version body = .error (.unsupportedVersion name) ↔
      (∀ g, version.generation ≠ .ok g) ∧ name = version.name) ∧
    (∀ g e, version.generation = .ok g → extractMessages settings version body = .error e →
      g.Refuses settings e) ∧
    extractMessages settings version body ≠ .error .signatureMismatch := by
  unfold extractMessages
  simp only [ne_eq, Outcome.map_error_iff]
  cases generation : version.generation with
  | error cause =>
    have refused : decode settings version body = .error (.unsupportedVersion version.name) :=
      decode_of_unsupported fun g => by rw [generation]; nofun
    rw [refused]
    refine ⟨fun name => ⟨?_, ?_⟩, nofun, nofun⟩
    · rintro ⟨⟩
      exact ⟨nofun, rfl⟩
    · rintro ⟨-, rfl⟩
      rfl
  | ok g =>
    refine ⟨fun name => ⟨fun failed => ?_, fun ⟨none_fits, _⟩ => absurd rfl (none_fits g)⟩, ?_, ?_⟩
    · exact (refuses_of_decode generation failed).elim
    · rintro _ e ⟨⟩ failed
      exact refuses_of_decode generation failed
    · exact fun failed => (refuses_of_decode generation failed).elim

set_option maxRecDepth 4000 in
theorem refusal_of_extractMessages_twoActions : ∃ body e,
    SignedRequest.twoActions.encode = .ok body ∧
    extractMessages {} .v5beta body = .error (.unsupportedVersion "v5beta") ∧
    extractMessages { chainLimit := some 1 } .v5r1 body = .error e ∧
    Generation.v5.Refuses { chainLimit := some 1 } e := by
  obtain ⟨body, written⟩ : ∃ body, SignedRequest.twoActions.encode = .ok body := ⟨_, rfl⟩
  have unsupported := (refusal_of_extractMessages {} .v5beta body).1 "v5beta"
  have refusal := (refusal_of_extractMessages { chainLimit := some 1 } .v5r1 body).2.1 .v5
  cases outcome : extractMessages { chainLimit := some 1 } .v5r1 body with
  | error e => exact ⟨body, e, written, unsupported.2 ⟨nofun, rfl⟩, outcome, refusal e rfl outcome⟩
  | ok messages =>
    -- Only the request that was written could have been read, and it has two messages.
    obtain ⟨content, decoded, -⟩ := Outcome.map_ok_iff.1 outcome
    obtain ⟨g, supported, decoded⟩ := Outcome.bind_ok_iff.1 decoded
    cases supported
    obtain ⟨request, read, -⟩ := Outcome.bind_ok_iff.1 decoded
    obtain ⟨again, few⟩ := SignedRequest.decode_ok_iff.1 read
    have one_request := (SignedRequest.decode_none_ok_iff body SignedRequest.twoActions).2 written
    have read := (SignedRequest.decode_none_ok_iff body request).2 again
    cases Except.ok.inj (read.symm.trans one_request)
    exact absurd (few 1 rfl) (by decide)

end Body

end WalletWire
