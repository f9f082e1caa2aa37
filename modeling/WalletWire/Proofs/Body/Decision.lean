import WalletWire.Proofs.Body.Content

/-!
# The decision on a signature

Verification looks at the version first, then at the size of the body, and then only at the
signature (`Body.verify_decision`).  In a body of at least 512 bits the signature and the signed
cell are always there (`Generation.split_of_long`): the signed cell has fewer bits than the body and
its references, so it is within the bounds of cells whatever else the body may be.
-/

namespace WalletWire

open Ed25519 Program

/-! ## Short bodies -/

theorem Load.bytes_short {count : ℕ} {slice : Slice} (short : slice.bits.length < 8 * count) :
    Load.bytes count slice = .error (.notEnoughBits (8 * count) slice.bits.length) slice :=
  bind_error_iff.2 (.inl (Load.bits_short short))

theorem Envelope.ofBody_short {body : Cell} (short : body.bits.length < 512) :
    ofBody body = .error (.layout (.cell (.notEnoughBits 512 body.bits.length))) := by
  have failed := @Load.bytes_short 64 (.ofCell body) short
  unfold ofBody
  rw [Cell.read_error_iff]
  exact ⟨.ofCell body, bind_error_iff.2 (.inl (lift_error_iff.2 ⟨_, failed, rfl⟩))⟩

/-! ## The parts of a body -/

namespace Generation

/-- The first or the last 512 bits of a body. -/
def signaturePart : Generation → Bits → Bits
  | v3, bits | v4, bits | highloadV2, bits => bits.take 512
  | v5, bits => bits.drop (bits.length - 512)

/-- All bits of a body but those. -/
def signedPart : Generation → Bits → Bits
  | v3, bits | v4, bits | highloadV2, bits => bits.drop 512
  | v5, bits => bits.take (bits.length - 512)

theorem length_signedPart_le (g : Generation) (bits : Bits) :
    (g.signedPart bits).length ≤ bits.length := by
  cases g with
  | v5 => exact List.length_take_le' _ _
  | _ =>
    rw [signedPart, List.length_drop]
    exact Nat.sub_le ..

/-- The signature of a body. -/
def signatureOf (g : Generation) (body : Cell) : Signature :=
  ⟨(g.signaturePart body.bits).toBytes 64⟩

/-- The body without its signature, with all references. -/
def signedOf (g : Generation) (body : Cell) : Cell :=
  .ofContent
    { bits := g.signedPart body.bits
      refs := body.refs
      bits_le := (g.length_signedPart_le _).trans body.bits_le
      refs_le := body.refs_le
      depth_lt := body.ref_depth_lt }

variable {g : Generation} {body : Cell}

theorem join_parts (g : Generation) (bits : Bits) :
    g.join (g.signedPart bits) (g.signaturePart bits) = bits := by
  cases g <;> exact List.take_append_drop ..

theorem bits_signatureOf (long : 512 ≤ body.bits.length) :
    (g.signatureOf body).bits = g.signaturePart body.bits := by
  refine Bits.ofBytes_toBytes 64 _ ?_
  cases g with
  | v5 =>
    rw [signaturePart, List.length_drop]
    omega
  | _ => exact List.length_take_of_le long

theorem split_of_long (long : 512 ≤ body.bits.length) :
    g.split body = .ok (g.signedOf body, g.signatureOf body) := by
  have refs : (g.signedOf body).refs = body.refs := Cell.refs_ofContent _
  refine split_ok_iff.2 ⟨?_, refs.symm⟩
  rw [bits_signatureOf long]
  exact (g.join_parts body.bits).symm

theorem split_of_short (short : body.bits.length < 512) :
    g.split body = .error (.layout (.cell (.notEnoughBits 512 body.bits.length))) := by
  cases g with
  | v5 =>
    show splitTrailing body = _
    unfold splitTrailing
    exact if_pos short
  | _ => exact Outcome.bind_error_iff.2 (.inl (Envelope.ofBody_short short))

theorem split_eq (g : Generation) (body : Cell) :
    g.split body =
      if body.bits.length < 512 then
        .error (.layout (.cell (.notEnoughBits 512 body.bits.length)))
      else .ok (g.signedOf body, g.signatureOf body) := by
  split
  · next short => exact split_of_short short
  · next long => exact split_of_long (Nat.le_of_not_lt long)

end Generation

/-! ## The decision -/

namespace Version

theorem unsupported_of_generation {version : Version} {e : BodyError}
    (failed : version.generation = .error e) : e = .unsupportedVersion version.name := by
  cases version <;> cases failed <;> rfl

theorem generation_eq_v5_iff {version : Version} :
    version.generation = .ok .v5 ↔ version = .v5r1 := by
  cases version <;> simp [generation]

end Version

theorem Cell.verify_eq (signed : Cell) (signature : Signature) (key : PublicKey) :
    signed.verify signature key =
      if key.verify signed.hash.toList signature = .ok () then .ok ()
      else .error .signatureMismatch := by
  unfold Cell.verify
  cases key.verify signed.hash.toList signature with
  | ok => rfl
  | error e =>
    rw [if_neg nofun]
    rfl

namespace Body

variable {settings : Settings} {version : Version} {g : Generation} {body : Cell}

theorem verify_of_v5_off (off : settings.verifiesTrailing = false) (key : PublicKey) :
    verify settings .v5r1 body key = .error (.unsupportedVersion (Version.name .v5r1)) := by
  show (if settings.verifiesTrailing then _ else _) = _
  rw [off]
  rfl

theorem verify_of_verified (supported : version.generation = .ok g)
    (verified : g = .v5 → settings.verifiesTrailing = true) (key : PublicKey) :
    verify settings version body key =
      if body.bits.length < 512 then
        .error (.layout (.cell (.notEnoughBits 512 body.bits.length)))
      else if key.verify (g.signedOf body).hash.toList (g.signatureOf body) = .ok () then .ok ()
      else .error .signatureMismatch := by
  rw [verify_eq_of_verified supported verified, Generation.split_eq]
  split
  · rfl
  · rw [Outcome.ok_bind]
    exact Cell.verify_eq ..

/-- The version decides whether a signature is verified at all, whatever the body is.  If so, a body
with fewer than 512 bits is refused for just this, and in any other one the key decides about the
signature over the hash of the rest; no other error comes up. -/
theorem verify_decision (settings : Settings) (version : Version) (body : Cell)
    (key : PublicKey) :
    (verify settings version body key =
      match version.generation with
      | .error _ => .error (.unsupportedVersion version.name)
      | .ok g =>
        if version = .v5r1 ∧ settings.verifiesTrailing = false then
          .error (.unsupportedVersion version.name)
        else if body.bits.length < 512 then
          .error (.layout (.cell (.notEnoughBits 512 body.bits.length)))
        else if key.verify (g.signedOf body).hash.toList (g.signatureOf body) = .ok () then .ok ()
        else .error .signatureMismatch) ∧
    splitTrailing body =
      if body.bits.length < 512 then
        .error (.layout (.cell (.notEnoughBits 512 body.bits.length)))
      else .ok (Generation.v5.signedOf body, Generation.v5.signatureOf body) := by
  constructor
  · cases supported : version.generation with
    | error e =>
      unfold verify
      rw [supported]
      exact congrArg Except.error (Version.unsupported_of_generation supported)
    | ok g =>
      dsimp only
      by_cases off : version = .v5r1 ∧ settings.verifiesTrailing = false
      · obtain ⟨rfl, unverified⟩ := off
        rw [if_pos ⟨rfl, unverified⟩]
        exact verify_of_v5_off unverified key
      · have verified : g = .v5 → settings.verifiesTrailing = true := by
          rintro rfl
          simpa [Version.generation_eq_v5_iff.1 supported] using off
        rw [if_neg off]
        exact verify_of_verified supported verified key
  · exact Generation.split_eq .v5 body

end Body

end WalletWire
