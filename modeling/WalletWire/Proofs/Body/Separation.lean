import WalletWire.Proofs.Body.Content
import WalletWire.Proofs.Body.Refusal

/-!
# Bodies cannot be confused

A body that is accepted for one generation is refused for its layout under every other one
(`Body.layout_error_of_other_generation`), and what is signed decides what is said, within a
generation and across generations (`Body.agree_of_same_signed`).  Neither depends on the
settings, which may differ between the two readings.
-/

namespace WalletWire

open Ed25519

/-- The cells differ and have the same hash. -/
def Cell.Collide (c d : Cell) : Prop := c ≠ d ∧ c.hash = d.hash

namespace Body

variable {settings : Settings} {version : Version} {g : Generation} {body : Cell} {content : Body}

/-! ## One generation -/

theorem admits_of_decode (supported : version.generation = .ok g)
    (decoded : decode settings version body = .ok content) : g.Admits body := by
  obtain ⟨generation, signed, signature, split, said⟩ := said_of_decode decoded
  cases Except.ok.inj (generation.symm.trans supported)
  have held := Generation.split_ok_iff.1 split
  refine ⟨signed.bits.length, ?_, ?_⟩
  · rw [held.bits_eq, Generation.length_join]
  · rw [held.refs_eq]
    exact said.sized

/-- What is wrong with a body of another size than the generation has is its layout. -/
theorem inLayout_of_decode {e : BodyError} (supported : version.generation = .ok g)
    (failed : decode settings version body = .error e) : e.InLayout ∨ g.Admits body := by
  by_cases newest : g = .v5
  · subst newest
    unfold decode at failed
    rw [supported, Outcome.ok_bind] at failed
    obtain failed | ⟨request, -, ⟨⟩⟩ := Outcome.bind_error_iff.1 failed
    obtain inLayout | ⟨bits, refs⟩ := SignedRequest.inLayout_of_decode failed
    · exact .inl inLayout
    · exact .inr ⟨177, bits, rfl, refs⟩
  · exact .inl ((refuses_of_decode supported failed).inLayout newest)

/-- A body of one generation is refused for its layout by all others. -/
theorem layout_error_of_other_generation {settings settings' : Settings}
    {version version' : Version} {g g' : Generation} {body : Cell} {messages : List Outgoing}
    (supported : version.generation = .ok g) (supported' : version'.generation = .ok g')
    (different : g ≠ g') (accepted : extractMessages settings version body = .ok messages) :
    ∃ cause, extractMessages settings' version' body = .error (.layout cause) := by
  obtain ⟨content, decoded, -⟩ := Outcome.map_ok_iff.1 accepted
  have admitted := admits_of_decode supported decoded
  have refused : ¬ g'.Admits body := fun admitted' =>
    different (Generation.eq_of_admits admitted admitted')
  cases outcome : decode settings' version' body with
  | ok content' => exact absurd (admits_of_decode supported' outcome) refused
  | error e =>
    obtain ⟨cause, rfl⟩ | admitted' := inLayout_of_decode supported' outcome
    · exact ⟨cause, Outcome.map_error_iff.2 outcome⟩
    · exact absurd admitted' refused

/-! ### One body -/

/-- A payload with one message, and zero for every number. -/
def zeroPayload : PayloadV3 := ⟨⟨0, 0, 0⟩, [⟨0, .empty⟩]⟩

/-- The cell to be signed for this payload. -/
def zeroSigned : Cell :=
  .ofContent ⟨zeroPayload.bits, [.empty], by decide, by decide, by decide⟩

/-- The body with this payload and a given signature. -/
def zeroBody (signature : Signature) : Cell :=
  .ofContent ⟨signature.bits ++ zeroPayload.bits, [.empty], by
    rw [List.length_append, Signature.length_bits]
    decide, by decide, by decide⟩

theorem split_zeroBody (signature : Signature) :
    Generation.v3.split (zeroBody signature) = .ok (zeroSigned, signature) :=
  Generation.split_ok_iff.2 ⟨rfl, by
    rw [zeroBody, zeroSigned, Cell.refs_ofContent, Cell.refs_ofContent]⟩

theorem extractMessages_zeroBody (supported : version.generation = .ok .v3)
    (signature : Signature) :
    extractMessages {} version (zeroBody signature) = .ok [⟨0, .empty⟩] := by
  have written : (v3 zeroPayload).unsigned = .ok zeroSigned :=
    PayloadV3.encode_ok_iff.2 ⟨rfl, Cell.refs_ofContent _⟩
  have decoded : decode {} version (zeroBody signature) = .ok (v3 zeroPayload) :=
    decode_of_unsigned written (split_zeroBody signature) supported nofun
  exact Outcome.map_ok_iff.2 ⟨_, decoded, rfl⟩

theorem layout_error_of_zeroBody :
    extractMessages {} .v3r2 (zeroBody .blank) = .ok [⟨0, .empty⟩] ∧
      ∃ cause, extractMessages {} .v5r1 (zeroBody .blank) = .error (.layout cause) := by
  have accepted : extractMessages {} .v3r2 (zeroBody .blank) = .ok [⟨0, .empty⟩] :=
    extractMessages_zeroBody rfl .blank
  exact ⟨accepted, @layout_error_of_other_generation {} {} .v3r2 .v5r1 .v3 .v5 _ _ rfl rfl nofun
    accepted⟩

/-! ## Two signed bodies -/

/-- Verification of the body checks this signature over the hash of this cell. -/
structure Checks (version : Version) (body signed : Cell) (signature : Signature) : Prop where
  split : ∃ g, version.generation = .ok g ∧ g.split body = .ok (signed, signature)
  verify_eq : ∀ settings key, settings.verifiesTrailing = true →
    verify settings version body key = signed.verify signature key

theorem checks_of_split {signed : Cell} {signature : Signature}
    (supported : version.generation = .ok g) (split : g.split body = .ok (signed, signature)) :
    Checks version body signed signature := by
  refine ⟨⟨g, supported, split⟩, fun settings key unified => ?_⟩
  rw [verify_eq supported unified, split, Outcome.ok_bind]

/-- The contents agree in everything but their signatures. -/
def Agree (content content' : Body) : Prop :=
  content.generation = content'.generation ∧
    ∀ signature, content.withSignature signature = content'.withSignature signature

/-- What is signed decides what is said, for all versions and settings.  So bodies that do not agree
are never checked against the same hash, unless their signed cells collide. -/
theorem agree_of_same_signed {settings settings' : Settings} {version version' : Version}
    {body body' : Cell} {messages messages' : List Outgoing}
    (accepted : extractMessages settings version body = .ok messages)
    (accepted' : extractMessages settings' version' body' = .ok messages') :
    ∃ content content' signed signed' signature signature',
      (decode settings version body = .ok content ∧ content.messages = messages ∧
        version.generation = .ok content.generation ∧ Checks version body signed signature) ∧
      (decode settings' version' body' = .ok content' ∧ content'.messages = messages' ∧
        version'.generation = .ok content'.generation ∧
        Checks version' body' signed' signature') ∧
      (signed = signed' → content.Agree content' ∧ messages = messages') ∧
      ((content.Agree content' ∧ messages = messages') ∨ signed.hash ≠ signed'.hash ∨
        signed.Collide signed') := by
  obtain ⟨content, decoded, rfl⟩ := Outcome.map_ok_iff.1 accepted
  obtain ⟨content', decoded', rfl⟩ := Outcome.map_ok_iff.1 accepted'
  obtain ⟨supported, signed, signature, split, said⟩ := said_of_decode decoded
  obtain ⟨supported', signed', signature', split', said'⟩ := said_of_decode decoded'
  have agree (same : signed = signed') :
      content.Agree content' ∧ content.messages = content'.messages := by
    subst same
    have unique := said.unique said'
    refine ⟨unique, ?_⟩
    rw [← messages_withSignature .blank content, unique.2, messages_withSignature]
  refine ⟨content, content', signed, signed', signature, signature',
    ⟨decoded, rfl, supported, checks_of_split supported split⟩,
    ⟨decoded', rfl, supported', checks_of_split supported' split'⟩, agree, ?_⟩
  by_cases same : signed = signed'
  · exact .inl (agree same)
  · by_cases same_hash : signed.hash = signed'.hash
    · exact .inr (.inr ⟨same, same_hash⟩)
    · exact .inr (.inl same_hash)

theorem agree_of_zeroBody : ∃ content content',
    decode {} .v3r1 (zeroBody .blank) = .ok content ∧
      decode {} .v3r2 (zeroBody ⟨.replicate 64 255⟩) = .ok content' ∧ content.Agree content' := by
  obtain ⟨content, content', signed, signed', _, _, ⟨decoded, -, -, checks⟩,
    ⟨decoded', -, -, checks'⟩, agree, -⟩ := agree_of_same_signed
      (@extractMessages_zeroBody .v3r1 rfl .blank)
      (@extractMessages_zeroBody .v3r2 rfl ⟨.replicate 64 255⟩)
  have signed_eq {version : Version} {signature signature' : Signature} {cell : Cell}
      (supported : version.generation = .ok .v3)
      (checks : Checks version (zeroBody signature) cell signature') : cell = zeroSigned := by
    obtain ⟨g, generation, split⟩ := checks.split
    cases Except.ok.inj (generation.symm.trans supported)
    have both := split.symm.trans (split_zeroBody signature)
    exact (Prod.mk.inj (Except.ok.inj both)).1
  refine ⟨content, content', decoded, decoded', (agree ?_).1⟩
  rw [signed_eq rfl checks, signed_eq rfl checks']

end Body

end WalletWire
