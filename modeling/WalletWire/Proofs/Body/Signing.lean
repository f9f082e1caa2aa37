import WalletWire.Proofs.Body.Content

/-!
# Bodies that are signed here

Signing a content puts the signature into the body where its generation has it, in front for a
payload and behind for a request (`Body.sign`).  This succeeds for whatever can be written at all,
and what comes out is read back and verified over the hash that was signed
(`Body.read_back_of_sign`).
-/

namespace WalletWire.Body

open Ed25519

/-- The signed body with the content. -/
def sign (pair : KeyPair) : Body → Except BodyError Cell
  | v5 request =>
    match SignedRequest.sign pair request with
    | .ok body _ => .ok body
    | .error e _ => .error e
  | content => do
    let payload ← content.unsigned
    (Envelope.sign payload pair).toBody

variable {pair : KeyPair} {content : Body} {body signed : Cell}

/-- In every generation the body is the signed cell joined with the signature of its hash. -/
theorem sign_ok_iff : content.sign pair = .ok body ↔ ∃ signed, content.unsigned = .ok signed ∧
    content.generation.split body = .ok (signed, pair.sign signed.hash.toList) := by
  cases content with
  | v5 request =>
    have signs : (v5 request).sign pair = .ok body ↔
        ∃ request', SignedRequest.sign pair request = .ok body request' := by
      unfold sign
      dsimp only
      cases SignedRequest.sign pair request <;> simp
    simp only [signs, SignedRequest.sign_ok_iff, unsigned, generation, Generation.split]
    constructor
    · rintro ⟨_, signed, written, -, split⟩
      exact ⟨signed, written, split⟩
    · rintro ⟨signed, written, split⟩
      exact ⟨_, signed, written, rfl, split⟩
  | _ =>
    simp only [sign, Outcome.bind_ok_iff, Envelope.toBody_ok_iff, Generation.split_ok_iff,
      Envelope.sign, generation, Generation.join]

/-- There is a body for all that can be signed. -/
theorem exists_sign (written : content.unsigned = .ok signed) (pair : KeyPair) :
    ∃ body, content.sign pair = .ok body := by
  obtain ⟨body, split⟩ := Generation.exists_split (saidBy_of_unsigned written).sized
    (pair.sign signed.hash.toList)
  exact ⟨body, sign_ok_iff.2 ⟨signed, written, split⟩⟩

theorem verify_ok_iff {settings : Settings} {version : Version} {g : Generation}
    {signature : Signature} (supported : version.generation = .ok g)
    (unified : settings.verifiesTrailing = true) (split : g.split body = .ok (signed, signature))
    (key : PublicKey) : verify settings version body key = .ok () ↔
      key.verify signed.hash.toList signature = .ok () := by
  rw [verify_eq supported unified, split, Outcome.ok_bind]
  exact Outcome.mapError_ok_iff

/-- A content has a signed body whenever it can be written.  The body is read back to the messages
of the content, and a key verifies it exactly when the key accepts the signature that was made of
the hash of the signed cell. -/
theorem read_back_of_sign (pair : KeyPair) (content : Body) :
    ((∃ body, content.sign pair = .ok body) ↔ ∃ signed, content.unsigned = .ok signed) ∧
    ∀ body, content.sign pair = .ok body → ∃ signed, content.unsigned = .ok signed ∧
      content.generation.split body = .ok (signed, pair.sign signed.hash.toList) ∧
      ∀ settings version, version.generation = .ok content.generation →
        ((∀ most ∈ settings.chainLimit, content.messages.length ≤ most) →
          extractMessages settings version body = .ok content.messages) ∧
        (settings.verifiesTrailing = true → ∀ key, verify settings version body key = .ok () ↔
          key.verify signed.hash.toList (pair.sign signed.hash.toList) = .ok ()) ∧
        (settings.verifiesTrailing = true →
          pair.publicKey.verify signed.hash.toList (pair.sign signed.hash.toList) = .ok () →
          verify settings version body pair.publicKey = .ok ()) := by
  refine ⟨⟨?_, fun ⟨signed, written⟩ => exists_sign written pair⟩, ?_⟩
  · rintro ⟨body, made⟩
    obtain ⟨signed, written, -⟩ := sign_ok_iff.1 made
    exact ⟨signed, written⟩
  · intro body made
    obtain ⟨signed, written, split⟩ := sign_ok_iff.1 made
    refine ⟨signed, written, split, fun settings version supported => ⟨fun few => ?_, ?_, ?_⟩⟩
    · have decoded := decode_of_unsigned written split supported few
      exact Outcome.map_ok_iff.2 ⟨_, decoded, messages_withSignature _ content⟩
    · intro unified key
      exact verify_ok_iff supported unified split key
    · intro unified accepted
      exact (verify_ok_iff supported unified split pair.publicKey).2 accepted

/-! ### Two messages in each kind of layout -/

/-- A message with one bit. -/
def oneBit : Cell :=
  .ofContent { Content.empty with bits := [true], bits_le := by decide }

/-- An external request for two messages. -/
def chained : SignedRequest where
  channel := .external
  walletId := .replicate 10 0
  validUntil := 0
  seqno := 1
  flag := false
  signature := .blank
  messages := [⟨3, .empty⟩, ⟨1, oneBit⟩]

/-- The same messages in slots. -/
def slotted : PayloadV4 := ⟨⟨1, 2, 3⟩, 0, [⟨3, .empty⟩, ⟨1, oneBit⟩]⟩

/-- The same messages in a dictionary. -/
def indexed : HighloadPayload := ⟨1, 2, [⟨3, .empty⟩, ⟨1, oneBit⟩]⟩

set_option maxRecDepth 4000 in
/-- Two messages come back in their order from each layout, also where no more than two are taken
from a chain.  What verifies is the signature of the cell that was signed. -/
theorem read_back_of_sign_twoMessages : ∃ chain slots dictionary signed : Cell,
    (v5 chained).sign ⟨.replicate 32 0⟩ = .ok chain ∧
    extractMessages { chainLimit := some 2 } .v5r1 chain = .ok [⟨3, .empty⟩, ⟨1, oneBit⟩] ∧
    (v4 slotted).sign ⟨.replicate 32 0⟩ = .ok slots ∧
    extractMessages {} .v4r2 slots = .ok [⟨3, .empty⟩, ⟨1, oneBit⟩] ∧
    (highloadV2 indexed).sign ⟨.replicate 32 0⟩ = .ok dictionary ∧
    extractMessages {} .highloadV2r2 dictionary = .ok [⟨3, .empty⟩, ⟨1, oneBit⟩] ∧
    indexed.encode = .ok signed ∧
    ∀ key : PublicKey, verify {} .highloadV2r2 dictionary key = .ok () ↔
      key.verify signed.hash.toList ((⟨.replicate 32 0⟩ : KeyPair).sign signed.hash.toList) =
        .ok () := by
  have sent (content : Body) (written : ∃ signed, content.unsigned = .ok signed) :=
    (read_back_of_sign ⟨.replicate 32 0⟩ content).1.2 written
  have returned (content : Body) := (read_back_of_sign ⟨.replicate 32 0⟩ content).2
  obtain ⟨chain, chain_made⟩ := sent (v5 chained) ⟨_, rfl⟩
  obtain ⟨slots, slots_made⟩ := sent (v4 slotted) ⟨_, rfl⟩
  obtain ⟨dictionary, dictionary_made⟩ := sent (highloadV2 indexed) ⟨_, rfl⟩
  obtain ⟨_, -, -, chain_read⟩ := returned _ chain chain_made
  obtain ⟨_, -, -, slots_read⟩ := returned _ slots slots_made
  obtain ⟨signed, written, -, dictionary_read⟩ := returned _ dictionary dictionary_made
  have two : ∀ most ∈ some 2, (v5 chained).messages.length ≤ most := by
    rintro _ ⟨⟩
    exact le_rfl
  obtain ⟨in_chain, -, -⟩ := chain_read { chainLimit := some 2 } .v5r1 rfl
  obtain ⟨in_slots, -, -⟩ := slots_read {} .v4r2 rfl
  obtain ⟨in_dictionary, verified, -⟩ := dictionary_read {} .highloadV2r2 rfl
  exact ⟨chain, slots, dictionary, signed, chain_made, in_chain two, slots_made, in_slots nofun,
    dictionary_made, in_dictionary nofun, written, verified rfl⟩

end WalletWire.Body
