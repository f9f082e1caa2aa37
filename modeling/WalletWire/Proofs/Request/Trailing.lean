import WalletWire.Proofs.Request.Exact

/-!
# The signature behind a request

Reading finds the signature of a request by the fields in front of it, verification by the end of
the body, and signing puts it behind what it has written.  They all mean the same bits, as nothing
is left in a body that is read: what is verified for a body is the cell that would be signed for the
request in it (`SignedRequest.signed_of_decode`).
-/

namespace WalletWire

open Ed25519

theorem verifyTrailing_of_split {body signed : Cell} {signature : Signature}
    (split : splitTrailing body = .ok (signed, signature)) (key : PublicKey) :
    verifyTrailing body key = signed.verify signature key := by
  unfold verifyTrailing
  rw [split, Outcome.ok_bind]

namespace SignedRequest

variable {request : SignedRequest} {body signed : Cell}

/-- Any signature can be put behind the cell to be signed. -/
theorem exists_split_of_unsigned (written : request.unsigned = .ok signed)
    (signature : Signature) : ∃ body, encode { request with signature := signature } = .ok body ∧
      splitTrailing body = .ok (signed, signature) := by
  obtain ⟨body, encoded⟩ := @exists_encode_of_unsigned { request with signature := signature } _
    written
  exact ⟨body, encoded, (encode_with_iff written signature).1 encoded⟩

/-- Whatever can be written can be signed, whatever stands in place of the signature. -/
theorem exists_sign_of_unsigned (written : request.unsigned = .ok signed) (pair : KeyPair) :
    ∃ body, sign pair request =
        .ok body { request with signature := pair.sign signed.hash.toList } ∧
      splitTrailing body = .ok (signed, pair.sign signed.hash.toList) := by
  obtain ⟨body, -, split⟩ := exists_split_of_unsigned written (pair.sign signed.hash.toList)
  exact ⟨body, sign_ok_iff.2 ⟨signed, written, rfl, split⟩, split⟩

/-- Signing gives the same body and the same request just when the signature was that of the
signer. -/
theorem sign_same_iff (written : request.unsigned = .ok signed)
    (split : splitTrailing body = .ok (signed, request.signature)) (pair : KeyPair) :
    sign pair request = .ok body request ↔
      pair.sign signed.hash.toList = request.signature := by
  rw [sign_ok_iff]
  constructor
  · rintro ⟨signed', -, -, split'⟩
    obtain ⟨rfl, same⟩ := Prod.mk.inj (Except.ok.inj (split.symm.trans split'))
    exact same.symm
  · intro same
    refine ⟨signed, written, ?_, ?_⟩
    · rw [same]
    · rwa [same]

/-- The body of a request falls into its signature and the cell that is hashed to sign it, which
holds the other fields and a reference to the chain of its messages.  So a signature of this cell
is what verification of the body checks, and what signing the request again stores; the body is
reproduced just by the signer whose signature it has. -/
theorem signed_of_decode {limit : Option ℕ} (decoded : decode limit body = .ok request) :
    ∃ signed chain, splitTrailing body = .ok (signed, request.signature) ∧
      request.unsigned = .ok signed ∧ ActionChain.encode request.messages = .ok chain ∧
      signed.Holds request.fieldBits [chain] ∧
      (∀ key, verifyTrailing body key = signed.verify request.signature key) ∧
      ∀ pair, (∃ body', sign pair request =
            .ok body' { request with signature := pair.sign signed.hash.toList } ∧
          splitTrailing body' = .ok (signed, pair.sign signed.hash.toList)) ∧
        (sign pair request = .ok body request ↔
          pair.sign signed.hash.toList = request.signature) := by
  obtain ⟨encoded, -⟩ := decode_ok_iff.1 decoded
  obtain ⟨signed, written, split⟩ := encode_iff_unsigned.1 encoded
  obtain ⟨chain, chained, held⟩ := unsigned_ok_iff.1 written
  refine ⟨signed, chain, split, written, chained, held, verifyTrailing_of_split split, ?_⟩
  intro pair
  exact ⟨exists_sign_of_unsigned written pair, sign_same_iff written split pair⟩

set_option maxRecDepth 4000 in
theorem signed_of_decode_twoActions : ∃ (pair : KeyPair) (request : SignedRequest) (body : Cell),
    request.messages = twoActions.messages ∧ decode none body = .ok request ∧
      sign pair request = .ok body request := by
  -- The signature is kept as a variable: nothing here depends on its bytes.
  let pair : KeyPair := ⟨.replicate 32 0⟩
  obtain ⟨signed, written⟩ : ∃ signed, twoActions.unsigned = .ok signed := ⟨_, rfl⟩
  obtain ⟨signature, made⟩ : ∃ signature, pair.sign signed.hash.toList = signature := ⟨_, rfl⟩
  obtain ⟨body, encoded, -⟩ := exists_split_of_unsigned written signature
  have decoded : decode none body = .ok { twoActions with signature := signature } :=
    decode_ok_iff.2 ⟨encoded, nofun⟩
  obtain ⟨signed', _, -, written', -, -, -, again⟩ := signed_of_decode decoded
  cases Except.ok.inj (written'.symm.trans written)
  exact ⟨pair, { twoActions with signature := signature }, body, rfl, decoded,
    (again pair).2.2 made⟩

end SignedRequest

end WalletWire
