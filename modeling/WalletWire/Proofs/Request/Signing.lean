import WalletWire.Proofs.Request.Depth

/-!
# Signing changes the signature or nothing

Signing stores the new signature first and writes the body afterwards, so a body that could not be
written would leave a request with a signature that nobody has asked for.  But there is room for a
signature wherever the cell to be signed could be written (`exists_encode_of_unsigned`), so signing
fails before it has changed anything or not at all (`SignedRequest.sign_error_iff`).  The old
signature has no part in the cell to be signed, and so none in what signing does
(`SignedRequest.atomic_sign`).
-/

namespace WalletWire.SignedRequest

open Ed25519 Program

variable {pair : KeyPair} {request left : SignedRequest} {e : BodyError}

theorem unsigned_withSignature (request : SignedRequest) (signature : Signature) :
    unsigned { request with signature := signature } = request.unsigned := rfl

/-! ## Failure -/

/-- Without a cell to be signed, nothing is changed. -/
theorem sign_of_unsigned_error (failed : request.unsigned = .error e) :
    sign pair request = .error e request := by
  show (MonadExcept.ofExcept request.unsigned >>= _ : EStateM BodyError SignedRequest Cell)
    request = _
  rw [failed]
  rfl

theorem sign_error_iff : sign pair request = .error e left ↔
    request.unsigned = .error e ∧ left = request := by
  cases written : request.unsigned with
  | ok signed =>
    obtain ⟨body, done, -⟩ := exists_sign_of_unsigned written pair
    simp [done]
  | error cause =>
    rw [sign_of_unsigned_error written]
    simp [eq_comm]

/-! ## Success -/

/-- The signature is one of the cell to be signed, and the body is the one of the request that is
left. -/
theorem signed_of_sign {body : Cell} (done : sign pair request = .ok body left) :
    ∃ signed, request.unsigned = .ok signed ∧
      left = { request with signature := pair.sign signed.hash.toList } ∧
      left.encode = .ok body := by
  obtain ⟨signed, written, rfl, split⟩ := sign_ok_iff.1 done
  exact ⟨signed, written, rfl, (encode_with_iff written _).2 split⟩

theorem sign_withSignature_ok_iff {body : Cell} (signature : Signature) :
    sign pair { request with signature := signature } = .ok body left ↔
      sign pair request = .ok body left := by
  rw [sign_ok_iff, sign_ok_iff, unsigned_withSignature]

theorem sign_withSignature_error_iff (signature : Signature) :
    sign pair { request with signature := signature } =
        .error e { request with signature := signature } ↔
      sign pair request = .error e request := by
  rw [sign_error_iff, sign_error_iff, unsigned_withSignature, and_iff_left rfl, and_iff_left rfl]

theorem sign_again {body : Cell} (done : sign pair request = .ok body left) :
    sign pair left = .ok body left := by
  obtain ⟨signed, -, rfl, -⟩ := signed_of_sign done
  exact (sign_withSignature_ok_iff _).2 done

theorem sign_twice (pair : KeyPair) : (do let _ ← sign pair; sign pair) = sign pair := by
  funext request
  cases done : sign pair request with
  | ok body left => exact bind_ok_iff.2 ⟨body, left, done, sign_again done⟩
  | error e left => exact bind_error_iff.2 (.inl done)

/-! ## All or nothing -/

/-- If signing fails, the request is as before, and what failed is the cell to be signed; where this
can be written, the body can be written with any signature.  If signing succeeds, only the signature
has changed and the body is that of the request with it.  Whatever the old signature was, signing
fails for the same error or gives the same body and leaves the same request, so it makes no
difference whether a request is signed once or twice. -/
theorem atomic_sign (pair : KeyPair) :
    (∀ request e left, sign pair request = .error e left →
      left = request ∧ request.unsigned = .error e) ∧
    (∀ (request : SignedRequest) signed, request.unsigned = .ok signed → ∀ signature, ∃ body,
      encode { request with signature := signature } = .ok body) ∧
    (∀ request body left, sign pair request = .ok body left → ∃ signed,
      request.unsigned = .ok signed ∧
      left = { request with signature := pair.sign signed.hash.toList } ∧
      left.encode = .ok body) ∧
    (∀ (request : SignedRequest) signature,
      (∀ body left, sign pair { request with signature := signature } = .ok body left ↔
        sign pair request = .ok body left) ∧
      ∀ e, sign pair { request with signature := signature } =
          .error e { request with signature := signature } ↔
        sign pair request = .error e request) ∧
    (do let _ ← sign pair; sign pair) = sign pair := by
  refine ⟨fun request e left failed => ?_, fun request signed written signature => ?_,
    fun request body left => signed_of_sign, fun request signature => ⟨fun body left => ?_, ?_⟩,
    sign_twice pair⟩
  · exact (sign_error_iff.1 failed).symm
  · exact exists_encode_of_unsigned written
  · exact sign_withSignature_ok_iff signature
  · exact fun e => sign_withSignature_error_iff signature

/-- A request with as many messages as can be signed, and one with one more. -/
theorem atomic_sign_longChains : ∃ (pair : KeyPair) (long longer left : SignedRequest) (body : Cell)
    (e : BodyError), long.messages.length = 1023 ∧ longer.messages.length = 1024 ∧
      sign pair long = .ok body left ∧ left.encode = .ok body ∧ sign pair left = .ok body left ∧
      sign pair longer = .error e longer := by
  let pair : KeyPair := ⟨.replicate 32 0⟩
  let chain (count : ℕ) : List Outgoing := .replicate count ⟨0, .empty⟩
  let long : SignedRequest := { twoActions with messages := chain 1023 }
  let longer : SignedRequest := { twoActions with messages := chain 1024 }
  have deep (count : ℕ) := ActionChain.depthOf_replicate count 0
  obtain ⟨failing, -, succeeding, -, twice⟩ := atomic_sign pair
  obtain ⟨signed, written⟩ := long.exists_unsigned_iff.2 ((deep 1023).trans_lt (by decide))
  obtain ⟨body, done, -⟩ := exists_sign_of_unsigned written pair
  obtain ⟨_, -, -, encoded⟩ := succeeding _ _ _ done
  -- Signed twice, the request is signed once more after the first time.
  obtain ⟨body', left', first, second⟩ := bind_ok_iff.1 ((congrFun twice long).trans done)
  cases first.symm.trans done
  cases outcome : sign pair longer with
  | ok body left =>
    obtain ⟨signed, written, -⟩ := succeeding _ _ _ outcome
    have fits := longer.exists_unsigned_iff.1 ⟨signed, written⟩
    rw [deep 1024] at fits
    exact absurd fits (by decide)
  | error e left =>
    obtain ⟨rfl, -⟩ := failing _ _ _ outcome
    exact ⟨pair, long, longer, _, body, e, List.length_replicate, List.length_replicate, done,
      encoded, second, outcome⟩

end WalletWire.SignedRequest
