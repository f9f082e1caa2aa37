import WalletWire.Proofs.Body.Decision
import WalletWire.Proofs.Cell.Tree

/-!
# Taking bodies apart and putting them together

Every body of at least 512 bits falls into a signature and a signed cell, at any number of bits, and
the two make up the same tree again (`lossless_signatures`).  So a signature leaves nothing of the
body out, and there are no two bodies with the same parts.  Only in the other direction is there a
bound: a signature in front takes 512 of the 1023 bits away from the payload.
-/

namespace WalletWire

open Ed25519

/-! ## In front -/

namespace Envelope

/-- An envelope is found in just the tree that it is written as. -/
theorem exactCodec : ExactCodec toBody ofBody :=
  .of_ok_iff fun _ _ => ofBody_ok_iff.trans toBody_ok_iff.symm

theorem exists_ofBody_iff (body : Cell) :
    (∃ envelope, ofBody body = .ok envelope) ↔ 512 ≤ body.bits.length := by
  constructor
  · rintro ⟨envelope, found⟩
    rw [(ofBody_ok_iff.1 found).bits_eq, List.length_append, Signature.length_bits]
    exact Nat.le_add_right ..
  · intro long
    have split := @Generation.split_of_long .v3 body long
    exact ⟨_, (Generation.envelope_iff_split .v3 nofun).2 split⟩

/-- The references of a payload can always be taken over, so only its bits matter. -/
theorem exists_toBody_iff (envelope : Envelope) :
    (∃ body, envelope.toBody = .ok body) ↔ envelope.payload.bits.length ≤ 511 := by
  have length : (envelope.signature.bits ++ envelope.payload.bits).length =
      512 + envelope.payload.bits.length := by
    rw [List.length_append, Signature.length_bits]
    rfl
  constructor
  · rintro ⟨body, written⟩
    have fit := body.bits_le
    rw [(toBody_ok_iff.1 written).bits_eq, length] at fit
    unfold maxBits at fit
    omega
  · intro short
    have fit : (envelope.signature.bits ++ envelope.payload.bits).length ≤ maxBits := by
      unfold maxBits
      omega
    obtain ⟨body, held⟩ := envelope.payload.exists_holds fit
    exact ⟨body, toBody_ok_iff.2 held⟩

end Envelope

/-! ## Behind -/

theorem exists_splitTrailing_iff (body : Cell) :
    (∃ parts, splitTrailing body = .ok parts) ↔ 512 ≤ body.bits.length := by
  constructor
  · rintro ⟨⟨signed, signature⟩, split⟩
    rw [(splitTrailing_ok_iff.1 split).bits_eq, List.length_append, Signature.length_bits]
    exact Nat.le_add_left ..
  · intro long
    exact ⟨_, @Generation.split_of_long .v5 body long⟩

/-- Equal parts are parts of equal bodies. -/
theorem tree_eq_of_splitTrailing {body body' signed signed' : Cell} {signature : Signature}
    (split : splitTrailing body = .ok (signed, signature))
    (split' : splitTrailing body' = .ok (signed', signature)) (same : signed.tree = signed'.tree) :
    body.tree = body'.tree := by
  cases Cell.tree_inj.1 same
  have held := splitTrailing_ok_iff.1 split
  exact congrArg Cell.tree (held.unique (splitTrailing_ok_iff.1 split'))

/-! ## Both -/

/-- A signature in front is found in every body that is long enough, together with a payload, and in
no body but the one they are written as; they can be written when the payload has 511 bits at most.
A signature behind is found in the same bodies, the signed cell has all other bits and all
references, and no two bodies have the same signature and the same signed tree. -/
theorem lossless_signatures :
    (∀ body, (∃ envelope, Envelope.ofBody body = .ok envelope) ↔ 512 ≤ body.bits.length) ∧
    (∀ envelope : Envelope,
      (∃ body, envelope.toBody = .ok body) ↔ envelope.payload.bits.length ≤ 511) ∧
    ExactCodec Envelope.toBody Envelope.ofBody ∧
    (∀ body, (∃ parts, splitTrailing body = .ok parts) ↔ 512 ≤ body.bits.length) ∧
    (∀ body signed signature, splitTrailing body = .ok (signed, signature) →
      body.bits = signed.bits ++ signature.bits ∧ body.refs = signed.refs) ∧
    (∀ body body' signed signed' signature, splitTrailing body = .ok (signed, signature) →
      splitTrailing body' = .ok (signed', signature) → signed.tree = signed'.tree →
      body.tree = body'.tree) := by
  refine ⟨Envelope.exists_ofBody_iff, Envelope.exists_toBody_iff, Envelope.exactCodec,
    exists_splitTrailing_iff, ?_, fun _ _ _ _ _ => tree_eq_of_splitTrailing⟩
  intro body signed signature split
  have held := splitTrailing_ok_iff.1 split
  exact ⟨held.bits_eq, held.refs_eq⟩

/-- One bit more than a signature, and two references. -/
def unaligned : Cell :=
  .ofContent ⟨List.replicate 513 true, [.empty, .empty], by
    rw [List.length_replicate]
    decide, by decide, by decide⟩

theorem lossless_signatures_unaligned :
    (∃ envelope written, Envelope.ofBody unaligned = .ok envelope ∧
      envelope.payload.bits.length ≤ 511 ∧ envelope.toBody = .ok written ∧
      written.tree = unaligned.tree) ∧
    ∃ signed signature, splitTrailing unaligned = .ok (signed, signature) ∧
      unaligned.bits = signed.bits ++ signature.bits ∧ unaligned.refs = signed.refs := by
  have long : 512 ≤ unaligned.bits.length := by
    rw [unaligned, Cell.bits_ofContent, List.length_replicate]
    decide
  obtain ⟨opened, sealed, exact, split, parts, -⟩ := lossless_signatures
  obtain ⟨envelope, found⟩ := (opened unaligned).2 long
  obtain ⟨written, rewritten, same⟩ := (exact unaligned envelope).1 found
  obtain ⟨⟨signed, signature⟩, behind⟩ := (split unaligned).2 long
  have short := (sealed envelope).1 ⟨written, rewritten⟩
  exact ⟨⟨envelope, written, found, short, rewritten, same⟩,
    signed, signature, behind, parts unaligned signed signature behind⟩

end WalletWire
