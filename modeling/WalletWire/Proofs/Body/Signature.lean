import WalletWire.Body.Signature
import WalletWire.Proofs.Cell.Failure

/-!
# Where the signature of a body is

The 512 bits of a signature stand either in front of the bits of the signed cell or behind them,
and the references are those of the signed cell.  Taking a body apart and putting it together are
the two directions of this (`Envelope.ofBody_ok_iff` and `Envelope.toBody_ok_iff`,
`splitTrailing_ok_iff`).
-/

namespace WalletWire

open Program Ed25519

/-- The bits of a signature. -/
def Ed25519.Signature.bits (signature : Signature) : Bits :=
  Bits.ofBytes signature.bytes.toList

@[simp] theorem Ed25519.Signature.length_bits (signature : Signature) :
    signature.bits.length = signatureBits := by
  simp [bits, signatureBits]

/-! ## In front -/

namespace Envelope

variable {envelope : Envelope} {body : Cell}

theorem toBody_ok_iff : envelope.toBody = .ok body ↔
    body.Holds (envelope.signature.bits ++ envelope.payload.bits) envelope.payload.refs :=
  ((Store.appends_bytes _).lift.bind (Store.appends_inline _).lift).build_ok_iff

theorem ofBody_ok_iff : ofBody body = .ok envelope ↔
    body.Holds (envelope.signature.bits ++ envelope.payload.bits) envelope.payload.refs := by
  unfold ofBody Load.rest
  simp only [Cell.read_ok_iff, bind_ok_iff, pure_ok_iff, lift_ok_iff, get_ok_iff,
    Load.bytes_ok_iff]
  constructor
  · rintro ⟨rest, bytes, mid, h, payload, _, ⟨_, _, ⟨rfl, rfl⟩, rfl, rfl⟩, rfl, rfl⟩
    have held := mid.toCell_holds
    refine ⟨?_, ?_⟩
    · rw [held.bits_eq]
      exact h.1
    · rw [held.refs_eq]
      exact h.2
  · rintro ⟨hb, hr⟩
    obtain ⟨mid, h, mid_bits, mid_refs⟩ :=
      @Slice.exists_splits (.ofCell body) envelope.signature.bits _ [] _ hb hr
    have payload : mid.toCell = envelope.payload :=
      mid.toCell_holds.unique ⟨mid_bits.symm, mid_refs.symm⟩
    exact ⟨mid, envelope.signature.bytes, mid, h, envelope.payload, mid,
      ⟨mid, mid, ⟨rfl, rfl⟩, payload, rfl⟩, rfl, rfl⟩

theorem failsOnly_ofBody (body : Cell) : Outcome.FailsOnly (ofBody body) BodyError.OfReading :=
  Cell.failsOnly_read ((Load.failsOnly_bytes 64).liftReading.bind fun _ =>
    Load.failsOnly_rest.liftReading.bind fun _ => failsOnly_pure _) body

/-- A read of the payload ends well when the body is an envelope for what is read. -/
theorem payload_ok_iff {α : Type} {read : Cell → Except BodyError α} {value : α} :
    (do read (← ofBody body).payload) = .ok value ↔
      ∃ signed signature, ofBody body = .ok ⟨signature, signed⟩ ∧ read signed = .ok value := by
  rw [Outcome.bind_ok_iff]
  constructor
  · rintro ⟨envelope, split, h⟩
    exact ⟨envelope.payload, envelope.signature, split, h⟩
  · rintro ⟨signed, signature, split, h⟩
    exact ⟨_, split, h⟩

/-- A body that is too short for a signature is refused as one whose payload cannot be read. -/
theorem failsOnly_payload {α : Type} {read : Cell → Except BodyError α} {P : BodyError → Prop}
    (fails : ∀ cell, Outcome.FailsOnly (read cell) P) (reading : ∀ e, e.OfReading → P e)
    (body : Cell) : Outcome.FailsOnly (do read (← ofBody body).payload) P :=
  ((failsOnly_ofBody body).mono reading).bind fun _ => fails _

end Envelope

/-! ## Behind -/

/-- A body that is long enough always splits, as its parts fit where the body fits. -/
theorem splitTrailing_ok_iff {body signed : Cell} {signature : Signature} :
    splitTrailing body = .ok (signed, signature) ↔
      body.Holds (signed.bits ++ signature.bits) signed.refs := by
  have rebuilt (bits : Bits) (cell : Cell) : Cell.build (do
      Store.bits bits
      Store.refs body.refs : Store BodyError Unit) = .ok cell ↔ cell.Holds bits body.refs := by
    have written := (@Store.appends_bits bits).lift.bind (Store.appends_refs body.refs).lift
    rw [List.append_nil] at written
    exact written.build_ok_iff
  unfold splitTrailing
  dsimp only
  constructor
  · intro h
    split at h
    · cases h
    · next long =>
      simp only [Outcome.bind_ok_iff, Outcome.pure_ok_iff, Cell.read_ok_iff, bind_ok_iff,
        pure_ok_iff, lift_ok_iff, Load.bits_ok_iff, Load.bytes_ok_iff, rebuilt] at h
      obtain ⟨_, ⟨_, bits, mid, ⟨front, h₁⟩, bytes, rest, h₂, rfl, rfl⟩, _, built, ⟨⟩⟩ := h
      -- The last 512 bits are all of the signature, so nothing is left behind it.
      have all : (bits ++ Signature.bits ⟨bytes⟩).length = body.bits.length := by
        rw [List.length_append, Signature.length_bits, front]
        omega
      have whole := (Slice.ofCell_splits_all_iff all).1 ⟨rest, h₁.append h₂⟩
      rw [built.bits_eq, built.refs_eq]
      exact ⟨whole, rfl⟩
  · rintro ⟨hb, hr⟩
    have length : body.bits.length = signed.bits.length + signatureBits := by
      rw [hb, List.length_append, Signature.length_bits]
    rw [if_neg (by omega)]
    simp only [Outcome.bind_ok_iff, Outcome.pure_ok_iff, Cell.read_ok_iff, bind_ok_iff,
      pure_ok_iff, lift_ok_iff, Load.bits_ok_iff, Load.bytes_ok_iff, rebuilt]
    obtain ⟨rest, h⟩ := (Slice.ofCell_splits_all_iff (congrArg List.length hb.symm)).2 hb
    obtain ⟨mid, h₁, h₂⟩ := Slice.splits_bits_iff.1 h
    exact ⟨(signed.bits, signature.bytes), ⟨rest, signed.bits, mid, ⟨by omega, h₁⟩,
      signature.bytes, rest, h₂, rfl, rfl⟩, signed, ⟨rfl, hr.symm⟩, rfl⟩

end WalletWire
