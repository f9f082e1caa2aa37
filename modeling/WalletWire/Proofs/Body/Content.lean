import WalletWire.Body.Basic
import WalletWire.Proofs.Payload.Highload
import WalletWire.Proofs.Payload.Slots
import WalletWire.Proofs.Request.Frame

/-!
# The signed part of a body and what it says

A body of a given generation falls into a signed cell and a signature (`Generation.split`).
Verification checks this signature over the hash of this cell (`Body.verify_eq`), and all of the
content but the signature is in the signed cell (`Body.said_of_decode`, `Body.decode_of_unsigned`).
The size of the signed cell tells the generation (`Generation.eq_of_sized`): a payload with slots
has 12 or 13 bytes and one more for each reference, and the other two layouts have no whole number
of bytes.
-/

namespace WalletWire

open Ed25519

/-! ## Generations -/

namespace Generation

/-- The signed cell and the signature in a body. -/
def split (g : Generation) (body : Cell) : Except BodyError (Cell × Signature) :=
  match g with
  | v3 | v4 | highloadV2 => do
    let envelope ← Envelope.ofBody body
    return (envelope.payload, envelope.signature)
  | v5 => splitTrailing body

/-- The bits of a body from those of the signed cell and the signature. -/
def join (g : Generation) (signed signature : Bits) : Bits :=
  match g with
  | v3 | v4 | highloadV2 => signature ++ signed
  | v5 => signed ++ signature

/-- A signed cell of this many bits and references may belong to the generation. -/
def Sized (bits refs : ℕ) : Generation → Prop
  | v3 => bits = 96 + 8 * refs
  | v4 => bits = 104 + 8 * refs
  | highloadV2 => bits = 97
  | v5 => bits = 177 ∧ refs = 1

variable {g h : Generation} {body signed : Cell} {signature : Signature} {bits refs : ℕ}

theorem length_join (g : Generation) (signed : Bits) (signature : Signature) :
    (g.join signed signature.bits).length = signed.length + signatureBits := by
  cases g <;> simp only [join, List.length_append, Signature.length_bits, Nat.add_comm]

theorem split_ok_iff : g.split body = .ok (signed, signature) ↔
    body.Holds (g.join signed.bits signature.bits) signed.refs := by
  have front : (do
      let envelope ← Envelope.ofBody body
      return (envelope.payload, envelope.signature)) = .ok (signed, signature) ↔
      body.Holds (signature.bits ++ signed.bits) signed.refs := by
    simp only [Outcome.bind_ok_iff, Outcome.pure_ok_iff, Envelope.ofBody_ok_iff]
    constructor
    · rintro ⟨envelope, held, ⟨⟩⟩
      exact held
    · intro held
      exact ⟨⟨signature, signed⟩, held, rfl⟩
  cases g with
  | v5 => exact splitTrailing_ok_iff
  | _ => exact front

theorem envelope_iff_split (g : Generation) (front : g ≠ v5) :
    Envelope.ofBody body = .ok ⟨signature, signed⟩ ↔ g.split body = .ok (signed, signature) := by
  rw [Envelope.ofBody_ok_iff, split_ok_iff]
  cases g with
  | v5 => exact absurd rfl front
  | _ => rfl

theorem eq_of_sized (hg : g.Sized bits refs) (hh : h.Sized bits refs) : g = h := by
  cases g <;> cases h <;> first | rfl | (unfold Sized at hg hh; omega)

theorem bits_le_of_sized (sized : g.Sized bits refs) (few : refs ≤ maxRefs) : bits ≤ 177 := by
  unfold maxRefs at few
  cases g <;> unfold Sized at sized <;> omega

/-- There is always room for the signature. -/
theorem exists_split (sized : g.Sized signed.bits.length signed.refs.length)
    (signature : Signature) : ∃ body, g.split body = .ok (signed, signature) := by
  have short := bits_le_of_sized sized signed.refs_le
  have fit : (g.join signed.bits signature.bits).length ≤ maxBits := by
    rw [length_join]
    unfold signatureBits maxBits
    omega
  obtain ⟨body, held⟩ := signed.exists_holds fit
  exact ⟨body, split_ok_iff.2 held⟩

/-- The body has the size of a signature and a signed cell of the generation. -/
def Admits (g : Generation) (body : Cell) : Prop :=
  ∃ bits, body.bits.length = bits + signatureBits ∧ g.Sized bits body.refs.length

theorem eq_of_admits (hg : g.Admits body) (hh : h.Admits body) : g = h := by
  obtain ⟨bits, length, sized⟩ := hg
  obtain ⟨bits', length', sized'⟩ := hh
  obtain rfl : bits = bits' := by omega
  exact eq_of_sized sized sized'

end Generation

namespace Body

variable {settings : Settings} {version : Version} {g : Generation} {body signed : Cell}
  {signature : Signature} {content : Body}

/-! ## Verification -/

/-- Whether trailing signatures are verified matters for the generation that has them. -/
theorem verify_eq_of_verified (supported : version.generation = .ok g)
    (verified : g = .v5 → settings.verifiesTrailing = true) (key : PublicKey) :
    verify settings version body key = (do
      let (signed, signature) ← g.split body
      signed.verify signature key) := by
  unfold verify Generation.split
  rw [supported]
  cases g with
  | v5 =>
    show (if settings.verifiesTrailing then _ else _) = _
    rw [if_pos (verified rfl)]
    rfl
  | _ =>
    show (Envelope.ofBody body >>= fun envelope => envelope.verify key) = _
    simp only [bind_assoc, pure_bind, Envelope.verify]

theorem verify_eq (supported : version.generation = .ok g)
    (unified : settings.verifiesTrailing = true) (key : PublicKey) :
    verify settings version body key = (do
      let (signed, signature) ← g.split body
      signed.verify signature key) :=
  verify_eq_of_verified supported (fun _ => unified) key

/-! ## Contents -/

/-- The layout of the content. -/
def generation : Body → Generation
  | v3 _ => .v3
  | v4 _ => .v4
  | highloadV2 _ => .highloadV2
  | v5 _ => .v5

/-- The content with another signature, where it has one. -/
def withSignature (signature : Signature) : Body → Body
  | v5 request => v5 { request with signature := signature }
  | content => content

/-- The cell to be signed for the content. -/
def unsigned : Body → Except BodyError Cell
  | v3 payload => payload.encode
  | v4 payload => payload.encode
  | highloadV2 payload => payload.encode
  | v5 request => request.unsigned

/-- The signed cell says this content, under the laxest settings. -/
def SaidBy (signed : Cell) : Body → Prop
  | v3 payload => PayloadV3.decode signed = .ok payload
  | v4 payload => PayloadV4.decode signed = .ok payload
  | highloadV2 payload => HighloadPayload.decode .ascending signed = .ok payload
  | v5 request => request.unsigned = .ok signed

theorem messages_withSignature (signature : Signature) (content : Body) :
    (content.withSignature signature).messages = content.messages := by
  cases content <;> rfl

theorem saidBy_of_unsigned (written : content.unsigned = .ok signed) : content.SaidBy signed := by
  cases content with
  | v3 payload => exact PayloadV3.decode_ok_iff.2 (PayloadV3.encode_ok_iff.1 written)
  | v4 payload => exact PayloadV4.decode_ok_iff.2 (PayloadV4.encode_ok_iff.1 written)
  | highloadV2 payload => exact HighloadPayload.decode_of_encode .ascending written
  | v5 request => exact written

theorem SaidBy.sized (said : content.SaidBy signed) :
    content.generation.Sized signed.bits.length signed.refs.length := by
  cases content with
  | v3 payload =>
    have held := PayloadV3.decode_ok_iff.1 said
    show _ = _
    rw [held.bits_eq, held.refs_eq, PayloadV3.bits, List.length_append, Header.length_bits,
      Outgoing.length_modeBits, List.length_map]
  | v4 payload =>
    have held := PayloadV4.decode_ok_iff.1 said
    show _ = _
    rw [held.bits_eq, held.refs_eq, PayloadV4.bits, List.length_append, List.length_append,
      Header.length_bits, Bits.length_ofNat, Outgoing.length_modeBits, List.length_map]
    omega
  | highloadV2 payload =>
    obtain ⟨_, _, held, -⟩ := HighloadPayload.decode_ok_iff.1 said
    show _ = _
    rw [held.bits_eq, List.length_append, HighloadPayload.length_headerBits]
    rfl
  | v5 request =>
    obtain ⟨_, -, held⟩ := SignedRequest.unsigned_ok_iff.1 said
    rw [held.bits_eq, held.refs_eq, SignedRequest.length_fieldBits]
    exact ⟨rfl, rfl⟩

/-- A signed cell says one thing, whatever the generation and the signature. -/
theorem SaidBy.unique {content' : Body} (said : content.SaidBy signed)
    (said' : content'.SaidBy signed) : content.generation = content'.generation ∧
      ∀ signature, content.withSignature signature = content'.withSignature signature := by
  have same := Generation.eq_of_sized said.sized said'.sized
  refine ⟨same, fun signature => ?_⟩
  cases content <;> cases content' <;> try cases same
  case v3.v3 | v4.v4 | highloadV2.highloadV2 =>
    cases Except.ok.inj (said.symm.trans said')
    rfl
  case v5.v5 request request' =>
    exact congrArg v5 (SignedRequest.eq_of_unsigned said said' signature)

/-! ## Decoding -/

theorem said_of_decode (decoded : decode settings version body = .ok content) :
    version.generation = .ok content.generation ∧ ∃ signed signature,
      content.generation.split body = .ok (signed, signature) ∧ content.SaidBy signed := by
  unfold decode at decoded
  rw [Outcome.bind_ok_iff] at decoded
  obtain ⟨g, supported, decoded⟩ := decoded
  cases g with
  | v3 =>
    simp only [Outcome.bind_ok_iff, Outcome.pure_ok_iff] at decoded
    obtain ⟨payload, read, rfl⟩ := decoded
    obtain ⟨signed, signature, split, said⟩ := Envelope.payload_ok_iff.1 read
    have parts := (Generation.envelope_iff_split .v3 (by decide)).1 split
    exact ⟨supported, signed, signature, parts, said⟩
  | v4 =>
    simp only [Outcome.bind_ok_iff, Outcome.pure_ok_iff] at decoded
    obtain ⟨payload, read, rfl⟩ := decoded
    obtain ⟨signed, signature, split, said⟩ := Envelope.payload_ok_iff.1 read
    have parts := (Generation.envelope_iff_split .v4 (by decide)).1 split
    exact ⟨supported, signed, signature, parts, said⟩
  | highloadV2 =>
    simp only [Outcome.bind_ok_iff, Outcome.pure_ok_iff] at decoded
    obtain ⟨payload, read, rfl⟩ := decoded
    obtain ⟨signed, signature, split, said⟩ := Envelope.payload_ok_iff.1 read
    have parts := (Generation.envelope_iff_split .highloadV2 (by decide)).1 split
    exact ⟨supported, signed, signature, parts, HighloadPayload.decode_ascending said⟩
  | v5 =>
    simp only [Outcome.bind_ok_iff, Outcome.pure_ok_iff] at decoded
    obtain ⟨request, decoded, rfl⟩ := decoded
    obtain ⟨written, -⟩ := SignedRequest.decode_ok_iff.1 decoded
    obtain ⟨signed, said, split⟩ := SignedRequest.encode_iff_unsigned.1 written
    exact ⟨supported, signed, request.signature, split, said⟩

/-- What is written into the signed cell of a body is read back with the signature of the body. -/
theorem decode_of_unsigned (written : content.unsigned = .ok signed)
    (split : content.generation.split body = .ok (signed, signature))
    (supported : version.generation = .ok content.generation)
    (few : ∀ most ∈ settings.chainLimit, content.messages.length ≤ most) :
    decode settings version body = .ok (content.withSignature signature) := by
  unfold decode
  rw [Outcome.bind_ok_iff]
  refine ⟨content.generation, supported, ?_⟩
  cases content with
  | v3 payload =>
    have envelope := (Generation.envelope_iff_split .v3 (by decide)).2 split
    have read := Envelope.payload_ok_iff.2 ⟨signed, signature, envelope, saidBy_of_unsigned written⟩
    exact Outcome.bind_ok_iff.2 ⟨payload, read, rfl⟩
  | v4 payload =>
    have envelope := (Generation.envelope_iff_split .v4 (by decide)).2 split
    have read := Envelope.payload_ok_iff.2 ⟨signed, signature, envelope, saidBy_of_unsigned written⟩
    exact Outcome.bind_ok_iff.2 ⟨payload, read, rfl⟩
  | highloadV2 payload =>
    have envelope := (Generation.envelope_iff_split .highloadV2 (by decide)).2 split
    have read := Envelope.payload_ok_iff.2
      ⟨signed, signature, envelope, HighloadPayload.decode_of_encode settings.indexPolicy written⟩
    exact Outcome.bind_ok_iff.2 ⟨payload, read, rfl⟩
  | v5 request =>
    have encoded : SignedRequest.encode { request with signature := signature } = .ok body :=
      SignedRequest.encode_iff_unsigned.2 ⟨signed, written, split⟩
    exact Outcome.bind_ok_iff.2 ⟨_, SignedRequest.decode_ok_iff.2 ⟨encoded, few⟩, rfl⟩

end Body

end WalletWire
