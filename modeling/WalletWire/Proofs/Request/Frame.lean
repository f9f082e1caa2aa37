import WalletWire.Proofs.Body.Signature
import WalletWire.Proofs.Request.Chain
import WalletWire.Request.Basic

/-!
# The layout of signed requests

A request is its fields, the signature, and a reference to the chain of its actions; the cell to be
signed is the same without the signature.  A request is read exactly from the cell that would be
written for it, as far as the limit allows its messages (`SignedRequest.decode_ok_iff`).  The chain
is read last, so a body that has not the size of a request is refused for its layout, whatever the
limit is.  All but the chain has a fixed size, so a chain that goes too deep is all that can be in
the way of writing or signing (`SignedRequest.failsOnly_encode`, `SignedRequest.failsOnly_sign`).
-/

namespace WalletWire

open Program

theorem Channel.ofTag?_eq_some_iff {tag : UInt32} {channel : Channel} :
    ofTag? tag = some channel ↔ channel.tag = tag := by
  constructor
  · intro h
    exact of_decide_eq_true (List.find?_some (p := fun c : Channel => c.tag = tag) h)
  · rintro rfl
    exact ofTag?_tag channel

namespace SignedRequest

variable {request : SignedRequest} {body chain : Cell} {limit : Option ℕ}

/-- The bits in front of the signature. -/
def fieldBits (request : SignedRequest) : Bits :=
  Bits.ofNat 32 request.channel.tag.toNat ++ (Bits.ofBytes request.walletId.toList ++
    (Bits.ofNat 32 request.validUntil.toNat ++ (Bits.ofNat 32 request.seqno.toNat ++
      [request.flag])))

@[simp] theorem length_fieldBits (request : SignedRequest) : request.fieldBits.length = 177 := by
  simp [fieldBits]

theorem fieldBits_fit (request : SignedRequest) : request.fieldBits.length ≤ maxBits := by
  rw [length_fieldBits]
  decide

/-! ## Writing -/

theorem appends_storeFields (request : SignedRequest) :
    request.storeFields.Appends request.fieldBits [] :=
  (Store.appends_u32 _).bind ((Store.appends_bytes _).bind ((Store.appends_u32 _).bind
    ((Store.appends_u32 _).bind (Store.appends_bit _))))

/-- All of a request fits, so only the depth of the chain counts. -/
theorem appends_request (request : SignedRequest) (chain : Cell) :
    Store.AppendsUnless (· = BodyError.ofCell .tooDeep)
      (do
        request.storeFields
        Store.bytes request.signature.bytes.toList
        Store.ref chain)
      (request.fieldBits ++ request.signature.bits) [chain] := by
  have written := (Store.AppendsUnless.of_bits request.appends_storeFields.lift).bind
    ((Store.AppendsUnless.of_bits
      (Store.appends_bytes request.signature.bytes.toList).lift).bind (.refOf chain))
  rwa [List.append_nil] at written

theorem appends_unsigned (request : SignedRequest) (chain : Cell) :
    Store.AppendsUnless (· = BodyError.ofCell .tooDeep)
      (do
        request.storeFields
        Store.ref chain)
      request.fieldBits [chain] := by
  have written := (Store.AppendsUnless.of_bits request.appends_storeFields.lift).bind
    (.refOf chain)
  rwa [List.append_nil] at written

theorem encode_ok_iff : request.encode = .ok body ↔ ∃ chain,
    ActionChain.encode request.messages = .ok chain ∧
      body.Holds (request.fieldBits ++ request.signature.bits) [chain] := by
  unfold encode
  rw [Outcome.bind_ok_iff]
  exact exists_congr fun chain =>
    and_congr_right fun _ => (request.appends_request chain).appends.build_ok_iff

theorem unsigned_ok_iff : request.unsigned = .ok body ↔ ∃ chain,
    ActionChain.encode request.messages = .ok chain ∧ body.Holds request.fieldBits [chain] := by
  unfold unsigned
  rw [Outcome.bind_ok_iff]
  exact exists_congr fun chain =>
    and_congr_right fun _ => (request.appends_unsigned chain).appends.build_ok_iff

/-- With room for the bits, only depth stands in the way of a chain and a cell that refers to it. -/
theorem failsOnly_overChain {write : Cell → Store BodyError Unit} {bits : Bits}
    (appends : ∀ chain,
      Store.AppendsUnless (· = BodyError.ofCell .tooDeep) (write chain) bits [chain])
    (fit : bits.length ≤ maxBits) (messages : List Outgoing) :
    Outcome.FailsOnly (do Cell.build (write (← ActionChain.encode messages)))
      (· = BodyError.ofCell .tooDeep) := by
  refine (ActionChain.failsOnly_encode messages).bind fun chain e failed => ?_
  have few : [chain].length ≤ maxRefs := by
    show 1 ≤ maxRefs
    decide
  exact (appends chain).build_error fit few failed

theorem failsOnly_encode (request : SignedRequest) :
    Outcome.FailsOnly request.encode (· = BodyError.ofCell .tooDeep) := by
  refine failsOnly_overChain request.appends_request ?_ request.messages
  rw [List.length_append, length_fieldBits, Ed25519.Signature.length_bits]
  decide

theorem failsOnly_unsigned (request : SignedRequest) :
    Outcome.FailsOnly request.unsigned (· = BodyError.ofCell .tooDeep) :=
  failsOnly_overChain request.appends_unsigned request.fieldBits_fit request.messages

theorem failsOnly_sign (pair : Ed25519.KeyPair) :
    FailsOnly (sign pair) (· = BodyError.ofCell .tooDeep) := by
  unfold sign
  refine failsOnly_get.bind fun request => ?_
  refine (failsOnly_unsigned request).ofExcept.bind fun _ => ?_
  refine failsOnly_modify.bind fun _ => ?_
  exact failsOnly_get.bind fun signed => (failsOnly_encode signed).ofExcept

/-- The cell of a request is the cell to be signed with the signature behind it. -/
theorem encode_iff_unsigned : request.encode = .ok body ↔ ∃ signed,
    request.unsigned = .ok signed ∧ splitTrailing body = .ok (signed, request.signature) := by
  simp only [encode_ok_iff, unsigned_ok_iff, splitTrailing_ok_iff]
  constructor
  · rintro ⟨chain, written, held⟩
    obtain ⟨signed, front⟩ := body.exists_holds request.fieldBits_fit
    rw [held.refs_eq] at front
    refine ⟨signed, ⟨chain, written, front⟩, ?_⟩
    rwa [front.bits_eq, front.refs_eq]
  · rintro ⟨signed, ⟨chain, written, front⟩, held⟩
    rw [front.bits_eq, front.refs_eq] at held
    exact ⟨chain, written, held⟩

/-- There is always room for the signature. -/
theorem exists_encode_of_unsigned {signed : Cell} (written : request.unsigned = .ok signed) :
    ∃ body, request.encode = .ok body := by
  obtain ⟨chain, -, front⟩ := unsigned_ok_iff.1 written
  have fit : (signed.bits ++ request.signature.bits).length ≤ maxBits := by
    rw [front.bits_eq, List.length_append, length_fieldBits, Ed25519.Signature.length_bits]
    decide
  obtain ⟨body, held⟩ := signed.exists_holds fit
  exact ⟨body, encode_iff_unsigned.2 ⟨signed, written, splitTrailing_ok_iff.2 held⟩⟩

/-- The signature has no part in the cell to be signed, so any one can be put behind it. -/
theorem encode_with_iff {signed : Cell} (written : request.unsigned = .ok signed)
    (signature : Ed25519.Signature) : encode { request with signature := signature } = .ok body ↔
      splitTrailing body = .ok (signed, signature) := by
  rw [encode_iff_unsigned]
  constructor
  · rintro ⟨signed', again, split⟩
    cases Except.ok.inj (again.symm.trans written)
    exact split
  · intro split
    exact ⟨signed, written, split⟩

/-- Signing stores a signature for the cell to be signed and changes nothing else. -/
theorem sign_ok_iff {pair : Ed25519.KeyPair} {request' : SignedRequest} :
    sign pair request = .ok body request' ↔ ∃ signed, request.unsigned = .ok signed ∧
      request' = { request with signature := pair.sign signed.hash.toList } ∧
      splitTrailing body = .ok (signed, pair.sign signed.hash.toList) := by
  unfold sign
  simp only [bind_ok_iff, get_ok_iff, ofExcept_ok_iff]
  constructor
  · rintro ⟨_, _, ⟨rfl, rfl⟩, signed, _, ⟨written, rfl⟩, ⟨⟩, _, modified, _, _, ⟨rfl, rfl⟩, encoded,
      rfl⟩
    obtain rfl := modify_ok_iff.1 modified
    exact ⟨signed, written, rfl, (encode_with_iff written _).1 encoded⟩
  · rintro ⟨signed, written, rfl, split⟩
    exact ⟨request, request, ⟨rfl, rfl⟩, signed, request, ⟨written, rfl⟩, (), _,
      modify_ok_iff.2 rfl, _, _, ⟨rfl, rfl⟩, (encode_with_iff written _).2 split, rfl⟩

/-! ## Reading -/

/-- Reads all of a request but its messages, and the chain that they are in. -/
def loadFrame : Load BodyError (SignedRequest × Cell) := do
  let tag ← Load.u32
  match Channel.ofTag? tag with
  | none => throw (.layout (.requestTag tag))
  | some channel =>
    let walletId ← Load.bytes 10
    let validUntil ← Load.u32
    let seqno ← Load.u32
    let flag ← Load.bit
    let signature ← Load.bytes 64
    let chain ← Load.ref
    Load.finish
    return (⟨channel, walletId, validUntil, seqno, flag, ⟨signature⟩, []⟩, chain)

theorem load_eq (limit : Option ℕ) : load limit = (do
    let (frame, chain) ← loadFrame
    let messages ← MonadExcept.ofExcept (ActionChain.decode limit chain)
    return { frame with messages }) := by
  unfold load loadFrame
  rw [bind_assoc]
  refine bind_congr fun tag => ?_
  cases Channel.ofTag? tag with
  | none => rfl
  | some channel => simp only [bind_assoc, pure_bind]

theorem loadFrame_ok_iff {slice rest : Slice} {frame : SignedRequest} :
    loadFrame slice = .ok (frame, chain) rest ↔ frame.messages = [] ∧
      slice.Splits (frame.fieldBits ++ frame.signature.bits) [chain] rest ∧ rest.Spent := by
  unfold loadFrame fieldBits Ed25519.Signature.bits
  simp only [bind_ok_iff, lift_ok_iff, Load.u32_ok_iff, List.append_assoc, Slice.splits_bits_iff]
  constructor
  · rintro ⟨tag, s₁, h₁, h⟩
    cases known : Channel.ofTag? tag with
    | none => simp only [known, throw_ok_iff] at h
    | some channel =>
      simp only [known, bind_ok_iff, lift_ok_iff, pure_ok_iff, Load.u32_ok_iff, Load.bytes_ok_iff,
        Load.bit_ok_iff, Load.ref_ok_iff, Load.finish_ok_iff] at h
      obtain ⟨walletId, s₂, h₂, validUntil, s₃, h₃, seqno, s₄, h₄, flag, s₅, h₅, signature, s₆, h₆,
        _, s₇, h₇, ⟨⟩, _, ⟨rfl, spent⟩, ⟨⟩, rfl⟩ := h
      obtain rfl := Channel.ofTag?_eq_some_iff.1 known
      exact ⟨rfl, ⟨s₁, h₁, s₂, h₂, s₃, h₃, s₄, h₄, s₅, h₅, Slice.splits_refs_iff.2 ⟨s₆, h₆, h₇⟩⟩,
        spent⟩
  · rintro ⟨no_messages, ⟨s₁, h₁, s₂, h₂, s₃, h₃, s₄, h₄, s₅, h₅, h⟩, spent⟩
    obtain ⟨s₆, h₆, h₇⟩ := Slice.splits_refs_iff.1 h
    refine ⟨frame.channel.tag, s₁, h₁, ?_⟩
    rw [Channel.ofTag?_tag]
    simp only [bind_ok_iff, lift_ok_iff, pure_ok_iff, Load.u32_ok_iff, Load.bytes_ok_iff,
      Load.bit_ok_iff, Load.ref_ok_iff, Load.finish_ok_iff]
    refine ⟨_, s₂, h₂, _, s₃, h₃, _, s₄, h₄, _, s₅, h₅, _, s₆, h₆, chain, rest, h₇, (), rest,
      ⟨rfl, spent⟩, ?_, rfl⟩
    rw [← no_messages]

/-- A request is refused for this under a limit for its chain. -/
inductive Refuses (limit : Option ℕ) : BodyError → Prop where
  | reading {e : BodyError} (reading : e.OfReading) : Refuses limit e
  | channel {tag : UInt32} (unknown : Channel.ofTag? tag = none) :
      Refuses limit (.layout (.requestTag tag))
  | chain {e : BodyError} (refused : ActionChain.Refuses limit e) : Refuses limit e

theorem Refuses.inLayout {e : BodyError} (refused : Refuses none e) : e.InLayout := by
  cases refused with
  | reading reading => exact reading.inLayout
  | channel => exact ⟨_, rfl⟩
  | chain refused => exact refused.inLayout

theorem failsOnly_loadFrame (limit : Option ℕ) : FailsOnly loadFrame (Refuses limit) := by
  have lift {α : Type} {x : Load Cell.Error α} (h : FailsOnly x Cell.Error.OfReading) :
      FailsOnly (liftM x : Load BodyError α) (Refuses limit) :=
    h.liftReading.mono fun _ => .reading
  refine (lift Load.failsOnly_u32).bind fun tag => ?_
  cases known : Channel.ofTag? tag with
  | none => exact failsOnly_throw (.channel known)
  | some channel =>
    exact (lift (Load.failsOnly_bytes _)).bind fun _ => (lift Load.failsOnly_u32).bind fun _ =>
      (lift Load.failsOnly_u32).bind fun _ => (lift Load.failsOnly_bit).bind fun _ =>
      (lift (Load.failsOnly_bytes _)).bind fun _ => (lift Load.failsOnly_ref).bind fun _ =>
      (lift Load.failsOnly_finish).bind fun _ => failsOnly_pure _

theorem failsOnly_decode (limit : Option ℕ) (body : Cell) :
    Outcome.FailsOnly (decode limit body) (Refuses limit) := by
  refine Cell.failsOnly_read ?_ body
  rw [load_eq]
  refine (failsOnly_loadFrame limit).bind fun ⟨frame, chain⟩ => ?_
  have chained : Outcome.FailsOnly (ActionChain.decode limit chain) (Refuses limit) :=
    (ActionChain.failsOnly_decodeFrom limit 0 chain).mono fun _ => .chain
  exact chained.ofExcept.bind fun _ => failsOnly_pure _

/-- A request is read exactly from the cell that would be written for it. -/
theorem decode_ok_iff : decode limit body = .ok request ↔
    request.encode = .ok body ∧ ∀ most ∈ limit, request.messages.length ≤ most := by
  unfold decode
  simp only [Cell.read_ok_iff, load_eq, bind_ok_iff, Prod.exists, ofExcept_ok_iff, pure_ok_iff,
    ActionChain.decode_ok_iff, encode_ok_iff, ← Slice.ofCell_splits_iff]
  constructor
  · rintro ⟨_, frame, chain, rest, loaded, messages, _, ⟨⟨written, few⟩, rfl⟩, rfl, rfl⟩
    obtain ⟨-, h, spent⟩ := loadFrame_ok_iff.1 loaded
    exact ⟨⟨chain, written, rest, h, spent⟩, few⟩
  · rintro ⟨⟨chain, written, rest, h, spent⟩, few⟩
    have loaded : loadFrame (.ofCell body) = .ok ({ request with messages := [] }, chain) rest :=
      loadFrame_ok_iff.2 ⟨rfl, h, spent⟩
    exact ⟨rest, _, chain, rest, loaded, request.messages, rest, ⟨⟨written, few⟩, rfl⟩, rfl, rfl⟩

/-- The cell to be signed fixes all of the request but its signature. -/
theorem eq_of_unsigned {request' : SignedRequest} {signed : Cell}
    (written : request.unsigned = .ok signed) (written' : request'.unsigned = .ok signed)
    (signature : Ed25519.Signature) :
    { request with signature := signature } = { request' with signature := signature } := by
  obtain ⟨body, encoded⟩ := @exists_encode_of_unsigned { request with signature := signature } _
    written
  have encoded' : encode { request' with signature := signature } = .ok body :=
    (encode_with_iff written' signature).2 ((encode_with_iff written signature).1 encoded)
  -- Both are what this one body decodes to.
  have decoded : decode none body = .ok { request with signature := signature } :=
    decode_ok_iff.2 ⟨encoded, nofun⟩
  have decoded' : decode none body = .ok { request' with signature := signature } :=
    decode_ok_iff.2 ⟨encoded', nofun⟩
  exact Except.ok.inj (decoded.symm.trans decoded')

/-- Only in a body of the size of a request can anything but the layout be wrong. -/
theorem inLayout_of_decode {e : BodyError} (failed : decode limit body = .error e) :
    e.InLayout ∨ (body.bits.length = 177 + Ed25519.signatureBits ∧ body.refs.length = 1) := by
  unfold decode at failed
  rw [Cell.read_error_iff, load_eq] at failed
  obtain ⟨rest, failed⟩ := failed
  obtain failed | ⟨⟨frame, chain⟩, mid, loaded, -⟩ := bind_error_iff.1 failed
  · exact .inl (failsOnly_loadFrame none _ _ _ failed).inLayout
  · right
    obtain ⟨-, h, spent⟩ := loadFrame_ok_iff.1 loaded
    obtain ⟨bits, refs⟩ := Slice.ofCell_splits_iff.1 ⟨mid, h, spent⟩
    rw [bits, refs, List.length_append, length_fieldBits, Ed25519.Signature.length_bits]
    exact ⟨rfl, rfl⟩

end SignedRequest

end WalletWire
