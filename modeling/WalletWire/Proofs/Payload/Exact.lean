import WalletWire.Proofs.Cell.Tree
import WalletWire.Proofs.Payload.Slots

/-!
# Payloads with slots and their trees

Both kinds of payload with slots are read from just the trees that are written for them, and are
written whenever there is a slot for each message and no message is too deep to be referred to
(`exact_slots`).  No count of the messages is written: modes and references are read in step, and
the last reference has to be the last of everything.  With four slots there is room for all modes,
so nothing but the slots and the depth of a message can be too little.
-/

namespace WalletWire

/-- There is a slot for each message, and each message can be referred to. -/
structure Outgoing.FitSlots (messages : List Outgoing) : Prop where
  length_le : messages.length ≤ maxSlots
  depth_lt : ∀ outgoing ∈ messages, outgoing.message.depth < maxDepth

/-- Messages are written behind something else exactly when they fit in the slots. -/
theorem Outgoing.exists_holds_iff {front : Bits} (short : front.length + 8 * maxSlots ≤ maxBits)
    (messages : List Outgoing) : (∃ cell : Cell, cell.Holds (front ++ modeBits messages)
      (messages.map message)) ↔ FitSlots messages := by
  rw [Cell.exists_holds_iff, List.length_append, length_modeBits, List.length_map,
    List.forall_mem_map]
  constructor
  · rintro ⟨-, length_le, depth_lt⟩
    exact ⟨length_le, depth_lt⟩
  · rintro ⟨length_le, depth_lt⟩
    exact ⟨by omega, length_le, depth_lt⟩

section Codec

variable {α : Type} {messages : α → List Outgoing} {encode : α → Except BodyError Cell}
  {decode : Cell → Except BodyError α}

/-- Payloads are read from just the trees that are written for them, and just those payloads are
written whose messages fit in the slots. -/
structure SlotCodec (messages : α → List Outgoing) (encode : α → Except BodyError Cell)
    (decode : Cell → Except BodyError α) : Prop where
  exact : ExactCodec encode decode
  exists_encode_iff : ∀ payload, (∃ cell, encode payload = .ok cell) ↔
    Outgoing.FitSlots (messages payload)

theorem SlotCodec.of_layout (front : α → Bits)
    (short : ∀ payload, (front payload).length + 8 * maxSlots ≤ maxBits)
    (written : ∀ payload cell, encode payload = .ok cell ↔
      cell.Holds (front payload ++ Outgoing.modeBits (messages payload))
        ((messages payload).map Outgoing.message))
    (read : ∀ payload cell, decode cell = .ok payload ↔
      cell.Holds (front payload ++ Outgoing.modeBits (messages payload))
        ((messages payload).map Outgoing.message)) : SlotCodec messages encode decode where
  exact := .of_ok_iff fun cell payload => (read payload cell).trans (written payload cell).symm
  exists_encode_iff := by
    intro payload
    simp only [written]
    exact Outgoing.exists_holds_iff (short payload) (messages payload)

theorem SlotCodec.read_back (codec : SlotCodec messages encode decode) (payload : α)
    (fit : Outgoing.FitSlots (messages payload)) :
    ∃ cell, encode payload = .ok cell ∧ decode cell = .ok payload := by
  obtain ⟨cell, written⟩ := (codec.exists_encode_iff payload).2 fit
  exact ⟨cell, written, codec.exact.decode_of_encode written⟩

end Codec

theorem PayloadV3.slotCodec : SlotCodec messages encode decode := by
  apply SlotCodec.of_layout fun payload => payload.header.bits
  · intro payload
    rw [Header.length_bits]
    decide
  · exact fun _ _ => encode_ok_iff
  · exact fun _ _ => decode_ok_iff

theorem PayloadV4.slotCodec : SlotCodec messages encode decode := by
  have bits_eq (payload : PayloadV4) : payload.bits =
      payload.header.bits ++ Bits.ofNat 8 payload.op.toUInt8.toNat ++
        Outgoing.modeBits payload.messages := (List.append_assoc ..).symm
  apply SlotCodec.of_layout fun payload =>
    payload.header.bits ++ Bits.ofNat 8 payload.op.toUInt8.toNat
  · intro payload
    rw [List.length_append, Header.length_bits, Bits.length_ofNat]
    decide
  · intro payload cell
    rw [encode_ok_iff, bits_eq]
  · intro payload cell
    rw [decode_ok_iff, bits_eq]

/-- Both codecs are exact, and write whatever fits in the slots.  An operation code and modes are
read back as they were written, whether they mean anything or not. -/
theorem exact_slots :
    SlotCodec PayloadV3.messages PayloadV3.encode PayloadV3.decode ∧
    SlotCodec PayloadV4.messages PayloadV4.encode PayloadV4.decode ∧
    (∀ header messages, Outgoing.FitSlots messages → ∃ cell read,
      PayloadV3.encode ⟨header, messages⟩ = .ok cell ∧ PayloadV3.decode cell = .ok read ∧
        read.messages.map Outgoing.mode = messages.map Outgoing.mode) ∧
    (∀ header op messages, Outgoing.FitSlots messages → ∃ cell read,
      PayloadV4.encode ⟨header, op, messages⟩ = .ok cell ∧ PayloadV4.decode cell = .ok read ∧
        read.op = op ∧ read.messages.map Outgoing.mode = messages.map Outgoing.mode) := by
  refine ⟨PayloadV3.slotCodec, PayloadV4.slotCodec, ?_, ?_⟩
  · intro header messages fit
    obtain ⟨cell, written, read⟩ := PayloadV3.slotCodec.read_back ⟨header, messages⟩ fit
    exact ⟨cell, _, written, read, rfl⟩
  · intro header op messages fit
    obtain ⟨cell, written, read⟩ := PayloadV4.slotCodec.read_back ⟨header, op, messages⟩ fit
    exact ⟨cell, _, written, read, rfl, rfl⟩

/-- An operation that is not known, and all bits of a mode. -/
def unknownOp : PayloadV4 where
  header := ⟨0, 1, 2⟩
  op := -1
  messages := [⟨255, .empty⟩, ⟨3, .empty⟩]

theorem exact_slots_unknownOp : unknownOp.operation? = none ∧
    (∃ cell read, unknownOp.encode = .ok cell ∧ PayloadV4.decode cell = .ok read ∧ read.op = -1 ∧
      read.messages.map Outgoing.mode = [255, 3]) ∧
    ¬ ∃ cell, PayloadV3.encode ⟨⟨0, 1, 2⟩, .replicate 5 ⟨3, .empty⟩⟩ = .ok cell := by
  obtain ⟨third, -, -, carried⟩ := exact_slots
  refine ⟨by decide, carried _ _ _ ⟨by decide, by decide⟩, fun written => ?_⟩
  have fit := (third.exists_encode_iff _).1 written
  exact absurd fit.length_le (by decide)

end WalletWire
