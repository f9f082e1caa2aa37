import WalletWire.Payload.FixedSlot
import WalletWire.Proofs.Cell.Failure

/-!
# The layout of payloads with slots

The bits of such a payload are its header and one mode byte for each message, and its references are
the messages.  Reading and writing are the two directions of this one correspondence between
payloads and cells (`PayloadV3.decode_ok_iff` and `PayloadV3.encode_ok_iff`, and the same for the
fourth version).
-/

namespace WalletWire

open Program

/-! ## Header -/

/-- The bits of a header. -/
def Header.bits (header : Header) : Bits :=
  Bits.ofNat 32 header.subwallet.toNat ++
    (Bits.ofNat 32 header.validUntil.toNat ++ Bits.ofNat 32 header.seqno.toNat)

@[simp] theorem Header.length_bits (header : Header) : header.bits.length = 96 := by
  simp [bits]

theorem Store.appends_header (header : Header) : (Store.header header).Appends header.bits [] :=
  (appends_u32 _).lift.bind ((appends_u32 _).lift.bind (appends_u32 _).lift)

theorem Load.header_ok_iff {slice rest : Slice} {header : Header} :
    Load.header slice = .ok header rest ↔ slice.Splits header.bits [] rest := by
  unfold Load.header Header.bits
  simp only [bind_ok_iff, lift_ok_iff, pure_ok_iff, Load.u32_ok_iff, Slice.splits_bits_iff]
  constructor
  · rintro ⟨subwallet, s₁, h₁, validUntil, s₂, h₂, seqno, s₃, h₃, rfl, rfl⟩
    exact ⟨s₁, h₁, s₂, h₂, h₃⟩
  · rintro ⟨s₁, h₁, s₂, h₂, h₃⟩
    exact ⟨_, s₁, h₁, _, s₂, h₂, _, rest, h₃, rfl, rfl⟩

theorem Load.failsOnly_header : FailsOnly Load.header BodyError.OfReading :=
  failsOnly_u32.liftReading.bind fun _ => failsOnly_u32.liftReading.bind fun _ =>
    failsOnly_u32.liftReading.bind fun _ => failsOnly_pure _

/-! ## Slots -/

/-- The mode bytes of a list of messages. -/
def Outgoing.modeBits (messages : List Outgoing) : Bits :=
  messages.flatMap fun outgoing => Bits.ofNat 8 outgoing.mode.toNat

@[simp] theorem Outgoing.length_modeBits (messages : List Outgoing) :
    (modeBits messages).length = 8 * messages.length := by
  induction messages with
  | nil => rfl
  | cons outgoing messages ih =>
    simp only [modeBits, List.flatMap_cons, List.length_append, Bits.length_ofNat,
      List.length_cons] at ih ⊢
    omega

namespace Store

/-- Writes one message into its slot. -/
def slot (outgoing : Outgoing) : Store BodyError Unit := do
  Store.u8 outgoing.mode
  Store.ref outgoing.message

theorem appends_slot (outgoing : Outgoing) :
    (slot outgoing).Appends (Bits.ofNat 8 outgoing.mode.toNat) [outgoing.message] := by
  have pair := (appends_u8 outgoing.mode).lift.bind (appends_ref outgoing.message).lift
  rwa [List.append_nil] at pair

variable {messages : List Outgoing}

theorem slots_of_few (few : messages.length ≤ maxSlots) :
    slots messages = messages.forM slot := by
  unfold slots
  rw [if_neg (Nat.not_lt.2 few)]
  rfl

theorem slots_of_many (many : maxSlots < messages.length) (builder : Builder) :
    slots messages builder = .error (.capacityExceeded messages.length maxSlots) builder := by
  unfold slots
  rw [if_pos many]
  rfl

theorem appends_slots (messages : List Outgoing) :
    (slots messages).Appends (Outgoing.modeBits messages) (messages.map Outgoing.message) := by
  have written : Appends (messages.forM slot) (Outgoing.modeBits messages)
      (messages.map Outgoing.message) := by
    induction messages with
    | nil => exact appends_pure
    | cons outgoing messages ih => exact (appends_slot outgoing).bind ih
  intro builder result
  obtain few | many := le_or_gt messages.length maxSlots
  · rw [slots_of_few few]
    exact written builder result
  · rw [slots_of_many many]
    refine iff_of_false nofun ?_
    -- A builder has no room for so many references.
    rintro ⟨-, hr⟩
    have refs_le := result.refs_le
    rw [hr, List.length_append, List.length_map] at refs_le
    unfold maxSlots at many
    unfold maxRefs at refs_le
    omega

end Store

theorem Load.slotsOf_ok_iff {count : ℕ} {slice rest : Slice} {messages : List Outgoing} :
    Load.slotsOf count slice = .ok messages rest ↔ messages.length = count ∧
      slice.Splits (Outgoing.modeBits messages) (messages.map Outgoing.message) rest ∧
      rest.Spent := by
  induction count generalizing slice rest messages with
  | zero =>
    simp only [Load.slotsOf, bind_ok_iff, lift_ok_iff, pure_ok_iff, Load.finish_ok_iff]
    constructor
    · rintro ⟨⟨⟩, _, ⟨rfl, spent⟩, rfl, rfl⟩
      exact ⟨rfl, Slice.splits_nil_iff.2 rfl, spent⟩
    · rintro ⟨none_left, h, spent⟩
      obtain rfl := List.length_eq_zero_iff.1 none_left
      exact ⟨(), slice, ⟨rfl, Slice.splits_nil_iff.1 h ▸ spent⟩, rfl, Slice.splits_nil_iff.1 h⟩
  | succ count ih =>
    simp only [Load.slotsOf, bind_ok_iff, lift_ok_iff, pure_ok_iff, Load.ref_ok_iff,
      Load.u8_ok_iff, ih]
    constructor
    · rintro ⟨message, s₁, h₁, mode, s₂, h₂, others, s₃, ⟨rfl, h₃, spent⟩, rfl, rfl⟩
      exact ⟨rfl, h₁.append (h₂.append h₃), spent⟩
    · rintro ⟨length, h, spent⟩
      cases messages with
      | nil => cases length
      | cons outgoing others =>
        obtain ⟨s₁, h₁, h⟩ := Slice.splits_ref_iff.1 h
        obtain ⟨s₂, h₂, h₃⟩ := Slice.splits_bits_iff.1 h
        exact ⟨_, s₁, h₁, _, s₂, h₂, others, rest, ⟨Nat.succ.inj length, h₃, spent⟩, rfl, rfl⟩

/-- There are as many messages as references, so the count need not be written. -/
theorem Load.slots_ok_iff {slice rest : Slice} {messages : List Outgoing} :
    Load.slots slice = .ok messages rest ↔
      slice.Splits (Outgoing.modeBits messages) (messages.map Outgoing.message) rest ∧
      rest.Spent := by
  unfold Load.slots
  simp only [bind_ok_iff, get_ok_iff]
  constructor
  · rintro ⟨_, _, ⟨rfl, rfl⟩, h⟩
    exact (Load.slotsOf_ok_iff.1 h).2
  · rintro ⟨h, spent⟩
    refine ⟨slice, slice, ⟨rfl, rfl⟩, Load.slotsOf_ok_iff.2 ⟨?_, h, spent⟩⟩
    rw [h.2, spent.2, List.append_nil, List.length_map]

theorem Load.failsOnly_slotsOf (count : ℕ) : FailsOnly (Load.slotsOf count) BodyError.OfReading := by
  induction count with
  | zero => exact failsOnly_finish.liftReading.bind fun _ => failsOnly_pure _
  | succ count ih =>
    exact failsOnly_ref.liftReading.bind fun _ => failsOnly_u8.liftReading.bind fun _ =>
      ih.bind fun _ => failsOnly_pure _

theorem Load.failsOnly_slots : FailsOnly Load.slots BodyError.OfReading :=
  failsOnly_get.bind fun _ => failsOnly_slotsOf _

/-! ## Third version -/

namespace PayloadV3

/-- The bits of a payload. -/
def bits (payload : PayloadV3) : Bits :=
  payload.header.bits ++ Outgoing.modeBits payload.messages

variable {payload : PayloadV3} {cell : Cell}

theorem encode_ok_iff : payload.encode = .ok cell ↔
    cell.Holds payload.bits (payload.messages.map Outgoing.message) :=
  ((Store.appends_header _).bind (Store.appends_slots _)).build_ok_iff

theorem decode_ok_iff : decode cell = .ok payload ↔
    cell.Holds payload.bits (payload.messages.map Outgoing.message) := by
  unfold decode bits
  rw [← Slice.ofCell_splits_iff]
  simp only [Cell.read_ok_iff, bind_ok_iff, pure_ok_iff, Load.header_ok_iff, Load.slots_ok_iff,
    Slice.splits_bits_iff]
  constructor
  · rintro ⟨_, header, mid, h, messages, rest, ⟨h', spent⟩, rfl, rfl⟩
    exact ⟨rest, ⟨mid, h, h'⟩, spent⟩
  · rintro ⟨rest, ⟨mid, h, h'⟩, spent⟩
    exact ⟨rest, _, mid, h, _, rest, ⟨h', spent⟩, rfl, rfl⟩

theorem failsOnly_decode (cell : Cell) : Outcome.FailsOnly (decode cell) BodyError.OfReading :=
  Cell.failsOnly_read (Load.failsOnly_header.bind fun _ => Load.failsOnly_slots.bind fun _ =>
    failsOnly_pure _) cell

end PayloadV3

/-! ## Fourth version -/

namespace PayloadV4

/-- The bits of a payload. -/
def bits (payload : PayloadV4) : Bits :=
  payload.header.bits ++
    (Bits.ofNat 8 payload.op.toUInt8.toNat ++ Outgoing.modeBits payload.messages)

variable {payload : PayloadV4} {cell : Cell}

theorem encode_ok_iff : payload.encode = .ok cell ↔
    cell.Holds payload.bits (payload.messages.map Outgoing.message) :=
  ((Store.appends_header _).bind
    ((Store.appends_i8 _).lift.bind (Store.appends_slots _))).build_ok_iff

theorem decode_ok_iff : decode cell = .ok payload ↔
    cell.Holds payload.bits (payload.messages.map Outgoing.message) := by
  unfold decode bits
  rw [← Slice.ofCell_splits_iff]
  simp only [Cell.read_ok_iff, bind_ok_iff, pure_ok_iff, lift_ok_iff, Load.header_ok_iff,
    Load.i8_ok_iff, Load.slots_ok_iff, Slice.splits_bits_iff]
  constructor
  · rintro ⟨_, header, s₁, h₁, op, s₂, h₂, messages, rest, ⟨h₃, spent⟩, rfl, rfl⟩
    exact ⟨rest, ⟨s₁, h₁, s₂, h₂, h₃⟩, spent⟩
  · rintro ⟨rest, ⟨s₁, h₁, s₂, h₂, h₃⟩, spent⟩
    exact ⟨rest, _, s₁, h₁, _, s₂, h₂, _, rest, ⟨h₃, spent⟩, rfl, rfl⟩

theorem failsOnly_decode (cell : Cell) : Outcome.FailsOnly (decode cell) BodyError.OfReading :=
  Cell.failsOnly_read (Load.failsOnly_header.bind fun _ =>
    Load.failsOnly_i8.liftReading.bind fun _ => Load.failsOnly_slots.bind fun _ =>
    failsOnly_pure _) cell

end PayloadV4

end WalletWire
