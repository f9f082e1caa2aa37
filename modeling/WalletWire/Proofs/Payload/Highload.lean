import WalletWire.Payload.Highload
import WalletWire.Proofs.Dictionary.Failure

/-!
# The layout of highload payloads

A highload payload is its header, a bit that says whether there are messages, and the root of their
dictionary if there are.  What is written is read back under both policies, since the positions of
a list are contiguous (`decode_of_encode`).
-/

namespace WalletWire

open Program

/-! ## Values -/

namespace Outgoing

variable {outgoing : Outgoing} {value : Cell}

theorem toValue_ok_iff : outgoing.toValue = .ok value ↔
    value.Holds (Bits.ofNat 8 outgoing.mode.toNat) [outgoing.message] := by
  have written := (Store.appends_u8 outgoing.mode).bind (Store.appends_ref outgoing.message)
  rw [List.append_nil] at written
  exact written.build_ok_iff

theorem ofValue_ok_iff : ofValue value = .ok outgoing ↔
    value.Holds (Bits.ofNat 8 outgoing.mode.toNat) [outgoing.message] := by
  unfold ofValue
  rw [← Slice.ofCell_splits_iff]
  simp only [Cell.read_ok_iff, bind_ok_iff, pure_ok_iff, Load.u8_ok_iff, Load.ref_ok_iff,
    Load.finish_ok_iff]
  constructor
  · rintro ⟨_, mode, s₁, h₁, message, s₂, h₂, ⟨⟩, s₃, ⟨rfl, spent⟩, rfl, rfl⟩
    refine ⟨s₂, ?_, spent⟩
    have whole := h₁.append h₂
    rwa [List.append_nil] at whole
  · rintro ⟨rest, h, spent⟩
    obtain ⟨mid, h₁, h₂⟩ := Slice.splits_refs_iff.1 h
    exact ⟨_, _, mid, h₁, _, rest, h₂, (), rest, ⟨rfl, spent⟩, rfl, rfl⟩

end Outgoing

/-! ## Messages by their positions -/

theorem IndexPolicy.collect_positions (policy : IndexPolicy) (start : ℕ)
    {messages : List Outgoing} {values : List Cell}
    (valued : messages.mapM Outgoing.toValue = .ok values) :
    policy.collect start (Dictionary.positions start values) = .ok messages := by
  have each := Outcome.mapM_ok_iff.1 valued
  clear valued
  induction each generalizing start with
  | nil => rfl
  | @cons outgoing value messages values head _ ih =>
    have held := Outgoing.ofValue_ok_iff.2 (Outgoing.toValue_ok_iff.1 head)
    unfold Dictionary.positions collect
    simp only [ne_eq, not_true_eq_false, and_false, if_false, Outcome.bind_ok_iff,
      Outcome.lift_ok_iff, Outcome.pure_ok_iff]
    exact ⟨outgoing, held, messages, ih (start + 1), rfl⟩

/-- What is accepted under any policy is accepted under the laxer one, with the same messages. -/
theorem IndexPolicy.collect_ascending {policy : IndexPolicy} {expected : ℕ}
    {entries : List (ℕ × Cell)} {messages : List Outgoing}
    (collected : policy.collect expected entries = .ok messages) :
    ascending.collect expected entries = .ok messages := by
  induction entries generalizing expected messages with
  | nil => exact collected
  | cons entry entries ih =>
    unfold collect at collected ⊢
    dsimp only at collected ⊢
    rw [if_neg nofun]
    split at collected
    · cases collected
    · simp only [Outcome.bind_ok_iff, Outcome.lift_ok_iff, Outcome.pure_ok_iff] at collected ⊢
      obtain ⟨outgoing, read, rest, others, rfl⟩ := collected
      exact ⟨outgoing, read, rest, ih others, rfl⟩

/-- The messages of a dictionary are refused for this. -/
inductive IndexPolicy.Refuses (policy : IndexPolicy) : BodyError → Prop where
  | reading {e : BodyError} (reading : e.OfReading) : policy.Refuses e
  | gap {expected found : ℕ} (strict : policy = contiguous) (above : expected < found) :
      policy.Refuses (.layout (.indexGap expected found))

theorem Outgoing.failsOnly_ofValue (value : Cell) :
    Outcome.FailsOnly (ofValue value) Cell.Error.OfReading :=
  Cell.failsOnly_read (Load.failsOnly_u8.bind fun _ => Load.failsOnly_ref.bind fun _ =>
    Load.failsOnly_finish.bind fun _ => failsOnly_pure _) value

/-- Indices that ascend are never below their positions, so a wrong one is above. -/
theorem IndexPolicy.failsOnly_collect (policy : IndexPolicy) {expected : ℕ}
    {entries : List (ℕ × Cell)} (ascending : entries.Pairwise fun e f => e.1 < f.1)
    (above : ∀ entry ∈ entries, expected ≤ entry.1) :
    Outcome.FailsOnly (policy.collect expected entries) policy.Refuses := by
  induction entries generalizing expected with
  | nil => exact Outcome.failsOnly_ok _
  | cons entry entries ih =>
    obtain ⟨index, value⟩ := entry
    obtain ⟨first, others⟩ := List.pairwise_cons.1 ascending
    have here : expected ≤ index := above _ (List.mem_cons_self ..)
    have there : ∀ entry ∈ entries, expected + 1 ≤ entry.1 := fun entry mem =>
      Nat.succ_le_of_lt (Nat.lt_of_le_of_lt here (first entry mem))
    unfold collect
    by_cases wrong : policy = contiguous ∧ index ≠ expected
    · rw [if_pos wrong]
      exact Outcome.failsOnly_error (.gap wrong.1 (lt_of_le_of_ne here wrong.2.symm))
    · rw [if_neg wrong]
      have read := (Outgoing.failsOnly_ofValue value).liftReading
      exact (read.mono fun _ => .reading).bind fun _ => (ih others there).bind fun _ =>
        Outcome.failsOnly_ok _

theorem Store.indexed_of_many {messages : List Outgoing} (many : maxIndexed < messages.length)
    (builder : Builder) : Store.indexed messages builder =
      .error (.capacityExceeded messages.length maxIndexed) builder := by
  unfold Store.indexed
  rw [if_pos many]
  rfl

theorem Store.indexed_ok_iff {messages : List Outgoing} {builder result : Builder} :
    Store.indexed messages builder = .ok () result ↔ messages.length ≤ maxIndexed ∧
      ∃ values root?, messages.mapM Outgoing.toValue = .ok values ∧
        (Dictionary.ofList values).encode indexWidth = .ok root? ∧
        builder.Extends [root?.isSome] root?.toList result := by
  unfold Store.indexed
  split
  · next many =>
    simp only [bind_ok_iff, throw_ok_iff, false_and, exists_false, false_iff]
    exact fun h => absurd h.1 (by omega)
  · next few =>
    simp only [bind_ok_iff, lift_ok_iff, ofExcept_ok_iff, Store.dictionary_ok_iff]
    constructor
    · rintro ⟨values, _, ⟨valued, rfl⟩, root?, encoded, h⟩
      exact ⟨by omega, values, root?, valued, encoded, h⟩
    · rintro ⟨-, values, root?, valued, encoded, h⟩
      exact ⟨values, builder, ⟨valued, rfl⟩, root?, encoded, h⟩

theorem Load.indexed_ok_iff {policy : IndexPolicy} {slice rest : Slice}
    {messages : List Outgoing} : Load.indexed policy slice = .ok messages rest ↔
      ∃ root? dictionary, slice.Splits [root?.isSome] root?.toList rest ∧
        Dictionary.ofRoot? indexWidth root? = .ok dictionary ∧
        policy.collect 0 dictionary.entries = .ok messages := by
  unfold Load.indexed
  simp only [bind_ok_iff, lift_ok_iff, ofExcept_ok_iff, Load.dictionary_ok_iff]
  constructor
  · rintro ⟨dictionary, _, ⟨-, root?, h, decoded⟩, collected, rfl⟩
    exact ⟨root?, dictionary, h, decoded, collected⟩
  · rintro ⟨root?, dictionary, h, decoded, collected⟩
    exact ⟨dictionary, rest, ⟨by decide, root?, h, decoded⟩, collected, rfl⟩

theorem Load.failsOnly_indexed (policy : IndexPolicy) :
    FailsOnly (Load.indexed policy) policy.Refuses := by
  have read : FailsOnly (Load.dictionary indexWidth) Cell.Error.OfReading :=
    failsOnly_dictionary (by decide)
  refine (read.liftReading.mono fun _ => .reading).bind fun dictionary => ?_
  exact (policy.failsOnly_collect dictionary.ascending fun _ _ => Nat.zero_le _).ofExcept

/-! ## Payloads -/

namespace HighloadPayload

/-- The bits in front of the dictionary. -/
def headerBits (payload : HighloadPayload) : Bits :=
  Bits.ofNat 32 payload.subwallet.toNat ++ Bits.ofNat 64 payload.queryId.toNat

@[simp] theorem length_headerBits (payload : HighloadPayload) :
    payload.headerBits.length = 96 := by
  simp [headerBits]

variable {payload : HighloadPayload} {policy : IndexPolicy} {cell : Cell}

/-- Writes the fields in front of the dictionary. -/
def storeHeader (payload : HighloadPayload) : Store BodyError Unit := do
  Store.u32 payload.subwallet
  Store.u64 payload.queryId

theorem appends_storeHeader (payload : HighloadPayload) :
    payload.storeHeader.Appends payload.headerBits [] :=
  (Store.appends_u32 payload.subwallet).lift.bind (Store.appends_u64 payload.queryId).lift

theorem encode_eq (payload : HighloadPayload) :
    payload.encode = Cell.build (payload.storeHeader >>= fun _ => Store.indexed payload.messages) := by
  unfold encode storeHeader
  simp only [bind_assoc]

theorem encode_ok_iff : payload.encode = .ok cell ↔ payload.messages.length ≤ maxIndexed ∧
    ∃ values root?, payload.messages.mapM Outgoing.toValue = .ok values ∧
      (Dictionary.ofList values).encode indexWidth = .ok root? ∧
      cell.Holds (payload.headerBits ++ [root?.isSome]) root?.toList := by
  have header := payload.appends_storeHeader
  rw [encode_eq, Cell.build_ok_iff]
  constructor
  · rintro ⟨result, written, rfl⟩
    simp only [header.bind_ok_iff, Store.indexed_ok_iff] at written
    obtain ⟨mid, h, few, values, root?, valued, encoded, h'⟩ := written
    have whole := Builder.extends_append_iff.2 ⟨mid, h, h'⟩
    exact ⟨few, values, root?, valued, encoded, Builder.empty_extends_iff.1 whole⟩
  · rintro ⟨few, values, root?, valued, encoded, held⟩
    obtain ⟨result, whole, built⟩ := Builder.empty_extends_of_holds held
    obtain ⟨mid, h, h'⟩ := (@Builder.extends_append_iff _ _ _ _ [] _).1 whole
    refine ⟨result, ?_, built⟩
    simp only [header.bind_ok_iff, Store.indexed_ok_iff]
    exact ⟨mid, h, few, values, root?, valued, encoded, h'⟩

theorem decode_ok_iff : decode policy cell = .ok payload ↔
    ∃ root? dictionary, cell.Holds (payload.headerBits ++ [root?.isSome]) root?.toList ∧
      Dictionary.ofRoot? indexWidth root? = .ok dictionary ∧
      policy.collect 0 dictionary.entries = .ok payload.messages := by
  unfold decode headerBits
  simp only [Cell.read_ok_iff, bind_ok_iff, pure_ok_iff, lift_ok_iff, Load.u32_ok_iff,
    Load.u64_ok_iff, Load.indexed_ok_iff, Load.finish_ok_iff, ← Slice.ofCell_splits_iff,
    Slice.splits_bits_iff, List.append_assoc]
  constructor
  · rintro ⟨_, subwallet, s₁, h₁, queryId, s₂, h₂, messages, s₃, ⟨root?, dictionary, h₃, decoded,
      collected⟩, ⟨⟩, s₄, ⟨rfl, spent⟩, rfl, rfl⟩
    exact ⟨root?, dictionary, ⟨s₃, ⟨s₁, h₁, s₂, h₂, h₃⟩, spent⟩, decoded, collected⟩
  · rintro ⟨root?, dictionary, ⟨rest, ⟨s₁, h₁, s₂, h₂, h₃⟩, spent⟩, decoded, collected⟩
    exact ⟨rest, _, s₁, h₁, _, s₂, h₂, _, rest, ⟨root?, dictionary, h₃, decoded, collected⟩, (),
      rest, ⟨rfl, spent⟩, rfl, rfl⟩

theorem decode_ascending (decoded : decode policy cell = .ok payload) :
    decode .ascending cell = .ok payload := by
  obtain ⟨root?, dictionary, held, read, collected⟩ := decode_ok_iff.1 decoded
  exact decode_ok_iff.2 ⟨root?, dictionary, held, read, IndexPolicy.collect_ascending collected⟩

/-- What is written is read back, whichever indices are accepted. -/
theorem decode_of_encode (policy : IndexPolicy) (written : payload.encode = .ok cell) :
    decode policy cell = .ok payload := by
  obtain ⟨-, values, root?, valued, encoded, held⟩ := encode_ok_iff.1 written
  exact decode_ok_iff.2 ⟨root?, .ofList values, held, Dictionary.ofRoot?_of_encode encoded,
    policy.collect_positions 0 valued⟩

theorem failsOnly_decode (policy : IndexPolicy) (cell : Cell) :
    Outcome.FailsOnly (decode policy cell) policy.Refuses := by
  have lift {α : Type} {x : Load Cell.Error α} (h : FailsOnly x Cell.Error.OfReading) :
      FailsOnly (liftM x : Load BodyError α) policy.Refuses :=
    h.liftReading.mono fun _ => .reading
  exact Cell.failsOnly_read ((lift Load.failsOnly_u32).bind fun _ =>
    (lift Load.failsOnly_u64).bind fun _ => (Load.failsOnly_indexed policy).bind fun _ =>
    (lift Load.failsOnly_finish).bind fun _ => failsOnly_pure _) cell

end HighloadPayload

end WalletWire
