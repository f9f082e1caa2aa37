import WalletWire.Proofs.Dictionary.Depth
import WalletWire.Proofs.Payload.Highload

/-!
# Room for messages under their positions

A message in a highload payload hangs below its value, the forks on the way to the value, and the
payload itself.  As many positions part in as many forks as it takes bits to count them, 8 for 254
of them, so payloads can carry messages of depth 1014 (`HighloadPayload.positional_codec`).  Fewer
messages can be deeper (`HighloadPayload.encodable_iff_of_depth`).
-/

namespace WalletWire

open Program

/-! ## Values -/

namespace Outgoing

variable {outgoing : Outgoing} {value : Cell}

theorem exists_toValue_iff :
    (∃ value, outgoing.toValue = .ok value) ↔ outgoing.message.depth < maxDepth := by
  simp only [toValue_ok_iff, Cell.exists_holds_iff, Bits.length_ofNat]
  simp [maxBits, maxRefs]

theorem length_of_toValue (valued : outgoing.toValue = .ok value) : value.bits.length = 8 := by
  rw [(toValue_ok_iff.1 valued).bits_eq, Bits.length_ofNat]

theorem depth_of_toValue (valued : outgoing.toValue = .ok value) :
    value.depth = outgoing.message.depth + 1 :=
  (toValue_ok_iff.1 valued).depth_of_single

end Outgoing

namespace Dictionary

variable {start : ℕ} {values : List Cell}

theorem length_positions : (positions start values).length = values.length := by
  induction values generalizing start with
  | nil => rfl
  | cons value values ih => exact congrArg (· + 1) ih

theorem of_mem_positions {entry : ℕ × Cell} (mem : entry ∈ positions start values) :
    entry.1 < start + values.length ∧ entry.2 ∈ values := by
  induction values generalizing start with
  | nil => cases mem
  | cons value values ih =>
    rw [List.length_cons, List.mem_cons]
    rcases List.mem_cons.1 mem with rfl | mem
    · exact ⟨by omega, .inl rfl⟩
    · obtain ⟨below, held⟩ := ih mem
      exact ⟨by omega, .inr held⟩

variable {width bits size least most : ℕ}

/-- A short list of small values can be written. -/
theorem exists_encode_ofList (width_ok : 1 ≤ width ∧ width ≤ 64) (inside : bits ≤ width)
    (counted : values.length ≤ 2 ^ bits) (sizes : ∀ value ∈ values, value.bits.length ≤ size)
    (depths : ∀ value ∈ values, value.depth ≤ most) (room : 2 * width + 2 + size ≤ maxBits)
    (shallow : bits + most ≤ maxDepth) : ∃ root?, (ofList values).encode width = .ok root? ∧
      ∀ root ∈ root?, root.depth ≤ bits + most := by
  refine exists_encode width_ok inside ?_ ?_ ?_ room shallow
  · intro entry mem
    have := (of_mem_positions mem).1
    omega
  · exact fun entry mem => sizes _ (of_mem_positions mem).2
  · exact fun entry mem => depths _ (of_mem_positions mem).2

/-- The root has as many forks above some value as it takes bits to count the values. -/
theorem add_clog_le_depth {root : Cell} (written : (ofList values).encode width = .ok (some root))
    (deep : ∀ value ∈ values, least ≤ value.depth) :
    least + Nat.clog 2 values.length ≤ root.depth := by
  obtain ⟨-, fits, trie, built, encoded⟩ := encode_some_iff.1 written
  have paths := Trie.paths_of_ofEntries (ascends fits) built
  have count : trie.paths.length = values.length := by
    rw [paths, List.length_map]
    exact length_positions
  rw [Trie.depth_of_encode encoded, ← count]
  apply Trie.add_clog_le_depth
  rw [paths, List.forall_mem_map]
  exact fun entry mem => deep _ (of_mem_positions mem).2

/-- There is a root just when there are messages. -/
theorem isSome_root_iff {messages : List Outgoing} {root? : Option Cell}
    (valued : messages.mapM Outgoing.toValue = .ok values)
    (written : (ofList values).encode width = .ok root?) :
    root?.isSome = true ↔ messages ≠ [] := by
  have count := (Outcome.mapM_ok_iff.1 valued).length_eq
  have entries : (ofList values).entries.length = values.length := length_positions
  rw [isSome_encode_iff written, ← List.length_pos_iff, ← List.length_pos_iff, entries, count]

end Dictionary

/-! ## Payloads -/

namespace HighloadPayload

variable {payload : HighloadPayload}

/-- The bits of a payload always fit, so a payload needs only that its dictionary can be referred
to. -/
theorem exists_holds_iff (payload : HighloadPayload) (root? : Option Cell) :
    (∃ cell : Cell, cell.Holds (payload.headerBits ++ [root?.isSome]) root?.toList) ↔
      ∀ root ∈ root?, root.depth < maxDepth := by
  rw [Cell.exists_holds_iff, List.length_append, length_headerBits]
  cases root? <;> simp [maxBits, maxRefs]

theorem exists_encode_iff : (∃ cell, payload.encode = .ok cell) ↔
    payload.messages.length ≤ maxIndexed ∧
      ∃ values root?, payload.messages.mapM Outgoing.toValue = .ok values ∧
        (Dictionary.ofList values).encode indexWidth = .ok root? ∧
        ∀ root ∈ root?, root.depth < maxDepth := by
  simp only [← payload.exists_holds_iff, encode_ok_iff]
  constructor
  · rintro ⟨cell, few, values, root?, valued, written, held⟩
    exact ⟨few, values, root?, valued, written, cell, held⟩
  · rintro ⟨few, values, root?, valued, written, cell, held⟩
    exact ⟨cell, few, values, root?, valued, written, held⟩

/-- Messages that are not too deep have a dictionary that can be referred to, however many they are
as long as there are positions for them. -/
theorem exists_root {bits : ℕ} (counted : payload.messages.length ≤ 2 ^ bits)
    (inside : bits ≤ indexWidth)
    (shallow : ∀ outgoing ∈ payload.messages, outgoing.message.depth + bits ≤ 1022) :
    ∃ values root?, payload.messages.mapM Outgoing.toValue = .ok values ∧
      (Dictionary.ofList values).encode indexWidth = .ok root? ∧
      ∀ root ∈ root?, root.depth < maxDepth := by
  obtain ⟨values, valued⟩ : ∃ values, payload.messages.mapM Outgoing.toValue = .ok values := by
    apply Outcome.exists_mapM
    intro outgoing mem
    have room := shallow outgoing mem
    exact Outgoing.exists_toValue_iff.2 (show outgoing.message.depth < 1024 by omega)
  have depths : ∀ value ∈ values, value.depth ≤ 1023 - bits := by
    intro value mem
    obtain ⟨outgoing, sent, made⟩ := Outcome.exists_of_mem_mapM valued mem
    have room := shallow outgoing sent
    rw [Outgoing.depth_of_toValue made]
    omega
  have sizes : ∀ value ∈ values, value.bits.length ≤ 8 := by
    intro value mem
    obtain ⟨outgoing, -, made⟩ := Outcome.exists_of_mem_mapM valued mem
    exact (Outgoing.length_of_toValue made).le
  have count := (Outcome.mapM_ok_iff.1 valued).length_eq
  have fits : bits + (1023 - bits) < maxDepth := by
    unfold indexWidth at inside
    unfold maxDepth
    omega
  obtain ⟨root?, written, root_depth⟩ := Dictionary.exists_encode_ofList (by decide) inside
    (count ▸ counted) sizes depths (by decide) fits.le
  exact ⟨values, root?, valued, written, fun root mem => (root_depth root mem).trans_lt fits⟩

/-- Few enough messages that are not too deep can be written. -/
theorem exists_encode {bits : ℕ} (few : payload.messages.length ≤ maxIndexed)
    (counted : payload.messages.length ≤ 2 ^ bits) (inside : bits ≤ indexWidth)
    (shallow : ∀ outgoing ∈ payload.messages, outgoing.message.depth + bits ≤ 1022) :
    ∃ cell, payload.encode = .ok cell :=
  exists_encode_iff.2 ⟨few, exists_root counted inside shallow⟩

/-- Messages of one depth can be written just when there are few enough of them and there is room
for the forks that it takes to count them. -/
theorem encodable_iff_of_depth {depth : ℕ} (sent : payload.messages ≠ [])
    (same : ∀ outgoing ∈ payload.messages, outgoing.message.depth = depth) :
    (∃ cell, payload.encode = .ok cell) ↔ payload.messages.length ≤ maxIndexed ∧
      depth + Nat.clog 2 payload.messages.length ≤ 1022 := by
  constructor
  · intro written
    obtain ⟨few, values, root?, valued, encoded, shallow⟩ := exists_encode_iff.1 written
    have marked := (Dictionary.isSome_root_iff valued encoded).2 sent
    obtain ⟨root, rfl⟩ := Option.isSome_iff_exists.1 marked
    have deep : ∀ value ∈ values, depth + 1 ≤ value.depth := by
      intro value mem
      obtain ⟨outgoing, held, made⟩ := Outcome.exists_of_mem_mapM valued mem
      rw [Outgoing.depth_of_toValue made, same outgoing held]
    have forks := Dictionary.add_clog_le_depth encoded deep
    have below : root.depth < 1024 := shallow root rfl
    rw [← (Outcome.mapM_ok_iff.1 valued).length_eq] at forks
    exact ⟨few, by omega⟩
  · rintro ⟨few, room⟩
    have narrow : Nat.clog 2 payload.messages.length ≤ 8 :=
      Nat.clog_le_of_le_pow (few.trans (by decide))
    refine exists_encode few (Nat.le_pow_clog one_lt_two _) (narrow.trans (by decide)) ?_
    intro outgoing mem
    rwa [same outgoing mem]

/-- More messages are refused, whatever they are. -/
theorem encode_of_many (many : maxIndexed < payload.messages.length) :
    payload.encode = .error (.capacityExceeded payload.messages.length maxIndexed) := by
  obtain ⟨header, held⟩ : ∃ header : Cell, header.Holds payload.headerBits [] := by
    rw [Cell.exists_holds_iff, length_headerBits]
    simp [maxBits]
  obtain ⟨mid, extends_mid, -⟩ := Builder.empty_extends_of_holds held
  have written := (payload.appends_storeHeader .empty mid).2 extends_mid
  have refused := Store.indexed_of_many many mid
  rw [encode_eq, Cell.build, bind_error_iff.2 (.inr ⟨(), mid, written, refused⟩)]

/-- A payload that can be written is read back under both policies, with its messages in order.
Payloads with up to 254 messages, none of them deeper than 1014, can be written, and payloads with
more messages are refused for their number.  Wherever messages are written, one bit says whether
there are any, and one reference follows if there are. -/
theorem positional_codec (payload : HighloadPayload) :
    (∀ cell, payload.encode = .ok cell → payload.messages.length ≤ 254 ∧
      ∀ policy, decode policy cell = .ok payload) ∧
    (payload.messages.length ≤ 254 →
      (∀ outgoing ∈ payload.messages, outgoing.message.depth ≤ 1014) →
      ∃ cell, payload.encode = .ok cell) ∧
    (254 < payload.messages.length →
      payload.encode = .error (.capacityExceeded payload.messages.length 254)) ∧
    ∀ builder stored, Store.indexed payload.messages builder = .ok () stored →
      ∃ refs, builder.Extends [!payload.messages.isEmpty] refs stored ∧
        refs.length = if payload.messages = [] then 0 else 1 := by
  refine ⟨fun cell written => ?_, fun few shallow => ?_, encode_of_many,
    fun builder stored written => ?_⟩
  · exact ⟨(encode_ok_iff.1 written).1, fun policy => decode_of_encode policy written⟩
  · have counted : payload.messages.length ≤ 2 ^ 8 := few.trans (by decide)
    refine exists_encode few counted (by decide) fun outgoing mem => ?_
    exact Nat.add_le_add_right (shallow outgoing mem) 8
  · obtain ⟨-, values, root?, valued, encoded, appended⟩ := Store.indexed_ok_iff.1 written
    have marked := Dictionary.isSome_root_iff valued encoded
    refine ⟨root?.toList, ?_⟩
    cases root? with
    | none =>
      have none_sent : payload.messages = [] := by simpa using marked
      rw [none_sent]
      exact ⟨appended, rfl⟩
    | some root =>
      have sent : payload.messages ≠ [] := marked.1 rfl
      rw [if_neg sent, List.isEmpty_eq_false_iff.2 sent]
      exact ⟨appended, rfl⟩

/-- As many messages as there can be, as deep as they can be then, and one level too deep. -/
theorem positional_codec_deepest : ∃ message tooDeep : Cell,
    message.depth = 1014 ∧ tooDeep.depth = 1015 ∧
    (∃ cell, encode ⟨1, 2, .replicate 254 ⟨3, message⟩⟩ = .ok cell ∧
      decode .contiguous cell = .ok ⟨1, 2, .replicate 254 ⟨3, message⟩⟩ ∧
      decode .ascending cell = .ok ⟨1, 2, .replicate 254 ⟨3, message⟩⟩) ∧
    (¬ ∃ cell, encode ⟨1, 2, .replicate 254 ⟨3, tooDeep⟩⟩ = .ok cell) ∧
    encode ⟨1, 2, .replicate 255 ⟨3, message⟩⟩ = .error (.capacityExceeded 255 254) ∧
    ∃ stored, Store.indexed [⟨3, .empty⟩] .empty = .ok () stored ∧ stored.bits = [true] ∧
      stored.refs.length = 1 := by
  obtain ⟨message, depth⟩ := Cell.exists_depth_eq (show 1014 ≤ maxDepth by decide)
  obtain ⟨tooDeep, deeper⟩ := Cell.exists_depth_eq (show 1015 ≤ maxDepth by decide)
  obtain ⟨read, written, -, -⟩ := positional_codec ⟨1, 2, .replicate 254 ⟨3, message⟩⟩
  obtain ⟨-, -, refused, -⟩ := positional_codec ⟨1, 2, .replicate 255 ⟨3, message⟩⟩
  obtain ⟨-, -, -, appended⟩ := positional_codec ⟨1, 2, [⟨3, .empty⟩]⟩
  refine ⟨message, tooDeep, depth, deeper, ?_, ?_, ?_, ?_⟩
  · obtain ⟨cell, encoded⟩ := written List.length_replicate.le fun outgoing mem => by
      rw [List.eq_of_mem_replicate mem, depth]
    obtain ⟨-, same⟩ := read cell encoded
    exact ⟨cell, encoded, same .contiguous, same .ascending⟩
  · have one_depth : ∀ outgoing ∈ List.replicate 254 (⟨3, tooDeep⟩ : Outgoing),
        outgoing.message.depth = 1015 := by
      intro outgoing mem
      rw [List.eq_of_mem_replicate mem, deeper]
    rw [encodable_iff_of_depth (List.cons_ne_nil _ _) one_depth, List.length_replicate]
    decide
  · rw [refused (by rw [List.length_replicate]; decide), List.length_replicate]
  · obtain ⟨stored, done⟩ : ∃ stored, Store.indexed [⟨3, .empty⟩] .empty = .ok () stored :=
      ⟨_, rfl⟩
    obtain ⟨refs, more, one⟩ := appended .empty stored done
    refine ⟨stored, done, more.1, ?_⟩
    rw [more.2]
    exact one

end HighloadPayload

end WalletWire
