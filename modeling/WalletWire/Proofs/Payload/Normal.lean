import WalletWire.Proofs.Dictionary.Normal
import WalletWire.Proofs.Payload.Gaps

/-!
# Payloads written again

A payload that has been read can be written again unless it has more messages than are written into
one dictionary.  Its dictionary then keeps its shape and its depth, and so does the payload.  What
can change is the form of labels, of which all are read and one is written
(`HighloadPayload.rewritten_of_decode`).
-/

namespace WalletWire

/-! ## The dictionary -/

namespace Dictionary

variable {width : ℕ} {dictionary : Dictionary} {root : Cell} {root? : Option Cell}

theorem encode_empty (width_ok : 1 ≤ width ∧ width ≤ 64) : empty.encode width = .ok none := by
  refine encode_ok_iff.2 ⟨width_ok, List.forall_mem_nil _, ?_⟩
  rw [show empty.entries = [] from rfl, Trie.Grows.ofEntries_nil]
  rfl

/-- What has been read is written with the same depth, and as the same cell if all labels have the
form that is chosen for writing. -/
theorem exists_encode_of_decode (read : decode width root = .ok dictionary) :
    ∃ root', dictionary.encode width = .ok (some root') ∧ root'.depth = root.depth ∧
      (root' = root ↔ Tlb.Normal width root) := by
  obtain ⟨width_ok, trie, derives, entries⟩ := decode_ok_iff_entries.1 read
  obtain ⟨root', written, -, depth⟩ := Tlb.exists_relabelled derives
  refine ⟨root', (encode_iff_of_derives width_ok derives entries).2 written, depth, ?_⟩
  constructor
  · rintro rfl
    exact Tlb.normal_of_encode width_ok.2 derives.fits written
  · intro normal
    exact Except.ok.inj (written.symm.trans (Tlb.encode_of_normal derives normal))

theorem exists_encode_of_ofRoot? (width_ok : 1 ≤ width ∧ width ≤ 64)
    (read : ofRoot? width root? = .ok dictionary) :
    ∃ root'?, dictionary.encode width = .ok root'? ∧
      root'?.map Cell.depth = root?.map Cell.depth ∧
      (root'? = root? ↔ ∀ root ∈ root?, Tlb.Normal width root) := by
  cases root? with
  | none =>
    cases read
    exact ⟨none, encode_empty width_ok, rfl, by simp⟩
  | some root =>
    obtain ⟨root', written, depth, same_iff⟩ := exists_encode_of_decode read
    refine ⟨some root', written, congrArg some depth, ?_⟩
    simpa using same_iff

end Dictionary

/-! ## The messages -/

/-- Under the contiguous policy, the entries are values of the messages under their positions. -/
theorem IndexPolicy.exists_positions {start : ℕ} {entries : List (ℕ × Cell)}
    {messages : List Outgoing} (collected : contiguous.collect start entries = .ok messages) :
    ∃ values, messages.mapM Outgoing.toValue = .ok values ∧
      entries = Dictionary.positions start values := by
  simp only [Outcome.mapM_ok_iff]
  induction entries generalizing start messages with
  | nil =>
    cases collected
    exact ⟨[], .nil, rfl⟩
  | cons entry entries ih =>
    obtain ⟨index, value⟩ := entry
    by_cases agrees : index = start
    · subst agrees
      rw [collect_cons_self] at collected
      simp only [Outcome.bind_ok_iff, Outcome.lift_ok_iff, Outcome.pure_ok_iff] at collected
      obtain ⟨outgoing, read, others, rest, rfl⟩ := collected
      obtain ⟨values, valued, rfl⟩ := ih rest
      have made := Outgoing.toValue_ok_iff.2 (Outgoing.ofValue_ok_iff.1 read)
      exact ⟨value :: values, .cons made valued, rfl⟩
    · rw [collect_cons_of_ne agrees] at collected
      cases collected

namespace HighloadPayload

variable {payload : HighloadPayload} {cell written : Cell}

theorem decode_contiguous_ok_iff : decode .contiguous cell = .ok payload ↔
    ∃ values root?, payload.messages.mapM Outgoing.toValue = .ok values ∧
      Dictionary.ofRoot? indexWidth root? = .ok (.ofList values) ∧
      cell.Holds (payload.headerBits ++ [root?.isSome]) root?.toList := by
  rw [decode_ok_iff]
  constructor
  · rintro ⟨root?, dictionary, held, found, collected⟩
    obtain ⟨values, valued, entries⟩ := IndexPolicy.exists_positions collected
    obtain rfl : dictionary = .ofList values := Dictionary.ext entries
    exact ⟨values, root?, valued, found, held⟩
  · rintro ⟨values, root?, valued, found, held⟩
    exact ⟨root?, .ofList values, held, found, IndexPolicy.contiguous.collect_positions 0 valued⟩

theorem exists_encode_of_decode (read : decode .contiguous cell = .ok payload)
    (few : payload.messages.length ≤ maxIndexed) :
    ∃ written, payload.encode = .ok written ∧ written.depth = cell.depth ∧
      (written = cell ↔ ∀ root ∈ cell.refs, Tlb.Normal indexWidth root) := by
  obtain ⟨values, root?, valued, found, held⟩ := decode_contiguous_ok_iff.1 read
  obtain ⟨root'?, encoded, depths, same_iff⟩ :=
    Dictionary.exists_encode_of_ofRoot? (by decide) found
  have fit : (payload.headerBits ++ [root'?.isSome]).length ≤ maxBits := by
    rw [List.length_append, length_headerBits, List.length_singleton]
    decide
  have refs_depths : root'?.toList.map Cell.depth = cell.refs.map Cell.depth := by
    rw [held.refs_eq, ← Option.toList_map, ← Option.toList_map, depths]
  obtain ⟨written, held', depth⟩ := cell.exists_holds_of_depths fit refs_depths
  refine ⟨written, encode_ok_iff.2 ⟨few, values, root'?, valued, encoded, held'⟩, depth, ?_⟩
  have refs : written = cell ↔ root'? = root? := by
    constructor
    · rintro rfl
      simpa using congrArg List.head? (held'.refs_eq.symm.trans held.refs_eq)
    · rintro rfl
      exact held'.unique held
  rw [refs, same_iff, held.refs_eq]
  simp only [Option.mem_toList, Option.mem_def]

/-- A payload whose indices count up from zero can be written again just when it has at most 254
messages, and is refused for their number otherwise.  What is written is read as the same payload
and is as deep as the cell before; it is the same cell just when all labels of the dictionary have
the form that is chosen for writing. -/
theorem rewritten_of_decode (read : decode .contiguous cell = .ok payload) :
    ((∃ written, payload.encode = .ok written) ↔ payload.messages.length ≤ 254) ∧
    (254 < payload.messages.length →
      payload.encode = .error (.capacityExceeded payload.messages.length 254)) ∧
    ∀ written, payload.encode = .ok written →
      decode .contiguous written = .ok payload ∧ written.depth = cell.depth ∧
      (written.tree = cell.tree ↔ ∀ root ∈ cell.refs, Tlb.Normal indexWidth root) := by
  refine ⟨⟨?_, fun few => ?_⟩, encode_of_many, fun written encoded => ?_⟩
  · rintro ⟨written, encoded⟩
    exact (encode_ok_iff.1 encoded).1
  · obtain ⟨written, encoded, -⟩ := exists_encode_of_decode read few
    exact ⟨written, encoded⟩
  · obtain ⟨other, again, depth, same_iff⟩ :=
      exists_encode_of_decode read (encode_ok_iff.1 encoded).1
    cases Except.ok.inj (again.symm.trans encoded)
    rw [Cell.tree_inj]
    exact ⟨decode_of_encode _ encoded, depth, same_iff⟩

/-! ### Where reading and writing part -/

/-- Messages are read in any number for which there are positions. -/
theorem exists_decode {bits : ℕ} (counted : payload.messages.length ≤ 2 ^ bits)
    (inside : bits ≤ indexWidth)
    (shallow : ∀ outgoing ∈ payload.messages, outgoing.message.depth + bits ≤ 1022) :
    ∃ cell, decode .contiguous cell = .ok payload := by
  obtain ⟨values, root?, valued, encoded, referable⟩ := exists_root counted inside shallow
  obtain ⟨cell, held⟩ := (payload.exists_holds_iff root?).2 referable
  have found := Dictionary.ofRoot?_of_encode encoded
  exact ⟨cell, decode_contiguous_ok_iff.2 ⟨values, root?, valued, found, held⟩⟩

/-- One message that says nothing. -/
def oneMessage : HighloadPayload := ⟨1, 2, [⟨3, .empty⟩]⟩

/-- Its index may be spelled in the long form, which takes more bits than to repeat a zero. -/
theorem exists_decode_longLabel : ∃ cell root, decode .contiguous cell = .ok oneMessage ∧
    root ∈ cell.refs ∧ ¬ Tlb.Normal indexWidth root := by
  obtain ⟨value, valued⟩ : ∃ value, Outgoing.toValue ⟨3, .empty⟩ = .ok value :=
    Outgoing.exists_toValue_iff.2 (by decide)
  have size : value.bits.length = 8 := Outgoing.length_of_toValue valued
  have depth : value.depth = 1 := Outgoing.depth_of_toValue valued
  let zeros : Bits := .replicate 16 false
  let spelled := Label.Form.long.write 16 zeros
  have spells : Label.Spells 16 spelled zeros := .long (le_refl 16)
  obtain ⟨root, root_held⟩ : ∃ root : Cell, root.Holds (spelled ++ value.bits) value.refs := by
    apply Cell.exists_holds
    rw [List.length_append, size]
    decide
  have derives : Trie.Derives 16 root (.leaf zeros value) := .leaf spells rfl root_held
  have found : Dictionary.decode indexWidth root = .ok (.ofList [value]) :=
    Dictionary.decode_ok_iff_entries.2 ⟨by decide, _, derives, rfl⟩
  obtain ⟨cell, held⟩ : ∃ cell : Cell, cell.Holds (oneMessage.headerBits ++ [true]) [root] := by
    refine (oneMessage.exists_holds_iff (some root)).2 ?_
    rintro _ ⟨⟩
    rw [Cell.depth_eq, root_held.refs_eq, ← Cell.depth_eq, depth]
    decide
  have read : decode .contiguous cell = .ok oneMessage := by
    refine decode_contiguous_ok_iff.2 ⟨[value], some root, ?_, found, held⟩
    exact Outcome.mapM_ok_iff.2 (.cons valued .nil)
  refine ⟨cell, root, read, by rw [held.refs_eq]; exact List.mem_singleton_self _, ?_⟩
  intro normal
  have short := normal _ _ _ _ _ _ .here ⟨Tlb.hmLabel_iff.2 spells, root_held⟩
  exact absurd short (by decide)

/-- One message under a label in the long form, and one message more than can be written. -/
theorem rewritten_of_decode_longLabel :
    (∃ cell written, decode .contiguous cell = .ok oneMessage ∧
      oneMessage.encode = .ok written ∧ decode .contiguous written = .ok oneMessage ∧
      written.depth = cell.depth ∧ written.tree ≠ cell.tree) ∧
    ∃ cell payload, decode .contiguous cell = .ok payload ∧ payload.messages.length = 255 ∧
      payload.encode = .error (.capacityExceeded 255 254) := by
  constructor
  · obtain ⟨cell, root, read, mem, unusual⟩ := exists_decode_longLabel
    obtain ⟨written_iff, -, rewritten⟩ := rewritten_of_decode read
    obtain ⟨written, encoded⟩ := written_iff.2 (by decide)
    obtain ⟨again, depth, same_iff⟩ := rewritten written encoded
    refine ⟨cell, written, read, encoded, again, depth, fun same => ?_⟩
    exact unusual (same_iff.1 same root mem)
  · let payload : HighloadPayload := ⟨1, 2, .replicate 255 ⟨3, .empty⟩⟩
    have many : payload.messages.length = 255 := List.length_replicate
    obtain ⟨cell, read⟩ : ∃ cell, decode .contiguous cell = .ok payload := by
      refine exists_decode (many.trans_le (by decide)) (by decide : 8 ≤ indexWidth) ?_
      intro outgoing mem
      rw [List.eq_of_mem_replicate mem]
      decide
    obtain ⟨-, refused, -⟩ := rewritten_of_decode read
    rw [many] at refused
    exact ⟨cell, payload, read, many, refused (by decide)⟩

end HighloadPayload

end WalletWire
