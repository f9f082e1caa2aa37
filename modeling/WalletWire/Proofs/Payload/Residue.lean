import WalletWire.Proofs.Cell.Item
import WalletWire.Proofs.Payload.Positions
import WalletWire.Proofs.Payload.Slots

/-!
# What is left of a write that fails

A write of several parts can fail after some of them, and the builder keeps these.  Messages in
slots leave the references of those that have been written, and at most one mode more
(`Store.exists_of_forM_slot_error`).  A dictionary leaves nothing but the bit that says that a root
follows, and this only when the root could not be referred to (`Builder.Residue`).
-/

namespace WalletWire

open Program

/-! ## Messages in slots -/

namespace Store

variable {messages : List Outgoing} {builder left : Builder} {e : BodyError}

/-- Where one message fails there is nothing of it, or its mode. -/
theorem slot_error {outgoing : Outgoing} (failed : slot outgoing builder = .error e left) :
    left = builder ∨ builder.Extends (Bits.ofNat 8 outgoing.mode.toNat) [] left := by
  obtain failed | ⟨_, mid, written, failed⟩ := bind_error_iff.1 failed
  · exact .inl ((atomic_uint _ _).lift builder e left failed)
  · obtain rfl := (atomic_ref _).lift mid e left failed
    exact .inr (((appends_u8 _).lift builder left).1 written)

/-- The messages before the one that fails are there, and of this one at most the mode. -/
theorem exists_of_forM_slot_error (failed : messages.forM slot builder = .error e left) :
    ∃ j < messages.length, left.refs = builder.refs ++ (messages.take j).map Outgoing.message ∧
      (left.bits = builder.bits ++ Outgoing.modeBits (messages.take j) ∨
        left.bits = builder.bits ++ Outgoing.modeBits (messages.take (j + 1))) := by
  induction messages generalizing builder with
  | nil => cases failed
  | cons outgoing messages ih =>
    obtain failed | ⟨⟨⟩, mid, written, failed⟩ := bind_error_iff.1 failed
    · refine ⟨0, Nat.succ_pos _, ?_⟩
      obtain rfl | ⟨bits_eq, refs_eq⟩ := slot_error failed
      · simp [Outgoing.modeBits]
      · simp [Outgoing.modeBits, bits_eq, refs_eq]
    · obtain ⟨bits_eq, refs_eq⟩ := (appends_slot outgoing builder mid).1 written
      obtain ⟨j, lt, refs_left, bits_left⟩ := ih failed
      refine ⟨j + 1, Nat.succ_lt_succ lt, ?_, ?_⟩
      · rw [refs_left, refs_eq, List.append_assoc]
        rfl
      · rw [bits_eq, List.append_assoc, List.append_assoc] at bits_left
        exact bits_left

theorem exists_slots_iff : (∃ result, slots messages builder = .ok () result) ↔
    messages.length ≤ maxSlots ∧ builder.bits.length + 8 * messages.length ≤ maxBits ∧
      builder.refs.length + messages.length ≤ maxRefs ∧
      ∀ outgoing ∈ messages, outgoing.message.depth < maxDepth := by
  simp only [appends_slots messages builder _, Builder.exists_extends_iff, Builder.HasRoom,
    Outgoing.length_modeBits, List.length_map, List.forall_mem_map, and_assoc]
  -- A builder has no more references than there are slots.
  have all_slots : maxRefs = maxSlots := rfl
  exact (and_iff_right_of_imp fun room => by omega).symm

end Store

/-! ## A root and the bit before it -/

/-- There is a bit free to say that a root follows, but the root cannot be referred to. -/
def Builder.Refuses (builder : Builder) (root : Cell) : Prop :=
  builder.bits.length < maxBits ∧ (builder.refs.length = maxRefs ∨ root.depth = maxDepth)

theorem Builder.Refuses.not_extends {builder stored : Builder} {root : Cell} {bits : Bits}
    (refused : builder.Refuses root) : ¬builder.Extends bits [root] stored := by
  intro extended
  obtain ⟨⟨-, room⟩, shallow⟩ := Builder.exists_extends_iff.1 ⟨stored, extended⟩
  rw [List.length_singleton] at room
  have below := shallow root (List.mem_singleton_self root)
  obtain ⟨-, full | deep⟩ := refused <;> omega

namespace Store

variable {builder : Builder}

/-- A write fails just when there is no room for what it appends or a reference is too deep. -/
theorem Appends.exists_error_iff {ε : Type} {write : Store ε Unit} {bits : Bits}
    {refs : List Cell} (h : write.Appends bits refs) :
    (∃ e left, write builder = .error e left) ↔
      ¬(builder.HasRoom bits refs ∧ ∀ child ∈ refs, child.depth < maxDepth) := by
  rw [Program.exists_error_iff, ← Builder.exists_extends_iff]
  simp only [h builder _, exists_const]

theorem bit_error_iff {b : Bool} :
    (∃ e left, bit b builder = .error e left) ↔ builder.bits.length = maxBits := by
  have bits_le := builder.bits_le
  have room : builder.HasRoom [b] [] ↔ builder.bits.length < maxBits :=
    and_iff_left builder.refs_le
  rw [(appends_bit b).exists_error_iff, room, and_iff_left nofun]
  omega

theorem ref_error_iff {cell : Cell} : (∃ e left, ref cell builder = .error e left) ↔
    builder.refs.length = maxRefs ∨ cell.depth = maxDepth := by
  have refs_le := builder.refs_le
  have depth_le := cell.depth_le
  have room : builder.HasRoom [] [cell] ↔ builder.refs.length < maxRefs :=
    and_iff_right builder.bits_le
  rw [(appends_ref cell).exists_error_iff, room, List.forall_mem_singleton]
  omega

end Store

/-- What is left of the builder by a write that has failed: all references as they were, and at most
one bit more, which says that a root follows.  This bit is left just when there is a root, and the
root was refused. -/
structure Builder.Residue (builder : Builder) (Root : Cell → Prop) (left : Builder) : Prop where
  refs_eq : left.refs = builder.refs
  bits_eq : left.bits = builder.bits ∨ left.bits = builder.bits ++ [true]
  marked_iff : left.bits = builder.bits ++ [true] ↔ ∃ root, Root root ∧ builder.Refuses root

namespace Builder.Residue

variable {builder left : Builder} {Root Root' : Cell → Prop}

theorem unchanged (accepted : ∀ root, Root root → ¬builder.Refuses root) :
    builder.Residue Root builder where
  refs_eq := rfl
  bits_eq := .inl rfl
  marked_iff := by
    refine ⟨fun marked => ?_, fun ⟨root, built, refused⟩ => absurd refused (accepted root built)⟩
    simp at marked

theorem marked (extended : builder.Extends [true] [] left) {root : Cell} (built : Root root)
    (refused : builder.Refuses root) : builder.Residue Root left where
  refs_eq := by rw [extended.2, List.append_nil]
  bits_eq := .inr extended.1
  marked_iff := iff_of_true extended.1 ⟨root, built, refused⟩

theorem congr (residue : builder.Residue Root left) (same : ∀ root, Root root ↔ Root' root) :
    builder.Residue Root' left := by
  rwa [← funext fun root => propext (same root)]

end Builder.Residue

/-- The trie of the dictionary can be built, and this is its root. -/
def Dictionary.HasRoot (dictionary : Dictionary) (width : ℕ) (root : Cell) : Prop :=
  dictionary.entries ≠ [] ∧ dictionary.encode width = .ok (some root)

/-- The messages can be put into a dictionary, and this is the root of its trie. -/
def Outgoing.HaveRoot (messages : List Outgoing) (root : Cell) : Prop :=
  messages ≠ [] ∧ messages.length ≤ maxIndexed ∧
    ∃ values, messages.mapM Outgoing.toValue = .ok values ∧
      (Dictionary.ofList values).encode indexWidth = .ok (some root)

theorem Outgoing.hasRoot_ofList_iff {messages : List Outgoing} {values : List Cell} {root : Cell}
    (few : messages.length ≤ maxIndexed) (valued : messages.mapM Outgoing.toValue = .ok values) :
    (Dictionary.ofList values).HasRoot indexWidth root ↔ HaveRoot messages root := by
  constructor
  · rintro ⟨-, encoded⟩
    exact ⟨(Dictionary.isSome_root_iff valued encoded).1 rfl, few, values, valued, encoded⟩
  · rintro ⟨-, -, values', valued', encoded⟩
    cases valued.symm.trans valued'
    exact ⟨(Dictionary.isSome_encode_iff encoded).1 rfl, encoded⟩

namespace Store

variable {builder left : Builder}

/-- The write puts a root behind the bit that announces it.  When it fails this bit is all that can
be left, and a root that the builder refuses makes it fail. -/
structure PutsRoot {ε : Type} (action : Store ε Unit) (Root : Cell → Prop) : Prop where
  residue : ∀ builder e left, action builder = .error e left → builder.Residue Root left
  fails : ∀ builder root, Root root → builder.Refuses root →
    ∃ e left, action builder = .error e left

theorem dictionary_error {width : ℕ} {dictionary : Dictionary} {e : Cell.Error}
    (failed : Store.dictionary width dictionary builder = .error e left) :
    builder.Residue (dictionary.HasRoot width) left := by
  unfold Store.dictionary at failed
  obtain failed | ⟨root?, mid, checked, failed⟩ := bind_error_iff.1 failed
  · obtain ⟨unbuilt, rfl⟩ := ofExcept_error_iff.1 failed
    exact .unchanged fun root built => by cases unbuilt.symm.trans built.2
  obtain ⟨encoded, rfl⟩ := ofExcept_ok_iff.1 checked
  cases root? with
  | none =>
    obtain rfl := atomic_bits _ builder e left failed
    exact .unchanged fun root built => by cases encoded.symm.trans built.2
  | some root =>
    obtain failed | ⟨_, marked, written, failed⟩ := bind_error_iff.1 failed
    · have full := bit_error_iff.1 ⟨e, left, failed⟩
      obtain rfl := atomic_bits _ builder e left failed
      exact .unchanged fun _ _ refused => refused.1.ne full
    · -- The bit is written, so it was free, and only the reference can have been refused.
      have extended := (appends_bit true builder marked).1 written
      have refused := ref_error_iff.1 ⟨e, left, failed⟩
      obtain rfl := atomic_ref root marked e left failed
      have used := left.bits_le
      rw [extended.1, List.length_append] at used
      rw [extended.2, List.append_nil] at refused
      have some_left := (Dictionary.isSome_encode_iff encoded).1 rfl
      exact .marked extended ⟨some_left, encoded⟩ ⟨used, refused⟩

theorem indexed_error {messages : List Outgoing} {e : BodyError}
    (failed : Store.indexed messages builder = .error e left) :
    builder.Residue (Outgoing.HaveRoot messages) left := by
  by_cases many : maxIndexed < messages.length
  · rw [indexed_of_many many] at failed
    cases failed
    exact .unchanged fun root built => absurd built.2.1 (Nat.not_le.2 many)
  unfold Store.indexed at failed
  rw [if_neg many] at failed
  obtain failed | ⟨values, mid, checked, failed⟩ := bind_error_iff.1 failed
  · obtain ⟨cause, refused, rfl⟩ := lift_error_iff.1 failed
    obtain ⟨unvalued, rfl⟩ := ofExcept_error_iff.1 refused
    refine .unchanged fun root ⟨_, _, values, valued, _⟩ => ?_
    cases unvalued.symm.trans valued
  obtain ⟨valued, rfl⟩ := ofExcept_ok_iff.1 (lift_ok_iff.1 checked)
  obtain ⟨cause, refused, rfl⟩ := lift_error_iff.1 failed
  exact (dictionary_error refused).congr fun root =>
    Outgoing.hasRoot_ofList_iff (Nat.le_of_not_lt many) valued

theorem putsRoot_dictionary (width : ℕ) (dictionary : Dictionary) :
    PutsRoot (Store.dictionary width dictionary) (dictionary.HasRoot width) where
  residue _ _ _ := dictionary_error
  fails builder root built refused := by
    rw [exists_error_iff]
    rintro ⟨⟨⟩, stored, written⟩
    obtain ⟨root?, encoded, extended⟩ := dictionary_ok_iff.1 written
    cases encoded.symm.trans built.2
    exact refused.not_extends extended

theorem putsRoot_indexed (messages : List Outgoing) :
    PutsRoot (Store.indexed messages) (Outgoing.HaveRoot messages) where
  residue _ _ _ := indexed_error
  fails builder root built refused := by
    rw [exists_error_iff]
    rintro ⟨⟨⟩, stored, written⟩
    obtain ⟨-, values, valued, encoded⟩ := built.2
    obtain ⟨-, values', root?, valued', encoded', extended⟩ := indexed_ok_iff.1 written
    cases valued'.symm.trans valued
    cases encoded'.symm.trans encoded
    exact refused.not_extends extended

end Store

/-! ## What is left -/

/-- More than four messages leave nothing in their slots.  Fewer are written just when there is room
for all of them and none is too deep, and otherwise the ones before some message are left, with at
most the mode of this one.  Of a dictionary nothing is left but the bit before its root, and this
just when there is a root that is refused where the bit is free. -/
theorem residue_of_failure :
    (∀ messages builder, 4 < messages.length →
      Store.slots messages builder = .error (.capacityExceeded messages.length 4) builder) ∧
    (∀ messages builder, (∃ result, Store.slots messages builder = .ok () result) ↔
      messages.length ≤ 4 ∧ builder.bits.length + 8 * messages.length ≤ 1023 ∧
        builder.refs.length + messages.length ≤ 4 ∧
        ∀ outgoing ∈ messages, outgoing.message.depth < 1024) ∧
    (∀ messages builder e left, messages.length ≤ 4 →
      Store.slots messages builder = .error e left →
      ∃ j < messages.length,
        left.refs = builder.refs ++ (messages.take j).map Outgoing.message ∧
        (left.bits = builder.bits ++ Outgoing.modeBits (messages.take j) ∨
          left.bits = builder.bits ++ Outgoing.modeBits (messages.take (j + 1)))) ∧
    (∀ width dictionary,
      (Store.dictionary width dictionary).PutsRoot (dictionary.HasRoot width)) ∧
    ∀ messages, (Store.indexed messages).PutsRoot (Outgoing.HaveRoot messages) := by
  refine ⟨fun messages builder many => Store.slots_of_many many builder,
    fun messages builder => Store.exists_slots_iff, fun messages builder e left few failed => ?_,
    Store.putsRoot_dictionary, Store.putsRoot_indexed⟩
  rw [Store.slots_of_few few] at failed
  exact Store.exists_of_forM_slot_error failed

/-- So many references and nothing else. -/
def withRefs (count : ℕ) (le : count ≤ maxRefs) : Builder where
  bits := []
  refs := .replicate count .empty
  bits_le := Nat.zero_le _
  refs_le := List.length_replicate.trans_le le
  depth_lt child mem := List.eq_of_mem_replicate mem ▸ by decide

theorem residue_of_failure_withRefs :
    Store.slots (.replicate 5 ⟨3, .empty⟩) .empty = .error (.capacityExceeded 5 4) .empty ∧
    (∃ e left, Store.slots (.replicate 2 ⟨3, .empty⟩) (withRefs 3 (by decide)) = .error e left ∧
      left.refs = .replicate 4 .empty ∧ left.bits = .ofNat 16 0x0303) ∧
    ∃ e left, Store.indexed [⟨3, .empty⟩] (withRefs 4 (by decide)) = .error e left ∧
      left.refs = .replicate 4 .empty ∧ left.bits = [true] := by
  obtain ⟨many, -, few, -, indexed⟩ := residue_of_failure
  refine ⟨many _ _ (by decide), ?_, ?_⟩
  · obtain ⟨e, left, failed, full, bits_eq⟩ : ∃ e left,
        Store.slots (.replicate 2 ⟨3, .empty⟩) (withRefs 3 (by decide)) = .error e left ∧
          left.refs.length = 4 ∧ left.bits = .ofNat 16 0x0303 := ⟨_, _, rfl, rfl, rfl⟩
    obtain ⟨j, lt, refs_eq, -⟩ := few _ _ e left (by decide) failed
    refine ⟨e, left, failed, ?_, bits_eq⟩
    obtain rfl : j = 1 := by
      change j < 2 at lt
      rw [refs_eq, List.length_append, List.length_map, List.length_take] at full
      change 3 + min j 2 = 4 at full
      omega
    exact refs_eq
  · have built : ∃ root, Outgoing.HaveRoot [⟨3, .empty⟩] root :=
      ⟨_, by decide, by decide, _, rfl, rfl⟩
    obtain ⟨root, built⟩ := built
    have refused : (withRefs 4 (by decide)).Refuses root := ⟨by decide, .inl rfl⟩
    obtain ⟨e, left, failed⟩ := (indexed _).fails _ root built refused
    have residue := (indexed _).residue _ e left failed
    exact ⟨e, left, failed, residue.refs_eq, residue.marked_iff.2 ⟨root, built, refused⟩⟩

end WalletWire
