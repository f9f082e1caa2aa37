import WalletWire.Proofs.Cell.Failure
import WalletWire.Request.ActionChain

/-!
# Chains of actions

A list of messages has one chain, and a chain is read exactly when it is the one that would be
written for the messages it gives (`ActionChain.decode_ok_iff`).  The limit stops a chain at its
first message too many, so it bounds the number of messages and nothing else.
-/

namespace WalletWire.ActionChain

open Program

variable {limit : Option ℕ} {count : ℕ} {head : Cell} {outgoing : Outgoing}
  {messages rest : List Outgoing}

/-- The bits of a node with an action. -/
def nodeBits (mode : UInt8) : Bits :=
  Bits.ofNat 32 sendTag.toNat ++ Bits.ofNat 8 mode.toNat

@[simp] theorem length_nodeBits (mode : UInt8) : (nodeBits mode).length = actionBits := by
  simp [nodeBits, actionBits]

theorem nodeBits_fit (mode : UInt8) : (nodeBits mode).length ≤ maxBits := by
  rw [length_nodeBits]
  decide

/-! ## Writing -/

theorem encode_nil_ok_iff : encode [] = .ok head ↔ head.Holds [] [] := by
  have nothing : Cell.empty.Holds [] [] := ⟨rfl, Cell.refs_ofContent _⟩
  constructor
  · rintro ⟨⟩
    exact nothing
  · intro h
    rw [h.unique nothing]
    rfl

/-- A node has room for what is written to it, so only the depths of the two cells count. -/
theorem appends_node (next : Cell) (outgoing : Outgoing) :
    Store.AppendsUnless (· = BodyError.ofCell .tooDeep)
      (do
        Store.u32 sendTag
        Store.u8 outgoing.mode
        Store.ref next
        Store.ref outgoing.message)
      (nodeBits outgoing.mode) [next, outgoing.message] := by
  have written := (Store.AppendsUnless.of_bits (Store.appends_u32 sendTag).lift).bind
    ((Store.AppendsUnless.of_bits (Store.appends_u8 outgoing.mode).lift).bind
      ((Store.AppendsUnless.refOf next).bind (.refOf outgoing.message)))
  rwa [List.append_nil] at written

theorem encode_cons_ok_iff : encode (outgoing :: rest) = .ok head ↔ ∃ next,
    encode rest = .ok next ∧ head.Holds (nodeBits outgoing.mode) [next, outgoing.message] := by
  rw [encode, Outcome.bind_ok_iff]
  exact exists_congr fun next =>
    and_congr_right fun _ => (appends_node next outgoing).appends.build_ok_iff

theorem failsOnly_encode (messages : List Outgoing) :
    Outcome.FailsOnly (encode messages) (· = BodyError.ofCell .tooDeep) := by
  induction messages with
  | nil => exact Outcome.failsOnly_ok _
  | cons outgoing rest ih =>
    refine ih.bind fun next e failed => ?_
    have few : [next, outgoing.message].length ≤ maxRefs := by
      show 2 ≤ maxRefs
      decide
    exact (appends_node next outgoing).build_error (nodeBits_fit outgoing.mode) few failed

/-! ## Reading -/

theorem loadMode_ok_iff {slice left : Slice} {mode : UInt8} :
    loadMode slice = .ok mode left ↔ slice.Splits (nodeBits mode) [] left := by
  unfold loadMode nodeBits
  rw [Slice.splits_bits_iff]
  simp only [bind_ok_iff, lift_ok_iff, Load.u32_ok_iff]
  constructor
  · rintro ⟨tag, mid, h, read⟩
    by_cases known : tag = sendTag
    · rw [if_neg (not_not_intro known), lift_ok_iff, Load.u8_ok_iff] at read
      exact ⟨mid, known ▸ h, read⟩
    · rw [if_pos known, bind_ok_iff] at read
      simp only [throw_ok_iff, false_and, exists_false] at read
  · rintro ⟨mid, h, read⟩
    refine ⟨sendTag, mid, h, ?_⟩
    rw [if_neg (not_not_intro rfl), lift_ok_iff, Load.u8_ok_iff]
    exact read

/-- In a node of the right size, reading the mode leaves nothing behind. -/
theorem read_loadMode_ok_iff {mode : UInt8} (sized : head.bits.length = actionBits) :
    head.read loadMode = .ok mode ↔ head.bits = nodeBits mode := by
  simp only [Cell.read_ok_iff, loadMode_ok_iff]
  exact Slice.ofCell_splits_all_iff (by rw [length_nodeBits, sized])

/-- One node: the chain ends there, or it holds an action that the limit allows. -/
theorem decodeFrom_step : decodeFrom limit count head = .ok messages ↔
    (head.Holds [] [] ∧ messages = []) ∨
      ∃ outgoing rest next, head.Holds (nodeBits outgoing.mode) [next, outgoing.message] ∧
        limit ≠ some count ∧ decodeFrom limit (count + 1) next = .ok rest ∧
        messages = outgoing :: rest := by
  rw [decodeFrom]
  constructor
  · intro h
    split at h
    · next no_bits =>
      split at h
      · next no_refs =>
        cases h
        exact .inl ⟨⟨List.length_eq_zero_iff.1 no_bits, List.length_eq_zero_iff.1 no_refs⟩, rfl⟩
      · cases h
    · split at h
      · next sized =>
        split at h
        · next link message nodes =>
          split at h
          · cases h
          · next below =>
            simp only [Outcome.bind_ok_iff, Outcome.pure_ok_iff] at h
            obtain ⟨mode, read, rest, others, rfl⟩ := h
            exact .inr ⟨⟨mode, message⟩, rest, link, ⟨(read_loadMode_ok_iff sized).1 read, nodes⟩,
              below, others, rfl⟩
        · cases h
      · cases h
  · rintro (⟨⟨no_bits, no_refs⟩, rfl⟩ | ⟨outgoing, rest, next, ⟨bits, refs⟩, below, others, rfl⟩)
    · rw [if_pos (by rw [no_bits]; rfl), if_pos (by rw [no_refs]; rfl)]
    · have sized : head.bits.length = actionBits := by rw [bits, length_nodeBits]
      rw [if_neg (by rw [sized]; decide), if_pos sized]
      split
      · next link message nodes =>
        obtain ⟨rfl, rfl⟩ : link = next ∧ message = outgoing.message := by
          simpa using nodes.symm.trans refs
        rw [if_neg below]
        simp only [Outcome.bind_ok_iff, Outcome.pure_ok_iff]
        exact ⟨outgoing.mode, (read_loadMode_ok_iff sized).2 bits, rest, others, rfl⟩
      · next other => exact absurd refs (other _ _)

/-! ### Refusal -/

/-- A chain is refused for this under a limit. -/
inductive Refuses (limit : Option ℕ) : BodyError → Prop where
  | bits {count : ℕ} (some_left : count ≠ 0) (other : count ≠ actionBits) :
      Refuses limit (.layout (.chainBits count))
  | refs {expected actual : ℕ} (kind : expected = 0 ∨ expected = 2) (other : actual ≠ expected) :
      Refuses limit (.layout (.chainRefs expected actual))
  | tag {tag : UInt32} (other : tag ≠ sendTag) : Refuses limit (.layout (.actionTag tag))
  | full {most : ℕ} (reached : limit = some most) : Refuses limit (.capacityExceeded (most + 1) most)

theorem Refuses.inLayout {e : BodyError} (refused : Refuses none e) : e.InLayout := by
  cases refused with
  | full reached => cases reached
  | _ => exact ⟨_, rfl⟩

/-- In a node of the right size there are a tag and a mode, so only the tag can be wrong. -/
theorem read_loadMode_error {e : BodyError} (sized : head.bits.length = actionBits)
    (failed : head.read loadMode = .error e) :
    ∃ tag, tag ≠ sendTag ∧ e = .layout (.actionTag tag) := by
  have size : (Slice.ofCell head).bits.length = 40 := sized
  obtain ⟨rest, failed⟩ := Cell.read_error_iff.1 failed
  obtain failed | ⟨tag, mid, read, failed⟩ := bind_error_iff.1 failed
  · obtain ⟨_, short, -⟩ := lift_error_iff.1 failed
    have := Load.word_error (by decide) short
    omega
  · by_cases known : tag = sendTag
    · rw [if_neg (not_not_intro known)] at failed
      obtain ⟨_, short, -⟩ := lift_error_iff.1 failed
      have few := Load.word_error (by decide) short
      have front := (Load.u32_ok_iff.1 (lift_ok_iff.1 read)).1
      rw [front, List.length_append, Bits.length_ofNat] at size
      omega
    · rw [if_pos known] at failed
      cases failed
      exact ⟨tag, known, rfl⟩

theorem failsOnly_decodeFrom (limit : Option ℕ) (count : ℕ) (head : Cell) :
    Outcome.FailsOnly (decodeFrom limit count head) (Refuses limit) := by
  -- Down the chain: each node is a reference of the one before.
  induction head using Cell.induction generalizing count with
  | step head ih =>
    rw [decodeFrom]
    by_cases no_bits : head.bits.length = 0
    · rw [if_pos no_bits]
      by_cases no_refs : head.refs.length = 0
      · rw [if_pos no_refs]
        exact Outcome.failsOnly_ok _
      · rw [if_neg no_refs]
        exact Outcome.failsOnly_error (.refs (.inl rfl) no_refs)
    · rw [if_neg no_bits]
      by_cases sized : head.bits.length = actionBits
      · rw [if_pos sized]
        split
        · next next message nodes =>
          by_cases reached : limit = some count
          · rw [if_pos reached]
            exact Outcome.failsOnly_error (.full reached)
          · rw [if_neg reached]
            have mode : Outcome.FailsOnly (head.read loadMode) (Refuses limit) := by
              intro e failed
              obtain ⟨tag, other, rfl⟩ := read_loadMode_error sized failed
              exact .tag other
            have onward := ih next (by rw [nodes]; exact List.mem_cons_self ..) (count + 1)
            exact mode.bind fun _ => onward.bind fun _ => Outcome.failsOnly_ok _
        · next other =>
          refine Outcome.failsOnly_error (.refs (.inr rfl) fun two => ?_)
          obtain ⟨next, message, nodes⟩ := List.length_eq_two.1 two
          exact other next message nodes
      · rw [if_neg sized]
        exact Outcome.failsOnly_error (.bits no_bits sized)

/-! ### Acceptance -/

/-- A chain is read exactly when it is the chain of its messages and the limit allows them. -/
theorem decodeFrom_ok_iff (within : ∀ most ∈ limit, count ≤ most) :
    decodeFrom limit count head = .ok messages ↔
      encode messages = .ok head ∧ ∀ most ∈ limit, count + messages.length ≤ most := by
  induction messages generalizing head count with
  | nil =>
    rw [decodeFrom_step, encode_nil_ok_iff]
    constructor
    · rintro (⟨held, -⟩ | ⟨_, _, _, -, -, -, ⟨⟩⟩)
      exact ⟨held, within⟩
    · rintro ⟨held, -⟩
      exact .inl ⟨held, rfl⟩
  | cons outgoing rest ih =>
    rw [decodeFrom_step, encode_cons_ok_iff]
    constructor
    · rintro (⟨-, ⟨⟩⟩ | ⟨_, _, next, held, below, others, ⟨⟩⟩)
      -- Only equality with the limit is tested, which is enough as it has not been passed before.
      have within' : ∀ most ∈ limit, count + 1 ≤ most := by
        rintro most rfl
        have := within most rfl
        have : count ≠ most := fun same => below (congrArg some same.symm)
        omega
      obtain ⟨written, all⟩ := (ih within').1 others
      refine ⟨⟨next, written, held⟩, fun most bound => ?_⟩
      have := all most bound
      rw [List.length_cons]
      omega
    · rintro ⟨⟨next, written, held⟩, all⟩
      simp only [List.length_cons] at all
      refine .inr ⟨outgoing, rest, next, held, ?_, (ih ?_).2 ⟨written, ?_⟩, rfl⟩
      · rintro rfl
        have := all count rfl
        omega
      · intro most bound
        have := all most bound
        omega
      · intro most bound
        have := all most bound
        omega

theorem decode_ok_iff : decode limit head = .ok messages ↔
    encode messages = .ok head ∧ ∀ most ∈ limit, messages.length ≤ most := by
  unfold decode
  rw [decodeFrom_ok_iff fun most _ => Nat.zero_le most]
  simp only [Nat.zero_add]

end WalletWire.ActionChain
