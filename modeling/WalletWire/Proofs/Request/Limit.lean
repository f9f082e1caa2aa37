import WalletWire.Proofs.Request.Exact

/-!
# Chains under a limit

A chain is read node by node, and the limit is only looked at in a node that has the size of one
more action (`ActionChain.step_full`, `ActionChain.step_eq`).  So a chain is read under a limit as
it is without one, unless it overruns the limit: then it is refused at the first action too many,
whatever comes after this node and whatever is wrong with its tag (`ActionChain.capped_chain`).
-/

namespace WalletWire.ActionChain

variable {limit : Option ℕ} {count room most : ℕ} {node head next : Cell} {outgoing : Outgoing}
  {messages : List Outgoing} {e : BodyError}

/-! ## One node -/

/-- A node is read: the chain ends there, or goes on at another node behind a message. -/
def step (limit : Option ℕ) (count : ℕ) (node : Cell) :
    Except BodyError (Option (Outgoing × Cell)) :=
  if node.bits.length = 0 then
    if node.refs.length = 0 then .ok none
    else .error (.layout (.chainRefs 0 node.refs.length))
  else if node.bits.length = actionBits then
    match node.refs with
    | [next, message] =>
      if limit = some count then .error (.capacityExceeded (count + 1) count)
      else do
        let mode ← node.read loadMode
        return some (⟨mode, message⟩, next)
    | refs => .error (.layout (.chainRefs 2 refs.length))
  else .error (.layout (.chainBits node.bits.length))

/-- Reading a chain is reading its first node and going on from there. -/
theorem decodeFrom_eq (limit : Option ℕ) (count : ℕ) (head : Cell) :
    decodeFrom limit count head = (do
      match ← step limit count head with
      | none => .ok []
      | some (outgoing, next) => (outgoing :: ·) <$> decodeFrom limit (count + 1) next) := by
  rw [decodeFrom]
  unfold step
  by_cases no_bits : head.bits.length = 0
  · by_cases no_refs : head.refs.length = 0
    · simp only [no_bits, no_refs, if_true, Outcome.ok_bind]
    · simp only [no_bits, no_refs, if_true, if_false]
      rfl
  · simp only [no_bits, if_false]
    by_cases sized : head.bits.length = actionBits
    · simp only [sized, if_true]
      split
      · next next message nodes =>
        rw [nodes]
        by_cases full : limit = some count
        · simp only [full, if_true]
          rfl
        · simp only [full, if_false, bind_assoc, pure_bind]
          rfl
      · next other =>
        split
        · next next message nodes => exact (other next message nodes).elim
        · rfl
    · simp only [sized, if_false]
      rfl

/-- The node has the size of one with an action. -/
structure Sized (node : Cell) : Prop where
  bits : node.bits.length = actionBits
  refs : node.refs.length = 2

theorem sized_of_holds {mode : UInt8} {message : Cell}
    (held : node.Holds (nodeBits mode) [next, message]) : Sized node where
  bits := by rw [held.bits_eq, length_nodeBits]
  refs := by rw [held.refs_eq]; rfl

theorem step_of_sized (limit : Option ℕ) (count : ℕ) (sized : Sized node) :
    ∃ next message, node.refs = [next, message] ∧ step limit count node =
      if limit = some count then .error (.capacityExceeded (count + 1) count)
      else do
        let mode ← node.read loadMode
        return some (⟨mode, message⟩, next) := by
  obtain ⟨next, message, nodes⟩ := List.length_eq_two.1 sized.refs
  have some_left : ¬ node.bits.length = 0 := by
    rw [sized.bits]
    decide
  refine ⟨next, message, nodes, ?_⟩
  unfold step
  rw [if_neg some_left, if_pos sized.bits, nodes]

/-- The limit refuses a node for its size. -/
theorem step_full (sized : Sized node) : step (some count) count node =
    .error (.capacityExceeded (count + 1) count) := by
  obtain ⟨next, message, -, read⟩ := step_of_sized (some count) count sized
  rw [read, if_pos rfl]

/-- Everywhere else there might as well be no limit. -/
theorem step_eq (below : limit = some count → ¬ Sized node) :
    step limit count node = step none 0 node := by
  unfold step
  by_cases sized : node.bits.length = actionBits
  · split
    · rfl
    · split
      · next next message nodes =>
        have under : limit ≠ some count := fun full => below full ⟨sized, by rw [nodes]; rfl⟩
        simp only [under, if_false, reduceCtorEq]
      · rfl
  · simp only [sized, if_false]

theorem step_none_eq (count : ℕ) (node : Cell) : step none count node = step none 0 node :=
  step_eq nofun

theorem sized_of_step (more : step limit count node = .ok (some (outgoing, next))) :
    Sized node := by
  unfold step at more
  split at more
  · split at more <;> cases more
  · split at more
    · next bits =>
      split at more
      · next link message nodes => exact ⟨bits, by rw [nodes]; rfl⟩
      · cases more
    · cases more

theorem step_eq_some_iff : step limit count node = .ok (some (outgoing, next)) ↔
    limit ≠ some count ∧ node.Holds (nodeBits outgoing.mode) [next, outgoing.message] := by
  constructor
  · intro more
    have sized := sized_of_step more
    obtain ⟨link, message, nodes, read⟩ := step_of_sized limit count sized
    rw [read] at more
    split at more
    · cases more
    · next under =>
      simp only [Outcome.bind_ok_iff, Outcome.pure_ok_iff, Option.some.injEq, Prod.mk.injEq,
        read_loadMode_ok_iff sized.bits] at more
      obtain ⟨mode, held, rfl, rfl⟩ := more
      exact ⟨under, held, nodes⟩
  · rintro ⟨under, held⟩
    have sized := sized_of_holds held
    obtain ⟨link, message, nodes, read⟩ := step_of_sized limit count sized
    cases nodes.symm.trans held.refs_eq
    rw [read, if_neg under, (read_loadMode_ok_iff sized.bits).2 held.bits_eq]
    rfl

/-! ## Going beyond the limit -/

/-- From the head on there are `room` nodes with an action, each referring to the one behind it, and
then comes a node of the size of one more. -/
inductive Overruns : (room : ℕ) → (head : Cell) → Prop where
  | here {head : Cell} (sized : Sized head) : Overruns 0 head
  | onward {room : ℕ} {head next message : Cell} {mode : UInt8}
      (held : head.Holds (nodeBits mode) [next, message]) (beyond : Overruns room next) :
      Overruns (room + 1) head

theorem Overruns.sized (overruns : Overruns room head) : Sized head := by
  cases overruns with
  | here sized => exact sized
  | onward held _ => exact sized_of_holds held

theorem overruns_succ_iff {mode : UInt8} {message : Cell}
    (held : head.Holds (nodeBits mode) [next, message]) :
    Overruns (room + 1) head ↔ Overruns room next := by
  constructor
  · intro overruns
    cases overruns with
    | onward held' beyond =>
      cases held.refs_eq.symm.trans held'.refs_eq
      exact beyond
  · exact .onward held

/-- A chain overruns what is less than the number of its messages. -/
theorem overruns_iff_of_spells (spells : Spells head messages) (most : ℕ) :
    Overruns most head ↔ most < messages.length := by
  induction spells generalizing most with
  | nil held =>
    refine iff_of_false (fun overruns => ?_) (Nat.not_lt_zero _)
    have sized := overruns.sized.bits
    rw [held.bits_eq] at sized
    exact absurd sized (by decide)
  | cons held _ ih =>
    cases most with
    | zero => exact iff_of_true (.here (sized_of_holds held)) (Nat.succ_pos _)
    | succ most => rw [overruns_succ_iff held, ih, List.length_cons, Nat.succ_lt_succ_iff]

theorem decodeFrom_of_overruns (overruns : Overruns room head) (count : ℕ) :
    decodeFrom (some (count + room)) count head =
      .error (.capacityExceeded (count + room + 1) (count + room)) := by
  induction overruns generalizing count with
  | here sized =>
    rw [decodeFrom_eq, Nat.add_zero, step_full sized]
    rfl
  | @onward room head next message mode held _ ih =>
    have more : step (some (count + (room + 1))) count head =
        .ok (some (⟨mode, message⟩, next)) := step_eq_some_iff.2 ⟨by simp, held⟩
    have beyond := ih (count + 1)
    rw [Nat.add_right_comm count 1 room, Nat.add_assoc] at beyond
    rw [decodeFrom_eq, more, Outcome.ok_bind]
    dsimp only
    rw [beyond]
    rfl

/-- Short of that, the limit is never seen. -/
theorem decodeFrom_of_not_overruns (within : ¬ Overruns room head) (count other : ℕ) :
    decodeFrom (some (count + room)) count head = decodeFrom none other head := by
  induction room generalizing head count other with
  | zero =>
    have unsized : ¬ Sized head := fun sized => within (.here sized)
    rw [decodeFrom_eq, decodeFrom_eq none, step_none_eq other, step_eq fun _ => unsized]
    cases read : step none 0 head with
    | error e => rfl
    | ok outcome =>
      cases outcome with
      | none => rfl
      | some more => exact absurd (sized_of_step read) unsized
  | succ room ih =>
    have under : some (count + (room + 1)) ≠ some count := by simp
    rw [decodeFrom_eq, decodeFrom_eq none, step_none_eq other,
      step_eq fun full => absurd full under]
    cases read : step none 0 head with
    | error e => rfl
    | ok outcome =>
      cases outcome with
      | none => rfl
      | some more =>
        obtain ⟨-, held⟩ := step_eq_some_iff.1 read
        have onward := ih (fun beyond => within (.onward held beyond)) (count + 1) (other + 1)
        rw [Outcome.ok_bind, Outcome.ok_bind]
        dsimp only
        rw [← onward, Nat.add_right_comm count 1 room, Nat.add_assoc]

/-! ## Whole chains -/

theorem decode_of_overruns (overruns : Overruns most head) :
    decode (some most) head = .error (.capacityExceeded (most + 1) most) := by
  have refused := decodeFrom_of_overruns overruns 0
  rwa [Nat.zero_add] at refused

theorem decode_of_not_overruns (within : ¬ Overruns most head) :
    decode (some most) head = decode none head := by
  have same := decodeFrom_of_not_overruns within 0 0
  rwa [Nat.zero_add] at same

theorem decode_none_ne_capacityExceeded (head : Cell) (count most : ℕ) :
    decode none head ≠ .error (.capacityExceeded count most) := by
  intro failed
  obtain ⟨cause, layout⟩ := (failsOnly_decodeFrom none 0 head _ failed).inLayout
  cases layout

/-- What is read under a limit is read under any other that allows so many messages. -/
theorem decode_of_decode_some (decoded : decode (some most) head = .ok messages) :
    decode none head = .ok messages ∧
      ∀ more, most ≤ more → decode (some more) head = .ok messages := by
  obtain ⟨written, all⟩ := decode_ok_iff.1 decoded
  refine ⟨decode_ok_iff.2 ⟨written, nofun⟩, fun more le => ?_⟩
  refine decode_ok_iff.2 ⟨written, ?_⟩
  rintro _ ⟨⟩
  exact (all most rfl).trans le

/-- A chain that can be read without a limit is read under one that allows its messages, and refused
as too long under any other.  A chain that cannot be read is refused as too long just when it
overruns the limit, and else for the reason that it has without a limit.  So no limit makes a list
shorter, and no greater limit changes what has been read. -/
theorem capped_chain (head : Cell) (most : ℕ) :
    (∀ messages, decode none head = .ok messages →
      (messages.length ≤ most → decode (some most) head = .ok messages) ∧
      (most < messages.length →
        decode (some most) head = .error (.capacityExceeded (most + 1) most))) ∧
    (∀ e, decode none head = .error e →
      (decode (some most) head = .error (.capacityExceeded (most + 1) most) ↔
        Overruns most head) ∧
      (¬ Overruns most head → decode (some most) head = .error e)) ∧
    (∀ messages, decode (some most) head = .ok messages → decode none head = .ok messages ∧
      ∀ more, most ≤ more → decode (some more) head = .ok messages) := by
  refine ⟨fun messages decoded => ?_, fun e failed => ?_, fun _ => decode_of_decode_some⟩
  · have spells := encode_ok_iff_spells.1 ((decode_none_iff_encode head messages).1 decoded)
    have long_iff := overruns_iff_of_spells spells most
    constructor
    · intro fits
      rw [decode_of_not_overruns (long_iff.not.2 fits.not_gt), decoded]
    · exact fun long => decode_of_overruns (long_iff.2 long)
  · constructor
    · refine ⟨fun full => ?_, decode_of_overruns⟩
      by_contra within
      rw [decode_of_not_overruns within] at full
      exact decode_none_ne_capacityExceeded head _ _ full
    · intro within
      rw [decode_of_not_overruns within, failed]

/-- A node of the size of one with an action, with another tag. -/
def wrongTag : Cell :=
  .ofContent ⟨.replicate 40 false, .replicate 2 .empty, by decide, by decide, by decide⟩

theorem step_wrongTag (count : ℕ) :
    step none count wrongTag = .error (.layout (.actionTag 0)) := rfl

/-- Behind one action the limit of one comes before the wrong tag, and a limit of two after it. -/
theorem capped_chain_wrongTag : ∃ head good : Cell, head.Holds (nodeBits 0) [wrongTag, .empty] ∧
    decode none head = .error (.layout (.actionTag 0)) ∧
    decode (some 1) head = .error (.capacityExceeded 2 1) ∧
    decode (some 2) head = .error (.layout (.actionTag 0)) ∧
    decode (some 1) good = .error (.capacityExceeded 2 1) ∧
    decode (some 2) good = .ok [⟨1, .empty⟩, ⟨2, .empty⟩] := by
  obtain ⟨head, held⟩ : ∃ head : Cell, head.Holds (nodeBits 0) [wrongTag, .empty] :=
    Cell.exists_holds_iff.2 ⟨nodeBits_fit 0, by decide, by decide⟩
  have sized : Sized wrongTag := ⟨rfl, by decide⟩
  have more : step none 0 head = .ok (some (⟨0, .empty⟩, wrongTag)) :=
    step_eq_some_iff.2 ⟨nofun, held⟩
  have failed : decode none head = .error (.layout (.actionTag 0)) := by
    rw [decode, decodeFrom_eq, more, Outcome.ok_bind]
    dsimp only
    rw [decodeFrom_eq, step_wrongTag]
    rfl
  have within : ¬ Overruns 2 head := by
    rw [overruns_succ_iff held]
    intro overruns
    cases overruns with
    | @onward _ _ next message mode held' _ =>
      have read : step none 0 wrongTag = .ok (some (⟨mode, message⟩, next)) :=
        step_eq_some_iff.2 ⟨nofun, held'⟩
      cases read.symm.trans (step_wrongTag 0)
  obtain ⟨good, written⟩ : ∃ good, encode [⟨1, .empty⟩, ⟨2, .empty⟩] = .ok good := ⟨_, rfl⟩
  have decoded := (decode_none_iff_encode _ _).2 written
  obtain ⟨-, one, -⟩ := capped_chain head 1
  obtain ⟨-, two, -⟩ := capped_chain head 2
  obtain ⟨good_one, -, -⟩ := capped_chain good 1
  obtain ⟨good_two, -, -⟩ := capped_chain good 2
  exact ⟨head, good, held, failed, (one _ failed).1.2 (.onward held (.here sized)),
    (two _ failed).2 within, (good_one _ decoded).2 (by decide), (good_two _ decoded).1 (by decide)⟩

end WalletWire.ActionChain
