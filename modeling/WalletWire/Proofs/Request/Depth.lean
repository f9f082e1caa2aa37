import WalletWire.Proofs.Request.Trailing

/-!
# How deep a chain goes

A message hangs below its own node and all nodes before it.  So a chain is deep when it is long, or
when a deep message comes late in it (`ActionChain.depthOf`).  The bits of a node and of a request
always fit, so this depth alone decides whether a chain, a request and its signature can be written
(`SignedRequest.encodable_iff_depthOf`).  A request is one level above its chain and leaves one
level less.
-/

namespace WalletWire

open Ed25519

namespace ActionChain

variable {head : Cell} {messages : List Outgoing} {most : ℕ}

/-- The depth of the chain of the given messages, were it written: that of the last node or that of
a message, the one at `j` being `j + 1` levels below the head. -/
def depthOf (messages : List Outgoing) : ℕ :=
  max messages.length
    (Finset.univ.sup fun j : Fin messages.length => messages[j].message.depth + j + 1)

theorem depthOf_le_iff : depthOf messages ≤ most ↔
    messages.length ≤ most ∧
      ∀ (j : ℕ) (_ : j < messages.length), messages[j].message.depth + j + 1 ≤ most := by
  unfold depthOf
  rw [max_le_iff, Finset.sup_le_iff]
  simp only [Finset.mem_univ, true_imp_iff, Fin.forall_iff]
  rfl

@[simp] theorem depthOf_nil : depthOf [] = 0 := rfl

/-- The first node is above the chain of the others and above its own message. -/
theorem depthOf_cons (outgoing : Outgoing) (rest : List Outgoing) :
    depthOf (outgoing :: rest) = max (depthOf rest) outgoing.message.depth + 1 := by
  apply eq_of_forall_ge_iff
  intro most
  rw [Nat.succ_le_iff, max_lt_iff, depthOf_le_iff]
  cases most with
  | zero => simp
  | succ most =>
    rw [Nat.lt_succ_iff, Nat.lt_succ_iff, depthOf_le_iff]
    constructor
    · rintro ⟨few, shallow⟩
      refine ⟨⟨Nat.le_of_succ_le_succ few, fun j inside => ?_⟩, ?_⟩
      · have := shallow (j + 1) (Nat.succ_lt_succ inside)
        rw [List.getElem_cons_succ] at this
        omega
      · have := shallow 0 (Nat.succ_pos _)
        rw [List.getElem_cons_zero] at this
        omega
    · rintro ⟨⟨few, shallow⟩, first⟩
      refine ⟨Nat.succ_le_succ few, fun j inside => ?_⟩
      cases j with
      | zero =>
        rw [List.getElem_cons_zero]
        omega
      | succ j =>
        have := shallow j (Nat.lt_of_succ_lt_succ inside)
        rw [List.getElem_cons_succ]
        omega

theorem depthOf_replicate (count : ℕ) (mode : UInt8) :
    depthOf (List.replicate count ⟨mode, .empty⟩) = count := by
  induction count with
  | zero => exact depthOf_nil
  | succ count ih =>
    rw [List.replicate_succ, depthOf_cons, ih]
    exact congrArg (· + 1) (Nat.max_zero count)

/-! ## Chains -/

theorem depth_of_encode (written : encode messages = .ok head) :
    head.depth = depthOf messages := by
  induction messages generalizing head with
  | nil =>
    cases written
    rfl
  | cons outgoing rest ih =>
    obtain ⟨next, others, held⟩ := encode_cons_ok_iff.1 written
    rw [held.depth_of_pair, depthOf_cons, ih others]

theorem exists_encode_iff (messages : List Outgoing) :
    (∃ head, encode messages = .ok head) ↔ depthOf messages ≤ maxDepth := by
  constructor
  · rintro ⟨head, written⟩
    rw [← depth_of_encode written]
    exact head.depth_le
  · -- From the last message on, as the nodes are written.
    intro fits
    induction messages with
    | nil => exact ⟨.empty, rfl⟩
    | cons outgoing rest ih =>
      rw [depthOf_cons, Nat.succ_le_iff, max_lt_iff] at fits
      obtain ⟨next, others⟩ := ih fits.1.le
      rw [← depth_of_encode others] at fits
      obtain ⟨head, held⟩ := (Cell.exists_holds_pair_iff (nodeBits_fit outgoing.mode)).2 fits
      exact ⟨head, encode_cons_ok_iff.2 ⟨next, others, held⟩⟩

end ActionChain

/-! ## Requests -/

namespace SignedRequest

open ActionChain

/-- The cell to be signed exists for any chain that can be referred to. -/
theorem exists_signed_iff (request : SignedRequest) {chain : Cell} :
    (∃ signed : Cell, signed.Holds request.fieldBits [chain]) ↔ chain.depth < maxDepth := by
  rw [Cell.exists_holds_iff, and_iff_right request.fieldBits_fit]
  simp [maxRefs]

theorem exists_unsigned_iff (request : SignedRequest) :
    (∃ signed, request.unsigned = .ok signed) ↔ depthOf request.messages < maxDepth := by
  constructor
  · rintro ⟨signed, written⟩
    obtain ⟨chain, chained, held⟩ := unsigned_ok_iff.1 written
    rw [← depth_of_encode chained]
    exact request.exists_signed_iff.1 ⟨signed, held⟩
  · intro fits
    obtain ⟨chain, chained⟩ := (exists_encode_iff request.messages).2 fits.le
    rw [← depth_of_encode chained] at fits
    obtain ⟨signed, held⟩ := request.exists_signed_iff.2 fits
    exact ⟨signed, unsigned_ok_iff.2 ⟨chain, chained, held⟩⟩

theorem exists_encode_iff_unsigned (request : SignedRequest) :
    (∃ body, request.encode = .ok body) ↔ ∃ signed, request.unsigned = .ok signed := by
  constructor
  · rintro ⟨body, encoded⟩
    obtain ⟨signed, written, -⟩ := encode_iff_unsigned.1 encoded
    exact ⟨signed, written⟩
  · rintro ⟨signed, written⟩
    exact exists_encode_of_unsigned written

theorem exists_sign_iff_unsigned (pair : KeyPair) (request : SignedRequest) :
    (∃ body request', sign pair request = .ok body request') ↔
      ∃ signed, request.unsigned = .ok signed := by
  constructor
  · rintro ⟨body, request', signed⟩
    obtain ⟨signed, written, -⟩ := sign_ok_iff.1 signed
    exact ⟨signed, written⟩
  · rintro ⟨signed, written⟩
    obtain ⟨body, done, -⟩ := exists_sign_of_unsigned written pair
    exact ⟨body, _, done⟩

/-- The chain of some messages can be written just when its depth is at most 1024, and then the head
has this depth.  A request for the messages can be written and signed just when the depth is at most
1023, whatever its other fields are.  There is one error for all that fails. -/
theorem encodable_iff_depthOf (messages : List Outgoing) :
    ((∃ head, ActionChain.encode messages = .ok head) ↔ depthOf messages ≤ 1024) ∧
    (∀ head, ActionChain.encode messages = .ok head → head.depth = depthOf messages) ∧
    (∀ e, ActionChain.encode messages = .error e →
      e = .layout (.cell (.depthOverflow 1024 1024))) ∧
    ∀ request : SignedRequest, request.messages = messages →
      ((∃ body, request.encode = .ok body) ↔ depthOf messages ≤ 1023) ∧
      (∀ e, request.encode = .error e → e = .layout (.cell (.depthOverflow 1024 1024))) ∧
      ∀ pair, ((∃ body request', sign pair request = .ok body request') ↔
          depthOf messages ≤ 1023) ∧
        ∀ e left, sign pair request = .error e left →
          e = .layout (.cell (.depthOverflow 1024 1024)) := by
  refine ⟨exists_encode_iff messages, fun _ => depth_of_encode,
    ActionChain.failsOnly_encode messages, ?_⟩
  rintro request rfl
  have written := (exists_unsigned_iff request).trans Nat.lt_succ_iff
  refine ⟨(exists_encode_iff_unsigned request).trans written, failsOnly_encode request, ?_⟩
  intro pair
  exact ⟨(exists_sign_iff_unsigned pair request).trans written, failsOnly_sign pair request⟩

/-- A chain of 1023 nodes can be sent as a message, which makes a chain of full depth, but no
request can carry that. -/
theorem encodable_iff_depthOf_chainSent : ∃ message chain,
    ActionChain.encode (List.replicate 1023 ⟨0, .empty⟩) = .ok message ∧
    ActionChain.encode [⟨0, message⟩] = .ok chain ∧ chain.depth = 1024 ∧
    ∀ pair, ∃ left, sign pair { twoActions with messages := [⟨0, message⟩] } =
      .error (.layout (.cell (.depthOverflow 1024 1024))) left := by
  have long := depthOf_replicate 1023 0
  obtain ⟨can_write, depth_eq, -⟩ := encodable_iff_depthOf (List.replicate 1023 ⟨0, .empty⟩)
  obtain ⟨message, inner⟩ := can_write.2 (by rw [long]; decide)
  have deep : depthOf [⟨0, message⟩] = 1024 := by
    rw [depthOf_cons, depth_eq message inner, long]
    rfl
  obtain ⟨can_write, depth_eq, -, requests⟩ := encodable_iff_depthOf [⟨0, message⟩]
  obtain ⟨chain, outer⟩ := can_write.2 deep.le
  refine ⟨message, chain, inner, outer, (depth_eq chain outer).trans deep, fun pair => ?_⟩
  obtain ⟨-, -, signing⟩ := requests { twoActions with messages := [⟨0, message⟩] } rfl
  obtain ⟨signs, refused⟩ := signing pair
  cases outcome : sign pair { twoActions with messages := [⟨0, message⟩] } with
  | ok body request' =>
    have fits := signs.1 ⟨body, request', outcome⟩
    omega
  | error e left => exact ⟨left, congrArg (EStateM.Result.error · left) (refused e left outcome)⟩

end SignedRequest

end WalletWire
