import WalletWire.Proofs.Request.Depth
import WalletWire.Proofs.Request.Limit

/-!
# How far a chain is walked

Nothing in a chain says how long it is, and each node tells where the next one is.  But a node is
less deep than the one before it, so the depth of the head bounds the walk
(`ActionChain.walk_eq`).  No cell is deeper than 1024, which bounds the lists, makes greater limits
pointless, and keeps the count in a refusal far from the end of a machine word
(`ActionChain.bounded_walk`).
-/

namespace WalletWire.ActionChain

variable {limit : Option ℕ} {count fuel room most : ℕ} {node next head : Cell}
  {outgoing : Outgoing} {messages : List Outgoing}

/-! ## Node by node -/

/-- The nodes from this one on are read one after the other, with the messages of those before at
hand.  After `fuel` nodes it is over, and there is no result unless the chain has ended. -/
def walk (limit : Option ℕ) : (fuel : ℕ) → (before : List Outgoing) → (node : Cell) →
    Option (Except BodyError (List Outgoing))
  | 0, _, _ => none
  | fuel + 1, before, node =>
    match step limit before.length node with
    | .error e => some (.error e)
    | .ok none => some (.ok before)
    | .ok (some (outgoing, next)) => walk limit fuel (before ++ [outgoing]) next

theorem depth_lt_of_holds {mode : UInt8} {message : Cell}
    (held : node.Holds (nodeBits mode) [next, message]) : next.depth < node.depth := by
  apply Cell.depth_lt_of_mem
  rw [held.refs_eq]
  exact List.mem_cons_self ..

/-- A node for each level is enough, and all beyond that makes no difference. -/
theorem walk_eq (enough : node.depth < fuel) (before : List Outgoing) :
    walk limit fuel before node =
      some ((before ++ ·) <$> decodeFrom limit before.length node) := by
  induction fuel generalizing before node with
  | zero => exact absurd enough (Nat.not_lt_zero _)
  | succ fuel ih =>
    rw [walk, decodeFrom_eq]
    cases read : step limit before.length node with
    | error e => rfl
    | ok outcome =>
      cases outcome with
      | none =>
        show some (Except.ok before) = some (.ok (before ++ []))
        rw [List.append_nil]
      | some more =>
        obtain ⟨outgoing, next⟩ := more
        obtain ⟨-, held⟩ := step_eq_some_iff.1 read
        have below := depth_lt_of_holds held
        rw [Outcome.ok_bind]
        dsimp only
        rw [ih (by omega), List.length_append, List.length_singleton]
        simp only [Functor.map_map, List.append_assoc, List.singleton_append]

/-! ## What the depth bounds -/

theorem length_le_depth (decoded : decode limit head = .ok messages) :
    messages.length ≤ head.depth := by
  obtain ⟨written, -⟩ := decode_ok_iff.1 decoded
  rw [depth_of_encode written]
  exact le_max_left ..

/-- A limit that is overrun is less than the depth. -/
theorem Overruns.lt_depth (overruns : Overruns room head) : room < head.depth := by
  induction overruns with
  | @here head sized =>
    obtain ⟨next, message, nodes⟩ := List.length_eq_two.1 sized.refs
    have below : next.depth < head.depth := by
      apply Cell.depth_lt_of_mem
      rw [nodes]
      exact List.mem_cons_self ..
    omega
  | onward held _ ih =>
    have below := depth_lt_of_holds held
    omega

theorem decode_of_depth_le (deep : head.depth ≤ most) :
    decode (some most) head = decode none head :=
  decode_of_not_overruns fun overruns => absurd overruns.lt_depth (by omega)

theorem eq_of_capacityExceeded {max : ℕ}
    (refused : decode (some most) head = .error (.capacityExceeded count max)) :
    max = most ∧ count = most + 1 ∧ most < head.depth := by
  have overruns : Overruns most head := by
    by_contra within
    rw [decode_of_not_overruns within] at refused
    exact decode_none_ne_capacityExceeded head _ _ refused
  cases (decode_of_overruns overruns).symm.trans refused
  exact ⟨rfl, rfl, overruns.lt_depth⟩

theorem toNat_add_one {n : USize} (small : n.toNat < maxDepth) : (n + 1).toNat = n.toNat + 1 := by
  have wide := USize.le_size
  rw [USize.toNat_add, USize.toNat_one, Nat.mod_eq_of_lt]
  change n.toNat + 1 < USize.size
  unfold maxDepth at small
  omega

/-- Reading a chain comes to an end after at most one node more than the head is deep, so a list that
is read is at most as long as that, which is at most 1024.  A limit of 1024 or more is no limit.  A
list is refused as too long only under a limit that is less than the depth, so however the machine
counts, one more than the limit can be counted. -/
theorem bounded_walk (head : Cell) :
    (∀ limit fuel, head.depth < fuel → walk limit fuel [] head = some (decode limit head)) ∧
    (∀ limit messages, decode limit head = .ok messages → messages.length ≤ head.depth) ∧
    head.depth ≤ 1024 ∧
    (∀ most, 1024 ≤ most → decode (some most) head = decode none head) ∧
    ∀ (most : USize) (count max : ℕ),
      decode (some most.toNat) head = .error (.capacityExceeded count max) →
        max = most.toNat ∧ count = (most + 1).toNat ∧ (most + 1).toNat = most.toNat + 1 := by
  refine ⟨fun limit fuel enough => ?_, fun _ _ => length_le_depth, head.depth_le,
    fun most deep => decode_of_depth_le (head.depth_le.trans deep), fun most count max refused => ?_⟩
  · rw [walk_eq enough]
    exact congrArg some (id_map _)
  · obtain ⟨rfl, rfl, below⟩ := eq_of_capacityExceeded refused
    have exact := toNat_add_one (below.trans_le head.depth_le)
    exact ⟨rfl, exact.symm, exact⟩

/-- The longest chain there is takes all the nodes, and one less is the greatest limit that it
overruns. -/
theorem bounded_walk_longest : ∃ (head : Cell) (messages : List Outgoing),
    messages.length = 1024 ∧ decode none head = .ok messages ∧
    walk none 1025 [] head = some (.ok messages) ∧ decode (some 1024) head = .ok messages ∧
    decode (some (1023 : USize).toNat) head = .error (.capacityExceeded 1024 1023) ∧
    ((1023 : USize) + 1).toNat = 1024 := by
  let messages : List Outgoing := .replicate 1024 ⟨0, .empty⟩
  have long : messages.length = 1024 := List.length_replicate
  have deep : depthOf messages = 1024 := depthOf_replicate 1024 0
  have small : (1023 : USize).toNat = 1023 := by simp
  obtain ⟨head, written⟩ := (exists_encode_iff messages).2 deep.le
  have decoded : decode none head = .ok messages := (decode_none_iff_encode head messages).2 written
  have depth : head.depth = 1024 := (depth_of_encode written).trans deep
  have overruns : Overruns 1023 head := by
    rw [overruns_iff_of_spells (encode_ok_iff_spells.1 written), long]
    decide
  obtain ⟨ends, -, -, unlimited, counts⟩ := bounded_walk head
  have refused : decode (some (1023 : USize).toNat) head = .error (.capacityExceeded 1024 1023) := by
    rw [small]
    exact decode_of_overruns overruns
  obtain ⟨-, same, -⟩ := counts 1023 _ _ refused
  refine ⟨head, messages, long, decoded, ?_, ?_, refused, same.symm⟩
  · rw [ends none 1025 (by omega), decoded]
  · rw [unlimited 1024 le_rfl, decoded]

end WalletWire.ActionChain
