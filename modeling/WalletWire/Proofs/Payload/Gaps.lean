import WalletWire.Proofs.Payload.Positions

/-!
# Gaps between indices

Messages are read from a dictionary entry by entry, and under the contiguous policy each index is
compared with its position before its value is looked at.  So the strict policy accepts what the lax
one accepts when the indices are just the positions, and otherwise it reports the first gap, unless
a value before it cannot be read (`Load.gapless_indexed`).
-/

namespace WalletWire

open Program

namespace Dictionary

/-- From `start` on, the smallest index that is no key, and the smallest key above it. -/
structure Gap (start : ℕ) (keys : List ℕ) (expected found : ℕ) : Prop where
  expected_least : IsLeast {index | start ≤ index ∧ index ∉ keys} expected
  found_least : IsLeast {key | key ∈ keys ∧ expected < key} found

namespace Gap

variable {start index expected found : ℕ} {keys : List ℕ}

theorem not_nil : ¬ Gap start [] expected found := by
  intro gap
  exact List.not_mem_nil gap.found_least.1.1

/-- A first key above the start leaves a gap in front of it. -/
theorem cons_iff_of_lt (above : start < index) (ascending : ∀ key ∈ keys, index < key) :
    Gap start (index :: keys) expected found ↔ expected = start ∧ found = index := by
  have start_least : IsLeast {index' | start ≤ index' ∧ index' ∉ index :: keys} start := by
    refine ⟨⟨le_rfl, ?_⟩, fun _ missing => missing.1⟩
    intro mem
    rcases List.mem_cons.1 mem with rfl | mem
    · exact lt_irrefl _ above
    · exact lt_asymm above (ascending start mem)
  have index_least : IsLeast {key | key ∈ index :: keys ∧ start < key} index := by
    refine ⟨⟨List.mem_cons_self .., above⟩, ?_⟩
    rintro key ⟨mem, -⟩
    rcases List.mem_cons.1 mem with rfl | mem
    · exact le_rfl
    · exact (ascending key mem).le
  constructor
  · intro gap
    obtain rfl := gap.expected_least.unique start_least
    exact ⟨rfl, gap.found_least.unique index_least⟩
  · rintro ⟨rfl, rfl⟩
    exact ⟨start_least, index_least⟩

/-- Where the first key is the start, the gap comes later. -/
theorem cons_self_iff (ascending : ∀ key ∈ keys, start < key) :
    Gap start (start :: keys) expected found ↔ Gap (start + 1) keys expected found := by
  have missing : {index | start ≤ index ∧ index ∉ start :: keys} =
      {index | start + 1 ≤ index ∧ index ∉ keys} := by
    ext index
    simp only [Set.mem_ofPred_eq, List.mem_cons, not_or]
    constructor
    · rintro ⟨le, ne, none_there⟩
      exact ⟨by omega, none_there⟩
    · rintro ⟨lt, none_there⟩
      exact ⟨by omega, by omega, none_there⟩
  have higher (from_start : start ≤ expected) : {key | key ∈ start :: keys ∧ expected < key} =
      {key | key ∈ keys ∧ expected < key} := by
    ext key
    simp only [Set.mem_ofPred_eq, List.mem_cons]
    constructor
    · rintro ⟨rfl | mem, above⟩
      · omega
      · exact ⟨mem, above⟩
    · rintro ⟨mem, above⟩
      exact ⟨.inr mem, above⟩
  constructor
  · rintro ⟨expected_least, found_least⟩
    rw [higher expected_least.1.1] at found_least
    exact ⟨missing ▸ expected_least, found_least⟩
  · rintro ⟨expected_least, found_least⟩
    rw [← missing] at expected_least
    exact ⟨expected_least, by rwa [higher expected_least.1.1]⟩

end Gap

end Dictionary

/-! ## Entry by entry -/

namespace IndexPolicy

variable {start index expected found : ℕ} {value : Cell} {entries : List (ℕ × Cell)}
  {messages : List Outgoing}

/-- An index that is its position lets any policy go on. -/
theorem collect_cons_self (policy : IndexPolicy) :
    policy.collect start ((start, value) :: entries) = do
      let outgoing ← Outgoing.ofValue value
      return outgoing :: (← policy.collect (start + 1) entries) := by
  rw [collect, if_neg fun wrong => wrong.2 rfl]

theorem collect_cons_of_ne (wrong : index ≠ start) :
    contiguous.collect start ((index, value) :: entries) =
      .error (.layout (.indexGap start index)) := by
  rw [collect, if_pos ⟨rfl, wrong⟩]
  rfl

/-- Under the lax policy, an entry is a message. -/
theorem collect_ascending_ok_iff : ascending.collect start entries = .ok messages ↔
    List.Forall₂ (fun entry outgoing => Outgoing.ofValue entry.2 = .ok outgoing)
      entries messages := by
  induction entries generalizing start messages with
  | nil =>
    rw [List.forall₂_nil_left_iff, eq_comm]
    exact Except.ok.injEq .. |>.to_iff
  | cons entry entries ih =>
    unfold collect
    dsimp only
    rw [if_neg (by simp)]
    simp only [Outcome.bind_ok_iff, Outcome.lift_ok_iff, Outcome.pure_ok_iff, ih,
      List.forall₂_cons_left_iff]
    constructor
    · rintro ⟨outgoing, read, others, rest, rfl⟩
      exact ⟨outgoing, others, read, rest, rfl⟩
    · rintro ⟨outgoing, others, read, rest, rfl⟩
      exact ⟨outgoing, read, others, rest, rfl⟩

/-- The strict policy is the lax one for indices that count up. -/
theorem collect_contiguous_ok_iff : contiguous.collect start entries = .ok messages ↔
    ascending.collect start entries = .ok messages ∧
      entries.map Prod.fst = List.range' start entries.length := by
  induction entries generalizing start messages with
  | nil => simp [collect]
  | cons entry entries ih =>
    obtain ⟨index, value⟩ := entry
    rw [List.map_cons, List.length_cons, List.range'_succ, List.cons.injEq]
    by_cases agrees : index = start
    · subst agrees
      simp only [collect_cons_self, Outcome.bind_ok_iff, Outcome.pure_ok_iff, ih, true_and]
      constructor
      · rintro ⟨outgoing, read, others, ⟨rest, count⟩, rfl⟩
        exact ⟨⟨outgoing, read, others, rest, rfl⟩, count⟩
      · rintro ⟨⟨outgoing, read, others, rest, rfl⟩, count⟩
        exact ⟨outgoing, read, others, ⟨rest, count⟩, rfl⟩
    · rw [collect_cons_of_ne agrees]
      simp [agrees]

/-- A gap is reported behind a value that can be read. -/
theorem collect_cons_self_gap_iff (policy : IndexPolicy) :
    policy.collect start ((start, value) :: entries) =
        .error (.layout (.indexGap expected found)) ↔
      (∃ outgoing, Outgoing.ofValue value = .ok outgoing) ∧
        policy.collect (start + 1) entries = .error (.layout (.indexGap expected found)) := by
  rw [collect_cons_self, Outcome.bind_error_iff, Outcome.lift_error_iff]
  simp only [Outcome.bind_error_iff, Outcome.lift_ok_iff]
  constructor
  · rintro (⟨cause, -, ⟨⟩⟩ | ⟨outgoing, read, refused | ⟨others, -, ⟨⟩⟩⟩)
    exact ⟨⟨outgoing, read⟩, refused⟩
  · rintro ⟨⟨outgoing, read⟩, refused⟩
    exact .inr ⟨outgoing, read, .inl refused⟩

/-- The strict policy reports the first gap when it can read all values before it. -/
theorem collect_gap_iff (ascending : entries.Pairwise fun e f => e.1 < f.1)
    (above : ∀ entry ∈ entries, start ≤ entry.1) :
    contiguous.collect start entries = .error (.layout (.indexGap expected found)) ↔
      Dictionary.Gap start (entries.map Prod.fst) expected found ∧
        ∀ entry ∈ entries, entry.1 < found →
          ∃ outgoing, Outgoing.ofValue entry.2 = .ok outgoing := by
  induction entries generalizing start with
  | nil => simp [collect, Dictionary.Gap.not_nil]
  | cons entry entries ih =>
    obtain ⟨index, value⟩ := entry
    obtain ⟨first, others⟩ := List.pairwise_cons.1 ascending
    have keys_above : ∀ key ∈ entries.map Prod.fst, index < key := List.forall_mem_map.2 first
    rw [List.map_cons, List.forall_mem_cons]
    by_cases agrees : index = start
    · subst agrees
      rw [collect_cons_self_gap_iff, ih others first, Dictionary.Gap.cons_self_iff keys_above]
      constructor
      · rintro ⟨read, gap, before⟩
        exact ⟨gap, fun _ => read, before⟩
      · rintro ⟨gap, read, before⟩
        exact ⟨read (keys_above found gap.found_least.1.1), gap, before⟩
    · have higher : start < index :=
        lt_of_le_of_ne (above _ (List.mem_cons_self ..)) (Ne.symm agrees)
      rw [collect_cons_of_ne agrees, Dictionary.Gap.cons_iff_of_lt higher keys_above]
      constructor
      · rintro ⟨⟩
        refine ⟨⟨rfl, rfl⟩, fun below => absurd below (lt_irrefl _), ?_⟩
        exact fun entry mem below => absurd below (lt_asymm (first entry mem))
      · rintro ⟨⟨rfl, rfl⟩, -⟩
        rfl

end IndexPolicy

/-! ## Reading -/

namespace Load

variable {policy : IndexPolicy} {slice rest : Slice} {messages : List Outgoing} {expected found : ℕ}

theorem indexed_ok_iff_collect : indexed policy slice = .ok messages rest ↔
    ∃ dictionary, Load.dictionary indexWidth slice = .ok dictionary rest ∧
      policy.collect 0 dictionary.entries = .ok messages := by
  unfold indexed
  simp only [bind_ok_iff, lift_ok_iff, ofExcept_ok_iff]
  constructor
  · rintro ⟨dictionary, _, read, collected, rfl⟩
    exact ⟨dictionary, read, collected⟩
  · rintro ⟨dictionary, read, collected⟩
    exact ⟨dictionary, rest, read, collected, rfl⟩

/-- No cell error is a gap, so the dictionary has been read when one is reported. -/
theorem indexed_gap_iff_collect :
    indexed policy slice = .error (.layout (.indexGap expected found)) rest ↔
      ∃ dictionary, Load.dictionary indexWidth slice = .ok dictionary rest ∧
        policy.collect 0 dictionary.entries = .error (.layout (.indexGap expected found)) := by
  unfold indexed
  simp only [bind_error_iff, lift_ok_iff, lift_error_iff, ofExcept_error_iff]
  constructor
  · rintro (⟨cause, -, ⟨⟩⟩ | ⟨dictionary, _, read, collected, rfl⟩)
    exact ⟨dictionary, read, collected⟩
  · rintro ⟨dictionary, read, collected⟩
    exact .inr ⟨dictionary, rest, read, collected, rfl⟩

/-- Messages are read under the contiguous policy just when they are under the ascending one and
their indices count up from zero.  Under the ascending policy there is one message for each entry,
in the order of the keys.  The contiguous policy reports a gap just when it is the first one and all
values before it can be read. -/
theorem gapless_indexed (slice : Slice) :
    (∀ messages rest, indexed .contiguous slice = .ok messages rest ↔
      indexed .ascending slice = .ok messages rest ∧
        ∃ dictionary, Load.dictionary indexWidth slice = .ok dictionary rest ∧
          dictionary.keys = List.range dictionary.entries.length) ∧
    (∀ messages rest, indexed .ascending slice = .ok messages rest ↔
      ∃ dictionary, Load.dictionary indexWidth slice = .ok dictionary rest ∧
        dictionary.keys.Pairwise (· < ·) ∧
        List.Forall₂ (fun entry outgoing => Outgoing.ofValue entry.2 = .ok outgoing)
          dictionary.entries messages) ∧
    ∀ expected found rest,
      indexed .contiguous slice = .error (.layout (.indexGap expected found)) rest ↔
        ∃ dictionary, Load.dictionary indexWidth slice = .ok dictionary rest ∧
          Dictionary.Gap 0 dictionary.keys expected found ∧
          ∀ entry ∈ dictionary.entries, entry.1 < found →
            ∃ outgoing, Outgoing.ofValue entry.2 = .ok outgoing := by
  refine ⟨fun messages rest => ?_, fun messages rest => ?_, fun expected found rest => ?_⟩
  · simp only [indexed_ok_iff_collect, IndexPolicy.collect_contiguous_ok_iff, List.range_eq_range']
    constructor
    · rintro ⟨dictionary, read, collected, count⟩
      exact ⟨⟨dictionary, read, collected⟩, dictionary, read, count⟩
    · rintro ⟨⟨dictionary, read, collected⟩, _, again, count⟩
      cases again.symm.trans read
      exact ⟨dictionary, read, collected, count⟩
  · simp only [indexed_ok_iff_collect, IndexPolicy.collect_ascending_ok_iff]
    refine exists_congr fun dictionary => and_congr_right fun _ => ?_
    rw [and_iff_right]
    exact List.pairwise_map.2 dictionary.ascending
  · rw [indexed_gap_iff_collect]
    refine exists_congr fun dictionary => and_congr_right fun _ => ?_
    exact IndexPolicy.collect_gap_iff dictionary.ascending fun _ _ => Nat.zero_le _

/-- One value under the indices 0 and 2. -/
def zeroTwo (value : Cell) : Dictionary :=
  ⟨[(0, value), (2, value)], List.pairwise_pair.2 two_pos⟩

theorem gapless_indexed_zeroTwo : ∃ (value : Cell) (slice rest : Slice),
    Load.dictionary indexWidth slice = .ok (zeroTwo value) rest ∧
    indexed .contiguous slice = .error (.layout (.indexGap 1 2)) rest ∧
    indexed .ascending slice = .ok [⟨3, .empty⟩, ⟨3, .empty⟩] rest := by
  let outgoing : Outgoing := ⟨3, .empty⟩
  obtain ⟨value, valued⟩ : ∃ value, outgoing.toValue = .ok value :=
    Outgoing.exists_toValue_iff.2 (by decide)
  have readable : Outgoing.ofValue value = .ok outgoing :=
    Outgoing.ofValue_ok_iff.2 (Outgoing.toValue_ok_iff.1 valued)
  have size : value.bits.length = 8 := Outgoing.length_of_toValue valued
  have depth : value.depth = 1 := Outgoing.depth_of_toValue valued
  have both {p : ℕ × Cell → Prop} (zero : p (0, value)) (two : p (2, value)) :
      ∀ entry ∈ (zeroTwo value).entries, p entry :=
    List.forall_mem_cons.2 ⟨zero, List.forall_mem_singleton.2 two⟩
  obtain ⟨root?, encoded, shallow⟩ : ∃ root?, (zeroTwo value).encode indexWidth = .ok root? ∧
      ∀ root ∈ root?, root.depth ≤ 2 + 1 :=
    Dictionary.exists_encode (by decide) (by decide) (both (Nat.two_pow_pos 2) (by norm_num))
      (both size.le size.le) (both depth.le depth.le) (by decide) (by decide)
  obtain ⟨cell, held⟩ : ∃ cell : Cell, cell.Holds [root?.isSome] root?.toList := by
    rw [Cell.exists_holds_iff]
    refine ⟨show 1 ≤ maxBits by decide, Option.length_toList_le.trans (by decide), ?_⟩
    intro child mem
    exact (shallow child (Option.mem_toList.1 mem)).trans_lt (by decide)
  obtain ⟨rest, split, -⟩ := Slice.ofCell_splits_iff.2 held
  have read : Load.dictionary indexWidth (.ofCell cell) = .ok (zeroTwo value) rest :=
    Load.dictionary_ok_iff.2 ⟨by decide, root?, split, Dictionary.ofRoot?_of_encode encoded⟩
  obtain ⟨-, ascending, contiguous⟩ := gapless_indexed (.ofCell cell)
  refine ⟨value, .ofCell cell, rest, read, ?_, ?_⟩
  · refine (contiguous 1 2 rest).2 ⟨zeroTwo value, read, ?_, ?_⟩
    · have last : Dictionary.Gap 1 [2] 1 2 :=
        (Dictionary.Gap.cons_iff_of_lt (by decide) (by decide)).2 ⟨rfl, rfl⟩
      have above : ∀ key ∈ [2], 0 < key := by decide
      exact (Dictionary.Gap.cons_self_iff above).2 last
    · exact both (fun _ => ⟨outgoing, readable⟩) fun below => absurd below (lt_irrefl 2)
  · refine (ascending _ rest).2 ⟨zeroTwo value, read, by simp [Dictionary.keys, zeroTwo], ?_⟩
    exact .cons readable (.cons readable .nil)

end Load

end WalletWire
