import WalletWire.Proofs.Dictionary.Depth
import WalletWire.Proofs.Dictionary.Failure

/-!
# Forks above a key

The keys alone decide where their trie forks: on the way to a key there is a fork at each bit at
which some other key parts from it, that is, agrees with it on all higher bits and differs there
(`Dictionary.forkBits`).  The leaf takes what is below the lowest fork for its label.  So whether a
dictionary can be written, and how deep its root is, can be told from its entries without a trie
(`Dictionary.encodable_iff_forks`).

The trie is split bit by bit from the top, and a bit that all keys have in common only prolongs the
label at the root; the leaves of a trie (`Trie.leaves`) follow this split on the one side, and the
forks of the keys (`Dictionary.forkBits_succ`) on the other.
-/

namespace WalletWire

open Program

/-! ## The length of labels -/

namespace Label

/-- The length of the cheapest form that a label can take. -/
def leastCost (max : ℕ) (label : Bits) : ℕ :=
  let plain := min (Form.short.cost max label.length) (Form.long.cost max label.length)
  if uniform label then min plain (Form.same.cost max label.length) else plain

theorem leastCost_le_cost (max : ℕ) {label : Bits} {form : Form}
    (possible : form = .same → uniform label = true) :
    leastCost max label ≤ form.cost max label.length := by
  cases form with
  | short =>
    by_cases repeated : uniform label = true <;> simp [leastCost, repeated]
  | long =>
    by_cases repeated : uniform label = true <;> simp [leastCost, repeated]
  | same => simp [leastCost, possible rfl]

theorem length_write (max : ℕ) (label : Bits) : (write max label).length = leastCost max label := by
  rw [write, Form.length_write]
  apply le_antisymm
  · unfold leastCost
    have short : _ ≤ Form.short.cost max label.length := cost_form_le max (by simp)
    have long : _ ≤ Form.long.cost max label.length := cost_form_le max (by simp)
    by_cases repeated : uniform label = true
    · rw [if_pos repeated]
      exact le_min (le_min short long) (cost_form_le max fun _ => repeated)
    · rw [if_neg repeated]
      exact le_min short long
  · exact leastCost_le_cost max form_eq_same

end Label

/-! ## Forks by the keys -/

namespace Dictionary

/-- The other key parts from this one at a bit: they agree on all higher bits and differ there. -/
def PartsAt (width key other bit : ℕ) : Prop :=
  other.testBit bit ≠ key.testBit bit ∧
    ∀ higher < width, bit < higher → other.testBit higher = key.testBit higher

instance (width key other bit : ℕ) : Decidable (PartsAt width key other bit) :=
  inferInstanceAs (Decidable (_ ∧ ∀ higher < width, _))

/-- The bits, from the lowest one up, at which some other key parts from this one. -/
def forkBits (width : ℕ) (keys : List ℕ) (key : ℕ) : List ℕ :=
  (List.range width).filter fun bit => ∃ other ∈ keys, PartsAt width key other bit

/-- The number of forks above the leaf of a key. -/
def forks (width : ℕ) (keys : List ℕ) (key : ℕ) : ℕ :=
  (forkBits width keys key).length

/-- The label of the leaf of a key: its bits below the lowest fork, all of them without a fork. -/
def leafLabel (width : ℕ) (keys : List ℕ) (key : ℕ) : Bits :=
  Bits.ofNat ((forkBits width keys key).headD width) key

variable {width key other bit : ℕ} {keys : List ℕ}

theorem partsAt_succ_iff (lower : bit < width) : PartsAt (width + 1) key other bit ↔
    other.testBit width = key.testBit width ∧ PartsAt width key other bit := by
  unfold PartsAt
  constructor
  · rintro ⟨differ, above⟩
    exact ⟨above width (Nat.lt_succ_self width) lower, differ,
      fun higher lt => above higher (Nat.lt_succ_of_lt lt)⟩
  · rintro ⟨last, differ, above⟩
    refine ⟨differ, fun higher lt le => ?_⟩
    rcases Nat.lt_succ_iff_lt_or_eq.1 lt with lt | rfl
    · exact above higher lt le
    · exact last

theorem partsAt_last_iff :
    PartsAt (width + 1) key other width ↔ other.testBit width ≠ key.testBit width := by
  unfold PartsAt
  refine and_iff_left fun higher lt le => ?_
  omega

/-- The leading bit leaves the keys that agree in it, and is a fork if these are not all. -/
theorem forkBits_succ : forkBits (width + 1) keys key =
    forkBits width (keys.filter fun other => other.testBit width == key.testBit width) key ++
      if ∃ other ∈ keys, other.testBit width ≠ key.testBit width then [width] else [] := by
  unfold forkBits
  rw [List.range_succ, List.filter_append]
  congr 1
  · refine List.filter_congr fun bit mem => ?_
    rw [List.mem_range] at mem
    simp only [partsAt_succ_iff mem, List.mem_filter, beq_iff_eq, decide_eq_decide]
    simp only [and_assoc]
  · simp only [List.filter_cons, List.filter_nil, partsAt_last_iff, decide_eq_true_eq]

/-- Where no key differs in the leading bit, it is no fork. -/
theorem forkBits_of_agree (agree : ∀ other ∈ keys, other.testBit width = key.testBit width) :
    forkBits (width + 1) keys key = forkBits width keys key := by
  have none_differs : ¬ ∃ other ∈ keys, other.testBit width ≠ key.testBit width := by
    rintro ⟨other, mem, differs⟩
    exact differs (agree other mem)
  have all_agree :
      keys.filter (fun other => other.testBit width == key.testBit width) = keys := by
    rw [List.filter_eq_self]
    exact fun other mem => beq_iff_eq.2 (agree other mem)
  rw [forkBits_succ, if_neg none_differs, List.append_nil, all_agree]

end Dictionary

namespace Trie

/-! ## Leaves -/

/-- A leaf, with the number of forks above it. -/
structure Leaf where
  forks : ℕ
  label : Bits
  value : Cell

namespace Leaf

/-- The leaf under one fork more. -/
def below (leaf : Leaf) : Leaf := { leaf with forks := leaf.forks + 1 }

/-- The leaf when a bit is put in front of the label at the root, which can be that of the leaf. -/
def prolong (bit : Bool) (leaf : Leaf) : Leaf :=
  if leaf.forks = 0 then { leaf with label := bit :: leaf.label } else leaf

theorem prolong_below (bit : Bool) (leaf : Leaf) : leaf.below.prolong bit = leaf.below :=
  if_neg (Nat.succ_ne_zero leaf.forks)

end Leaf

/-- The leaves from left to right. -/
def leaves : Trie → List Leaf
  | leaf label value => [⟨0, label, value⟩]
  | fork _ zero one => (zero.leaves ++ one.leaves).map Leaf.below

/-- The leaves of a trie that need not be there. -/
def leavesOf : Option Trie → List Leaf
  | none => []
  | some trie => trie.leaves

variable {width : ℕ} {keys : List ℕ} {entries : List (ℕ × Cell)} {trie : Trie}

theorem leaves_prepend (bit : Bool) (trie : Trie) :
    (trie.prepend bit).leaves = trie.leaves.map (Leaf.prolong bit) := by
  cases trie with
  | leaf label value => rfl
  | fork label zero one =>
    rw [prepend, leaves, leaves, List.map_map]
    exact List.map_congr_left fun leaf _ => (leaf.prolong_below bit).symm

theorem length_leaves (trie : Trie) : trie.leaves.length = trie.paths.length := by
  induction trie with
  | leaf label value => rfl
  | fork label zero one zero_ih one_ih =>
    simp only [leaves, paths, List.length_map, List.length_append, zero_ih, one_ih]

/-- The leaf of an entry, by the keys alone. -/
def leafOf (width : ℕ) (keys : List ℕ) (entry : ℕ × Cell) : Leaf where
  forks := Dictionary.forks width keys entry.1
  label := Dictionary.leafLabel width keys entry.1
  value := entry.2

theorem leafOf_of_differ {entry : ℕ × Cell}
    (differ : ∃ other ∈ keys, other.testBit width ≠ entry.1.testBit width) :
    leafOf (width + 1) keys entry = (leafOf width
      (keys.filter fun other => other.testBit width == entry.1.testBit width) entry).below := by
  unfold leafOf Leaf.below Dictionary.forks Dictionary.leafLabel
  rw [Dictionary.forkBits_succ, if_pos differ]
  cases Dictionary.forkBits width
    (keys.filter fun other => other.testBit width == entry.1.testBit width) entry.1 <;> simp

theorem leafOf_of_agree {entry : ℕ × Cell}
    (agree : ∀ other ∈ keys, other.testBit width = entry.1.testBit width) :
    leafOf (width + 1) keys entry =
      (leafOf width keys entry).prolong (entry.1.testBit width) := by
  unfold leafOf Leaf.prolong Dictionary.forks Dictionary.leafLabel
  rw [Dictionary.forkBits_of_agree agree]
  cases Dictionary.forkBits width keys entry.1 <;> simp [Bits.ofNat]

theorem leavesOf_prepend (bit : Bool) (trie? : Option Trie) :
    leavesOf (trie?.map (prepend bit)) = (leavesOf trie?).map (Leaf.prolong bit) := by
  cases trie? with
  | none => rfl
  | some trie => exact leaves_prepend bit trie

/-- The trie of some entries is there. -/
theorem exists_of_leavesOf {trie? : Option Trie} (some_left : leavesOf trie? ≠ []) :
    ∃ trie, trie? = some trie := by
  cases trie? with
  | none => exact absurd rfl some_left
  | some trie => exact ⟨trie, rfl⟩

/-- There is one fork more above the leaves on one side when there are keys on the other. -/
theorem map_leafOf_side {bit : Bool} {side : List (ℕ × Cell)}
    (differ : ∃ other ∈ entries, other.1.testBit width ≠ bit)
    (kept : side = entries.filter fun entry => entry.1.testBit width == bit) :
    side.map (leafOf (width + 1) (entries.map Prod.fst)) =
      (side.map (leafOf width (side.map Prod.fst))).map Leaf.below := by
  rw [List.map_map]
  refine List.map_congr_left fun entry mem => ?_
  rw [kept, List.mem_filter, beq_iff_eq] at mem
  have keys : side.map Prod.fst =
      (entries.map Prod.fst).filter fun key => key.testBit width == bit := by
    rw [kept, List.filter_map]
    rfl
  obtain ⟨other, held, differs⟩ := differ
  rw [leafOf_of_differ ⟨other.1, List.mem_map_of_mem held, by rwa [mem.2]⟩, mem.2, ← keys]
  rfl

/-- The leaves of a trie are those of its entries, in their order. -/
theorem leaves_ofEntries (ascends : Ascends width entries) :
    leavesOf (ofEntries width entries) = entries.map (leafOf width (entries.map Prod.fst)) := by
  induction width generalizing entries with
  | zero => obtain rfl | ⟨entry, rfl⟩ := ascends.nil_or_singleton <;> rfl
  | succ width ih =>
    by_cases common : ∃ bit, ∀ entry ∈ entries, entry.1.testBit width = bit
    · obtain ⟨bit, agree⟩ := common
      rw [Grows.ofEntries_of_agree agree, leavesOf_prepend, ih (ascends.of_agree agree), List.map_map]
      refine List.map_congr_left fun entry mem => ?_
      rw [leafOf_of_agree, agree entry mem, Function.comp_apply]
      exact List.forall_mem_map.2 fun other held => (agree other held).trans (agree entry mem).symm
    · -- There are keys on both sides, and each has others on the side where it is not.
      push Not at common
      have zeros :=
        ih (ascends.filter_testBit (fun entry => !entry.1.testBit width) false (by simp))
      have ones := ih (ascends.filter_testBit (fun entry => entry.1.testBit width) true (by simp))
      obtain ⟨zero, zero_built⟩ := exists_of_leavesOf (by
        rw [zeros]
        simpa using common true)
      obtain ⟨one, one_built⟩ := exists_of_leavesOf (by
        rw [ones]
        simpa using common false)
      rw [zero_built] at zeros
      rw [one_built] at ones
      have joined : leavesOf (ofEntries (width + 1) entries) =
          zero.leaves.map Leaf.below ++ one.leaves.map Leaf.below := by
        rw [ofEntries_succ, zero_built, one_built]
        exact List.map_append
      rw [joined, show zero.leaves = _ from zeros, show one.leaves = _ from ones,
        ← map_leafOf_side (common false) (by simp only [beq_false]),
        ← map_leafOf_side (common true) (by simp only [beq_true]),
        ← List.map_append, ascends.filter_append_filter]

/-! ## Room -/

/-- The depth of a trie is that of its deepest value with the forks above it. -/
theorem isGreatest_depth (trie : Trie) :
    IsGreatest {n | ∃ leaf ∈ trie.leaves, leaf.value.depth + leaf.forks = n} trie.depth := by
  induction trie with
  | leaf label value =>
    refine ⟨⟨_, List.mem_singleton_self _, rfl⟩, ?_⟩
    rintro _ ⟨leaf, mem, rfl⟩
    obtain rfl := List.mem_singleton.1 mem
    exact le_rfl
  | fork label zero one zero_ih one_ih =>
    -- The deepest value of the deeper side is the deepest of all.
    obtain ⟨⟨z, z_mem, z_depth⟩, zero_le⟩ := zero_ih
    obtain ⟨⟨o, o_mem, o_depth⟩, one_le⟩ := one_ih
    have depth : (fork label zero one).depth = max zero.depth one.depth + 1 := rfl
    constructor
    · by_cases deeper : one.depth ≤ zero.depth
      · refine ⟨z.below, List.mem_map_of_mem (List.mem_append_left _ z_mem), ?_⟩
        show z.value.depth + (z.forks + 1) = _
        omega
      · refine ⟨o.below, List.mem_map_of_mem (List.mem_append_right _ o_mem), ?_⟩
        show o.value.depth + (o.forks + 1) = _
        omega
    · rintro _ ⟨_, mem, rfl⟩
      obtain ⟨leaf, held, rfl⟩ := List.mem_map.1 mem
      show leaf.value.depth + (leaf.forks + 1) ≤ _
      rcases List.mem_append.1 held with held | held
      · have := zero_le ⟨leaf, held, rfl⟩
        omega
      · have := one_le ⟨leaf, held, rfl⟩
        omega

theorem leavesFit_iff (fits : trie.Fits width) : trie.LeavesFit width ↔ ∀ leaf ∈ trie.leaves,
    Label.leastCost leaf.label.length leaf.label + leaf.value.bits.length ≤ maxBits := by
  induction trie generalizing width with
  | leaf label value =>
    have full : label.length = width := fits
    rw [leaves, List.forall_mem_singleton, full, ← Label.length_write]
    rfl
  | fork label zero one zero_ih one_ih =>
    obtain ⟨-, zero_fits, one_fits⟩ := fits
    rw [leaves, List.forall_mem_map, List.forall_mem_append]
    exact and_congr (zero_ih zero_fits) (one_ih one_fits)

/-- A trie can be written just when there is room for each leaf by itself. -/
theorem exists_encode_iff_leaves (narrow : width ≤ 64) (fits : trie.Fits width) :
    (∃ root, trie.encode width = .ok root) ↔ ∀ leaf ∈ trie.leaves,
      Label.leastCost leaf.label.length leaf.label + leaf.value.bits.length ≤ maxBits ∧
        leaf.value.depth + leaf.forks ≤ maxDepth := by
  rw [exists_encode_iff narrow fits, leavesFit_iff fits, isLUB_le_iff trie.isGreatest_depth.isLUB]
  constructor
  · rintro ⟨room, shallow⟩ leaf mem
    exact ⟨room leaf mem, shallow ⟨leaf, mem, rfl⟩⟩
  · intro both
    refine ⟨fun leaf mem => (both leaf mem).1, ?_⟩
    rintro _ ⟨leaf, mem, rfl⟩
    exact (both leaf mem).2

/-! ## Errors of writing -/

/-- A value that does not fit behind its label is refused for its bits. -/
theorem failsOnly_encode_leaf {label : Bits} {value : Cell} (narrow : width ≤ 64)
    (full : label.length = width) :
    Outcome.FailsOnly (encode width (leaf label value)) Cell.Error.OfRoom := by
  intro e failed
  rw [encode] at failed
  obtain ⟨left, failed⟩ := Cell.build_error_iff.1 failed
  have short := Label.length_write_le width label
  obtain failed | ⟨_, mid, written, failed⟩ := bind_error_iff.1 failed
  · have exceeds : maxBits < (Label.write width label).length :=
      (Store.append_error (Nat.zero_le _) failed).2
    unfold maxBits at exceeds
    omega
  · have refs_fit : mid.refs.length + value.content.refs.length ≤ maxRefs := by
      rw [((Store.appends_bits _ _).1 written).2]
      exact (Nat.zero_add _).trans_le value.refs_le
    obtain ⟨rfl, exceeds⟩ := Store.append_error refs_fit failed
    exact .bitOverflow exceeds

theorem failsOnly_encode (narrow : width ≤ 64) (fits : trie.Fits width) :
    Outcome.FailsOnly (encode width trie) Cell.Error.OfRoom := by
  induction trie generalizing width with
  | leaf label value => exact failsOnly_encode_leaf narrow fits
  | fork label zero one zero_ih one_ih =>
    obtain ⟨more, zero_fits, one_fits⟩ := fits
    rw [encode]
    refine (zero_ih (by omega) zero_fits).bind fun z => ?_
    refine (one_ih (by omega) one_fits).bind fun o => ?_
    intro e failed
    have node : Store.AppendsUnless (· = .tooDeep) (do
        Label.store width label
        Store.ref z
        Store.ref o) (Label.write width label ++ ([] ++ [])) ([] ++ ([z] ++ [o])) :=
      .bind (.of_bits Store.appends_bits) ((Store.AppendsUnless.ref z).bind (.ref o))
    have short := Label.length_write_le width label
    obtain rfl := node.build_error (by simp [maxBits]; omega) (show 2 ≤ maxRefs by decide) failed
    exact .tooDeep

end Trie

namespace Dictionary

variable {width : ℕ} {dictionary : Dictionary} {root : Cell}

/-- There is a trie of some entries, and its leaves are theirs. -/
theorem exists_trie (fits : ∀ entry ∈ dictionary.entries, entry.1 < 2 ^ width)
    (some_left : dictionary.entries ≠ []) :
    ∃ trie, Trie.ofEntries width dictionary.entries = some trie ∧
      trie.leaves = dictionary.entries.map (Trie.leafOf width dictionary.keys) := by
  have leaves := Trie.leaves_ofEntries (ascends fits)
  obtain ⟨trie, built⟩ := Trie.exists_of_leavesOf (by
    rw [leaves]
    simpa using some_left)
  rw [built] at leaves
  exact ⟨trie, built, leaves⟩

/-- A dictionary of keys that fit can be written just when every value fits behind the label of its
leaf and under the forks above it, both of which the keys alone decide.  The root is then as deep as
the deepest value with its forks.  Nothing is refused but for want of bits or of depth. -/
theorem encodable_iff_forks (width_ok : 1 ≤ width ∧ width ≤ 64)
    (keys : ∀ key ∈ dictionary.keys, key < 2 ^ width) (some_left : dictionary.entries ≠ []) :
    ((∃ root, dictionary.encode width = .ok (some root)) ↔
      ∀ entry ∈ dictionary.entries,
        Label.leastCost (leafLabel width dictionary.keys entry.1).length
            (leafLabel width dictionary.keys entry.1) + entry.2.bits.length ≤ 1023 ∧
          entry.2.depth + forks width dictionary.keys entry.1 ≤ 1024) ∧
    (∀ root?, dictionary.encode width = .ok root? → ∃ root, root? = some root ∧
      IsGreatest {depth | ∃ entry ∈ dictionary.entries,
        entry.2.depth + forks width dictionary.keys entry.1 = depth} root.depth) ∧
    Outcome.FailsOnly (dictionary.encode width) Cell.Error.OfRoom := by
  have fits : ∀ entry ∈ dictionary.entries, entry.1 < 2 ^ width := List.forall_mem_map.1 keys
  obtain ⟨trie, built, leaves⟩ := exists_trie fits some_left
  have trie_fits := Trie.fits_ofEntries built
  have encode_eq : dictionary.encode width = some <$> trie.encode width := by
    have ok : dictionary.checkKeys width = .ok () := checkKeys_ok_iff.2 fits
    rw [encode, checkWidth_eq width_ok, Outcome.ok_bind, ok, Outcome.ok_bind, built]
    rfl
  have greatest := trie.isGreatest_depth
  simp only [leaves, List.mem_map, exists_exists_and_eq_and] at greatest
  rw [encode_eq]
  refine ⟨?_, ?_, ?_⟩
  · simp only [Outcome.map_ok_iff, Option.some.injEq, exists_eq_right]
    rw [Trie.exists_encode_iff_leaves width_ok.2 trie_fits, leaves, List.forall_mem_map]
    rfl
  · intro root? written
    obtain ⟨root, built_root, rfl⟩ := Outcome.map_ok_iff.1 written
    refine ⟨root, rfl, ?_⟩
    rw [Trie.depth_of_encode built_root]
    exact greatest
  · intro e failed
    exact Trie.failsOnly_encode width_ok.2 trie_fits e (Outcome.map_error_iff.1 failed)

/-- Values under three of the four keys of two bits. -/
def threeKeys (a b c : Cell) : Dictionary := ⟨[(0, a), (1, b), (2, c)], by simp⟩

theorem keys_threeKeys (a b c : Cell) : (threeKeys a b c).keys = [0, 1, 2] := rfl

/-- Two forks stand above a value of depth 1023 under 0, and this is too deep.  Under 2 it stands
below one fork. -/
theorem encodable_iff_forks_threeKeys : ∃ deep : Cell, deep.depth = 1023 ∧
    (∃ root, (threeKeys .empty .empty deep).encode 2 = .ok (some root) ∧ root.depth = 1024) ∧
    ∃ e, (threeKeys deep .empty .empty).encode 2 = .error e ∧ e.OfRoom := by
  obtain ⟨cell, cell_depth⟩ := Cell.exists_depth_eq (show 1023 ≤ maxDepth by decide)
  obtain ⟨deep, held⟩ := cell.exists_holds (show ([] : Bits).length ≤ maxBits by decide)
  have depth : deep.depth = 1023 := by
    rw [Cell.depth_eq, held.refs_eq, ← Cell.depth_eq, cell_depth]
  have keys (a b c : Cell) : ∀ key ∈ (threeKeys a b c).keys, key < 2 ^ 2 := by
    rw [keys_threeKeys]
    decide
  have spec (a b c : Cell) :=
    encodable_iff_forks (by decide) (keys a b c) (List.cons_ne_nil (0, a) [(1, b), (2, c)])
  simp only [keys_threeKeys] at spec
  have at_zero : forks 2 [0, 1, 2] 0 = 2 := by decide
  have at_one : forks 2 [0, 1, 2] 1 = 2 := by decide
  have at_two : forks 2 [0, 1, 2] 2 = 1 := by decide
  have label_short : ∀ key ∈ [0, 1, 2], Label.leastCost (leafLabel 2 [0, 1, 2] key).length
      (leafLabel 2 [0, 1, 2] key) ≤ 4 := by decide
  have empty_bits : Cell.empty.bits = [] := rfl
  have empty_depth : Cell.empty.depth = 0 := rfl
  refine ⟨deep, depth, ?_, ?_⟩
  · obtain ⟨encodable, deepest, -⟩ := spec .empty .empty deep
    obtain ⟨root, written⟩ := encodable.2 (by
      simp only [threeKeys, List.forall_mem_cons] at label_short ⊢
      simp [at_zero, at_one, at_two, empty_bits, empty_depth, held.bits_eq, depth]
      omega)
    refine ⟨root, written, le_antisymm root.depth_le ?_⟩
    obtain ⟨_, ⟨⟩, greatest⟩ := deepest _ written
    apply greatest.2
    refine ⟨(2, deep), by simp [threeKeys], ?_⟩
    rw [at_two, depth]
  · obtain ⟨encodable, deepest, fails⟩ := spec deep .empty .empty
    cases outcome : (threeKeys deep .empty .empty).encode 2 with
    | error e => exact ⟨e, rfl, fails e outcome⟩
    | ok root? =>
      obtain ⟨root, rfl, -⟩ := deepest _ outcome
      have shallow := (encodable.1 ⟨root, outcome⟩ (0, deep) (List.mem_cons_self ..)).2
      rw [at_zero, depth] at shallow
      omega

end Dictionary

end WalletWire
