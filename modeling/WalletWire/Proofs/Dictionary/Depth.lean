import WalletWire.Proofs.Dictionary.Normal

/-!
# How deep a dictionary goes

A value hangs below the forks on the way to it.  A leaf takes the references of its value over, so
it is as deep as the value, and every fork puts one level on top (`Trie.depth`).  Whether a trie can
be written depends on this depth and on the room in its leaves, as the label of a fork always fits
(`Trie.exists_encode_iff`).  Keys below a power of two part in no more bits than it has, which bounds
the depth by the keys alone (`Trie.depth_ofEntries_le`).
-/

namespace WalletWire

theorem Label.length_write_le (max : ℕ) (label : Bits) :
    (write max label).length ≤ 2 * label.length + 2 := by
  rw [write, Form.length_write]
  show _ ≤ Form.short.cost max label.length
  apply cost_form_le
  intro same
  cases same

namespace Trie

variable {width bits least most : ℕ} {trie : Trie} {root : Cell} {entries : List (ℕ × Cell)}

/-- The depth of the root of the trie, were it written. -/
def depth : Trie → ℕ
  | leaf _ value => value.depth
  | fork _ zero one => max zero.depth one.depth + 1

/-- Every value fits behind the label of its leaf. -/
def LeavesFit : (width : ℕ) → Trie → Prop
  | width, leaf label value => (Label.write width label).length + value.bits.length ≤ maxBits
  | width, fork label zero one => zero.LeavesFit (width - label.length - 1) ∧
      one.LeavesFit (width - label.length - 1)

/-! ## Writing -/

theorem depth_of_encode (written : trie.encode width = .ok root) : root.depth = trie.depth := by
  induction trie generalizing width root with
  | leaf label value =>
    have held := encode_leaf_ok_iff.1 written
    rw [Cell.depth_eq, held.refs_eq, ← Cell.depth_eq]
    rfl
  | fork label zero one zero_ih one_ih =>
    obtain ⟨z, o, zero_written, one_written, held⟩ := encode_fork_ok_iff.1 written
    rw [held.depth_of_pair, zero_ih zero_written, one_ih one_written]
    rfl

theorem exists_encode_iff (narrow : width ≤ 64) (fits : trie.Fits width) :
    (∃ root, trie.encode width = .ok root) ↔ trie.LeavesFit width ∧ trie.depth ≤ maxDepth := by
  induction trie generalizing width with
  | leaf label value =>
    simp only [encode_leaf_ok_iff, Cell.exists_holds_iff, List.length_append]
    constructor
    · rintro ⟨room, -⟩
      exact ⟨room, value.depth_le⟩
    · rintro ⟨room, -⟩
      exact ⟨room, value.refs_le, value.ref_depth_lt⟩
  | fork label zero one zero_ih one_ih =>
    obtain ⟨more, zero_fits, one_fits⟩ := fits
    have zero_iff := zero_ih (by omega) zero_fits
    have one_iff := one_ih (by omega) one_fits
    have short : (Label.write width label).length ≤ maxBits := by
      have := Label.length_write_le width label
      unfold maxBits
      omega
    simp only [LeavesFit, depth]
    constructor
    · rintro ⟨root, written⟩
      have deep := depth_of_encode written
      obtain ⟨z, o, zero_written, one_written, -⟩ := encode_fork_ok_iff.1 written
      refine ⟨⟨(zero_iff.1 ⟨z, zero_written⟩).1, (one_iff.1 ⟨o, one_written⟩).1⟩, ?_⟩
      exact deep.symm.trans_le root.depth_le
    · rintro ⟨⟨zero_room, one_room⟩, shallow⟩
      obtain ⟨z, zero_written⟩ := zero_iff.2 ⟨zero_room, by omega⟩
      obtain ⟨o, one_written⟩ := one_iff.2 ⟨one_room, by omega⟩
      have zero_depth := depth_of_encode zero_written
      have one_depth := depth_of_encode one_written
      obtain ⟨root, held⟩ := (Cell.exists_holds_pair_iff short).2
        ⟨show z.depth < maxDepth by omega, show o.depth < maxDepth by omega⟩
      exact ⟨root, encode_fork_ok_iff.2 ⟨z, o, zero_written, one_written, held⟩⟩

/-! ## Bounds -/

/-- Values that fit behind the longest label fit in their leaves. -/
theorem leavesFit_of_paths (fits : trie.Fits width)
    (short : ∀ path ∈ trie.paths, path.2.bits.length ≤ most)
    (room : 2 * width + 2 + most ≤ maxBits) : trie.LeavesFit width := by
  induction trie generalizing width with
  | leaf label value =>
    have full : label.length = width := fits
    have label_short := Label.length_write_le width label
    have value_short : value.bits.length ≤ most := short _ (List.mem_singleton_self _)
    show (Label.write width label).length + value.bits.length ≤ maxBits
    omega
  | fork label zero one zero_ih one_ih =>
    obtain ⟨more, zero_fits, one_fits⟩ := fits
    rw [paths, List.forall_mem_append, List.forall_mem_map, List.forall_mem_map] at short
    exact ⟨zero_ih zero_fits short.1 (by omega), one_ih one_fits short.2 (by omega)⟩

/-- So many values part in no fewer forks than it takes to count them. -/
theorem add_clog_le_depth (deep : ∀ path ∈ trie.paths, least ≤ path.2.depth) :
    least + Nat.clog 2 trie.paths.length ≤ trie.depth := by
  induction trie with
  | leaf label value =>
    have value_deep : least ≤ value.depth := deep _ (List.mem_singleton_self _)
    rw [paths, List.length_singleton, Nat.clog_one_right]
    exact value_deep
  | fork label zero one zero_ih one_ih =>
    rw [paths, List.forall_mem_append, List.forall_mem_map, List.forall_mem_map] at deep
    have zero_deep := zero_ih deep.1
    have one_deep := one_ih deep.2
    let lower := max zero.depth one.depth - least
    have zeros : zero.paths.length ≤ 2 ^ lower :=
      (Nat.clog_le_iff_le_pow one_lt_two).1 (by omega)
    have ones : one.paths.length ≤ 2 ^ lower := (Nat.clog_le_iff_le_pow one_lt_two).1 (by omega)
    have together : Nat.clog 2 (zero.paths.length + one.paths.length) ≤ lower + 1 := by
      apply Nat.clog_le_of_le_pow
      rw [Nat.pow_succ]
      omega
    rw [paths, List.length_append, List.length_map, List.length_map]
    show _ ≤ max zero.depth one.depth + 1
    omega

theorem depth_prepend (bit : Bool) (trie : Trie) : (trie.prepend bit).depth = trie.depth := by
  cases trie <;> rfl

/-- One level more is enough for two tries together. -/
theorem depth_le_of_join {zero one : Option Trie} (joined : join zero one = some trie)
    (zero_le : ∀ part, zero = some part → part.depth ≤ most)
    (one_le : ∀ part, one = some part → part.depth ≤ most) : trie.depth ≤ most + 1 := by
  cases zero with
  | none =>
    cases one with
    | none => cases joined
    | some o =>
      cases joined
      rw [depth_prepend]
      exact (one_le o rfl).trans (Nat.le_succ most)
  | some z =>
    cases one with
    | none =>
      cases joined
      rw [depth_prepend]
      exact (zero_le z rfl).trans (Nat.le_succ most)
    | some o =>
      cases joined
      exact Nat.succ_le_succ (max_le (zero_le z rfl) (one_le o rfl))

/-- Keys that fit in some bits part in these bits only. -/
theorem depth_ofEntries_le (keys : ∀ entry ∈ entries, entry.1 < 2 ^ bits)
    (values : ∀ entry ∈ entries, entry.2.depth ≤ most)
    (built : ofEntries width entries = some trie) : trie.depth ≤ min width bits + most := by
  induction width generalizing entries trie with
  | zero =>
    cases entries with
    | nil => cases built
    | cons entry others =>
      cases built
      have := values entry (List.mem_cons_self ..)
      show entry.2.depth ≤ _
      omega
  | succ width ih =>
    have below (p : ℕ × Cell → Bool) (part : Trie)
        (found : ofEntries width (entries.filter p) = some part) :
        part.depth ≤ min width bits + most :=
      ih (fun entry mem => keys entry (List.mem_filter.1 mem).1)
        (fun entry mem => values entry (List.mem_filter.1 mem).1) found
    by_cases inside : width < bits
    · rw [ofEntries_succ] at built
      have := depth_le_of_join built (below _) (below _)
      omega
    · -- No key has a bit beyond those that it fits in, so there is no fork.
      have agree : ∀ entry ∈ entries, entry.1.testBit width = false := by
        intro entry mem
        have small := (keys entry mem).trans_le (Nat.pow_le_pow_right two_pos (not_lt.1 inside))
        exact Nat.testBit_lt_two_pow small
      rw [Grows.ofEntries_of_agree agree] at built
      obtain ⟨part, found, rfl⟩ := Option.map_eq_some_iff.1 built
      have := ih keys values found
      rw [depth_prepend]
      omega

end Trie

namespace Dictionary

/-- Small values under small keys can be written, and the root is no deeper than the bits of the
keys and the values together. -/
theorem exists_encode {dictionary : Dictionary} {width bits size most : ℕ}
    (width_ok : 1 ≤ width ∧ width ≤ 64) (inside : bits ≤ width)
    (keys : ∀ entry ∈ dictionary.entries, entry.1 < 2 ^ bits)
    (sizes : ∀ entry ∈ dictionary.entries, entry.2.bits.length ≤ size)
    (depths : ∀ entry ∈ dictionary.entries, entry.2.depth ≤ most)
    (room : 2 * width + 2 + size ≤ maxBits) (shallow : bits + most ≤ maxDepth) :
    ∃ root?, dictionary.encode width = .ok root? ∧ ∀ root ∈ root?, root.depth ≤ bits + most := by
  have fits : ∀ entry ∈ dictionary.entries, entry.1 < 2 ^ width := fun entry mem =>
    (keys entry mem).trans_le (Nat.pow_le_pow_right two_pos inside)
  cases built : Trie.ofEntries width dictionary.entries with
  | none => exact ⟨none, encode_ok_iff.2 ⟨width_ok, fits, by rw [built]; rfl⟩, nofun⟩
  | some trie =>
    have trie_fits := Trie.fits_ofEntries built
    have trie_depth := Trie.depth_ofEntries_le keys depths built
    have leaves : trie.LeavesFit width := by
      refine Trie.leavesFit_of_paths trie_fits ?_ room
      rw [Trie.paths_of_ofEntries (ascends fits) built, List.forall_mem_map]
      exact sizes
    obtain ⟨root, written⟩ :=
      (Trie.exists_encode_iff width_ok.2 trie_fits).2 ⟨leaves, by omega⟩
    refine ⟨some root, encode_some_iff.2 ⟨width_ok, fits, trie, built, written⟩, ?_⟩
    rintro _ ⟨⟩
    have := Trie.depth_of_encode written
    omega

end Dictionary

end WalletWire
