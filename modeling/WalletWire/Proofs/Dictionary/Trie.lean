import WalletWire.Dictionary.Trie
import WalletWire.Proofs.Dictionary.Label

/-!
# The grammar of tries

`Trie.Derives width root trie` says that the cells below `root` are the trie, with its labels
spelled in any form.  Reading a trie accepts exactly the trees of this grammar (`decode_ok_iff`),
and what is written for a trie that uses up its key bits is one of them (`derives_of_encode`).
-/

namespace WalletWire.Trie

open Program

/-- On every way down, labels and forks use up `width` key bits. -/
def Fits : (width : ℕ) → Trie → Prop
  | width, leaf label _ => label.length = width
  | width, fork label zero one => label.length < width ∧
      zero.Fits (width - label.length - 1) ∧ one.Fits (width - label.length - 1)

/-- The cell is the root of the trie with `width` key bits. -/
inductive Derives : (width : ℕ) → (root : Cell) → Trie → Prop where
  | leaf {width : ℕ} {root value : Cell} {spelled label : Bits}
      (spells : Label.Spells width spelled label) (full : label.length = width)
      (held : root.Holds (spelled ++ value.bits) value.refs) :
      Derives width root (leaf label value)
  | fork {width : ℕ} {root zeroRoot oneRoot : Cell} {spelled label : Bits} {zero one : Trie}
      (spells : Label.Spells width spelled label) (more : label.length < width)
      (held : root.Holds spelled [zeroRoot, oneRoot])
      (zero_derives : Derives (width - label.length - 1) zeroRoot zero)
      (one_derives : Derives (width - label.length - 1) oneRoot one) :
      Derives width root (fork label zero one)

/-! ## Writing -/

theorem encode_leaf_ok_iff {width : ℕ} {label : Bits} {value root : Cell} :
    encode width (leaf label value) = .ok root ↔
      root.Holds (Label.write width label ++ value.bits) value.refs := by
  rw [encode]
  exact (Store.appends_bits.bind (Store.appends_inline value)).build_ok_iff

theorem encode_fork_ok_iff {width : ℕ} {label : Bits} {zero one : Trie} {root : Cell} :
    encode width (fork label zero one) = .ok root ↔ ∃ zeroRoot oneRoot,
      encode (width - label.length - 1) zero = .ok zeroRoot ∧
      encode (width - label.length - 1) one = .ok oneRoot ∧
      root.Holds (Label.write width label) [zeroRoot, oneRoot] := by
  have node (z o : Cell) : Store.Appends (do
      Label.store width label
      Store.ref z
      Store.ref o) (Label.write width label ++ ([] ++ [])) ([] ++ ([z] ++ [o])) :=
    Store.appends_bits.bind ((Store.appends_ref z).bind (Store.appends_ref o))
  rw [encode]
  simp only [Outcome.bind_ok_iff, (node _ _).build_ok_iff, List.append_nil]
  constructor
  · rintro ⟨z, hz, o, ho, held⟩
    exact ⟨z, o, hz, ho, held⟩
  · rintro ⟨z, o, hz, ho, held⟩
    exact ⟨z, hz, o, ho, held⟩

theorem derives_of_encode {width : ℕ} {trie : Trie} {root : Cell} (fits : trie.Fits width)
    (written : encode width trie = .ok root) : Derives width root trie := by
  induction trie generalizing width root with
  | leaf label value =>
    have full : label.length = width := fits
    exact .leaf (Label.spells_write full.le) full (encode_leaf_ok_iff.1 written)
  | fork label zero one zero_ih one_ih =>
    obtain ⟨more, zero_fits, one_fits⟩ := fits
    obtain ⟨z, o, hz, ho, held⟩ := encode_fork_ok_iff.1 written
    exact .fork (Label.spells_write more.le) more held (zero_ih zero_fits hz) (one_ih one_fits ho)

/-! ## Reading -/

theorem branches_ok_iff {slice : Slice} {zero one : Cell} :
    slice.read branches = .ok (zero, one) ↔ slice.bits = [] ∧ slice.refs = [zero, one] := by
  simp only [Slice.read_ok_iff, branches, bind_ok_iff, pure_ok_iff, Load.ref_ok_iff,
    Load.finish_ok_iff, Prod.mk.injEq]
  constructor
  · rintro ⟨rest, z, s₁, h₁, o, s₂, h₂, ⟨⟩, s₃, ⟨rfl, spent⟩, ⟨rfl, rfl⟩, rfl⟩
    obtain ⟨hb, hr⟩ := h₁.append h₂
    rw [spent.1] at hb
    rw [spent.2] at hr
    exact ⟨hb, hr⟩
  · rintro ⟨hb, hr⟩
    have whole : slice.Splits [] [zero, one] ⟨.empty⟩ := ⟨hb, hr⟩
    obtain ⟨mid, h₁, h₂⟩ := Slice.splits_ref_iff.1 whole
    exact ⟨_, zero, mid, h₁, one, _, h₂, (), _, ⟨rfl, rfl, rfl⟩, ⟨rfl, rfl⟩, rfl⟩

theorem readLabel_ok_iff {width : ℕ} {root : Cell} {label : Bits} {rest : Slice}
    (narrow : width ≤ 64) :
    root.read (do return (← Label.load width, ← get)) = .ok (label, rest) ↔
      ∃ spelled, Label.Spells width spelled label ∧
        (Slice.ofCell root).Splits spelled [] rest := by
  simp only [Cell.read_ok_iff, bind_ok_iff, pure_ok_iff, get_ok_iff, Label.load_ok_iff narrow,
    Prod.mk.injEq]
  constructor
  · rintro ⟨_, l, _, h, s, _, ⟨rfl, rfl⟩, ⟨rfl, rfl⟩, rfl⟩
    exact h
  · intro h
    exact ⟨rest, label, rest, h, rest, rest, ⟨rfl, rfl⟩, ⟨rfl, rfl⟩, rfl⟩

theorem decode_step {width : ℕ} {root : Cell} {trie : Trie} : decode width root = .ok trie ↔
    ∃ label rest, root.read (do return (← Label.load width, ← get)) = .ok (label, rest) ∧
      ((label.length < width ∧ ∃ zeroRoot oneRoot zero one,
          rest.read branches = .ok (zeroRoot, oneRoot) ∧
          decode (width - label.length - 1) zeroRoot = .ok zero ∧
          decode (width - label.length - 1) oneRoot = .ok one ∧ fork label zero one = trie) ∨
        (¬ label.length < width ∧ leaf label rest.toCell = trie)) := by
  rw [decode]
  simp only [Outcome.bind_ok_iff, Prod.exists]
  refine exists_congr fun label => exists_congr fun rest => and_congr_right fun _ => ?_
  by_cases more : label.length < width
  · rw [dif_pos more]
    simp only [Outcome.bind_ok_iff, Outcome.pure_ok_iff, Prod.exists]
    constructor
    · rintro ⟨z, o, branched, zero, hz, one, ho, eq⟩
      exact .inl ⟨more, z, o, zero, one, branched, hz, ho, eq⟩
    · rintro (⟨-, z, o, zero, one, branched, hz, ho, eq⟩ | ⟨full, -⟩)
      · exact ⟨z, o, branched, zero, hz, one, ho, eq⟩
      · exact absurd more full
  · rw [dif_neg more, Outcome.pure_ok_iff]
    simp only [more, false_and, not_false_eq_true, true_and, false_or]

theorem derives_of_decode {width : ℕ} {root : Cell} {trie : Trie} (narrow : width ≤ 64)
    (h : decode width root = .ok trie) : Derives width root trie := by
  -- Every fork takes at least one key bit.
  induction width using Nat.strong_induction_on generalizing root trie with
  | _ width ih =>
    obtain ⟨label, rest, read, below⟩ := decode_step.1 h
    obtain ⟨spelled, spells, split⟩ := (readLabel_ok_iff narrow).1 read
    rcases below with ⟨more, z, o, zero, one, branched, hz, ho, rfl⟩ | ⟨full, rfl⟩
    · obtain ⟨hb, hr⟩ := branches_ok_iff.1 branched
      obtain ⟨bits, refs⟩ := split
      rw [hb, List.append_nil] at bits
      rw [hr] at refs
      exact .fork spells more ⟨bits, refs⟩ (ih _ (by omega) (by omega) hz)
        (ih _ (by omega) (by omega) ho)
    · have value := rest.toCell_holds
      have length := spells.length_le
      refine .leaf spells (by omega) ⟨?_, ?_⟩
      · rw [value.bits_eq]
        exact split.1
      · rw [value.refs_eq]
        exact split.2

theorem decode_of_derives {width : ℕ} {root : Cell} {trie : Trie} (narrow : width ≤ 64)
    (h : Derives width root trie) : decode width root = .ok trie := by
  induction h with
  | @leaf width root value spelled label spells full held =>
    refine decode_step.2 ⟨label, ⟨value.content⟩, ?_, .inr ⟨by omega, ?_⟩⟩
    · exact (readLabel_ok_iff narrow).2 ⟨spelled, spells, held.bits_eq, held.refs_eq⟩
    · exact congrArg (leaf label) (Cell.ofContent_content value)
  | @fork width root z o spelled label zero one spells more held _ _ zero_ih one_ih =>
    have split : (Slice.ofCell root).Splits spelled [z, o] ⟨.empty⟩ :=
      ⟨held.bits_eq.trans (List.append_nil _).symm, held.refs_eq⟩
    obtain ⟨rest, front, back⟩ := Slice.splits_refs_iff.1 split
    refine decode_step.2 ⟨label, rest, (readLabel_ok_iff narrow).2 ⟨spelled, spells, front⟩,
      .inl ⟨more, z, o, zero, one, ?_, zero_ih (by omega), one_ih (by omega), rfl⟩⟩
    exact branches_ok_iff.2 back

/-- Reading accepts the trees of the grammar. -/
theorem decode_ok_iff {width : ℕ} {root : Cell} {trie : Trie} (narrow : width ≤ 64) :
    decode width root = .ok trie ↔ Derives width root trie :=
  ⟨derives_of_decode narrow, decode_of_derives narrow⟩

/-- A cell is the root of one trie only. -/
theorem Derives.unique {width : ℕ} {root : Cell} {trie trie' : Trie} (narrow : width ≤ 64)
    (derives : Derives width root trie) (derives' : Derives width root trie') : trie = trie' :=
  Except.ok.inj ((decode_of_derives narrow derives).symm.trans (decode_of_derives narrow derives'))

end WalletWire.Trie
