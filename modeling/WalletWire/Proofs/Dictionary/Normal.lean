import WalletWire.Proofs.Cell.Tree
import WalletWire.Proofs.Dictionary.Grammar

/-!
# Dictionaries written again

Labels have several spellings, so a dictionary has several cells.  Writing a dictionary that has
been read always succeeds: it goes down the same trie, spells each label in the form that is chosen
for writing, which is never longer than the one that was read, and keeps all depths.  The cell stays
the same just when all of its labels were spelled in this form (`Dictionary.normalized_of_decode`).
-/

namespace WalletWire

/-! ## The chosen form is the shortest -/

namespace Label

theorem Form.length_write (max : ℕ) (label : Bits) (form : Form) :
    (form.write max label).length = form.cost max label.length := by
  cases form <;> simp [Form.write, Form.cost] <;> omega

/-- Repeating one bit is a form of uniform labels only; it is the one that can be out of reach. -/
theorem cost_form_le (max : ℕ) {label : Bits} {other : Form}
    (possible : other = .same → uniform label = true) :
    (form max label).cost max label.length ≤ other.cost max label.length := by
  unfold form
  dsimp only
  split
  · next cheaper =>
    simp only [Bool.and_eq_true, decide_eq_true_eq] at cheaper
    cases other <;> omega
  · next dear =>
    simp only [Bool.and_eq_true, decide_eq_true_eq, not_and, and_imp] at dear
    split
    · cases other with
      | short => omega
      | long => exact le_rfl
      | same =>
        have := dear (possible rfl)
        omega
    · cases other with
      | short => exact le_rfl
      | long => omega
      | same =>
        have := dear (possible rfl)
        omega

theorem Spells.length_write_le {max : ℕ} {spelled label : Bits}
    (spells : Spells max spelled label) : (write max label).length ≤ spelled.length := by
  have other (form : Form) (possible : form = .same → uniform label = true) :
      (write max label).length ≤ (form.write max label).length := by
    rw [write, Form.length_write, Form.length_write]
    exact cost_form_le max possible
  cases spells with
  | short => exact other .short nofun
  | long => exact other .long nofun
  | @same bit count =>
    cases count with
    | zero =>
      -- Nothing repeated is not uniform, but then the short form takes two bits only.
      have short := other .short nofun
      simp only [Form.write, List.replicate_zero, List.length_cons, List.length_append,
        List.length_nil, Bits.length_ofNat] at short ⊢
      omega
    | succ count =>
      have same := other .same fun _ => by simp [uniform, List.replicate_succ]
      simpa [Form.write] using same

end Label

namespace Tlb

/-- Both cells are roots of one trie with the same values, and every node of the second is the same
node of the first but for the spelling of its label, which takes no more bits. -/
inductive Relabelled : (width : ℕ) → (root root' : Cell) → Prop where
  | leaf {width : ℕ} {root root' value : Cell} {label spelled spelled' : Bits}
      (edge : Edge width root label spelled value) (edge' : Edge width root' label spelled' value)
      (shorter : spelled'.length ≤ spelled.length) (full : width = label.length) :
      Relabelled width root root'
  | fork {width below : ℕ} {root root' rest rest' zero zero' one one' : Cell}
      {label spelled spelled' : Bits}
      (edge : Edge width root label spelled rest) (edge' : Edge width root' label spelled' rest')
      (shorter : spelled'.length ≤ spelled.length) (more : width = label.length + (below + 1))
      (branches : rest.Holds [] [zero, one]) (branches' : rest'.Holds [] [zero', one'])
      (zero : Relabelled below zero zero') (one : Relabelled below one one') :
      Relabelled width root root'

/-- Every label below the root is spelled in the form that is chosen for writing. -/
def Normal (width : ℕ) (root : Cell) : Prop :=
  ∀ above max node label spelled rest, Leads width root above max node →
    Edge max node label spelled rest → spelled = (Label.form max label).write max label

section Writing

variable {max width below : ℕ} {node root root' rest zero one value : Cell}
  {label spelled path : Bits} {trie : Trie}

/-! ### Normal cells -/

theorem Normal.branch (normal : Normal width root) (edge : Edge width root label spelled rest)
    (more : width = label.length + (below + 1)) (branches : rest.Holds [] [zero, one])
    (bit : Bool) : Normal below (bif bit then one else zero) :=
  fun _ _ _ _ _ _ leads => normal _ _ _ _ _ _ (.branch edge more branches bit leads)

theorem normal_of_edge (narrow : width ≤ 64)
    (edge : Edge width root label ((Label.form width label).write width label) rest)
    (onward : ∀ below zero one, width = label.length + (below + 1) → rest.Holds [] [zero, one] →
      Normal below zero ∧ Normal below one) : Normal width root := by
  intro above max node last spelled after leads last_edge
  -- A way down ends here or begins with this edge, since a node has no other.
  cases leads with
  | here =>
    obtain ⟨rfl, rfl, -⟩ := last_edge.unique narrow edge
    rfl
  | branch inner more branches bit leads =>
    obtain ⟨rfl, -, rfl⟩ := inner.unique narrow edge
    obtain ⟨zero_normal, one_normal⟩ := onward _ _ _ more branches
    cases bit with
    | false => exact zero_normal _ _ _ _ _ _ leads last_edge
    | true => exact one_normal _ _ _ _ _ _ leads last_edge

theorem normal_of_encode (narrow : width ≤ 64) (fits : trie.Fits width)
    (written : trie.encode width = .ok root) : Normal width root := by
  induction trie generalizing width root with
  | leaf label value =>
    have full : label.length = width := fits
    have held := Trie.encode_leaf_ok_iff.1 written
    refine normal_of_edge narrow ⟨hmLabel_iff.2 (Label.spells_write full.le), held⟩ ?_
    intro below zero one more
    omega
  | fork label left right left_ih right_ih =>
    obtain ⟨more, left_fits, right_fits⟩ := fits
    obtain ⟨z, o, left_written, right_written, held⟩ := Trie.encode_fork_ok_iff.1 written
    obtain ⟨rest, edge, after⟩ := exists_edge (Label.spells_write more.le) held
    refine normal_of_edge narrow edge fun below zero one length branches => ?_
    obtain rfl : below = width - label.length - 1 := by omega
    cases after.refs_eq.symm.trans branches.refs_eq
    exact ⟨left_ih (by omega) left_fits left_written, right_ih (by omega) right_fits right_written⟩

theorem encode_of_normal (derives : Trie.Derives width root trie) (normal : Normal width root) :
    trie.encode width = .ok root := by
  induction derives with
  | leaf spells full held =>
    obtain rfl := normal _ _ _ _ _ _ .here ⟨hmLabel_iff.2 spells, held⟩
    exact Trie.encode_leaf_ok_iff.2 held
  | @fork width root z o spelled label left right spells more held _ _ zero_ih one_ih =>
    obtain ⟨rest, edge, after⟩ := exists_edge spells held
    obtain rfl := normal _ _ _ _ _ _ .here edge
    have length : width = label.length + (width - label.length - 1 + 1) := by omega
    have onward := normal.branch edge length after
    exact Trie.encode_fork_ok_iff.2 ⟨_, _, zero_ih (onward false), one_ih (onward true), held⟩

/-! ### Cells that are written again -/

/-- What follows a label also fits behind the chosen form of the label. -/
theorem length_write_append_le {after : Bits} {refs : List Cell}
    (spells : Label.Spells width spelled label) (held : root.Holds (spelled ++ after) refs) :
    (Label.write width label ++ after).length ≤ maxBits := by
  have shorter := spells.length_write_le
  have room := root.bits_le
  rw [held.bits_eq, List.length_append] at room
  rw [List.length_append]
  omega

/-- Shorter labels and children of the same depths always fit. -/
theorem exists_relabelled (derives : Trie.Derives width root trie) :
    ∃ root', trie.encode width = .ok root' ∧ Relabelled width root root' ∧
      root'.depth = root.depth := by
  induction derives with
  | @leaf width root value spelled label spells full held =>
    have fit := length_write_append_le spells held
    obtain ⟨root', held', depth⟩ := root.exists_holds_of_depths fit rfl
    rw [held.refs_eq] at held'
    refine ⟨root', Trie.encode_leaf_ok_iff.2 held', ?_, depth⟩
    exact .leaf ⟨hmLabel_iff.2 spells, held⟩
      ⟨hmLabel_iff.2 (Label.spells_write full.le), held'⟩ spells.length_write_le full.symm
  | @fork width root z o spelled label left right spells more held _ _ left_ih right_ih =>
    obtain ⟨z', left_written, left_relabelled, z_depth⟩ := left_ih
    obtain ⟨o', right_written, right_relabelled, o_depth⟩ := right_ih
    obtain ⟨rest, edge, after⟩ := exists_edge spells held
    have fit := length_write_append_le spells edge.held
    rw [after.bits_eq, List.append_nil] at fit
    -- The children are other cells now, but as deep as those they replace.
    have depths : [z', o'].map Cell.depth = root.refs.map Cell.depth := by
      rw [held.refs_eq]
      simp only [List.map_cons, List.map_nil, z_depth, o_depth]
    obtain ⟨root', held', depth⟩ := root.exists_holds_of_depths fit depths
    obtain ⟨rest', edge', after'⟩ := exists_edge (Label.spells_write more.le) held'
    refine ⟨root', Trie.encode_fork_ok_iff.2 ⟨z', o', left_written, right_written, held'⟩, ?_,
      depth⟩
    exact .fork edge edge' spells.length_write_le (by omega) after after' left_relabelled
      right_relabelled

end Writing

end Tlb

namespace Dictionary

theorem encode_iff_of_derives {dictionary : Dictionary} {width : ℕ} {root root' : Cell}
    {trie : Trie} (width_ok : 1 ≤ width ∧ width ≤ 64) (derives : Trie.Derives width root trie)
    (entries : dictionary.entries = trie.entries) :
    dictionary.encode width = .ok (some root') ↔ trie.encode width = .ok root' := by
  have grows := derives.fits.grows
  have fits : ∀ entry ∈ trie.entries, entry.1 < 2 ^ width := fun _ => grows.key_lt
  rw [encode_some_iff, entries, grows.ofEntries_entries]
  constructor
  · rintro ⟨-, -, _, ⟨⟩, written⟩
    exact written
  · exact fun written => ⟨width_ok, fits, trie, rfl, written⟩

/-- A dictionary that has been read can be written again.  This keeps the trie and all depths, makes
no label longer, and reads back; and it gives the same cell just when all labels of the cell that
was read are in the form that is chosen for writing. -/
theorem normalized_of_decode {width : ℕ} {root : Cell} {dictionary : Dictionary}
    (read : decode width root = .ok dictionary) :
    ∃ root', dictionary.encode width = .ok (some root') ∧
      Tlb.Relabelled width root root' ∧ root'.depth = root.depth ∧
      decode width root' = .ok dictionary ∧ Tlb.Normal width root' ∧
      (root'.tree = root.tree ↔ Tlb.Normal width root) := by
  obtain ⟨width_ok, trie, derives, entries⟩ := decode_ok_iff_entries.1 read
  obtain ⟨root', written, relabelled, depth⟩ := Tlb.exists_relabelled derives
  have encoded := (encode_iff_of_derives width_ok derives entries).2 written
  have normal := Tlb.normal_of_encode width_ok.2 derives.fits written
  refine ⟨root', encoded, relabelled, depth, decode_of_encode encoded, normal, ?_⟩
  rw [Cell.tree_inj]
  constructor
  · rintro rfl
    exact normal
  · intro was_normal
    have same := Tlb.encode_of_normal derives was_normal
    exact Except.ok.inj (written.symm.trans same)

/-! ### A root with a long label -/

/-- A leaf without key bits and with nothing in it. -/
def bareLeaf : Cell :=
  .ofContent { Content.empty with bits := [false, false], bits_le := by decide }

/-- A fork under an empty label in the long form, over two such leaves. -/
def longFork : Cell :=
  .ofContent ⟨[true, false, false], [bareLeaf, bareLeaf], by decide, by decide, by decide⟩

/-- Nothing under both keys of one bit. -/
def bothBits : Dictionary := ⟨[(0, .empty), (1, .empty)], by decide⟩

theorem spells_longFork : Label.Spells 1 [true, false, false] [] :=
  @Label.Spells.long 1 [] (Nat.zero_le 1)

theorem derives_longFork :
    Trie.Derives 1 longFork (.fork [] (.leaf [] .empty) (.leaf [] .empty)) := by
  have none_left : Cell.empty.refs = [] := Cell.refs_ofContent _
  have short : Label.Spells 0 [false, false] [] := @Label.Spells.short 0 [] (le_refl 0)
  have leaf : Trie.Derives 0 bareLeaf (.leaf [] .empty) :=
    .leaf short rfl ⟨rfl, (Cell.refs_ofContent _).trans none_left.symm⟩
  exact .fork spells_longFork Nat.one_pos ⟨rfl, Cell.refs_ofContent _⟩ leaf leaf

theorem normalized_of_decode_longFork : decode 1 longFork = .ok bothBits ∧
    ∃ root', bothBits.encode 1 = .ok (some root') ∧ decode 1 root' = .ok bothBits ∧
      root'.depth = longFork.depth ∧ root'.tree ≠ longFork.tree := by
  have read : decode 1 longFork = .ok bothBits :=
    decode_ok_iff_entries.2 ⟨by decide, _, derives_longFork, rfl⟩
  obtain ⟨root', written, -, depth, again, -, same_iff⟩ := normalized_of_decode read
  refine ⟨read, root', written, again, depth, fun same => ?_⟩
  have held : longFork.Holds [true, false, false] longFork.refs := ⟨rfl, rfl⟩
  obtain ⟨rest, edge, -⟩ := Tlb.exists_edge spells_longFork held
  have short := same_iff.1 same _ _ _ _ _ _ .here edge
  exact absurd short (by decide)

end Dictionary

end WalletWire
