import WalletWire.Proofs.Dictionary.Paths

/-!
# Dictionaries in TL-B

The cells of a dictionary by their TL-B scheme, where the fork and the leaf of an edge are told
apart by the key bits that its label leaves over:

* `Unary ~n`: `n` ones and a zero; `#<= m`: a number up to `m` in the width of `m`;
* `HmLabel ~l m`: a label of `l` bits, of at most `m`, in one of three forms;
* `Hashmap n`: a label and, with no key bits left, anything; with `m + 1` key bits left, nothing but
  two references to a `Hashmap m`.

Reading accepts what derives from `Hashmap n`, and the dictionary has the keys that labels and
branches spell on the ways to the leaves (`Dictionary.decode_iff_hashmap`).
-/

namespace WalletWire

namespace Tlb

/-- `Unary ~n`. -/
inductive Unary : (n : ℕ) → Bits → Prop where
  | zero : Unary 0 [false]
  | succ {n : ℕ} {bits : Bits} : Unary n bits → Unary (n + 1) (true :: bits)

/-- `#<= max`. -/
structure UpTo (max n : ℕ) (bits : Bits) : Prop where
  le : n ≤ max
  length_eq : bits.length = max.size
  toNat_eq : bits.toNat = n

/-- `HmLabel ~l max`: the label may be spelled so. -/
inductive HmLabel (max : ℕ) : (label spelled : Bits) → Prop where
  | short {label count : Bits} (le : label.length ≤ max) (counted : Unary label.length count) :
      HmLabel max label (false :: (count ++ label))
  | long {label count : Bits} (counted : UpTo max label.length count) :
      HmLabel max label (true :: false :: (count ++ label))
  | same (bit : Bool) {n : ℕ} {count : Bits} (counted : UpTo max n count) :
      HmLabel max (List.replicate n bit) (true :: true :: bit :: count)

/-- The node begins with this label, of at most `max` bits, and `rest` is what follows. -/
structure Edge (max : ℕ) (node : Cell) (label spelled : Bits) (rest : Cell) : Prop where
  spells : HmLabel max label spelled
  held : node.Holds (spelled ++ rest.bits) rest.refs

/-- `Hashmap width`, with any value. -/
inductive Hashmap : (width : ℕ) → Cell → Prop where
  | leaf {width : ℕ} {root value : Cell} {label spelled : Bits}
      (edge : Edge width root label spelled value) (full : width = label.length) :
      Hashmap width root
  | fork {width below : ℕ} {root rest zero one : Cell} {label spelled : Bits}
      (edge : Edge width root label spelled rest) (more : width = label.length + (below + 1))
      (branches : rest.Holds [] [zero, one]) (zero : Hashmap below zero)
      (one : Hashmap below one) : Hashmap width root

/-- Labels and branches that spell `path` lead from the root to a node, before which `max` key bits
are left. -/
inductive Leads : (width : ℕ) → (root : Cell) → (path : Bits) → (max : ℕ) → (node : Cell) → Prop
  where
  | here {width : ℕ} {root : Cell} : Leads width root [] width root
  | branch {width below max : ℕ} {root rest zero one node : Cell} {label spelled path : Bits}
      (edge : Edge width root label spelled rest) (more : width = label.length + (below + 1))
      (branches : rest.Holds [] [zero, one]) (bit : Bool)
      (onward : Leads below (bif bit then one else zero) path max node) :
      Leads width root (label ++ bit :: path) max node

/-- The path from the root to a leaf in which `value` is left. -/
def LeadsTo (width : ℕ) (root : Cell) (path : Bits) (value : Cell) : Prop :=
  ∃ above max node label spelled, Leads width root above max node ∧
    Edge max node label spelled value ∧ max = label.length ∧ path = above ++ label

/-! ## Labels -/

theorem unary_iff {n : ℕ} {bits : Bits} :
    Unary n bits ↔ bits = List.replicate n true ++ [false] := by
  induction n generalizing bits with
  | zero =>
    constructor
    · rintro ⟨⟩
      rfl
    · rintro rfl
      exact .zero
  | succ n ih =>
    constructor
    · rintro (_ | rest)
      rw [ih.1 rest]
      rfl
    · rintro rfl
      exact .succ (ih.2 rfl)

/-- The width of numbers up to `max` is the number of bits of `max`. -/
theorem lengthWidth_eq_size (max : ℕ) : Label.lengthWidth max = max.size := by
  refine eq_of_forall_ge_iff fun width => ?_
  rw [Nat.size_le]
  unfold Label.lengthWidth
  split
  · next none_left => simp [none_left]
  · next some_left => rw [Nat.succ_le_iff, Nat.log2_lt some_left]

theorem upTo_iff {max n : ℕ} {bits : Bits} :
    UpTo max n bits ↔ n ≤ max ∧ bits = Bits.ofNat (Label.lengthWidth max) n := by
  constructor
  · rintro ⟨le, length, rfl⟩
    rw [lengthWidth_eq_size, ← length, Bits.ofNat_toNat]
    exact ⟨le, rfl⟩
  · rintro ⟨le, rfl⟩
    refine ⟨le, ?_, ?_⟩
    · rw [Bits.length_ofNat, lengthWidth_eq_size]
    · rw [Bits.toNat_ofNat, Nat.mod_eq_of_lt (Label.lt_two_pow_lengthWidth le)]

theorem hmLabel_iff {max : ℕ} {label spelled : Bits} :
    HmLabel max label spelled ↔ Label.Spells max spelled label := by
  constructor
  · intro spells
    cases spells with
    | short le counted =>
      rw [unary_iff.1 counted, List.append_assoc]
      exact .short le
    | long counted =>
      obtain ⟨le, rfl⟩ := upTo_iff.1 counted
      exact .long le
    | same bit counted =>
      obtain ⟨le, rfl⟩ := upTo_iff.1 counted
      exact .same bit le
  · intro spells
    cases spells with
    | short le =>
      rw [List.append_cons]
      exact .short le (unary_iff.2 rfl)
    | long le => exact .long (upTo_iff.2 ⟨le, rfl⟩)
    | same bit le => exact .same bit (upTo_iff.2 ⟨le, rfl⟩)

/-! ## Edges -/

section Edges

variable {max width below : ℕ} {node root rest rest' zero one value : Cell}
  {label label' spelled spelled' path : Bits} {trie : Trie}

theorem exists_edge (spells : Label.Spells max spelled label) {refs : List Cell}
    (held : node.Holds spelled refs) :
    ∃ rest : Cell, Edge max node label spelled rest ∧ rest.Holds [] refs := by
  have fit : ([] : Bits).length ≤ maxBits := Nat.zero_le _
  obtain ⟨rest, after⟩ := node.exists_holds fit
  rw [held.refs_eq] at after
  refine ⟨rest, ⟨hmLabel_iff.2 spells, ?_, ?_⟩, after⟩
  · rw [held.bits_eq, after.bits_eq, List.append_nil]
  · rw [held.refs_eq, after.refs_eq]

theorem Edge.holds_of_branches (edge : Edge max node label spelled rest) {refs : List Cell}
    (after : rest.Holds [] refs) : node.Holds spelled refs := by
  obtain ⟨bits, refs_eq⟩ := edge.held
  rw [after.bits_eq, List.append_nil] at bits
  exact ⟨bits, refs_eq.trans after.refs_eq⟩

/-- No spelling of a label is the beginning of another one. -/
theorem Edge.unique (narrow : max ≤ 64) (edge : Edge max node label spelled rest)
    (edge' : Edge max node label' spelled' rest') :
    label = label' ∧ spelled = spelled' ∧ rest = rest' := by
  have read : Label.load max (.ofCell node) = .ok label ⟨rest.content⟩ :=
    Label.load_of_spells narrow (hmLabel_iff.1 edge.spells) ⟨edge.held.bits_eq, edge.held.refs_eq⟩
  have read' : Label.load max (.ofCell node) = .ok label' ⟨rest'.content⟩ :=
    Label.load_of_spells narrow (hmLabel_iff.1 edge'.spells)
      ⟨edge'.held.bits_eq, edge'.held.refs_eq⟩
  obtain ⟨same, same_rest⟩ := EStateM.Result.ok.inj (read.symm.trans read')
  have rests : rest = rest' := by
    rw [← Cell.ofContent_content rest, ← Cell.ofContent_content rest']
    exact congrArg Cell.ofContent (Slice.mk.inj same_rest)
  have bits := edge.held.bits_eq.symm.trans edge'.held.bits_eq
  rw [rests] at bits
  exact ⟨same, List.append_cancel_right bits, rests⟩

/-! ## Tries -/

theorem hashmap_of_derives (derives : Trie.Derives width root trie) : Hashmap width root := by
  induction derives with
  | leaf spells full held => exact .leaf ⟨hmLabel_iff.2 spells, held⟩ full.symm
  | fork spells more held _ _ zero_ih one_ih =>
    obtain ⟨rest, edge, after⟩ := exists_edge spells held
    exact .fork edge (by omega) after zero_ih one_ih

theorem exists_derives (derives : Hashmap width root) : ∃ trie, Trie.Derives width root trie := by
  induction derives with
  | leaf edge full => exact ⟨_, .leaf (hmLabel_iff.1 edge.spells) full.symm edge.held⟩
  | @fork width below root rest zero one label spelled edge more after _ _ zero_ih one_ih =>
    obtain ⟨zero_trie, zero_derives⟩ := zero_ih
    obtain ⟨one_trie, one_derives⟩ := one_ih
    obtain rfl : below = width - label.length - 1 := by omega
    exact ⟨_, .fork (hmLabel_iff.1 edge.spells) (by omega) (edge.holds_of_branches after)
      zero_derives one_derives⟩

theorem LeadsTo.branch (edge : Edge width root label spelled rest)
    (more : width = label.length + (below + 1)) (after : rest.Holds [] [zero, one]) (bit : Bool)
    (onward : LeadsTo below (bif bit then one else zero) path value) :
    LeadsTo width root (label ++ bit :: path) value := by
  obtain ⟨above, max, node, last, spelled, leads, leaf, full, rfl⟩ := onward
  exact ⟨label ++ bit :: above, max, node, last, spelled, .branch edge more after bit leads, leaf,
    full, by rw [List.append_assoc, List.cons_append]⟩

theorem leadsTo_of_mem_paths (derives : Trie.Derives width root trie)
    (mem : (path, value) ∈ trie.paths) : LeadsTo width root path value := by
  induction derives generalizing path with
  | leaf spells full held =>
    cases List.mem_singleton.1 mem
    exact ⟨[], _, _, _, _, .here, ⟨hmLabel_iff.2 spells, held⟩, full.symm, rfl⟩
  | @fork width root z o spelled label left right spells more held _ _ zero_ih one_ih =>
    obtain ⟨rest, edge, after⟩ := exists_edge spells held
    obtain ⟨bit, inner, rfl, inner_mem⟩ := Trie.mem_paths_fork.1 mem
    have length : width = label.length + (width - label.length - 1 + 1) := by omega
    refine .branch edge length after bit ?_
    cases bit with
    | false => exact zero_ih inner_mem
    | true => exact one_ih inner_mem

/-! What the root of a trie holds decides the form of the trie. -/

theorem eq_leaf_of_edge (narrow : width ≤ 64) (derives : Trie.Derives width root trie)
    (edge : Edge width root label spelled value) (full : width = label.length) :
    trie = .leaf label value := by
  cases derives with
  | leaf spells _ held =>
    obtain ⟨rfl, -, rfl⟩ := edge.unique narrow ⟨hmLabel_iff.2 spells, held⟩
    rfl
  | fork spells more held =>
    obtain ⟨_, edge', -⟩ := exists_edge spells held
    obtain ⟨rfl, -, -⟩ := edge.unique narrow edge'
    omega

theorem eq_fork_of_edge (narrow : width ≤ 64) (derives : Trie.Derives width root trie)
    (edge : Edge width root label spelled rest) (more : width = label.length + (below + 1))
    (after : rest.Holds [] [zero, one]) :
    ∃ left right, trie = .fork label left right ∧ Trie.Derives below zero left ∧
      Trie.Derives below one right := by
  cases derives with
  | leaf spells full held =>
    obtain ⟨rfl, -, -⟩ := edge.unique narrow ⟨hmLabel_iff.2 spells, held⟩
    omega
  | fork spells _ held left_derives right_derives =>
    obtain ⟨_, edge', after'⟩ := exists_edge spells held
    obtain ⟨rfl, -, rfl⟩ := edge.unique narrow edge'
    obtain rfl : below = width - label.length - 1 := by omega
    cases after.refs_eq.symm.trans after'.refs_eq
    exact ⟨_, _, rfl, left_derives, right_derives⟩

theorem mem_paths_of_leads {above : Bits} (narrow : width ≤ 64)
    (derives : Trie.Derives width root trie) (leads : Leads width root above max node)
    (edge : Edge max node label spelled value) (full : max = label.length) :
    (above ++ label, value) ∈ trie.paths := by
  -- Down the way from the root: at each branch the trie is a fork, and the way goes on in one side.
  induction leads generalizing trie with
  | here =>
    rw [eq_leaf_of_edge narrow derives edge full]
    exact List.mem_singleton_self _
  | branch inner more after bit _ ih =>
    obtain ⟨left, right, rfl, left_derives, right_derives⟩ :=
      eq_fork_of_edge narrow derives inner more after
    rw [List.append_assoc, List.cons_append]
    refine Trie.mem_paths_fork.2 ⟨bit, _, rfl, ?_⟩
    cases bit with
    | false => exact ih (by omega) left_derives edge full
    | true => exact ih (by omega) right_derives edge full

theorem leadsTo_iff (narrow : width ≤ 64) (derives : Trie.Derives width root trie) :
    LeadsTo width root path value ↔ (path, value) ∈ trie.paths := by
  constructor
  · rintro ⟨above, max, node, label, spelled, leads, edge, full, rfl⟩
    exact mem_paths_of_leads narrow derives leads edge full
  · exact leadsTo_of_mem_paths derives

theorem mem_entries_iff (narrow : width ≤ 64) (derives : Trie.Derives width root trie) {key : ℕ} :
    (key, value) ∈ trie.entries ↔ ∃ path, LeadsTo width root path value ∧ path.toNat = key := by
  unfold Trie.entries
  rw [List.mem_map]
  constructor
  · rintro ⟨⟨path, _⟩, mem, ⟨⟩⟩
    exact ⟨path, (leadsTo_iff narrow derives).2 mem, rfl⟩
  · rintro ⟨path, leads, rfl⟩
    exact ⟨_, (leadsTo_iff narrow derives).1 leads, rfl⟩

end Edges

end Tlb

/-! ## Reading -/

namespace Dictionary

/-- A dictionary is known by the values under its keys. -/
theorem ext_mem {d e : Dictionary}
    (same : ∀ key value, (key, value) ∈ d.entries ↔ (key, value) ∈ e.entries) : d = e := by
  have nodup (d : Dictionary) : d.entries.Nodup :=
    d.ascending.imp fun lt => by rintro rfl; exact lt_irrefl _ lt
  have perm : d.entries.Perm e.entries :=
    (List.perm_ext_iff_of_nodup (nodup d) (nodup e)).2 fun entry => same entry.1 entry.2
  refine Dictionary.ext (perm.eq_of_pairwise ?_ d.ascending e.ascending)
  intro f g _ _ lt gt
  exact absurd lt (lt_asymm gt)

section Decode

variable {dictionary : Dictionary} {width : ℕ} {root : Cell}

theorem exists_decode (width_ok : 1 ≤ width ∧ width ≤ 64) (derives : Tlb.Hashmap width root) :
    ∃ dictionary, decode width root = .ok dictionary := by
  obtain ⟨trie, derives⟩ := Tlb.exists_derives derives
  exact ⟨⟨trie.entries, derives.fits.grows.ascending⟩,
    decode_ok_iff_entries.2 ⟨width_ok, trie, derives, rfl⟩⟩

theorem hashmap_of_decode (read : decode width root = .ok dictionary) :
    (1 ≤ width ∧ width ≤ 64) ∧ Tlb.Hashmap width root ∧ ∀ key value,
      (key, value) ∈ dictionary.entries ↔
        ∃ path, Tlb.LeadsTo width root path value ∧ path.toNat = key := by
  obtain ⟨width_ok, trie, derives, entries⟩ := decode_ok_iff_entries.1 read
  refine ⟨width_ok, Tlb.hashmap_of_derives derives, fun key value => ?_⟩
  rw [entries]
  exact Tlb.mem_entries_iff width_ok.2 derives

end Decode

/-- A cell is read as a dictionary just when it derives from `Hashmap width`, and the dictionary has
the values left in the leaves under the keys that lead to them. -/
theorem decode_iff_hashmap (width : ℕ) (root : Cell) :
    ((∃ dictionary, decode width root = .ok dictionary) ↔
      (1 ≤ width ∧ width ≤ 64) ∧ Tlb.Hashmap width root) ∧
    ∀ dictionary, decode width root = .ok dictionary ↔
      (1 ≤ width ∧ width ≤ 64) ∧ Tlb.Hashmap width root ∧ ∀ key value,
        (key, value) ∈ dictionary.entries ↔
          ∃ path, Tlb.LeadsTo width root path value ∧ path.toNat = key := by
  constructor
  · constructor
    · rintro ⟨dictionary, read⟩
      obtain ⟨width_ok, derives, -⟩ := hashmap_of_decode read
      exact ⟨width_ok, derives⟩
    · rintro ⟨width_ok, derives⟩
      exact exists_decode width_ok derives
  · refine fun dictionary => ⟨hashmap_of_decode, ?_⟩
    rintro ⟨width_ok, derives, mapped⟩
    obtain ⟨found, read⟩ := exists_decode width_ok derives
    obtain ⟨-, -, found_mapped⟩ := hashmap_of_decode read
    have same : found = dictionary := ext_mem fun key value => by
      rw [found_mapped, mapped]
    rwa [same] at read

end Dictionary

end WalletWire
