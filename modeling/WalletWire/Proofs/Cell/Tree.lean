import WalletWire.Proofs.Cell.Layout
import WalletWire.Proofs.Cell.Reading
import Mathlib

/-!
# Cells as trees

A cell stores its depth and its hash.  Its `tree` is what it holds all the way down, with neither of
them: bits and children.  The stored depth is the length of the longest path through this tree
(`Cell.isGreatest_depth`) and the stored hash is the digest of the bytes that the tree has by the
`layout` of cells (`Cell.hash_eq_tree_hash`), so a cell is known by its tree (`Cell.tree_inj`).  An
`ExactCodec` reads just the trees that it writes.
-/

namespace WalletWire

/-- Lists with the same images are the same when the function tells their members apart. -/
theorem eq_of_map_eq {α β : Type} {f : α → β} {as bs : List α}
    (inj : ∀ a ∈ as, ∀ b ∈ bs, f a = f b → a = b) (h : as.map f = bs.map f) : as = bs := by
  induction as generalizing bs with
  | nil => exact (List.map_eq_nil_iff.1 h.symm).symm
  | cons a as ih =>
    cases bs with
    | nil => cases h
    | cons b bs =>
      obtain ⟨first, others⟩ := List.cons.inj h
      have inj' : ∀ x ∈ as, ∀ y ∈ bs, f x = f y → x = y := fun x hx y hy =>
        inj x (List.mem_cons_of_mem _ hx) y (List.mem_cons_of_mem _ hy)
      rw [inj a (List.mem_cons_self ..) b (List.mem_cons_self ..) first, ih inj' others]

/-- What holds of a cell whenever it holds of its children holds of all cells. -/
@[elab_as_elim] theorem Cell.induction {motive : Cell → Prop}
    (step : ∀ cell, (∀ child ∈ cell.refs, motive child) → motive cell) (cell : Cell) :
    motive cell := by
  induction h : cell.depth using Nat.strong_induction_on generalizing cell with
  | h depth ih =>
    subst h
    exact step cell fun child mem => ih child.depth (depth_lt_of_mem mem) child rfl

/-- A depth above zero comes from one of the children. -/
theorem exists_mem_of_depthAbove {depths : List ℕ} (h : depthAbove depths ≠ 0) :
    ∃ depth ∈ depths, depthAbove depths = depth + 1 := by
  induction depths with
  | nil => exact absurd rfl h
  | cons first rest ih =>
    have unfolded : depthAbove (first :: rest) = max (first + 1) (depthAbove rest) := rfl
    rw [unfolded] at h ⊢
    by_cases above : depthAbove rest ≤ first + 1
    · exact ⟨first, List.mem_cons_self .., max_eq_left above⟩
    · obtain ⟨depth, mem, eq⟩ := ih (by omega)
      exact ⟨depth, List.mem_cons_of_mem _ mem, by rw [max_eq_right (by omega), eq]⟩

/-- Bits and children. -/
inductive Tree where
  | node (bits : Bits) (children : List Tree)

namespace Tree

/-- The positions of children to descend to, one after the other, are all there. -/
def HasPath : Tree → List ℕ → Prop
  | _, [] => True
  | node _ children, i :: path => ∃ child, children[i]? = some child ∧ child.HasPath path

/-- The lengths of the paths through a tree. -/
def pathLengths (tree : Tree) : Set ℕ := {n | ∃ path, tree.HasPath path ∧ path.length = n}

/-- The number of levels below the root. -/
def height : Tree → ℕ
  | node _ children => depthAbove (children.map height)

/-- The digest of the bytes of the root, which are laid out with the heights and the digests of the
children. -/
def hash : Tree → Digest
  | node bits children => sha256 (layout bits (children.map height) (children.map hash))

/-! ## Paths -/

theorem length_le_height {tree : Tree} {path : List ℕ} (h : tree.HasPath path) :
    path.length ≤ tree.height := by
  induction path generalizing tree with
  | nil => exact Nat.zero_le _
  | cons i path ih =>
    obtain ⟨bits, children⟩ := tree
    obtain ⟨child, found, below⟩ := h
    have shorter : child.height < depthAbove (children.map height) :=
      lt_depthAbove (List.mem_map_of_mem (List.mem_of_getElem? found))
    have := ih below
    rw [height, List.length_cons]
    omega

theorem exists_path_of_height (tree : Tree) :
    ∃ path, tree.HasPath path ∧ path.length = tree.height := by
  induction tree using height.induct with
  | case1 bits children ih =>
    rw [height]
    by_cases flat : depthAbove (children.map height) = 0
    · exact ⟨[], trivial, flat.symm⟩
    · obtain ⟨_, mem, eq⟩ := exists_mem_of_depthAbove flat
      obtain ⟨child, held, rfl⟩ := List.mem_map.1 mem
      obtain ⟨path, below, length⟩ := ih child held
      obtain ⟨i, found⟩ := List.mem_iff_getElem?.1 held
      exact ⟨i :: path, ⟨child, found, below⟩, by rw [List.length_cons, length, eq]⟩

theorem isGreatest_height (tree : Tree) : IsGreatest tree.pathLengths tree.height := by
  refine ⟨tree.exists_path_of_height, ?_⟩
  rintro _ ⟨path, h, rfl⟩
  exact length_le_height h

end Tree

/-! ## The tree of a cell -/

/-- A stored node without its depth and hash. -/
def Node.tree : Node → Tree
  | ⟨bits, refs, _, _⟩ => .node bits (refs.map tree)

namespace Cell

/-- What a cell holds, all the way down. -/
def tree (cell : Cell) : Tree := cell.node.tree

variable {c d : Cell}

theorem tree_eq (cell : Cell) : cell.tree = .node cell.bits (cell.refs.map tree) := by
  have stored : ∀ node : Node, node.tree = .node node.bits (node.refs.map Node.tree) := by
    rintro ⟨bits, refs, depth, hash⟩
    rw [Node.tree]
  rw [tree, stored, ← map_node_refs, List.map_map]
  rfl

/-- The tree decides all that is stored. -/
theorem tree_inj : c.tree = d.tree ↔ c = d := by
  refine ⟨fun same => ?_, congrArg tree⟩
  induction c using Cell.induction generalizing d with
  | step c ih =>
    rw [tree_eq c, tree_eq d, Tree.node.injEq] at same
    obtain ⟨bits, children⟩ := same
    have refs : c.refs = d.refs := eq_of_map_eq (fun child mem _ _ => ih child mem) children
    exact eq_of_bits_refs bits refs

theorem depth_eq_height (cell : Cell) : cell.depth = cell.tree.height := by
  induction cell using Cell.induction with
  | step cell ih =>
    rw [depth_eq, tree_eq, Tree.height, List.map_map]
    exact congrArg depthAbove (List.map_congr_left ih)

theorem depth_le (cell : Cell) : cell.depth ≤ maxDepth := by
  rw [depth_eq]
  by_cases flat : depthAbove (cell.refs.map depth) = 0
  · rw [flat]
    exact Nat.zero_le _
  · obtain ⟨_, mem, eq⟩ := exists_mem_of_depthAbove flat
    obtain ⟨child, held, rfl⟩ := List.mem_map.1 mem
    rw [eq]
    exact cell.ref_depth_lt child held

theorem isGreatest_depth (cell : Cell) : IsGreatest cell.tree.pathLengths cell.depth := by
  rw [depth_eq_height]
  exact cell.tree.isGreatest_height

theorem hash_eq_tree_hash (cell : Cell) : cell.hash = cell.tree.hash := by
  induction cell using Cell.induction with
  | step cell ih =>
    have heights : cell.refs.map depth = cell.refs.map (Tree.height ∘ tree) :=
      List.map_congr_left fun child _ => child.depth_eq_height
    have hashes : cell.refs.map hash = cell.refs.map (Tree.hash ∘ tree) := List.map_congr_left ih
    rw [hash_eq, representation_eq_layout, tree_eq, Tree.hash, List.map_map, List.map_map, heights,
      hashes]

end Cell

/-! ## Codecs -/

/-- A value is read from a cell exactly when it is written, and written with the tree of this
cell. -/
def ExactCodec {ε α : Type} (encode : α → Except ε Cell) (decode : Cell → Except ε α) : Prop :=
  ∀ cell value, decode cell = .ok value ↔
    ∃ written, encode value = .ok written ∧ written.tree = cell.tree

namespace ExactCodec

variable {ε α : Type} {encode : α → Except ε Cell} {decode : Cell → Except ε α} {value : α}
  {c d : Cell}

/-- A cell is its tree, so it is enough to look at the cell itself. -/
theorem of_ok_iff (inverse : ∀ cell value, decode cell = .ok value ↔ encode value = .ok cell) :
    ExactCodec encode decode := by
  intro cell value
  rw [inverse]
  refine ⟨fun written => ⟨cell, written, rfl⟩, ?_⟩
  rintro ⟨other, written, same⟩
  rwa [← Cell.tree_inj.1 same]

theorem decode_of_encode (exact : ExactCodec encode decode) (written : encode value = .ok c) :
    decode c = .ok value :=
  (exact c value).2 ⟨c, written, rfl⟩

/-- A value is read from one tree only. -/
theorem tree_eq (exact : ExactCodec encode decode) (hc : decode c = .ok value)
    (hd : decode d = .ok value) : c.tree = d.tree := by
  obtain ⟨written, first, same⟩ := (exact c value).1 hc
  obtain ⟨written', second, same'⟩ := (exact d value).1 hd
  cases Except.ok.inj (first.symm.trans second)
  rw [← same, same']

end ExactCodec

end WalletWire
