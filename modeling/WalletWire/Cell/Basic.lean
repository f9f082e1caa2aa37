import WalletWire.Bits
import WalletWire.Sha2.Basic

/-!
# Cells

A cell is a tree node with up to 1023 bits and up to 4 references to other cells, at most 1024
references deep.  Each node keeps its depth and its representation hash, so that both are at hand
for shared subtrees; `Node.Sealed` says that they are right and that the bounds hold in every
node of the tree, and a `Cell` is a sealed node.  A cell is its `content` and nothing else
(`ofContent_content`, `content_ofContent`), and everything that builds cells builds contents.
-/

namespace WalletWire

/-- The most bits in one cell. -/
def maxBits : Nat := 1023

/-- The most references in one cell. -/
def maxRefs : Nat := 4

/-- The greatest depth of a cell. -/
def maxDepth : Nat := 1024

/-! ## The representation -/

/-- The depth above children of the given depths: zero without children. -/
def depthAbove (depths : List Nat) : Nat :=
  depths.foldr (fun depth acc => max (depth + 1) acc) 0

namespace Bits

/-- A bit string that does not end with a whole byte is closed by a one bit. -/
def tagged (bs : Bits) : Bits :=
  if bs.length % 8 = 0 then bs else bs ++ [true]

/-- The number of whole bytes plus the number of bytes begun. -/
def byteDescriptor (bs : Bits) : Nat :=
  bs.length / 8 + (bs.length + 7) / 8

end Bits

/-- The bytes whose digest identifies a cell, from its bits and the depths and hashes of its
children: two descriptors, the tagged data, all depths in two bytes each, and all hashes. -/
def representation (bits : Bits) (depths : List Nat) (hashes : List Digest) : List UInt8 :=
  [UInt8.ofNat hashes.length, UInt8.ofNat bits.byteDescriptor] ++ bits.tagged.paddedBytes
    ++ depths.flatMap (fun depth => (Bits.toBytes 2 (Bits.ofNat 16 depth)).toList)
    ++ hashes.flatMap (fun hash => hash.toList)

/-- A tree node as it is stored, with its depth and hash. -/
structure Node where
  bits : Bits
  refs : List Node
  depth : Nat
  hash : Digest

/-- Bounds, depth and hash are right in this node and in all nodes below. -/
inductive Node.Sealed : Node → Prop where
  | intro {node : Node}
      (bits_le : node.bits.length ≤ maxBits)
      (refs_le : node.refs.length ≤ maxRefs)
      (depth_lt : ∀ child ∈ node.refs, child.depth < maxDepth)
      (depth_eq : node.depth = depthAbove (node.refs.map Node.depth))
      (hash_eq : node.hash = sha256
        (representation node.bits (node.refs.map Node.depth) (node.refs.map Node.hash)))
      (refs : ∀ child ∈ node.refs, child.Sealed) : node.Sealed

/-- A sealed node. -/
structure Cell where
  node : Node
  sealed : node.Sealed

namespace Cell

/-- The data bits. -/
def bits (cell : Cell) : Bits := cell.node.bits

/-- The number of references on the longest way down. -/
def depth (cell : Cell) : Nat := cell.node.depth

/-- The representation hash. -/
def hash (cell : Cell) : Digest := cell.node.hash

/-- The children in order. -/
def refs (cell : Cell) : List Cell :=
  cell.node.refs.pmap Cell.mk (by cases cell.sealed; assumption)

/-- Cells are equal when their hashes are. -/
instance : BEq Cell := ⟨fun c d => c.hash == d.hash⟩

theorem beq_eq (c d : Cell) : (c == d) = (c.hash == d.hash) := rfl

theorem map_node_refs (cell : Cell) : cell.refs.map Cell.node = cell.node.refs := by
  simp [refs, List.map_pmap]

theorem bits_le (cell : Cell) : cell.bits.length ≤ maxBits := by
  cases cell.sealed; assumption

theorem refs_le (cell : Cell) : cell.refs.length ≤ maxRefs := by
  have : cell.node.refs.length ≤ maxRefs := by cases cell.sealed; assumption
  simpa [refs] using this

theorem depth_eq (cell : Cell) : cell.depth = depthAbove (cell.refs.map depth) := by
  have stored : cell.node.depth = depthAbove (cell.node.refs.map Node.depth) := by
    cases cell.sealed; assumption
  rw [← map_node_refs, List.map_map] at stored
  exact stored

theorem hash_eq (cell : Cell) :
    cell.hash = sha256 (representation cell.bits (cell.refs.map depth) (cell.refs.map hash)) := by
  have stored : cell.node.hash = sha256 (representation cell.node.bits
      (cell.node.refs.map Node.depth) (cell.node.refs.map Node.hash)) := by
    cases cell.sealed; assumption
  rw [← map_node_refs, List.map_map, List.map_map] at stored
  exact stored

theorem ref_depth_lt (cell : Cell) : ∀ child ∈ cell.refs, child.depth < maxDepth := by
  have stored : ∀ node ∈ cell.node.refs, node.depth < maxDepth := by
    cases cell.sealed; assumption
  intro child mem
  refine stored child.node ?_
  rw [← map_node_refs]
  exact List.mem_map_of_mem mem

end Cell

theorem lt_depthAbove {depth : Nat} {depths : List Nat} (mem : depth ∈ depths) :
    depth < depthAbove depths := by
  induction depths with
  | nil => simp at mem
  | cons first rest ih =>
    simp only [depthAbove, List.foldr_cons, List.mem_cons] at mem ih ⊢
    rcases mem with rfl | mem
    · omega
    · have := ih mem; omega

/-- A child is less deep than its parent. -/
theorem Cell.depth_lt_of_mem {cell child : Cell} (mem : child ∈ cell.refs) :
    child.depth < cell.depth := by
  rw [cell.depth_eq]
  exact lt_depthAbove (List.mem_map_of_mem mem)

/-! ## Contents -/

/-- Bits and references that fit in one cell. -/
@[ext] structure Content where
  bits : Bits
  refs : List Cell
  bits_le : bits.length ≤ maxBits
  refs_le : refs.length ≤ maxRefs
  depth_lt : ∀ child ∈ refs, child.depth < maxDepth

theorem depth_lt_of_mem_nil : ∀ child ∈ ([] : List Cell), child.depth < maxDepth := nofun

/-- Nothing. -/
def Content.empty : Content where
  bits := []
  refs := []
  bits_le := by decide
  refs_le := by decide
  depth_lt := depth_lt_of_mem_nil

namespace Cell

/-- What a cell holds. -/
def content (cell : Cell) : Content where
  bits := cell.bits
  refs := cell.refs
  bits_le := cell.bits_le
  refs_le := cell.refs_le
  depth_lt := cell.ref_depth_lt

/-- The cell that holds the given content. -/
def ofContent (content : Content) : Cell where
  node :=
    { bits := content.bits
      refs := content.refs.map Cell.node
      depth := depthAbove (content.refs.map depth)
      hash := sha256
        (representation content.bits (content.refs.map depth) (content.refs.map hash)) }
  sealed := by
    refine .intro content.bits_le ?_ ?_ ?_ ?_ ?_
    · simpa using content.refs_le
    · intro child mem
      obtain ⟨cell, held, rfl⟩ := List.mem_map.1 mem
      exact content.depth_lt cell held
    · rw [List.map_map]; rfl
    · rw [List.map_map, List.map_map]; rfl
    · intro child mem
      obtain ⟨cell, _, rfl⟩ := List.mem_map.1 mem
      exact cell.sealed

@[simp] theorem bits_ofContent (content : Content) : (ofContent content).bits = content.bits := rfl

@[simp] theorem refs_ofContent (content : Content) : (ofContent content).refs = content.refs := by
  simp [refs, ofContent, List.pmap_map, List.pmap_eq_self]

@[simp] theorem content_ofContent (content : Content) : (ofContent content).content = content := by
  ext1
  · rfl
  · exact refs_ofContent content

@[simp] theorem ofContent_content (cell : Cell) : ofContent cell.content = cell := by
  obtain ⟨⟨bits, refs, depth, hash⟩, sealed⟩ := cell
  have depth_eq := Cell.depth_eq ⟨⟨bits, refs, depth, hash⟩, sealed⟩
  have hash_eq := Cell.hash_eq ⟨⟨bits, refs, depth, hash⟩, sealed⟩
  have refs_eq := Cell.map_node_refs ⟨⟨bits, refs, depth, hash⟩, sealed⟩
  simp only [ofContent, content, Cell.mk.injEq, Node.mk.injEq]
  exact ⟨rfl, refs_eq, depth_eq.symm, hash_eq.symm⟩

/-- The cell without bits and references. -/
def empty : Cell := ofContent .empty

instance : Inhabited Cell := ⟨empty⟩

/-! ## Description -/

/-- One line on a cell: its size, its tagged data, its hash and its number of references. -/
def describe (cell : Cell) : String :=
  "Cell \x7b bits: " ++ toString cell.bits.length
    ++ ", data: \"" ++ Bytes.hex cell.bits.tagged.paddedBytes
    ++ "\", hash: \"" ++ Bytes.hex cell.hash.toList
    ++ "\", refs: " ++ toString cell.refs.length ++ " \x7d"

end Cell

end WalletWire
