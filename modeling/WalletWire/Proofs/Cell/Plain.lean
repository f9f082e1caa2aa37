import WalletWire.Proofs.Cell.Identity
import WalletWire.Proofs.Cell.Writing
import Mathlib

/-!
# Cells without their proofs

A cell, a builder and a slice of this library carry the proof that they are within bounds.  Here
these proofs are left out.  Of `Parts`, bits and nodes as they are stored, nothing is known; the
operations on them look at what is looked at when they run, and at nothing else, and they count in
machine words.  Only `Parts.attach` looks at a depth: to copy the contents of a cell or what a slice
has left, or to seal this, no depth is compared.

`Plain.Made` says that a value comes from a sequence of these operations.  What is made is just what
the library has proofs for (`Plain.made_iff_certified`): so every cell that a dictionary, a payload,
a chain or an envelope gives is made, and depth and hash are right in all that is made and no count
ever overflows (`Plain.sound_of_made`).
-/

namespace WalletWire

/-! ## Plain values -/

/-- Bits and nodes as they are stored: what a builder has written or a slice has left. -/
@[ext] structure Parts where
  bits : Bits
  refs : List Node

namespace Parts

/-- The bits that can still be written, counted in 64 bits. -/
def free (parts : Parts) : UInt64 := .ofNat maxBits - .ofNat parts.bits.length

/-- Appends bits and nodes if there is room for both, whatever the depth of the nodes. -/
def write (parts : Parts) (bits : Bits) (refs : List Node) : Parts :=
  if bits.length ≤ parts.free.toNat ∧ parts.refs.length + refs.length ≤ maxRefs then
    ⟨parts.bits ++ bits, parts.refs ++ refs⟩
  else parts

/-- Appends one node, if it is not too deep. -/
def attach (parts : Parts) (node : Node) : Parts :=
  if node.depth < maxDepth then parts.write [] [node] else parts

/-- The depth above the nodes, counted in 16 bits. -/
def depth (parts : Parts) : UInt16 :=
  parts.refs.foldr (fun child acc => max (.ofNat child.depth + 1) acc) 0

/-- The node that holds the parts, whatever they are. -/
def toNode (parts : Parts) : Node where
  bits := parts.bits
  refs := parts.refs
  depth := parts.depth.toNat
  hash := sha256
    (representation parts.bits (parts.refs.map Node.depth) (parts.refs.map Node.hash))

end Parts

/-- A plain cell, builder or slice. -/
inductive Plain where
  | cell (node : Node)
  | builder (parts : Parts)
  | slice (parts : Parts)

/-- The value comes from a sequence of operations.  A write or an attachment that fails leaves the
builder as it was. -/
inductive Plain.Made : Plain → Prop where
  /-- The cell that holds nothing. -/
  | empty : Made (.cell (Parts.toNode ⟨[], []⟩))
  /-- A new builder. -/
  | new : Made (.builder ⟨[], []⟩)
  /-- Bits are written, of whatever they are the encoding. -/
  | write {parts : Parts} (bits : Bits) : Made (.builder parts) →
      Made (.builder (parts.write bits []))
  /-- A cell is referred to. -/
  | attach {parts : Parts} {node : Node} : Made (.builder parts) → Made (.cell node) →
      Made (.builder (parts.attach node))
  /-- The contents of a cell are copied. -/
  | inline {parts : Parts} {node : Node} : Made (.builder parts) → Made (.cell node) →
      Made (.builder (parts.write node.bits node.refs))
  /-- What a slice has left is copied. -/
  | copy {parts rest : Parts} : Made (.builder parts) → Made (.slice rest) →
      Made (.builder (parts.write rest.bits rest.refs))
  /-- A builder is finished. -/
  | build {parts : Parts} : Made (.builder parts) → Made (.cell parts.toNode)
  /-- A cell is opened. -/
  | parse {node : Node} : Made (.cell node) → Made (.slice ⟨node.bits, node.refs⟩)
  /-- Bits are read. -/
  | read {parts : Parts} {count : ℕ} : Made (.slice parts) → count ≤ parts.bits.length →
      Made (.slice ⟨parts.bits.drop count, parts.refs⟩)
  /-- A reference is read: the slice goes on behind it. -/
  | next {bits : Bits} {node : Node} {refs : List Node} : Made (.slice ⟨bits, node :: refs⟩) →
      Made (.slice ⟨bits, refs⟩)
  /-- A reference is read: this is the cell. -/
  | child {bits : Bits} {node : Node} {refs : List Node} : Made (.slice ⟨bits, node :: refs⟩) →
      Made (.cell node)
  /-- What a slice has left becomes a cell. -/
  | rest {parts : Parts} : Made (.slice parts) → Made (.cell parts.toNode)

/-! ## The library's operations without their proofs -/

/-- A content without its proofs. -/
def Content.parts (content : Content) : Parts := ⟨content.bits, content.refs.map Cell.node⟩

/-- What a write leaves, also when it fails. -/
def Builder.after {ε : Type} (builder : Builder) (write : Store ε Unit) : Builder :=
  match write builder with
  | .ok _ result => result
  | .error _ result => result

theorem Builder.after_of_ok {ε : Type} {builder result : Builder} {write : Store ε Unit}
    (written : write builder = .ok () result) : builder.after write = result := by
  rw [after, written]

/-- A value with proofs to it, of which it is what remains without them. -/
def Plain.Certified : Plain → Prop
  | cell node => ∃ c : Cell, c.node = node
  | builder parts => ∃ b : Builder, b.parts = parts
  | slice parts => ∃ s : Slice, s.parts = parts

/-! ## Counting -/

theorem toNat_free (builder : Builder) : builder.parts.free.toNat = builder.freeBits := by
  have short : builder.parts.bits.length ≤ maxBits := builder.bits_le
  have small {n : ℕ} (h : n ≤ maxBits) : (UInt64.ofNat n).toNat = n :=
    UInt64.toNat_ofNat_of_lt' (lt_of_le_of_lt h (by decide))
  have le : UInt64.ofNat builder.parts.bits.length ≤ .ofNat maxBits := by
    rwa [UInt64.le_iff_toNat_le, small short, small le_rfl]
  unfold Parts.free
  rw [UInt64.toNat_sub_of_le _ _ le, small le_rfl, small short]
  rfl

/-- One more than the depth of a cell that can be referred to fits in 16 bits. -/
theorem toNat_succ {depth : ℕ} (shallow : depth < maxDepth) :
    (UInt16.ofNat depth + 1).toNat = depth + 1 := by
  unfold maxDepth at shallow
  rw [UInt16.toNat_add, UInt16.toNat_ofNat_of_lt' (by unfold UInt16.size; omega), UInt16.toNat_one]
  omega

theorem toNat_depth {parts : Parts} (shallow : ∀ child ∈ parts.refs, child.depth < maxDepth) :
    parts.depth.toNat = depthAbove (parts.refs.map Node.depth) := by
  obtain ⟨bits, nodes⟩ := parts
  unfold Parts.depth
  dsimp only at shallow ⊢
  induction nodes with
  | nil => rfl
  | cons first others ih =>
    obtain ⟨here, there⟩ := List.forall_mem_cons.1 shallow
    rw [List.foldr_cons, UInt16.toNat_max, toNat_succ here, ih there]
    rfl

/-! ## The operations -/

section Operations

variable (builder : Builder)

theorem Content.shallow (content : Content) :
    ∀ child ∈ content.parts.refs, child.depth < maxDepth := by
  intro node mem
  obtain ⟨child, held, rfl⟩ := List.mem_map.1 mem
  exact content.depth_lt child held

theorem Content.toNode_parts (content : Content) :
    content.parts.toNode = (Cell.ofContent content).node := by
  have depths : content.parts.refs.map Node.depth = content.refs.map Cell.depth := by
    rw [Content.parts, List.map_map]
    rfl
  have hashes : content.parts.refs.map Node.hash = content.refs.map Cell.hash := by
    rw [Content.parts, List.map_map]
    rfl
  unfold Parts.toNode
  rw [toNat_depth content.shallow, depths, hashes]
  rfl

theorem Content.parts_content (cell : Cell) :
    cell.content.parts = ⟨cell.node.bits, cell.node.refs⟩ :=
  Parts.ext rfl cell.map_node_refs

/-- The first of the nodes is that of the first cell. -/
theorem Content.parts_eq_cons {content : Content} {bits : Bits} {node : Node} {nodes : List Node}
    (same : content.parts = ⟨bits, node :: nodes⟩) : content.bits = bits ∧ ∃ cell cells,
      content.refs = cell :: cells ∧ cell.node = node ∧ cells.map Cell.node = nodes := by
  obtain ⟨here, there⟩ := Parts.mk.inj same
  exact ⟨here, List.map_eq_cons_iff.1 there⟩

/-- The count of free bits decides about room as the library does. -/
theorem Builder.parts_append (bs : Bits) (cells : List Cell)
    (shallow : ∀ child ∈ cells, child.depth < maxDepth) :
    (builder.after (Store.append bs cells shallow)).parts =
      builder.parts.write bs (cells.map Cell.node) := by
  have short := builder.bits_le
  have room : bs.length ≤ builder.parts.free.toNat ∧
        builder.parts.refs.length + (cells.map Cell.node).length ≤ maxRefs ↔
      builder.bits.length + bs.length ≤ maxBits ∧ builder.refs.length + cells.length ≤ maxRefs := by
    rw [toNat_free, freeBits, Content.parts, List.length_map, List.length_map]
    omega
  unfold Parts.write
  simp only [room]
  by_cases bits_fit : builder.bits.length + bs.length ≤ maxBits
  · by_cases refs_fit : builder.refs.length + cells.length ≤ maxRefs
    · rw [Builder.after_of_ok (Store.append_eq bits_fit refs_fit), if_pos ⟨bits_fit, refs_fit⟩]
      exact Parts.ext rfl List.map_append
    · rw [after, Store.append_of_refs bits_fit (Nat.lt_of_not_le refs_fit),
        if_neg fun room => refs_fit room.2]
  · rw [after, Store.append_of_bits (Nat.lt_of_not_le bits_fit),
      if_neg fun room => bits_fit room.1]

theorem Builder.parts_ref (cell : Cell) :
    (builder.after (Store.ref cell)).parts = builder.parts.attach cell.node := by
  have attached : builder.parts.attach cell.node =
      if cell.depth < maxDepth then builder.parts.write [] [cell.node] else builder.parts := rfl
  rw [attached]
  by_cases shallow : cell.depth < maxDepth
  · have one : ∀ child ∈ [cell], child.depth < maxDepth := by simpa using shallow
    have written : Store.ref cell builder = Store.append [] [cell] one builder := dif_pos shallow
    have same : (builder.after (Store.append [] [cell] one)).parts =
        builder.parts.write [] [cell.node] := builder.parts_append [] [cell] one
    rw [if_pos shallow, ← same, after, after, written]
  · have refused : ∃ e, Store.ref cell builder = .error e builder := by
      unfold Store.ref
      rw [dif_neg shallow]
      split
      · exact ⟨_, rfl⟩
      · exact ⟨_, rfl⟩
    obtain ⟨e, refused⟩ := refused
    rw [if_neg shallow, after, refused]

end Operations

/-! ## What is made is what there are proofs for -/

namespace Plain

theorem Made.certified {value : Plain} (made : Made value) : value.Certified := by
  induction made with
  | empty => exact ⟨.empty, (Content.toNode_parts .empty).symm⟩
  | new => exact ⟨.empty, rfl⟩
  | write bits _ ih =>
    obtain ⟨builder, rfl⟩ := ih
    exact ⟨builder.after (Store.bits bits), builder.parts_append bits [] _⟩
  | attach _ _ ih ih' =>
    obtain ⟨builder, rfl⟩ := ih
    obtain ⟨cell, rfl⟩ := ih'
    exact ⟨builder.after (Store.ref cell), builder.parts_ref cell⟩
  | inline _ _ ih ih' =>
    obtain ⟨builder, rfl⟩ := ih
    obtain ⟨cell, rfl⟩ := ih'
    -- No depth is compared here, but the nodes are referred to by a cell already.
    refine ⟨builder.after (Store.inline cell), ?_⟩
    rw [← cell.map_node_refs]
    exact builder.parts_append cell.bits cell.refs _
  | copy _ _ ih ih' =>
    obtain ⟨builder, rfl⟩ := ih
    obtain ⟨slice, rfl⟩ := ih'
    exact ⟨builder.after (Store.content slice.toContent), builder.parts_append _ _ _⟩
  | build _ ih =>
    obtain ⟨builder, rfl⟩ := ih
    exact ⟨builder.build, builder.toNode_parts.symm⟩
  | parse _ ih =>
    obtain ⟨cell, rfl⟩ := ih
    exact ⟨.ofCell cell, Content.parts_content cell⟩
  | @read _ count _ _ ih =>
    obtain ⟨slice, rfl⟩ := ih
    exact ⟨slice.dropBits count, rfl⟩
  | next _ ih =>
    obtain ⟨slice, same⟩ := ih
    obtain ⟨bits, _, cells, left, -, others⟩ := Content.parts_eq_cons same
    refine ⟨slice.dropRefs 1, Parts.ext bits ?_⟩
    show (slice.refs.drop 1).map Cell.node = _
    rw [left, List.drop_one, List.tail_cons, others]
  | child _ ih =>
    obtain ⟨slice, same⟩ := ih
    obtain ⟨-, cell, _, -, held, -⟩ := Content.parts_eq_cons same
    exact ⟨cell, held⟩
  | rest _ ih =>
    obtain ⟨slice, rfl⟩ := ih
    exact ⟨slice.toCell, slice.toNode_parts.symm⟩

theorem made_after_refs {builder result : Builder} {cells : List Cell}
    (made : ∀ cell ∈ cells, Made (.cell cell.node)) (start : Made (.builder builder.parts))
    (written : Store.refs cells builder = .ok () result) : Made (.builder result.parts) := by
  induction cells generalizing builder with
  | nil =>
    obtain ⟨-, rfl⟩ := Program.pure_ok_iff.1 written
    exact start
  | cons cell cells ih =>
    obtain ⟨⟨⟩, mid, first, others⟩ := Program.bind_ok_iff.1 written
    obtain ⟨here, there⟩ := List.forall_mem_cons.1 made
    refine ih there ?_ others
    rw [← Builder.after_of_ok first, Builder.parts_ref]
    exact start.attach here

theorem made_builder {builder : Builder} (made : ∀ cell ∈ builder.refs, Made (.cell cell.node)) :
    Made (.builder builder.parts) := by
  -- The bits are written in one step, and then the cells are referred to one after the other.
  have appends := (@Store.appends_bits builder.bits).bind (Store.appends_refs builder.refs)
  rw [List.append_nil] at appends
  have written := (appends .empty builder).2 ⟨rfl, rfl⟩
  obtain ⟨⟨⟩, mid, first, others⟩ := Program.bind_ok_iff.1 written
  refine made_after_refs made ?_ others
  rw [← Builder.after_of_ok first, Store.bits, Builder.parts_append]
  exact Made.new.write builder.bits

theorem made_cell (cell : Cell) : Made (.cell cell.node) := by
  induction cell using Cell.induction with
  | step cell ih =>
    have made : Made (.builder cell.content.parts) := @made_builder ⟨cell.content⟩ ih
    have sealed := made.build
    rwa [Content.toNode_parts, Cell.ofContent_content] at sealed

/-- Just what the library has proofs for is made by operations that know of none. -/
theorem made_iff_certified {value : Plain} : Made value ↔ value.Certified := by
  refine ⟨Made.certified, fun certified => ?_⟩
  cases value with
  | cell node =>
    obtain ⟨cell, rfl⟩ := certified
    exact made_cell cell
  | builder parts =>
    obtain ⟨builder, rfl⟩ := certified
    exact made_builder fun cell _ => made_cell cell
  | slice parts =>
    obtain ⟨slice, rfl⟩ := certified
    have opened := (made_cell slice.toCell).parse
    rwa [← Content.parts_content, Slice.toCell, Cell.content_ofContent] at opened

end Plain

/-! ## What holds of all that is made -/

/-- The node is within bounds, and depth and hash are those of its tree. -/
structure Node.Sound (node : Node) : Prop where
  bits_le : node.bits.length ≤ maxBits
  refs_le : node.refs.length ≤ maxRefs
  depth_le : node.depth ≤ maxDepth
  isGreatest_depth : IsGreatest node.tree.pathLengths node.depth
  hash_eq : node.hash = node.tree.hash

/-- The parts are within bounds, and no count that is made of them overflows: the free bits, the
depth above each of the nodes, and the descriptor of the data. -/
structure Parts.Sound (parts : Parts) : Prop where
  bits_le : parts.bits.length ≤ maxBits
  refs_le : parts.refs.length ≤ maxRefs
  free_eq : parts.bits.length + parts.free.toNat = maxBits
  succ_eq : ∀ child ∈ parts.refs, (UInt16.ofNat child.depth + 1).toNat = child.depth + 1
  descriptor_eq : (UInt8.ofNat parts.bits.byteDescriptor).toNat = parts.bits.byteDescriptor

/-- The value is as it has to be. -/
def Plain.Sound : Plain → Prop
  | cell node => node.Sound
  | builder parts | slice parts => parts.Sound

theorem Cell.sound (cell : Cell) : cell.node.Sound where
  bits_le := cell.bits_le
  refs_le := by
    rw [← map_node_refs, List.length_map]
    exact cell.refs_le
  depth_le := cell.depth_le
  isGreatest_depth := cell.isGreatest_depth
  hash_eq := cell.hash_eq_tree_hash

theorem Content.sound (content : Content) : content.parts.Sound where
  bits_le := content.bits_le
  refs_le := by
    rw [parts, List.length_map]
    exact content.refs_le
  free_eq := by
    have short := content.bits_le
    have free : content.parts.free.toNat = maxBits - content.bits.length := toNat_free ⟨content⟩
    rw [free]
    exact Nat.add_sub_cancel' short
  succ_eq := fun child mem => toNat_succ (content.shallow child mem)
  descriptor_eq := UInt8.toNat_ofNat_of_lt' (Bits.byteDescriptor_lt content.bits_le)

/-- What a sequence of operations makes is what the library has proofs for, so it includes all cells
that dictionaries, payloads, chains and envelopes give; and it is sound. -/
theorem Plain.sound_of_made (value : Plain) :
    (Made value ↔ value.Certified) ∧ (Made value → value.Sound) := by
  refine ⟨made_iff_certified, fun made => ?_⟩
  have certified := made.certified
  cases value with
  | cell node =>
    obtain ⟨cell, rfl⟩ := certified
    exact cell.sound
  | builder parts =>
    obtain ⟨builder, rfl⟩ := certified
    exact builder.toContent.sound
  | slice parts =>
    obtain ⟨slice, rfl⟩ := certified
    exact slice.toContent.sound

/-- One bit and a reference to a cell that holds nothing. -/
def bitAndLeaf : Parts := (Parts.write ⟨[], []⟩ [true] []).attach (Parts.toNode ⟨[], []⟩)

theorem Plain.sound_of_made_bitAndLeaf : bitAndLeaf.toNode.depth = 1 ∧
    Made (.cell bitAndLeaf.toNode) ∧ Plain.Sound (.cell bitAndLeaf.toNode) := by
  have made : Made (.cell bitAndLeaf.toNode) := ((Made.new.write [true]).attach .empty).build
  exact ⟨rfl, made, (sound_of_made _).2 made⟩

end WalletWire
