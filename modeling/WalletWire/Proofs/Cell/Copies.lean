import WalletWire.Proofs.Cell.Cursor
import WalletWire.Proofs.Cell.Plain

/-!
# Copies of what is left

What is left of a slice can be copied in three ways.  It can be sealed into a cell, which checks
nothing; it can be appended to a builder, which checks that there is room and compares no depth; and
its references can be stored one after the other, each of which is checked.  The programs on plain
parts (`Parts.copy`, `Parts.copyEach`) look at just this, and the library's stores run as they do
(`Store.RunsAs`).  What is left of a cell fits in a cell, so that a new builder accepts it in any
way, and all copies are one cell (`copies_agree`).
-/

namespace WalletWire

open Program

/-! ## Copies without proofs -/

namespace Parts

/-- Fails unless so many bits are free. -/
def ensureBits (count : ℕ) : EStateM Cell.Error Parts Unit := fun parts =>
  if count ≤ parts.free.toNat then .ok () parts
  else .error (.bitOverflow count parts.free.toNat) parts

/-- Fails unless so many more nodes can be referred to. -/
def ensureRefs (count : ℕ) : EStateM Cell.Error Parts Unit := fun parts =>
  if parts.refs.length + count ≤ maxRefs then .ok () parts else .error .refOverflow parts

/-- Appends parts at once, whatever the depth of the nodes. -/
def copy (more : Parts) : EStateM Cell.Error Parts Unit := do
  ensureBits more.bits.length
  ensureRefs more.refs.length
  modify fun parts => ⟨parts.bits ++ more.bits, parts.refs ++ more.refs⟩

/-- Appends bits. -/
def spell (bits : Bits) : EStateM Cell.Error Parts Unit := do
  ensureBits bits.length
  modify fun parts => ⟨parts.bits ++ bits, parts.refs⟩

/-- Appends one node, which must not be too deep. -/
def refer (node : Node) : EStateM Cell.Error Parts Unit := do
  ensureRefs 1
  if node.depth < maxDepth then modify fun parts => ⟨parts.bits, parts.refs ++ [node]⟩
  else throw (.depthOverflow node.depth maxDepth)

/-- Appends parts one after the other. -/
def copyEach (more : Parts) : EStateM Cell.Error Parts Unit := do
  spell more.bits
  more.refs.forM refer

end Parts

/-- What a node holds from the cursor on. -/
def Cursor.rest (cursor : Cursor) (node : Node) : Parts :=
  ⟨node.bits.drop cursor.bitPos.toNat, node.refs.drop cursor.refPos.toNat⟩

theorem Cursor.Shows.rest_eq {cell : Cell} {cursor : Cursor} {slice : Slice}
    (shown : cursor.Shows cell slice) : cursor.rest cell.node = slice.parts := by
  apply Parts.ext
  · exact shown.bits_eq.symm
  · show cell.node.refs.drop _ = slice.refs.map Cell.node
    rw [shown.refs_eq, List.map_drop, cell.map_node_refs]

/-! ## The library's copies -/

/-- How a write ends, without its proofs. -/
def Builder.outcome : EStateM.Result Cell.Error Builder Unit → EStateM.Result Cell.Error Parts Unit
  | .ok u result => .ok u result.parts
  | .error e left => .error e left.parts

namespace Store

/-- Appends bits, and then references one after the other. -/
def each (bs : Bits) (cells : List Cell) : Store Cell.Error Unit := do
  bits bs
  refs cells

/-- Without proofs the write is this program: it has the same error and leaves the same parts. -/
def RunsAs (write : Store Cell.Error Unit) (run : EStateM Cell.Error Parts Unit) : Prop :=
  ∀ builder : Builder, run builder.parts = Builder.outcome (write builder)

theorem RunsAs.bind {x y : Store Cell.Error Unit} {p q : EStateM Cell.Error Parts Unit}
    (first : x.RunsAs p) (second : y.RunsAs q) : (x >>= fun _ => y).RunsAs (p >>= fun _ => q) := by
  intro builder
  have start := first builder
  cases outcome : x builder with
  | ok u mid =>
    rw [outcome] at start
    rw [bind_of_ok outcome, bind_of_ok start]
    exact second mid
  | error e left =>
    rw [outcome] at start
    rw [bind_error_iff.2 (.inl outcome), bind_error_iff.2 (.inl start)]
    rfl

section Checks

variable {builder : Builder} {count : ℕ}

/-- The count of free bits decides about room as the library does. -/
theorem ensureBits_of_le (fit : builder.bits.length + count ≤ maxBits) :
    Parts.ensureBits count builder.parts = .ok () builder.parts := by
  refine if_pos ?_
  rw [toNat_free, Builder.freeBits]
  omega

theorem ensureBits_of_lt (full : maxBits < builder.bits.length + count) :
    Parts.ensureBits count builder.parts =
      .error (.bitOverflow count builder.freeBits) builder.parts := by
  have written := builder.bits_le
  unfold Parts.ensureBits
  rw [toNat_free, if_neg]
  rw [Builder.freeBits]
  omega

theorem ensureRefs_of_le (fit : builder.refs.length + count ≤ maxRefs) :
    Parts.ensureRefs count builder.parts = .ok () builder.parts := by
  refine if_pos ?_
  rwa [Content.parts, List.length_map]

theorem ensureRefs_of_lt (full : maxRefs < builder.refs.length + count) :
    Parts.ensureRefs count builder.parts = .error .refOverflow builder.parts := by
  refine if_neg ?_
  rw [Content.parts, List.length_map]
  exact Nat.not_le.2 full

theorem parts_append {bs : Bits} {cells : List Cell} {bits_fit refs_fit shallow} :
    (builder.append bs cells bits_fit refs_fit shallow).parts =
      ⟨builder.parts.bits ++ bs, builder.parts.refs ++ cells.map Cell.node⟩ :=
  Parts.ext rfl List.map_append

end Checks

theorem runsAs_append {bs : Bits} {cells : List Cell}
    (shallow : ∀ child ∈ cells, child.depth < maxDepth) :
    (append bs cells shallow).RunsAs (Parts.copy ⟨bs, cells.map Cell.node⟩) := by
  intro builder
  unfold Parts.copy
  rw [List.length_map]
  by_cases bits_fit : builder.bits.length + bs.length ≤ maxBits
  · rw [bind_of_ok (ensureBits_of_le bits_fit)]
    by_cases refs_fit : builder.refs.length + cells.length ≤ maxRefs
    · rw [bind_of_ok (ensureRefs_of_le refs_fit), append_eq bits_fit refs_fit, Builder.outcome,
        parts_append]
      rfl
    · have full := Nat.lt_of_not_le refs_fit
      rw [bind_error_iff.2 (.inl (ensureRefs_of_lt full)), append_of_refs bits_fit full]
      rfl
  · have full := Nat.lt_of_not_le bits_fit
    rw [bind_error_iff.2 (.inl (ensureBits_of_lt full)), append_of_bits full]
    rfl

theorem runsAs_bits (bs : Bits) : (bits bs).RunsAs (Parts.spell bs) := by
  intro builder
  unfold Parts.spell bits
  by_cases fit : builder.bits.length + bs.length ≤ maxBits
  · have no_refs : builder.refs.length + ([] : List Cell).length ≤ maxRefs := builder.refs_le
    rw [bind_of_ok (ensureBits_of_le fit), append_eq fit no_refs, Builder.outcome, parts_append,
      List.map_nil, List.append_nil]
    rfl
  · have full := Nat.lt_of_not_le fit
    rw [bind_error_iff.2 (.inl (ensureBits_of_lt full)), append_of_bits full]
    rfl

theorem runsAs_ref (cell : Cell) : (ref cell).RunsAs (Parts.refer cell.node) := by
  intro builder
  have no_bits : builder.bits.length + ([] : Bits).length ≤ maxBits := builder.bits_le
  have stored : cell.node.depth = cell.depth := rfl
  unfold Parts.refer ref
  rw [stored]
  -- The library looks at the depth first, but a full builder refuses for its room in either case.
  by_cases fit : builder.refs.length + [cell].length ≤ maxRefs
  · rw [bind_of_ok (@ensureRefs_of_le builder 1 fit)]
    by_cases shallow : cell.depth < maxDepth
    · rw [if_pos shallow, dif_pos shallow, append_eq no_bits fit, Builder.outcome, parts_append,
        List.append_nil]
      rfl
    · rw [if_neg shallow, dif_neg shallow, if_pos (Nat.lt_of_succ_le fit)]
      rfl
  · have full := Nat.lt_of_not_le fit
    rw [bind_error_iff.2 (.inl (@ensureRefs_of_lt builder 1 full))]
    by_cases shallow : cell.depth < maxDepth
    · rw [dif_pos shallow, append_of_refs no_bits full]
      rfl
    · rw [dif_neg shallow, if_neg (Nat.not_lt.2 (Nat.le_of_lt_succ full))]
      rfl

theorem runsAs_refs (cells : List Cell) :
    (refs cells).RunsAs ((cells.map Cell.node).forM Parts.refer) := by
  induction cells with
  | nil => exact fun _ => rfl
  | cons cell cells ih => exact (runsAs_ref cell).bind ih

theorem runsAs_each (content : Content) :
    (each content.bits content.refs).RunsAs content.parts.copyEach :=
  (runsAs_bits content.bits).bind (runsAs_refs content.refs)

theorem runsAs_content (content : Content) : (Store.content content).RunsAs content.parts.copy :=
  runsAs_append content.depth_lt

theorem appends_each (bs : Bits) (cells : List Cell) : (each bs cells).Appends bs cells := by
  have appends := (@appends_bits bs).bind (appends_refs cells)
  rwa [List.append_nil, List.nil_append] at appends

/-- Where a content can be appended at once, its parts can be appended one after the other, and this
leaves the same builder. -/
theorem content_ok_iff_each {content : Content} {builder result : Builder} :
    Store.content content builder = .ok () result ↔
      each content.bits content.refs builder = .ok () result :=
  (appends_append content.depth_lt builder result).trans
    (appends_each content.bits content.refs builder result).symm

end Store

/-! ## All copies are one -/

namespace Slice

variable (slice : Slice)

theorem build_content : Cell.build (Store.content slice.toContent) = .ok slice.toCell :=
  (Store.appends_append slice.depth_lt).build_ok_iff.2 slice.toCell_holds

theorem build_each : Cell.build (Store.each slice.bits slice.refs) = .ok slice.toCell :=
  (Store.appends_each slice.bits slice.refs).build_ok_iff.2 slice.toCell_holds

end Slice

/-- Wherever a cursor is in a cell, what is left seals into the cell that a new builder makes of it,
whether all of it is appended at once or its references are stored one after the other; and any
builder that takes it in one of these ways takes it in the other.  A cell is appended in place just
as a slice of it that has not been read.  The checks that decide are those of the programs on plain
parts, which end with the same error and the same parts. -/
theorem copies_agree :
    (∀ (cell : Cell) (cursor : Cursor) (slice : Slice), cursor.Shows cell slice →
      let rest := cursor.rest cell.node
      slice.toCell.node = rest.toNode ∧
      Cell.build (Store.content slice.toContent) = .ok slice.toCell ∧
      Cell.build (Store.each slice.bits slice.refs) = .ok slice.toCell ∧
      (Store.content slice.toContent).RunsAs rest.copy ∧
      (Store.each slice.bits slice.refs).RunsAs rest.copyEach) ∧
    (∀ (slice : Slice) (builder result : Builder),
      Store.content slice.toContent builder = .ok () result ↔
        Store.each slice.bits slice.refs builder = .ok () result) ∧
    ∀ cell : Cell,
      (∀ builder, Store.inline cell builder =
        Store.content (Slice.ofCell cell).toContent builder) ∧
      (Store.inline cell).RunsAs (Parts.copy ⟨cell.node.bits, cell.node.refs⟩) := by
  refine ⟨fun cell cursor slice shown => ?_, fun _ _ _ => Store.content_ok_iff_each,
    fun cell => ⟨fun _ => rfl, ?_⟩⟩
  · intro rest
    have rest_eq : rest = slice.parts := shown.rest_eq
    rw [rest_eq]
    exact ⟨slice.toNode_parts.symm, slice.build_content, slice.build_each,
      Store.runsAs_content slice.toContent, Store.runsAs_each slice.toContent⟩
  · rw [← Content.parts_content]
    exact Store.runsAs_content cell.content

/-- A full cell of the greatest depth, of which one bit and one reference have been read. -/
theorem copies_agree_deepest : ∃ (cell : Cell) (cursor : Cursor) (slice : Slice),
    cell.bits.length = 1023 ∧ cell.refs.length = 4 ∧ cursor.Shows cell slice ∧
    cursor.bitPos = 1 ∧ cursor.refPos = 1 ∧ slice.toCell.depth = 1024 ∧
    slice.toCell.node = (cursor.rest cell.node).toNode ∧
    Cell.build (Store.content slice.toContent) = .ok slice.toCell ∧
    Cell.build (Store.each slice.bits slice.refs) = .ok slice.toCell := by
  obtain ⟨deep, depth⟩ := Cell.exists_depth_eq (show 1023 ≤ maxDepth by decide)
  have empty_depth : Cell.empty.depth = 0 := rfl
  have shallow : ∀ child ∈ [deep, .empty, deep, .empty], child.depth < maxDepth := by
    simp [depth, empty_depth, maxDepth]
  have all_bits : (List.replicate 1023 true).length = 1023 := List.length_replicate
  obtain ⟨cell, held⟩ := Cell.exists_holds_iff.2 ⟨all_bits.le, le_refl 4, shallow⟩
  have bits : cell.bits.length = 1023 := by rw [held.bits_eq, all_bits]
  have refs : cell.refs.length = 4 := by rw [held.refs_eq]; rfl
  let slice := ((Slice.ofCell cell).dropBits 1).dropRefs 1
  have shown : Cursor.Shows cell ⟨1, 1⟩ slice :=
    ⟨by rw [bits]; decide, by rw [refs]; decide, rfl, rfl⟩
  have left : slice.toCell.Holds slice.bits [.empty, deep, .empty] := by
    have left := slice.toCell_holds
    rwa [shown.refs_eq, held.refs_eq] at left
  have deepest : slice.toCell.depth = 1024 := by
    rw [Cell.depth_eq, left.refs_eq]
    simp [depthAbove, depth, empty_depth]
  obtain ⟨sealed, whole, each, -, -⟩ := copies_agree.1 cell ⟨1, 1⟩ slice shown
  exact ⟨cell, ⟨1, 1⟩, slice, bits, refs, shown, rfl, rfl, deepest, sealed, whole, each⟩

end WalletWire
