import WalletWire.Proofs.Cell.Item

/-!
# Streams of items

Items that are written one after the other are read back one after the other, and nothing is left
then.  The bits of a cell and its references are two streams that do not know of each other: where
the references are written among the other items makes no difference to the cell
(`read_back_of_items`).
-/

namespace WalletWire

open Program

/-- Writes items one after the other. -/
def Store.items (items : List Item) : Store Cell.Error Unit :=
  items.forM Item.store

/-- Reads items of these kinds one after the other. -/
def Load.items (kinds : List Item.Kind) : Load Cell.Error (List Item) :=
  kinds.mapM Item.Kind.load

namespace Item

/-- The bits of items, in order. -/
def allBits (items : List Item) : Bits := items.flatMap bits

/-- The references among items, in order. -/
def allRefs (items : List Item) : List Cell := items.flatMap refs

/-- All items are within their bounds. -/
def AllFit (items : List Item) : Prop := ∀ item ∈ items, item.Fits

variable {items others : List Item}

/-! ## Writing and reading -/

theorem store_items_ok_iff {builder result : Builder} :
    Store.items items builder = .ok () result ↔
      AllFit items ∧ builder.Extends (allBits items) (allRefs items) result := by
  induction items generalizing builder with
  | nil =>
    show (pure () : Store Cell.Error Unit) builder = _ ↔ _
    rw [pure_ok_iff]
    simp [AllFit, allBits, allRefs, Builder.extends_nil_iff]
  | cons item items ih =>
    show (item.store >>= fun _ => Store.items items) builder = _ ↔ _
    have whole : AllFit (item :: items) ↔ item.Fits ∧ AllFit items := List.forall_mem_cons
    rw [bind_ok_iff, whole, allBits, allRefs, List.flatMap_cons, List.flatMap_cons,
      Builder.extends_append_iff]
    constructor
    · rintro ⟨⟨⟩, mid, first, others⟩
      obtain ⟨fits, first⟩ := store_ok_iff.1 first
      obtain ⟨others_fit, others⟩ := ih.1 others
      exact ⟨⟨fits, others_fit⟩, mid, first, others⟩
    · rintro ⟨⟨fits, others_fit⟩, mid, first, others⟩
      exact ⟨(), mid, store_ok_iff.2 ⟨fits, first⟩, ih.2 ⟨others_fit, others⟩⟩

theorem load_items_ok_iff {kinds : List Kind} {slice rest : Slice} :
    Load.items kinds slice = .ok items rest ↔ items.map kind = kinds ∧ AllFit items ∧
      slice.Splits (allBits items) (allRefs items) rest := by
  unfold Load.items
  induction kinds generalizing items slice rest with
  | nil =>
    rw [List.mapM_nil, pure_ok_iff, List.map_eq_nil_iff]
    constructor
    · rintro ⟨rfl, rfl⟩
      exact ⟨rfl, nofun, Slice.splits_nil_iff.2 rfl⟩
    · rintro ⟨rfl, -, splits⟩
      exact ⟨rfl, Slice.splits_nil_iff.1 splits⟩
  | cons kind kinds ih =>
    simp only [List.mapM_cons, bind_ok_iff, pure_ok_iff, load_ok_iff, ih]
    constructor
    · rintro ⟨item, mid, ⟨rfl, fits, first⟩, others, last, ⟨rfl, others_fit, splits⟩, rfl, rfl⟩
      exact ⟨rfl, List.forall_mem_cons.2 ⟨fits, others_fit⟩, first.append splits⟩
    · rintro ⟨same, fit, splits⟩
      obtain ⟨item, others, rfl, rfl, rfl⟩ := List.map_eq_cons_iff.1 same
      obtain ⟨fits, others_fit⟩ := List.forall_mem_cons.1 fit
      obtain ⟨mid, first, splits⟩ := Slice.splits_append_iff.1 splits
      exact ⟨item, mid, ⟨rfl, fits, first⟩, others, rest, ⟨rfl, others_fit, splits⟩, rfl, rfl⟩

theorem build_items_ok_iff {cell : Cell} : Cell.build (Store.items items) = .ok cell ↔
    AllFit items ∧ cell.Holds (allBits items) (allRefs items) := by
  simp only [Cell.build_ok_iff, store_items_ok_iff]
  constructor
  · rintro ⟨result, ⟨fit, appended⟩, rfl⟩
    exact ⟨fit, Builder.empty_extends_iff.1 appended⟩
  · rintro ⟨fit, held⟩
    obtain ⟨result, appended, built⟩ := Builder.empty_extends_of_holds held
    exact ⟨result, ⟨fit, appended⟩, built⟩

/-- A cell gives these items, read one after the other, and nothing is left then. -/
def ReadFrom (items : List Item) (cell : Cell) : Prop :=
  ∃ rest, Load.items (items.map kind) (.ofCell cell) = .ok items rest ∧
    Load.finish rest = .ok () rest

theorem readFrom_of_build {cell : Cell} (written : Cell.build (Store.items items) = .ok cell) :
    ReadFrom items cell := by
  obtain ⟨fit, held⟩ := build_items_ok_iff.1 written
  obtain ⟨rest, splits, spent⟩ := Slice.ofCell_splits_iff.2 held
  exact ⟨rest, load_items_ok_iff.2 ⟨rfl, fit, splits⟩, Load.finish_ok_iff.2 ⟨rfl, spent⟩⟩

/-! ## The two streams -/

/-- Whether an item is a reference. -/
def isRef : Item → Bool
  | ref _ => true
  | _ => false

/-- The same references in the same order, among the same other items in the same order. -/
structure Interleaved (items others : List Item) : Prop where
  refs_eq : items.filter isRef = others.filter isRef
  bits_eq : items.filter (!isRef ·) = others.filter (!isRef ·)

theorem allRefs_eq_filter (items : List Item) : allRefs items = allRefs (items.filter isRef) := by
  induction items with
  | nil => rfl
  | cons item items ih =>
    simp only [allRefs] at ih
    cases item <;> simp [allRefs, List.filter_cons, isRef, refs, ih]

theorem allBits_eq_filter (items : List Item) :
    allBits items = allBits (items.filter (!isRef ·)) := by
  induction items with
  | nil => rfl
  | cons item items ih =>
    simp only [allBits] at ih
    cases item <;> simp [allBits, isRef, bits, ih]

theorem allFit_iff_filter : AllFit items ↔
    AllFit (items.filter isRef) ∧ AllFit (items.filter (!isRef ·)) := by
  constructor
  · exact fun fit => ⟨fun item mem => fit item (List.mem_of_mem_filter mem),
      fun item mem => fit item (List.mem_of_mem_filter mem)⟩
  · rintro ⟨refs_fit, bits_fit⟩ item mem
    cases marked : item.isRef with
    | true => exact refs_fit item (List.mem_filter.2 ⟨mem, marked⟩)
    | false => exact bits_fit item (List.mem_filter.2 ⟨mem, by rw [marked]; rfl⟩)

theorem Interleaved.build_ok_iff (same : Interleaved items others) {cell : Cell} :
    Cell.build (Store.items items) = .ok cell ↔ Cell.build (Store.items others) = .ok cell := by
  rw [build_items_ok_iff, build_items_ok_iff, allFit_iff_filter, allBits_eq_filter items,
    allRefs_eq_filter items, same.refs_eq, same.bits_eq, ← allFit_iff_filter,
    ← allBits_eq_filter, ← allRefs_eq_filter]

end Item

/-- Items that have all been written to a new cell are read back from it as they were, in the order
in which they were written, and nothing is left after them.  With the references at other places
among the other items, the cell is the same, and so are the items that are read back. -/
theorem read_back_of_items {items : List Item} {cell : Cell}
    (written : Cell.build (Store.items items) = .ok cell) :
    Item.ReadFrom items cell ∧
    ∀ others, Item.Interleaved items others →
      Cell.build (Store.items others) = .ok cell ∧ Item.ReadFrom others cell := by
  refine ⟨Item.readFrom_of_build written, fun others same => ?_⟩
  have rewritten := same.build_ok_iff.1 written
  exact ⟨rewritten, Item.readFrom_of_build rewritten⟩

/-- Items of every kind, none of them but the first at the start of a byte. -/
def mixedItems (a b : Cell) : List Item :=
  [.bit true, .ref a, .uint 5 3, .i8 (-3), .uint 0 0, .u8 200, .u16 700, .ref b, .u32 7,
    .bytes [1, 255], .uint (2 ^ 64 - 1) 64, .string [false, true], .u64 9]

/-- The references are written first. -/
def refsFirst (a b : Cell) : List Item :=
  [.ref a, .ref b, .bit true, .uint 5 3, .i8 (-3), .uint 0 0, .u8 200, .u16 700, .u32 7,
    .bytes [1, 255], .uint (2 ^ 64 - 1) 64, .string [false, true], .u64 9]

theorem read_back_of_items_mixed : ∃ a b cell : Cell, a.depth ≠ b.depth ∧
    Cell.build (Store.items (mixedItems a b)) = .ok cell ∧ Item.ReadFrom (mixedItems a b) cell ∧
    Cell.build (Store.items (refsFirst a b)) = .ok cell ∧ Item.ReadFrom (refsFirst a b) cell := by
  obtain ⟨b, depth⟩ := Cell.exists_depth_eq (show 1 ≤ maxDepth by decide)
  have empty_depth : Cell.empty.depth = 0 := rfl
  have fit : Item.AllFit (mixedItems .empty b) := by
    simp [Item.AllFit, mixedItems, Item.Fits, empty_depth, depth, maxDepth]
  have shallow : ∀ child ∈ [Cell.empty, b], child.depth < maxDepth := by
    simp [empty_depth, depth, maxDepth]
  have short : (Item.allBits (mixedItems .empty b)).length ≤ maxBits := by
    simp [Item.allBits, mixedItems, Item.bits, maxBits]
  have few : [Cell.empty, b].length ≤ maxRefs := Nat.le_of_ble_eq_true rfl
  obtain ⟨cell, held⟩ := Cell.exists_holds_iff.2 ⟨short, few, shallow⟩
  have written := Item.build_items_ok_iff.2 ⟨fit, held⟩
  obtain ⟨read, elsewhere⟩ := read_back_of_items written
  obtain ⟨rewritten, reread⟩ := elsewhere (refsFirst .empty b) ⟨rfl, rfl⟩
  exact ⟨.empty, b, cell, by rw [empty_depth, depth]; decide, written, read, rewritten, reread⟩

end WalletWire
