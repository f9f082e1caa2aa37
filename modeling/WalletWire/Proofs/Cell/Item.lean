import WalletWire.Proofs.Cell.Failure

/-!
# Items

An item is what one operation writes or reads: a bit, a number, bytes, a bit string or a reference.
Writing and reading are the two directions of one correspondence between items and the bits and
references that spell them (`Item.store_ok_iff` and `Item.load_ok_iff`).  An operation that fails
has changed nothing (`Item.atomic_store` and `Item.Kind.atomic_load`), so each write appends all
that it has to write or nothing (`all_or_nothing`).
-/

namespace WalletWire

open Program

/-- What is written or read in one operation. -/
inductive Item where
  | bit (b : Bool)
  | uint (value width : ℕ)
  | u8 (value : UInt8)
  | i8 (value : Int8)
  | u16 (value : UInt16)
  | u32 (value : UInt32)
  | u64 (value : UInt64)
  | bytes (content : List UInt8)
  | string (content : Bits)
  | ref (cell : Cell)

/-- What has to be known of an item to read it. -/
inductive Item.Kind where
  | bit
  | uint (width : ℕ)
  | u8
  | i8
  | u16
  | u32
  | u64
  | bytes (count : ℕ)
  | string (length : ℕ)
  | ref

namespace Item

/-- The kind of an item. -/
def kind : Item → Kind
  | bit _ => .bit
  | uint _ width => .uint width
  | u8 _ => .u8
  | i8 _ => .i8
  | u16 _ => .u16
  | u32 _ => .u32
  | u64 _ => .u64
  | bytes content => .bytes content.length
  | string content => .string content.length
  | ref _ => .ref

/-- Writes an item. -/
def store : Item → Store Cell.Error Unit
  | bit b => Store.bit b
  | uint value width => Store.uint value width
  | u8 value => Store.u8 value
  | i8 value => Store.i8 value
  | u16 value => Store.u16 value
  | u32 value => Store.u32 value
  | u64 value => Store.u64 value
  | bytes content => Store.bytes content
  | string content => Store.bits content
  | ref cell => Store.ref cell

/-- Reads an item of this kind. -/
def Kind.load : Kind → Load Cell.Error Item
  | bit => .bit <$> Load.bit
  | uint width => (Item.uint · width) <$> Load.uint width
  | u8 => .u8 <$> Load.u8
  | i8 => .i8 <$> Load.i8
  | u16 => .u16 <$> Load.u16
  | u32 => .u32 <$> Load.u32
  | u64 => .u64 <$> Load.u64
  | bytes count => (fun bytes => .bytes bytes.toList) <$> Load.bytes count
  | string length => .string <$> Load.bits length
  | ref => .ref <$> Load.ref

/-- The bits that an item is written as. -/
def bits : Item → Bits
  | bit b => [b]
  | uint value width => .ofNat width value
  | u8 value => .ofNat 8 value.toNat
  | i8 value => .ofNat 8 value.toUInt8.toNat
  | u16 value => .ofNat 16 value.toNat
  | u32 value => .ofNat 32 value.toNat
  | u64 value => .ofNat 64 value.toNat
  | bytes content => .ofBytes content
  | string content => content
  | ref _ => []

/-- The references that an item is written as. -/
def refs : Item → List Cell
  | ref cell => [cell]
  | _ => []

/-- A number fits its width, which is at most 64, and a cell can be referred to. -/
def Fits : Item → Prop
  | uint value width => width ≤ 64 ∧ value < 2 ^ width
  | ref cell => cell.depth < maxDepth
  | _ => True

/-! ## Writing -/

/-- A number that does not fit, or a width above 64, is refused. -/
theorem storeUint_of_not_fits {value width : ℕ} (out : ¬(width ≤ 64 ∧ value < 2 ^ width))
    (builder : Builder) :
    Store.uint value width builder = .error (.integerOverflow value width) builder := by
  unfold Store.uint
  rw [if_neg (by rwa [Bool.and_eq_true, decide_eq_true_iff, Bits.fits_iff])]
  rfl

theorem store_ok_iff {item : Item} {builder result : Builder} :
    item.store builder = .ok () result ↔
      item.Fits ∧ builder.Extends item.bits item.refs result := by
  have always {write : Store Cell.Error Unit} {bits : Bits} (h : write.Appends bits []) :
      write builder = .ok () result ↔ True ∧ builder.Extends bits [] result := by
    rw [h builder result, true_and]
  cases item with
  | bit b => exact always (Store.appends_bit b)
  | uint value width =>
    by_cases fits : width ≤ 64 ∧ value < 2 ^ width
    · exact (Store.appends_uint fits.1 fits.2 builder result).trans (and_iff_right fits).symm
    · have refused : (uint value width).store builder =
          .error (.integerOverflow value width) builder := storeUint_of_not_fits fits builder
      rw [refused]
      exact ⟨nofun, fun h => absurd h.1 fits⟩
  | u8 value => exact always (Store.appends_u8 value)
  | i8 value => exact always (Store.appends_i8 value)
  | u16 value => exact always (Store.appends_u16 value)
  | u32 value => exact always (Store.appends_u32 value)
  | u64 value => exact always (Store.appends_u64 value)
  | bytes content => exact always (Store.appends_bytes content)
  | string content => exact always Store.appends_bits
  | ref cell =>
    refine (Store.appends_ref cell builder result).trans (iff_and_self.2 fun extended => ?_)
    apply result.depth_lt
    rw [extended.2]
    exact List.mem_append_right _ (List.mem_singleton_self cell)

/-! ## Reading -/

section Reading

variable {slice rest : Slice} {item : Item} {kind : Kind}

theorem of_load (loaded : kind.load slice = .ok item rest) :
    item.kind = kind ∧ item.Fits ∧ slice.Splits item.bits item.refs rest := by
  cases kind with
  | bit =>
    obtain ⟨b, read, rfl⟩ := map_ok_iff.1 loaded
    exact ⟨rfl, trivial, Load.bit_ok_iff.1 read⟩
  | uint width =>
    obtain ⟨value, read, rfl⟩ := map_ok_iff.1 loaded
    obtain ⟨narrow, small, splits⟩ := Load.uint_ok_iff.1 read
    exact ⟨rfl, ⟨narrow, small⟩, splits⟩
  | u8 =>
    obtain ⟨value, read, rfl⟩ := map_ok_iff.1 loaded
    exact ⟨rfl, trivial, Load.u8_ok_iff.1 read⟩
  | i8 =>
    obtain ⟨value, read, rfl⟩ := map_ok_iff.1 loaded
    exact ⟨rfl, trivial, Load.i8_ok_iff.1 read⟩
  | u16 =>
    obtain ⟨value, read, rfl⟩ := map_ok_iff.1 loaded
    exact ⟨rfl, trivial, Load.u16_ok_iff.1 read⟩
  | u32 =>
    obtain ⟨value, read, rfl⟩ := map_ok_iff.1 loaded
    exact ⟨rfl, trivial, Load.u32_ok_iff.1 read⟩
  | u64 =>
    obtain ⟨value, read, rfl⟩ := map_ok_iff.1 loaded
    exact ⟨rfl, trivial, Load.u64_ok_iff.1 read⟩
  | bytes count =>
    obtain ⟨content, read, rfl⟩ := map_ok_iff.1 loaded
    exact ⟨congrArg Kind.bytes content.length_toList, trivial, Load.bytes_ok_iff.1 read⟩
  | string length =>
    obtain ⟨content, read, rfl⟩ := map_ok_iff.1 loaded
    obtain ⟨rfl, splits⟩ := Load.bits_ok_iff.1 read
    exact ⟨rfl, trivial, splits⟩
  | ref =>
    obtain ⟨cell, read, rfl⟩ := map_ok_iff.1 loaded
    have splits := Load.ref_ok_iff.1 read
    exact ⟨rfl, slice.depth_lt cell (by rw [splits.2]; exact List.mem_cons_self ..), splits⟩

theorem load_of_splits (fits : item.Fits) (splits : slice.Splits item.bits item.refs rest) :
    item.kind.load slice = .ok item rest := by
  cases item with
  | bit b => exact map_ok_iff.2 ⟨b, Load.bit_ok_iff.2 splits, rfl⟩
  | uint value width =>
    exact map_ok_iff.2 ⟨value, Load.uint_ok_iff.2 ⟨fits.1, fits.2, splits⟩, rfl⟩
  | u8 value => exact map_ok_iff.2 ⟨value, Load.u8_ok_iff.2 splits, rfl⟩
  | i8 value => exact map_ok_iff.2 ⟨value, Load.i8_ok_iff.2 splits, rfl⟩
  | u16 value => exact map_ok_iff.2 ⟨value, Load.u16_ok_iff.2 splits, rfl⟩
  | u32 value => exact map_ok_iff.2 ⟨value, Load.u32_ok_iff.2 splits, rfl⟩
  | u64 value => exact map_ok_iff.2 ⟨value, Load.u64_ok_iff.2 splits, rfl⟩
  | bytes content =>
    have read : Load.bytes content.length slice = .ok ⟨content.toArray, rfl⟩ rest :=
      Load.bytes_ok_iff.2 splits
    exact map_ok_iff.2 ⟨_, read, rfl⟩
  | string content => exact map_ok_iff.2 ⟨content, Load.bits_ok_iff.2 ⟨rfl, splits⟩, rfl⟩
  | ref cell => exact map_ok_iff.2 ⟨cell, Load.ref_ok_iff.2 splits, rfl⟩

/-- Reading is the other direction of writing: an item is taken off the slice as it is put behind a
builder. -/
theorem load_ok_iff : kind.load slice = .ok item rest ↔
    item.kind = kind ∧ item.Fits ∧ slice.Splits item.bits item.refs rest := by
  refine ⟨of_load, ?_⟩
  rintro ⟨rfl, fits, splits⟩
  exact load_of_splits fits splits

end Reading

end Item

namespace Load

theorem atomic_bits (count : ℕ) : Atomic (bits count) := by
  intro slice e left failed
  by_cases enough : count ≤ slice.bits.length
  · rw [bits_eq enough] at failed
    cases failed
  · rw [bits_short (Nat.lt_of_not_le enough)] at failed
    cases failed
    rfl

theorem atomic_ref : Atomic ref := by
  intro slice e left failed
  cases some_left : slice.refs with
  | nil =>
    rw [ref_short some_left] at failed
    cases failed
    rfl
  | cons cell cells =>
    rw [ref_eq some_left] at failed
    cases failed

theorem atomic_uint (width : ℕ) : Atomic (uint width) := by
  unfold uint
  split
  · exact (atomic_bits width).bind_pure _
  · exact atomic_throw _

theorem atomic_u8 : Atomic u8 := (atomic_uint 8).bind_pure _

theorem atomic_finish : Atomic finish := by
  intro slice e left failed
  unfold finish at failed
  split at failed
  · cases failed
  · cases failed
    rfl

end Load

theorem Item.Kind.atomic_load (kind : Kind) : Atomic kind.load := by
  cases kind with
  | bit => exact ((Load.atomic_bits 1).bind_pure _).map _
  | uint width => exact (Load.atomic_uint width).map _
  | u8 => exact Load.atomic_u8.map _
  | i8 => exact (Load.atomic_u8.bind_pure _).map _
  | u16 => exact ((Load.atomic_uint 16).bind_pure _).map _
  | u32 => exact ((Load.atomic_uint 32).bind_pure _).map _
  | u64 => exact ((Load.atomic_uint 64).bind_pure _).map _
  | bytes count => exact ((Load.atomic_bits _).bind_pure _).map _
  | string length => exact (Load.atomic_bits length).map _
  | ref => exact Load.atomic_ref.map _

/-! ## All or nothing -/

namespace Store

theorem atomic_append {bs : Bits} {cells : List Cell}
    (shallow : ∀ child ∈ cells, child.depth < maxDepth) : Atomic (append bs cells shallow) := by
  intro builder e left failed
  by_cases bits_fit : builder.bits.length + bs.length ≤ maxBits
  · by_cases refs_fit : builder.refs.length + cells.length ≤ maxRefs
    · rw [append_eq bits_fit refs_fit] at failed
      cases failed
    · rw [append_of_refs bits_fit (Nat.lt_of_not_le refs_fit)] at failed
      cases failed
      rfl
  · rw [append_of_bits (Nat.lt_of_not_le bits_fit)] at failed
    cases failed
    rfl

theorem atomic_bits (bs : Bits) : Atomic (bits bs) := atomic_append _

theorem atomic_uint (value width : ℕ) : Atomic (uint value width) := by
  unfold uint
  split
  · exact atomic_bits _
  · exact atomic_throw _

theorem atomic_ref (cell : Cell) : Atomic (ref cell) := by
  intro builder e left failed
  unfold ref at failed
  split at failed
  · exact atomic_append _ builder e left failed
  · split at failed <;> cases failed <;> rfl

end Store

theorem Item.atomic_store (item : Item) : Atomic item.store := by
  cases item with
  | bit b => exact Store.atomic_bits _
  | uint value width => exact Store.atomic_uint _ _
  | u8 value => exact Store.atomic_uint _ _
  | i8 value => exact Store.atomic_uint _ _
  | u16 value => exact Store.atomic_uint _ _
  | u32 value => exact Store.atomic_uint _ _
  | u64 value => exact Store.atomic_uint _ _
  | bytes content => exact Store.atomic_bits _
  | string content => exact Store.atomic_bits _
  | ref cell => exact Store.atomic_ref cell

/-- The write appends these bits and references or nothing.  It ends well just when what it writes
fits and there is room for it. -/
structure Store.AppendsIf (fits : Prop) (write : Store Cell.Error Unit) (bits : Bits)
    (refs : List Cell) : Prop where
  unchanged : ∀ builder e left, write builder = .error e left → left = builder
  appended : ∀ builder result, write builder = .ok () result →
    result.bits = builder.bits ++ bits ∧ result.refs = builder.refs ++ refs
  exists_ok_iff : ∀ builder : Builder, (∃ result, write builder = .ok () result) ↔
    fits ∧ builder.bits.length + bits.length ≤ 1023 ∧ builder.refs.length + refs.length ≤ 4

/-- It is enough to know when the write ends well and that otherwise it changes nothing. -/
theorem Store.AppendsIf.of_ok_iff {fits : Prop} {write : Store Cell.Error Unit} {bits : Bits}
    {refs : List Cell} (atomic : Atomic write)
    (ok_iff : ∀ builder result, write builder = .ok () result ↔
      fits ∧ builder.Extends bits refs result)
    (shallow : fits → ∀ child ∈ refs, child.depth < maxDepth) :
    Store.AppendsIf fits write bits refs where
  unchanged := atomic
  appended := fun builder result written => ((ok_iff builder result).1 written).2
  exists_ok_iff := by
    intro builder
    simp only [ok_iff, exists_and_left, Builder.exists_extends_iff]
    exact and_congr_right fun fit => and_iff_left (shallow fit)

/-- Where there is no room, or what is written does not fit, the builder is left as it was. -/
theorem Store.AppendsIf.exists_error {fits : Prop} {write : Store Cell.Error Unit} {bits : Bits}
    {refs : List Cell} (h : Store.AppendsIf fits write bits refs) {builder : Builder}
    (refused : ¬(fits ∧ builder.bits.length + bits.length ≤ 1023 ∧
      builder.refs.length + refs.length ≤ 4)) : ∃ e, write builder = .error e builder := by
  cases outcome : write builder with
  | ok u result => exact absurd ((h.exists_ok_iff builder).1 ⟨result, outcome⟩) refused
  | error e left =>
    obtain rfl := h.unchanged builder e left outcome
    exact ⟨e, rfl⟩

theorem Store.appendsIf_content (content : Content) :
    Store.AppendsIf True (Store.content content) content.bits content.refs := by
  apply Store.AppendsIf.of_ok_iff (atomic_append _)
  · intro builder result
    rw [true_and]
    exact appends_append _ builder result
  · exact fun _ => content.depth_lt

theorem Item.shallow {item : Item} (fits : item.Fits) :
    ∀ child ∈ item.refs, child.depth < maxDepth := by
  cases item with
  | ref cell => exact List.forall_mem_singleton.2 fits
  | _ => exact depth_lt_of_mem_nil

/-- Whatever a builder holds, each operation that writes to it appends all that it writes or changes
nothing.  It succeeds just when what it writes is within its own bounds and there is room for all of
it.  The contents of a cell and what is left of a slice are within bounds already.  Numbers have no
more than 64 bits. -/
theorem all_or_nothing :
    (∀ item : Item, Store.AppendsIf item.Fits item.store item.bits item.refs) ∧
    (∀ cell : Cell, Store.AppendsIf True (Store.inline cell) cell.bits cell.refs) ∧
    (∀ slice : Slice,
      Store.AppendsIf True (Store.content slice.toContent) slice.bits slice.refs) ∧
    ∀ value width builder, 64 < width →
      Store.uint value width builder = .error (.integerOverflow value width) builder := by
  refine ⟨fun item => ?_, fun cell => ?_, fun slice => ?_, fun value width builder wide => ?_⟩
  · exact .of_ok_iff item.atomic_store (fun _ _ => Item.store_ok_iff) Item.shallow
  · exact Store.appendsIf_content cell.content
  · exact Store.appendsIf_content slice.toContent
  · exact Item.storeUint_of_not_fits (fun fits => absurd fits.1 (Nat.not_le.2 wide)) builder

/-- Three bits and one reference are free. -/
def almostFull : Builder where
  bits := .replicate 1020 false
  refs := .replicate 3 .empty
  bits_le := by rw [List.length_replicate]; decide
  refs_le := by decide
  depth_lt := by decide

theorem all_or_nothing_almostFull :
    (∃ result, (Item.string [true, false, true]).store almostFull = .ok () result ∧
      result.bits = .replicate 1020 false ++ [true, false, true]) ∧
    (∃ e, (Item.u8 255).store almostFull = .error e almostFull) ∧
    (∃ e, (Item.uint 8 3).store almostFull = .error e almostFull) ∧
    ∃ deepest pair : Cell, deepest.depth = 1024 ∧ pair.refs.length = 2 ∧
      (∃ e, (Item.ref deepest).store almostFull = .error e almostFull) ∧
      ∃ e, Store.inline pair almostFull = .error e almostFull := by
  obtain ⟨items, cells, -, -⟩ := all_or_nothing
  have used : almostFull.bits.length = 1020 := List.length_replicate
  obtain ⟨deepest, deep⟩ := Cell.exists_depth_eq (show 1024 ≤ maxDepth by decide)
  obtain ⟨pair, held⟩ : ∃ pair : Cell, pair.Holds [] [.empty, .empty] := by
    rw [Cell.exists_holds_pair_iff (by decide)]
    decide
  refine ⟨?_, ?_, ?_, deepest, pair, deep, by rw [held.refs_eq]; rfl, ?_, ?_⟩
  · obtain ⟨result, written⟩ :=
      ((items (.string [true, false, true])).exists_ok_iff almostFull).2
        ⟨trivial, by rw [used]; decide, by decide⟩
    exact ⟨result, written, ((items _).appended _ _ written).1⟩
  · refine (items (.u8 255)).exists_error fun room => ?_
    rw [used] at room
    exact absurd room.2.1 (by decide)
  · refine (items (.uint 8 3)).exists_error fun room => ?_
    exact absurd room.1.2 (by decide)
  · refine (items (.ref deepest)).exists_error fun room => ?_
    have shallow : deepest.depth < 1024 := room.1
    omega
  · refine (cells pair).exists_error fun room => ?_
    rw [held.refs_eq] at room
    exact absurd room.2.2 (by decide)

end WalletWire
