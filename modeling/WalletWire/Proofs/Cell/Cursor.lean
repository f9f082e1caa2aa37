import WalletWire.Proofs.Cell.Stream

/-!
# Cursors

A slice of this library is what is left of a cell.  It can also be kept as a cursor, two positions
in the cell that only move forward, with what is left of bits and references as differences of
machine words.  `Cursor.after` moves a cursor for one load, and `Cursor.Shows` says that a slice is
what the cell holds from the cursor on.  One load moves both alike (`Cursor.Shows.after_ok` and
`Cursor.Shows.after_error`), so a run of loads, some of which may fail, stays within the cell, takes
nothing twice and leaves nothing out (`Cursor.Shows.afterAll`, `Slice.splits_attemptAll`).
-/

namespace WalletWire

open Program

/-! ## What a load takes -/

namespace Item.Kind

/-- How many bits an item of this kind has. -/
def bitCount : Kind → ℕ
  | bit => 1
  | uint width => width
  | u8 => 8
  | i8 => 8
  | u16 => 16
  | u32 => 32
  | u64 => 64
  | bytes count => 8 * count
  | string length => length
  | ref => 0

/-- How many references an item of this kind has. -/
def refCount : Kind → ℕ
  | ref => 1
  | _ => 0

/-- A number has at most 64 bits. -/
def narrow : Kind → Bool
  | uint width => width ≤ 64
  | _ => true

end Item.Kind

theorem Item.length_bits (item : Item) : item.bits.length = item.kind.bitCount := by
  cases item <;> simp [bits, kind, Kind.bitCount]

theorem Item.length_refs (item : Item) : item.refs.length = item.kind.refCount := by
  cases item <;> rfl

namespace Load

variable {slice : Slice}

theorem exists_bits_iff {count : ℕ} :
    (∃ rest bs, bits count slice = .ok bs rest) ↔ count ≤ slice.bits.length := by
  constructor
  · rintro ⟨rest, bs, taken⟩
    obtain ⟨rfl, splits⟩ := bits_ok_iff.1 taken
    rw [splits.1, List.length_append]
    exact Nat.le_add_right ..
  · exact fun enough => ⟨_, _, bits_eq enough⟩

theorem exists_uint_iff {width : ℕ} : (∃ rest n, uint width slice = .ok n rest) ↔
    width ≤ 64 ∧ width ≤ slice.bits.length := by
  unfold uint
  by_cases narrow : width ≤ 64
  · simp [narrow, exists_bits_iff]
  · simp [narrow]

theorem exists_ref_iff : (∃ rest cell, ref slice = .ok cell rest) ↔ 1 ≤ slice.refs.length := by
  cases left : slice.refs with
  | nil => simp [ref_short left]
  | cons cell cells => simp [ref_eq left]

end Load

/-- A load succeeds just when as much is left as it takes. -/
theorem Item.exists_load_iff {kind : Kind} {slice : Slice} :
    (∃ item rest, kind.load slice = .ok item rest) ↔ kind.narrow = true ∧
      kind.bitCount ≤ slice.bits.length ∧ kind.refCount ≤ slice.refs.length := by
  cases kind <;> simp [Kind.load, Kind.narrow, Kind.bitCount, Kind.refCount, Load.bit, Load.u8,
    Load.i8, Load.u16, Load.u32, Load.u64, Load.bytes, Load.exists_bits_iff, Load.exists_uint_iff,
    Load.exists_ref_iff]

/-! ## Positions in a cell -/

/-- How far a cell has been read, counted in 64 bits. -/
structure Cursor where
  bitPos : UInt64
  refPos : UInt64

namespace Cursor

/-- Nothing has been read. -/
def start : Cursor := ⟨0, 0⟩

section Move

variable (cell : Cell) (cursor : Cursor)

/-- The number of bits behind the cursor, as a difference of words. -/
def bitsLeft : UInt64 := .ofNat cell.bits.length - cursor.bitPos

/-- The number of references behind the cursor, as a difference of words. -/
def refsLeft : UInt64 := .ofNat cell.refs.length - cursor.refPos

/-- Where the cursor is after a load, whether this succeeds or fails. -/
def after (kind : Item.Kind) : Cursor :=
  if kind.narrow = true ∧ kind.bitCount ≤ (cursor.bitsLeft cell).toNat ∧
      kind.refCount ≤ (cursor.refsLeft cell).toNat then
    ⟨cursor.bitPos + .ofNat kind.bitCount, cursor.refPos + .ofNat kind.refCount⟩
  else cursor

/-- Where the cursor is after loads one after the other. -/
def afterAll (kinds : List Item.Kind) : Cursor := kinds.foldl (after cell) cursor

/-- The cursor is within the cell, and the slice is what the cell holds from there on. -/
structure Shows (slice : Slice) : Prop where
  bitPos_le : cursor.bitPos.toNat ≤ cell.bits.length
  refPos_le : cursor.refPos.toNat ≤ cell.refs.length
  bits_eq : slice.bits = cell.bits.drop cursor.bitPos.toNat
  refs_eq : slice.refs = cell.refs.drop cursor.refPos.toNat

end Move

theorem shows_start (cell : Cell) : start.Shows cell (.ofCell cell) where
  bitPos_le := Nat.zero_le _
  refPos_le := Nat.zero_le _
  bits_eq := rfl
  refs_eq := rfl

/-- No difference of positions that are within bounds wraps around. -/
theorem toNat_ofNat_sub {count : ℕ} {pos : UInt64} (small : count ≤ maxBits)
    (le : pos.toNat ≤ count) : (UInt64.ofNat count - pos).toNat = count - pos.toNat := by
  have count_eq : (UInt64.ofNat count).toNat = count :=
    UInt64.toNat_ofNat_of_lt' (lt_of_le_of_lt small (by decide))
  rw [UInt64.toNat_sub_of_le, count_eq]
  rwa [UInt64.le_iff_toNat_le, count_eq]

/-- No position that a cursor is moved to wraps around. -/
theorem toNat_add_ofNat {count size : ℕ} {pos : UInt64} (small : size ≤ maxBits)
    (le : pos.toNat + count ≤ size) : (pos + .ofNat count).toNat = pos.toNat + count := by
  have bound : pos.toNat + count < 2 ^ 64 := lt_of_le_of_lt (le.trans small) (by decide)
  rw [UInt64.toNat_add, UInt64.toNat_ofNat_of_lt' (by unfold UInt64.size; omega),
    Nat.mod_eq_of_lt bound]

section Step

variable {cell : Cell} {cursor : Cursor} {slice rest : Slice} {kind : Item.Kind} {item : Item}

theorem Shows.toNat_bitsLeft (shown : cursor.Shows cell slice) :
    (cursor.bitsLeft cell).toNat = slice.bits.length := by
  rw [shown.bits_eq, List.length_drop]
  exact toNat_ofNat_sub cell.bits_le shown.bitPos_le

theorem Shows.toNat_refsLeft (shown : cursor.Shows cell slice) :
    (cursor.refsLeft cell).toNat = slice.refs.length := by
  rw [shown.refs_eq, List.length_drop]
  exact toNat_ofNat_sub (cell.refs_le.trans (by decide)) shown.refPos_le

/-- Nothing is left just when the cursor is at the end of the cell. -/
theorem Shows.spent_iff (shown : cursor.Shows cell slice) : slice.Spent ↔
    cursor.bitPos.toNat = cell.bits.length ∧ cursor.refPos.toNat = cell.refs.length := by
  have bitPos_le := shown.bitPos_le
  have refPos_le := shown.refPos_le
  unfold Slice.Spent
  rw [shown.bits_eq, shown.refs_eq, List.drop_eq_nil_iff, List.drop_eq_nil_iff]
  omega

/-- A load that succeeds moves the cursor by what it takes. -/
theorem Shows.after_ok (shown : cursor.Shows cell slice)
    (loaded : kind.load slice = .ok item rest) : (cursor.after cell kind).Shows cell rest := by
  have room := Item.exists_load_iff.1 ⟨item, rest, loaded⟩
  obtain ⟨rfl, -, splits⟩ := Item.load_ok_iff.1 loaded
  have moved : cursor.after cell item.kind =
      ⟨cursor.bitPos + .ofNat item.kind.bitCount, cursor.refPos + .ofNat item.kind.refCount⟩ := by
    unfold after
    rw [shown.toNat_bitsLeft, shown.toNat_refsLeft, if_pos room]
  have within : cursor.bitPos.toNat + item.kind.bitCount ≤ cell.bits.length ∧
      cursor.refPos.toNat + item.kind.refCount ≤ cell.refs.length := by
    obtain ⟨-, bits_left, refs_left⟩ := room
    rw [shown.bits_eq, List.length_drop] at bits_left
    rw [shown.refs_eq, List.length_drop] at refs_left
    have bitPos_le := shown.bitPos_le
    have refPos_le := shown.refPos_le
    omega
  have bitPos := toNat_add_ofNat cell.bits_le within.1
  have refPos := toNat_add_ofNat (cell.refs_le.trans (by decide)) within.2
  rw [moved]
  refine ⟨bitPos.trans_le within.1, refPos.trans_le within.2, ?_, ?_⟩
  · rw [bitPos, ← List.drop_drop, ← shown.bits_eq, splits.1, ← item.length_bits, List.drop_left]
  · rw [refPos, ← List.drop_drop, ← shown.refs_eq, splits.2, ← item.length_refs, List.drop_left]

/-- One that fails takes nothing and leaves the cursor where it is. -/
theorem Shows.after_error (shown : cursor.Shows cell slice) {e : Cell.Error}
    (failed : kind.load slice = .error e rest) : rest = slice ∧ cursor.after cell kind = cursor := by
  refine ⟨kind.atomic_load slice e rest failed, if_neg fun room => ?_⟩
  rw [shown.toNat_bitsLeft, shown.toNat_refsLeft] at room
  obtain ⟨item, mid, loaded⟩ := Item.exists_load_iff.2 room
  cases failed.symm.trans loaded

end Step

end Cursor

/-! ## Runs of loads -/

/-- What a reading gives and what is left after it, whether it succeeds or fails. -/
def Slice.attempt {ε α : Type} (slice : Slice) (action : Load ε α) : Except ε α × Slice :=
  match action slice with
  | .ok value rest => (.ok value, rest)
  | .error e left => (.error e, left)

/-- What loads one after the other give and what is left after them.  Where one fails, the next is
tried all the same. -/
def Slice.attemptAll (slice : Slice) : List Item.Kind → List (Except Cell.Error Item) × Slice
  | [] => ([], slice)
  | kind :: kinds =>
    let (outcome, rest) := slice.attempt kind.load
    let (outcomes, last) := rest.attemptAll kinds
    (outcome :: outcomes, last)

/-- The items of the loads that have succeeded. -/
def Item.taken (outcomes : List (Except Cell.Error Item)) : List Item :=
  outcomes.filterMap Except.toOption

section Run

variable {slice mid rest : Slice} {kind : Item.Kind} {kinds : List Item.Kind} {item : Item}

theorem Slice.attemptAll_of_ok (loaded : kind.load slice = .ok item mid) :
    slice.attemptAll (kind :: kinds) =
      (.ok item :: (mid.attemptAll kinds).1, (mid.attemptAll kinds).2) := by
  rw [attemptAll, attempt, loaded]

theorem Slice.attemptAll_of_error {e : Cell.Error} (failed : kind.load slice = .error e mid) :
    slice.attemptAll (kind :: kinds) =
      (.error e :: (mid.attemptAll kinds).1, (mid.attemptAll kinds).2) := by
  rw [attemptAll, attempt, failed]

/-- What loads have taken stands at the front of the slice, in their order. -/
theorem Slice.splits_attemptAll (kinds : List Item.Kind) (slice : Slice) :
    slice.Splits (Item.allBits (Item.taken (slice.attemptAll kinds).1))
      (Item.allRefs (Item.taken (slice.attemptAll kinds).1)) (slice.attemptAll kinds).2 := by
  induction kinds generalizing slice with
  | nil => exact splits_nil_iff.2 rfl
  | cons kind kinds ih =>
    cases outcome : kind.load slice with
    | ok item mid =>
      rw [attemptAll_of_ok outcome]
      exact (Item.load_ok_iff.1 outcome).2.2.append (ih mid)
    | error e left =>
      rw [attemptAll_of_error outcome]
      obtain rfl := kind.atomic_load slice e left outcome
      exact ih _

/-- The cursor goes along with the slice. -/
theorem Cursor.Shows.afterAll {cell : Cell} {cursor : Cursor} (shown : cursor.Shows cell slice)
    (kinds : List Item.Kind) :
    (cursor.afterAll cell kinds).Shows cell (slice.attemptAll kinds).2 := by
  induction kinds generalizing cursor slice with
  | nil => exact shown
  | cons kind kinds ih =>
    show ((cursor.after cell kind).afterAll cell kinds).Shows cell _
    cases outcome : kind.load slice with
    | ok item mid =>
      rw [Slice.attemptAll_of_ok outcome]
      exact ih (shown.after_ok outcome)
    | error e left =>
      rw [Slice.attemptAll_of_error outcome]
      obtain ⟨rfl, stays⟩ := shown.after_error outcome
      rw [stays]
      exact ih shown

end Run

end WalletWire
