import WalletWire.Bits.Lemmas
import WalletWire.Cell.Slice
import WalletWire.Proofs.Outcome
import Mathlib

/-!
# What reading takes

A read that ends well splits the slice: `slice.Splits bits refs rest` says that `bits` and `refs`
stand at its front and `rest` is what follows.  Each load returns a value exactly when the slice
begins with the bits and references that spell this value, and takes just these.
-/

namespace WalletWire

open Program

/-! ## Cells and slices by what they hold -/

theorem Cell.eq_of_bits_refs {c d : Cell} (bits : c.bits = d.bits) (refs : c.refs = d.refs) :
    c = d := by
  rw [← Cell.ofContent_content c, ← Cell.ofContent_content d]
  exact congrArg Cell.ofContent (Content.ext bits refs)

theorem Slice.eq_of_bits_refs {s t : Slice} (bits : s.bits = t.bits) (refs : s.refs = t.refs) :
    s = t := by
  cases s
  cases t
  exact congrArg Slice.mk (Content.ext bits refs)

/-- The cell holds these bits and references and nothing else. -/
structure Cell.Holds (cell : Cell) (bits : Bits) (refs : List Cell) : Prop where
  bits_eq : cell.bits = bits
  refs_eq : cell.refs = refs

theorem Cell.Holds.unique {c d : Cell} {bits : Bits} {refs : List Cell} (hc : c.Holds bits refs)
    (hd : d.Holds bits refs) : c = d :=
  Cell.eq_of_bits_refs (hc.bits_eq.trans hd.bits_eq.symm) (hc.refs_eq.trans hd.refs_eq.symm)

/-- There are cells for just the bits and references that are within bounds. -/
theorem Cell.exists_holds_iff {bits : Bits} {refs : List Cell} :
    (∃ cell : Cell, cell.Holds bits refs) ↔
      bits.length ≤ maxBits ∧ refs.length ≤ maxRefs ∧ ∀ child ∈ refs, child.depth < maxDepth := by
  constructor
  · rintro ⟨cell, rfl, rfl⟩
    exact ⟨cell.bits_le, cell.refs_le, cell.ref_depth_lt⟩
  · rintro ⟨bits_le, refs_le, depth_lt⟩
    exact ⟨.ofContent ⟨bits, refs, bits_le, refs_le, depth_lt⟩, rfl, refs_ofContent _⟩

/-- With room for the bits, a cell for two references needs only that both can be referred to. -/
theorem Cell.exists_holds_pair_iff {bits : Bits} (fit : bits.length ≤ maxBits) {c d : Cell} :
    (∃ cell : Cell, cell.Holds bits [c, d]) ↔ c.depth < maxDepth ∧ d.depth < maxDepth := by
  rw [exists_holds_iff, and_iff_right fit]
  simp [maxRefs]

theorem Cell.Holds.depth_of_single {cell c : Cell} {bits : Bits} (held : cell.Holds bits [c]) :
    cell.depth = c.depth + 1 := by
  rw [depth_eq, held.refs_eq]
  simp [depthAbove]

theorem Cell.Holds.depth_of_pair {cell c d : Cell} {bits : Bits} (held : cell.Holds bits [c, d]) :
    cell.depth = max c.depth d.depth + 1 := by
  rw [depth_eq, held.refs_eq]
  simp only [depthAbove, List.map_cons, List.map_nil, List.foldr_cons, List.foldr_nil]
  omega

/-- There are cells of every depth up to the greatest. -/
theorem Cell.exists_depth_eq {n : ℕ} (le : n ≤ maxDepth) : ∃ cell : Cell, cell.depth = n := by
  induction n with
  | zero => exact ⟨.empty, rfl⟩
  | succ n ih =>
    obtain ⟨child, rfl⟩ := ih (Nat.le_of_succ_le le)
    obtain ⟨cell, held⟩ : ∃ cell : Cell, cell.Holds [] [child] := by
      rw [Cell.exists_holds_iff]
      simp [maxRefs, Nat.lt_of_succ_le le]
    exact ⟨cell, held.depth_of_single⟩

/-- Any bits that fit can stand with the references of a cell. -/
theorem Cell.exists_holds {bits : Bits} (fit : bits.length ≤ maxBits) (cell : Cell) :
    ∃ other : Cell, other.Holds bits cell.refs :=
  exists_holds_iff.2 ⟨fit, cell.refs_le, cell.ref_depth_lt⟩

/-- So can references to as many cells of the same depths, and this makes a cell of the same
depth. -/
theorem Cell.exists_holds_of_depths {bits : Bits} {refs : List Cell}
    (fit : bits.length ≤ maxBits) (cell : Cell) (depths : refs.map depth = cell.refs.map depth) :
    ∃ other : Cell, other.Holds bits refs ∧ other.depth = cell.depth := by
  have few : refs.length ≤ maxRefs := by
    have same := congrArg List.length depths
    rw [List.length_map, List.length_map] at same
    rw [same]
    exact cell.refs_le
  have shallow : ∀ child ∈ refs, child.depth < maxDepth := by
    rw [← List.forall_mem_map (P := (· < maxDepth)), depths, List.forall_mem_map]
    exact cell.ref_depth_lt
  obtain ⟨other, held⟩ := exists_holds_iff.2 ⟨fit, few, shallow⟩
  exact ⟨other, held, by rw [depth_eq, held.refs_eq, depths, ← depth_eq]⟩

namespace Slice

/-- Nothing is left. -/
def Spent (slice : Slice) : Prop := slice.bits = [] ∧ slice.refs = []

/-- The slice begins with these bits and references and goes on as `rest`. -/
def Splits (slice : Slice) (bits : Bits) (refs : List Cell) (rest : Slice) : Prop :=
  slice.bits = bits ++ rest.bits ∧ slice.refs = refs ++ rest.refs

variable {slice mid rest : Slice} {bits bits' : Bits} {refs refs' : List Cell}

theorem splits_nil_iff : slice.Splits [] [] rest ↔ slice = rest := by
  constructor
  · rintro ⟨hb, hr⟩
    exact eq_of_bits_refs hb hr
  · rintro rfl
    exact ⟨rfl, rfl⟩

/-- The rest of a split is what the slice becomes without its front. -/
theorem Splits.rest_eq (h : slice.Splits bits refs rest) :
    rest = (slice.dropBits bits.length).dropRefs refs.length := by
  apply eq_of_bits_refs
  · show rest.bits = slice.bits.drop bits.length
    rw [h.1, List.drop_left]
  · show rest.refs = slice.refs.drop refs.length
    rw [h.2, List.drop_left]

theorem Splits.append (h : slice.Splits bits refs mid) (h' : mid.Splits bits' refs' rest) :
    slice.Splits (bits ++ bits') (refs ++ refs') rest := by
  refine ⟨?_, ?_⟩
  · rw [h.1, h'.1, List.append_assoc]
  · rw [h.2, h'.2, List.append_assoc]

theorem exists_splits (hb : slice.bits = bits ++ bits') (hr : slice.refs = refs ++ refs') :
    ∃ mid, slice.Splits bits refs mid ∧ mid.bits = bits' ∧ mid.refs = refs' := by
  have left_bits : slice.bits.drop bits.length = bits' := by rw [hb, List.drop_left]
  have left_refs : slice.refs.drop refs.length = refs' := by rw [hr, List.drop_left]
  refine ⟨(slice.dropBits bits.length).dropRefs refs.length, ⟨?_, ?_⟩, left_bits, left_refs⟩
  · rw [hb]
    exact congrArg (bits ++ ·) left_bits.symm
  · rw [hr]
    exact congrArg (refs ++ ·) left_refs.symm

theorem splits_append_iff : slice.Splits (bits ++ bits') (refs ++ refs') rest ↔
    ∃ mid, slice.Splits bits refs mid ∧ mid.Splits bits' refs' rest := by
  constructor
  · rintro ⟨hb, hr⟩
    rw [List.append_assoc] at hb hr
    exact exists_splits hb hr
  · rintro ⟨mid, h, h'⟩
    exact h.append h'

theorem splits_bits_iff : slice.Splits (bits ++ bits') refs rest ↔
    ∃ mid, slice.Splits bits [] mid ∧ mid.Splits bits' refs rest :=
  @splits_append_iff slice rest bits bits' [] refs

theorem splits_bit_iff {bit : Bool} : slice.Splits (bit :: bits) refs rest ↔
    ∃ mid, slice.Splits [bit] [] mid ∧ mid.Splits bits refs rest :=
  @splits_append_iff slice rest [bit] bits [] refs

theorem splits_ref_iff {cell : Cell} : slice.Splits bits (cell :: refs) rest ↔
    ∃ mid, slice.Splits [] [cell] mid ∧ mid.Splits bits refs rest :=
  @splits_append_iff slice rest [] bits [cell] refs

theorem splits_refs_iff : slice.Splits bits refs rest ↔
    ∃ mid, slice.Splits bits [] mid ∧ mid.Splits [] refs rest := by
  have whole := @splits_append_iff slice rest bits [] [] refs
  rwa [List.append_nil, List.nil_append] at whole

theorem ofCell_splits_iff {cell : Cell} : (∃ rest, (ofCell cell).Splits bits refs rest ∧
    rest.Spent) ↔ cell.Holds bits refs := by
  constructor
  · rintro ⟨rest, ⟨hb, hr⟩, hb', hr'⟩
    rw [hb', List.append_nil] at hb
    rw [hr', List.append_nil] at hr
    exact ⟨hb, hr⟩
  · rintro ⟨rfl, rfl⟩
    refine ⟨⟨.empty⟩, ⟨?_, ?_⟩, rfl, rfl⟩
    · exact (List.append_nil _).symm
    · exact (List.append_nil _).symm

/-- As many bits as the cell has can only be all of them. -/
theorem ofCell_splits_all_iff {cell : Cell} (all : bits.length = cell.bits.length) :
    (∃ rest, (ofCell cell).Splits bits [] rest) ↔ cell.bits = bits := by
  constructor
  · rintro ⟨rest, h, -⟩
    have spelled : cell.bits = bits ++ rest.bits := h
    have none_left := congrArg List.length spelled
    rw [List.length_append, all, left_eq_add, List.length_eq_zero_iff] at none_left
    rw [spelled, none_left, List.append_nil]
  · rintro rfl
    obtain ⟨rest, h, -⟩ := @exists_splits (.ofCell cell) cell.bits [] [] cell.refs
      (List.append_nil _).symm rfl
    exact ⟨rest, h⟩

theorem toCell_holds (slice : Slice) : slice.toCell.Holds slice.bits slice.refs :=
  ⟨rfl, Cell.refs_ofContent _⟩

end Slice

/-! ## Bytes -/

namespace Bits

theorem ofNat_inj {width m n : ℕ} (hm : m < 2 ^ width) (hn : n < 2 ^ width)
    (h : ofNat width m = ofNat width n) : m = n := by
  have value := congrArg toNat h
  rwa [toNat_ofNat, toNat_ofNat, Nat.mod_eq_of_lt hm, Nat.mod_eq_of_lt hn] at value

theorem ofBytes_inj {as bs : List UInt8} (h : ofBytes as = ofBytes bs) : as = bs := by
  induction as generalizing bs with
  | nil =>
    have none_left := congrArg List.length h
    rw [length_ofBytes, length_ofBytes, List.length_nil] at none_left
    exact (List.length_eq_zero_iff.1 (by omega)).symm
  | cons a as ih =>
    cases bs with
    | nil =>
      have := congrArg List.length h
      rw [length_ofBytes, length_ofBytes, List.length_cons, List.length_nil] at this
      omega
    | cons b bs =>
      simp only [ofBytes, List.flatMap_cons] at h ih
      obtain ⟨first, others⟩ := List.append_inj h (by rw [length_ofNat, length_ofNat])
      rw [UInt8.toNat_inj.1 (ofNat_inj a.toNat_lt b.toNat_lt first), ih others]

/-- Bytes are read back from the bits they spell. -/
theorem toBytes_ofBytes {count : ℕ} (v : Bytes count) : toBytes count (ofBytes v.toList) = v := by
  apply Vector.toList_inj.1
  apply ofBytes_inj
  exact ofBytes_toBytes count _ (by simp)

end Bits

/-! ## Loads -/

namespace Load

variable {slice rest : Slice}

theorem bits_ok_iff {count : ℕ} {bs : Bits} :
    bits count slice = .ok bs rest ↔ bs.length = count ∧ slice.Splits bs [] rest := by
  constructor
  · intro h
    by_cases enough : count ≤ slice.bits.length
    · rw [bits_eq enough] at h
      cases h
      refine ⟨by rw [List.length_take, Nat.min_eq_left enough], ?_, rfl⟩
      exact (List.take_append_drop count slice.bits).symm
    · rw [bits_short (Nat.lt_of_not_le enough)] at h
      cases h
  · rintro ⟨rfl, h⟩
    have enough : bs.length ≤ slice.bits.length := by
      rw [h.1, List.length_append]
      omega
    rw [bits_eq enough, h.rest_eq, h.1, List.take_left]
    rfl

theorem ref_ok_iff {cell : Cell} : ref slice = .ok cell rest ↔ slice.Splits [] [cell] rest := by
  constructor
  · intro h
    cases hr : slice.refs with
    | nil =>
      rw [ref_short hr] at h
      cases h
    | cons first others =>
      rw [ref_eq hr] at h
      cases h
      refine ⟨rfl, ?_⟩
      show slice.refs = cell :: slice.refs.drop 1
      rw [hr, List.drop_one, List.tail_cons]
  · intro h
    rw [ref_eq h.2, h.rest_eq]
    rfl

theorem finish_ok_iff {u : Unit} : finish slice = .ok u rest ↔ slice = rest ∧ rest.Spent := by
  unfold finish Slice.isEmpty Slice.Spent
  split
  · next h =>
    simp only [Bool.and_eq_true, List.isEmpty_iff] at h
    constructor
    · rintro ⟨⟩
      exact ⟨rfl, h⟩
    · rintro ⟨rfl, -⟩
      rfl
  · next h =>
    simp only [Bool.and_eq_true, List.isEmpty_iff] at h
    constructor
    · rintro ⟨⟩
    · rintro ⟨rfl, spent⟩
      exact absurd spent h

theorem bit_ok_iff {b : Bool} : bit slice = .ok b rest ↔ slice.Splits [b] [] rest := by
  unfold bit
  simp only [bind_ok_iff, pure_ok_iff, bits_ok_iff]
  constructor
  · rintro ⟨bs, mid, ⟨one, h⟩, rfl, rfl⟩
    obtain ⟨c, rfl⟩ := List.length_eq_one_iff.1 one
    exact h
  · intro h
    exact ⟨[b], rest, ⟨rfl, h⟩, rfl, rfl⟩

theorem uint_ok_iff {width n : ℕ} : uint width slice = .ok n rest ↔
    width ≤ 64 ∧ n < 2 ^ width ∧ slice.Splits (Bits.ofNat width n) [] rest := by
  unfold uint
  split
  · next small =>
    simp only [bind_ok_iff, pure_ok_iff, bits_ok_iff]
    constructor
    · rintro ⟨bs, mid, ⟨rfl, h⟩, rfl, rfl⟩
      rw [Bits.ofNat_toNat]
      exact ⟨small, Bits.toNat_lt bs, h⟩
    · rintro ⟨-, fits, h⟩
      refine ⟨_, rest, ⟨Bits.length_ofNat .., h⟩, ?_, rfl⟩
      rw [Bits.toNat_ofNat, Nat.mod_eq_of_lt fits]
  · next large => simp only [throw_ok_iff, large, false_and]

/-- Machine words are numbers of their width. -/
theorem word_ok_iff {W : Type} {width : ℕ} {toNat : W → ℕ} {ofNat : ℕ → W} {v : W}
    (narrow : width ≤ 64) (lt : ∀ v, toNat v < 2 ^ width) (ofNat_toNat : ∀ v, ofNat (toNat v) = v)
    (toNat_ofNat : ∀ n < 2 ^ width, toNat (ofNat n) = n) :
    (do return ofNat (← uint width) : Load Cell.Error W) slice = .ok v rest ↔
      slice.Splits (Bits.ofNat width (toNat v)) [] rest := by
  simp only [bind_ok_iff, pure_ok_iff, uint_ok_iff]
  constructor
  · rintro ⟨n, mid, ⟨-, small, h⟩, rfl, rfl⟩
    rwa [toNat_ofNat n small]
  · intro h
    exact ⟨toNat v, rest, ⟨narrow, lt v, h⟩, ofNat_toNat v, rfl⟩

theorem u8_ok_iff {v : UInt8} :
    u8 slice = .ok v rest ↔ slice.Splits (Bits.ofNat 8 v.toNat) [] rest :=
  word_ok_iff (by decide) UInt8.toNat_lt (fun _ => UInt8.ofNat_toNat)
    (fun n h => by rw [UInt8.toNat_ofNat', Nat.mod_eq_of_lt h])

theorem u16_ok_iff {v : UInt16} :
    u16 slice = .ok v rest ↔ slice.Splits (Bits.ofNat 16 v.toNat) [] rest :=
  word_ok_iff (by decide) UInt16.toNat_lt (fun _ => UInt16.ofNat_toNat)
    (fun n h => by rw [UInt16.toNat_ofNat', Nat.mod_eq_of_lt h])

theorem u32_ok_iff {v : UInt32} :
    u32 slice = .ok v rest ↔ slice.Splits (Bits.ofNat 32 v.toNat) [] rest :=
  word_ok_iff (by decide) UInt32.toNat_lt (fun _ => UInt32.ofNat_toNat)
    (fun n h => by rw [UInt32.toNat_ofNat', Nat.mod_eq_of_lt h])

theorem u64_ok_iff {v : UInt64} :
    u64 slice = .ok v rest ↔ slice.Splits (Bits.ofNat 64 v.toNat) [] rest :=
  word_ok_iff (by decide) UInt64.toNat_lt (fun _ => UInt64.ofNat_toNat)
    (fun n h => by rw [UInt64.toNat_ofNat', Nat.mod_eq_of_lt h])

theorem i8_ok_iff {v : Int8} :
    i8 slice = .ok v rest ↔ slice.Splits (Bits.ofNat 8 v.toUInt8.toNat) [] rest := by
  unfold i8
  simp only [bind_ok_iff, pure_ok_iff, u8_ok_iff]
  constructor
  · rintro ⟨w, mid, h, rfl, rfl⟩
    rwa [UInt8.toUInt8_toInt8]
  · intro h
    exact ⟨v.toUInt8, rest, h, Int8.toInt8_toUInt8 v, rfl⟩

theorem bytes_ok_iff {count : ℕ} {v : Bytes count} :
    bytes count slice = .ok v rest ↔ slice.Splits (Bits.ofBytes v.toList) [] rest := by
  unfold bytes
  simp only [bind_ok_iff, pure_ok_iff, bits_ok_iff]
  constructor
  · rintro ⟨bs, mid, ⟨whole, h⟩, rfl, rfl⟩
    rwa [Bits.ofBytes_toBytes count bs whole]
  · intro h
    exact ⟨_, rest, ⟨by simp, h⟩, Bits.toBytes_ofBytes v, rfl⟩

end Load

/-! ## Reading from the front of a cell -/

theorem Slice.read_ok_iff {ε α : Type} {slice : Slice} {action : Load ε α} {v : α} :
    slice.read action = .ok v ↔ ∃ rest, action slice = .ok v rest := by
  unfold Slice.read
  cases action slice <;> simp

theorem Cell.read_ok_iff {ε α : Type} {cell : Cell} {action : Load ε α} {v : α} :
    cell.read action = .ok v ↔ ∃ rest, action (Slice.ofCell cell) = .ok v rest :=
  Slice.read_ok_iff

theorem Slice.read_error_iff {ε α : Type} {slice : Slice} {action : Load ε α} {e : ε} :
    slice.read action = .error e ↔ ∃ rest, action slice = .error e rest := by
  unfold Slice.read
  cases action slice <;> simp

theorem Cell.read_error_iff {ε α : Type} {cell : Cell} {action : Load ε α} {e : ε} :
    cell.read action = .error e ↔ ∃ rest, action (Slice.ofCell cell) = .error e rest :=
  Slice.read_error_iff

theorem Slice.failsOnly_read {ε α : Type} {action : Load ε α} {P : ε → Prop}
    (h : Program.FailsOnly action P) (slice : Slice) :
    Outcome.FailsOnly (slice.read action) P := by
  intro e failed
  obtain ⟨rest, failed⟩ := Slice.read_error_iff.1 failed
  exact h _ _ _ failed

theorem Cell.failsOnly_read {ε α : Type} {action : Load ε α} {P : ε → Prop}
    (h : Program.FailsOnly action P) (cell : Cell) : Outcome.FailsOnly (cell.read action) P :=
  Slice.failsOnly_read h (.ofCell cell)

end WalletWire
