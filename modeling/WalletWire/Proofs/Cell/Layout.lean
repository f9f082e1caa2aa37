import WalletWire.Bits.Lemmas
import WalletWire.Cell.Basic

/-!
# The bytes of a cell

What is hashed for a cell is said here byte by byte: each byte of the data by its bits, each depth
by its two bytes.  The `representation`, which puts bit strings together and cuts them up, is this
layout (`representation_eq_layout`).
-/

namespace WalletWire

namespace Layout

/-- The number of references, and the number of whole bytes twice, with one more for a byte that is
only begun. -/
def descriptors (bits : Bits) (refs : ℕ) : List UInt8 :=
  [.ofNat refs, .ofNat (2 * (bits.length / 8) + if bits.length % 8 = 0 then 0 else 1)]

/-- A bit of the data at a given place.  Behind the last bit there is a one, and then zeros. -/
def dataBit (bits : Bits) (place : ℕ) : Bool :=
  bits[place]?.getD (place = bits.length)

/-- Eight bits of the data, of which the first counts most. -/
def dataByte (bits : Bits) (place : ℕ) : UInt8 :=
  .ofNat (∑ j ∈ Finset.range 8, if dataBit bits (8 * place + j) then 2 ^ (7 - j) else 0)

/-- The bytes that have bits of the data in them. -/
def data (bits : Bits) : List UInt8 :=
  (List.range ((bits.length + 7) / 8)).map (dataByte bits)

/-- A depth in two bytes, of which the first counts most. -/
def depthBytes (depth : ℕ) : List UInt8 :=
  [.ofNat (depth / 256), .ofNat (depth % 256)]

end Layout

/-- The bytes that are hashed for a cell with these bits, above children of these depths and
hashes. -/
def layout (bits : Bits) (depths : List ℕ) (hashes : List Digest) : List UInt8 :=
  Layout.descriptors bits hashes.length ++ Layout.data bits ++ depths.flatMap Layout.depthBytes ++
    hashes.flatMap Vector.toList

/-! ## Pieces of a bit string -/

theorem pieces_eq_map {α : Type} (size count : ℕ) (xs : List α) :
    pieces size count xs = (List.range count).map fun k => (xs.drop (size * k)).take size := by
  induction count generalizing xs with
  | zero => rfl
  | succ count ih =>
    rw [pieces, ih, List.range_succ_eq_map, List.map_cons, List.map_map, Nat.mul_zero,
      List.drop_zero]
    simp only [Function.comp_def, List.drop_drop, Nat.mul_succ, Nat.add_comm size]

namespace Bits

theorem toNat_eq_sum (bs : Bits) : toNat bs =
    ∑ j ∈ Finset.range bs.length, if bs[j]?.getD false then 2 ^ (bs.length - 1 - j) else 0 := by
  induction bs with
  | nil => rfl
  | cons b bs ih =>
    have places (j : ℕ) : bs.length + 1 - 1 - (j + 1) = bs.length - 1 - j := by omega
    rw [toNat_cons, ih, List.length_cons, Finset.sum_range_succ', add_comm]
    simp only [List.getElem?_cons_succ, List.getElem?_cons_zero, places, Option.getD_some]
    cases b <;> simp

/-- The high bits of a number come first. -/
theorem ofNat_add (m n value : ℕ) :
    ofNat (m + n) value = ofNat m (value / 2 ^ n) ++ ofNat n value := by
  induction m with
  | zero => rw [Nat.zero_add, ofNat, List.nil_append]
  | succ m ih =>
    rw [Nat.succ_add, ofNat, ofNat, ih, Nat.testBit_div_two_pow, List.cons_append]

/-- Filled up with zeros, tagged data has the bits of the layout as far as its bytes go. -/
theorem getElem?_tagged {bs : Bits} {place : ℕ} (inside : place < 8 * ((bs.length + 7) / 8)) :
    (bs.tagged ++ List.replicate 7 false)[place]?.getD false = Layout.dataBit bs place := by
  have zeros (n i : ℕ) : (List.replicate n false)[i]?.getD false = false := by
    rw [List.getElem?_replicate]
    split <;> rfl
  unfold tagged Layout.dataBit
  by_cases held : place < bs.length
  · split <;> simp [List.getElem?_append, held]
  · have behind : bs[place]? = none := List.getElem?_eq_none (Nat.le_of_not_lt held)
    rw [behind, if_neg (by omega), List.append_assoc, List.getElem?_append_right (by omega)]
    obtain last | later := Nat.eq_or_lt_of_le (Nat.le_of_not_lt held)
    · simp [last]
    · obtain ⟨more, rfl⟩ := Nat.exists_eq_add_of_lt later
      have place_eq : bs.length + more + 1 - bs.length = more + 1 := by omega
      rw [place_eq, List.singleton_append, List.getElem?_cons_succ, zeros]
      simp only [Option.getD_none]
      exact (decide_eq_false (by omega)).symm

theorem length_tagged (bs : Bits) : (bs.tagged.length + 7) / 8 = (bs.length + 7) / 8 := by
  unfold tagged
  split
  · rfl
  · rw [List.length_append, List.length_singleton]
    omega

theorem paddedBytes_tagged (bs : Bits) : bs.tagged.paddedBytes = Layout.data bs := by
  have whole := length_tagged bs
  unfold paddedBytes toBytes Layout.data Layout.dataByte
  rw [Vector.toList_mk, List.toList_toArray, pieces_eq_map, List.map_map, whole]
  refine List.map_congr_left fun k mem => ?_
  rw [List.mem_range] at mem
  have eight : (((bs.tagged ++ List.replicate 7 false).drop (8 * k)).take 8).length = 8 := by
    rw [List.length_take, List.length_drop, List.length_append, List.length_replicate]
    omega
  rw [Function.comp_apply, toNat_eq_sum, eight]
  congr 1
  refine Finset.sum_congr rfl fun j small => ?_
  rw [Finset.mem_range] at small
  rw [List.getElem?_take_of_lt small, List.getElem?_drop, getElem?_tagged (by omega)]

/-- A number in two bytes. -/
theorem toBytes_ofNat_sixteen (depth : ℕ) :
    (toBytes 2 (ofNat 16 depth)).toList = Layout.depthBytes depth := by
  have high : (ofNat 16 depth).take 8 = ofNat 8 (depth / 256) := by
    rw [ofNat_add 8 8, List.take_left' (length_ofNat _ _)]
    rfl
  have low : ((ofNat 16 depth).drop 8).take 8 = ofNat 8 depth := by
    rw [ofNat_add 8 8, List.drop_left' (length_ofNat _ _), List.take_of_length_le (by simp)]
  unfold toBytes Layout.depthBytes
  rw [Vector.toList_mk, List.toList_toArray]
  simp only [pieces, List.map_cons, List.map_nil, high, low, toNat_ofNat]
  congr 1
  exact UInt8.ofNat_mod_size

end Bits

/-- What is put together from bit strings is what the layout says byte by byte. -/
theorem representation_eq_layout (bits : Bits) (depths : List ℕ) (hashes : List Digest) :
    representation bits depths hashes = layout bits depths hashes := by
  have size : bits.byteDescriptor =
      2 * (bits.length / 8) + if bits.length % 8 = 0 then 0 else 1 := by
    unfold Bits.byteDescriptor
    split <;> omega
  unfold representation layout Layout.descriptors
  rw [size, Bits.paddedBytes_tagged]
  simp only [Bits.toBytes_ofNat_sixteen]

/-- Two bits above a child of depth 258. -/
example : layout [true, false] [258] [.replicate 32 7] =
    [1, 1, 0xA0, 1, 2] ++ List.replicate 32 7 := by
  decide

end WalletWire
