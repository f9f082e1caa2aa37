import WalletWire.Proofs.Cell.Tree
import Mathlib

/-!
# What the hash of a cell identifies

The hash of a cell is the digest of its `preimage`: two descriptors, the tagged data, the depths and
the hashes of the children, put together without separators.  The descriptors tell how long each
part is and whether the data has a tag, so the preimage can be taken apart again
(`Cell.preimage_inj`).  Hence cells are equal exactly when their trees are, unless two of the
preimages in these trees have one digest (`Cell.beq_iff_tree_eq`).
-/

namespace WalletWire

/-! ## Data -/

theorem pieces_take {α : Type} (size count : ℕ) (xs : List α) :
    pieces size count (xs.take (size * count)) = pieces size count xs := by
  induction count generalizing xs with
  | zero => rfl
  | succ count ih =>
    have first : (xs.take (size * (count + 1))).take size = xs.take size := by
      rw [List.take_take, min_eq_left (Nat.le_mul_of_pos_right size (Nat.succ_pos count))]
    have others : (xs.take (size * (count + 1))).drop size =
        (xs.drop size).take (size * count) := by
      rw [List.drop_take, Nat.mul_succ, Nat.add_sub_cancel]
    rw [pieces, pieces, first, others, ih]

namespace Bits

variable {bs cs : Bits}

theorem length_paddedBytes (bs : Bits) : bs.paddedBytes.length = (bs.length + 7) / 8 := by
  simp [paddedBytes]

/-- The bytes that hold a bit string spell it, with zeros up to a whole byte. -/
theorem ofBytes_paddedBytes (bs : Bits) : ofBytes bs.paddedBytes =
    bs ++ List.replicate (8 * ((bs.length + 7) / 8) - bs.length) false := by
  have enough : ((bs ++ List.replicate 7 false).take (8 * ((bs.length + 7) / 8))).length =
      8 * ((bs.length + 7) / 8) := by
    rw [List.length_take, List.length_append, List.length_replicate]
    omega
  have spelled := ofBytes_toBytes _ _ enough
  have same : toBytes ((bs.length + 7) / 8)
      ((bs ++ List.replicate 7 false).take (8 * ((bs.length + 7) / 8))) =
      toBytes ((bs.length + 7) / 8) (bs ++ List.replicate 7 false) := by
    simp only [toBytes, pieces_take]
  rw [same] at spelled
  rw [paddedBytes, spelled, List.take_append, List.take_of_length_le (by omega),
    List.take_replicate, min_eq_left (by omega)]

/-- The tag is the last one bit. -/
theorem rdropWhile_tagged (bs : Bits) (count : ℕ) :
    (bs ++ true :: List.replicate count false).rdropWhile (! ·) = bs ++ [true] := by
  induction count with
  | zero => exact List.rdropWhile_concat_neg _ _ _ (by decide)
  | succ count ih =>
    rw [List.replicate_succ', ← List.cons_append, ← List.append_assoc,
      List.rdropWhile_concat_pos _ _ _ rfl, ih]

theorem byteDescriptor_lt (short : bs.length ≤ maxBits) : bs.byteDescriptor < 2 ^ 8 := by
  unfold maxBits at short
  unfold byteDescriptor
  omega

/-- The descriptor tells how many bytes the data has and whether it is tagged, and these bytes tell
the data. -/
theorem tagged_inj (size : bs.byteDescriptor = cs.byteDescriptor)
    (data : bs.tagged.paddedBytes = cs.tagged.paddedBytes) : bs = cs := by
  have spelled := congrArg ofBytes data
  rw [ofBytes_paddedBytes, ofBytes_paddedBytes, length_tagged, length_tagged] at spelled
  unfold byteDescriptor at size
  unfold tagged at spelled
  by_cases whole : bs.length % 8 = 0
  · rw [if_pos whole, if_pos (by omega)] at spelled
    exact (List.append_inj spelled (by omega)).1
  · rw [if_neg whole, if_neg (by omega), List.append_assoc, List.append_assoc] at spelled
    have front := congrArg (List.rdropWhile (! ·)) spelled
    rw [List.singleton_append, List.singleton_append, rdropWhile_tagged, rdropWhile_tagged] at front
    exact List.append_cancel_right front

end Bits

/-! ## The parts of fixed size -/

/-- Lists of one length whose members are written in equally many places are told apart by what is
written when their members are. -/
theorem flatMap_inj {α β : Type} {f : α → List β} {width : ℕ} {as bs : List α}
    (wide : ∀ a, (f a).length = width) (inj : ∀ a ∈ as, ∀ b ∈ bs, f a = f b → a = b)
    (length : as.length = bs.length) (h : as.flatMap f = bs.flatMap f) : as = bs := by
  refine eq_of_map_eq inj ?_
  clear inj
  induction as generalizing bs with
  | nil => rw [List.length_eq_zero_iff.1 length.symm]
  | cons a as ih =>
    cases bs with
    | nil => cases length
    | cons b bs =>
      rw [List.flatMap_cons, List.flatMap_cons] at h
      obtain ⟨first, others⟩ := List.append_inj h (by rw [wide, wide])
      rw [List.map_cons, List.map_cons, first, ih (Nat.succ.inj length) others]

/-- A depth in two bytes. -/
theorem depthBytes_inj {m n : ℕ} (hm : m < 2 ^ 16) (hn : n < 2 ^ 16)
    (h : (Bits.toBytes 2 (Bits.ofNat 16 m)).toList = (Bits.toBytes 2 (Bits.ofNat 16 n)).toList) :
    m = n := by
  have spelled := congrArg Bits.ofBytes h
  rw [Bits.ofBytes_toBytes 2 _ (by simp), Bits.ofBytes_toBytes 2 _ (by simp)] at spelled
  exact Bits.ofNat_inj hm hn spelled

theorem byte_inj {m n : ℕ} (hm : m < 2 ^ 8) (hn : n < 2 ^ 8)
    (h : UInt8.ofNat m = UInt8.ofNat n) : m = n := by
  have value := congrArg UInt8.toNat h
  rwa [UInt8.toNat_ofNat', UInt8.toNat_ofNat', Nat.mod_eq_of_lt hm, Nat.mod_eq_of_lt hn] at value

/-! ## Preimages -/

namespace Cell

variable {c d : Cell}

/-- The bytes whose digest is the hash of a cell (`hash_eq`). -/
def preimage (cell : Cell) : List UInt8 :=
  representation cell.bits (cell.refs.map depth) (cell.refs.map hash)

/-- The preimage can be taken apart. -/
theorem preimage_inj (same : c.preimage = d.preimage) : c.bits = d.bits ∧
    c.refs.length = d.refs.length ∧ c.refs.map depth = d.refs.map depth ∧
      c.refs.map hash = d.refs.map hash := by
  unfold preimage representation at same
  simp only [List.cons_append, List.nil_append, List.append_assoc, List.cons.injEq,
    List.length_map] at same
  obtain ⟨counts, sizes, parts⟩ := same
  have few (cell : Cell) : cell.refs.length < 2 ^ 8 :=
    lt_of_le_of_lt cell.refs_le (by decide)
  have count := byte_inj (few c) (few d) counts
  have size := byte_inj (Bits.byteDescriptor_lt c.bits_le) (Bits.byteDescriptor_lt d.bits_le) sizes
  obtain ⟨data, parts⟩ := List.append_inj parts (by
    rw [Bits.length_paddedBytes, Bits.length_paddedBytes, Bits.length_tagged, Bits.length_tagged]
    unfold Bits.byteDescriptor at size
    omega)
  have bits := Bits.tagged_inj size data
  have two (depth : ℕ) : (Bits.toBytes 2 (Bits.ofNat 16 depth)).toList.length = 2 := by simp
  obtain ⟨depths, hashes⟩ := List.append_inj parts (by
    simp only [List.length_flatMap, two, List.map_const', List.length_map, count])
  have small (cell : Cell) : ∀ n ∈ cell.refs.map depth, n < 2 ^ 16 := by
    intro n mem
    obtain ⟨child, held, rfl⟩ := List.mem_map.1 mem
    exact lt_trans (cell.ref_depth_lt child held) (by decide)
  refine ⟨bits, count, ?_, ?_⟩
  · exact flatMap_inj two (fun m hm n hn => depthBytes_inj (small c m hm) (small d n hn))
      (by rw [List.length_map, List.length_map, count]) depths
  · exact flatMap_inj (fun _ => Vector.length_toList) (fun _ _ _ _ => Vector.toList_inj.1)
      (by rw [List.length_map, List.length_map, count]) hashes

/-- The cell is this one or somewhere below it. -/
def Within (sub cell : Cell) : Prop :=
  Relation.ReflTransGen (fun child parent => child ∈ parent.refs) sub cell

theorem within_iff : c.Within d ↔ c = d ∨ ∃ child ∈ d.refs, c.Within child := by
  unfold Within
  rw [Relation.ReflTransGen.cases_tail_iff]
  refine or_congr eq_comm (exists_congr fun child => ?_)
  exact and_comm

/-- The strings that are hashed for the nodes of two trees. -/
def preimages (c d : Cell) : Set (List UInt8) :=
  {bytes | ∃ node : Cell, (node.Within c ∨ node.Within d) ∧ node.preimage = bytes}

theorem preimages_subset {c' d' : Cell} (hc : c' ∈ c.refs) (hd : d' ∈ d.refs) :
    preimages c' d' ⊆ preimages c d := by
  rintro _ ⟨node, within, rfl⟩
  exact ⟨node, within.imp (·.tail hc) (·.tail hd), rfl⟩

/-- Without a collision among the nodes of two trees, the hash of the roots decides both trees. -/
theorem eq_of_hash_eq (free : Set.InjOn sha256 (preimages c d)) (same : c.hash = d.hash) :
    c = d := by
  induction c using Cell.induction generalizing d with
  | step c ih =>
    rw [hash_eq, hash_eq] at same
    have preimage : c.preimage = d.preimage :=
      free ⟨c, .inl .refl, rfl⟩ ⟨d, .inr .refl, rfl⟩ same
    obtain ⟨bits, -, -, hashes⟩ := preimage_inj preimage
    refine eq_of_bits_refs bits (eq_of_map_eq (fun c' hc d' hd same' => ?_) hashes)
    exact ih c' hc (free.mono (preimages_subset hc hd)) same'

/-- A preimage fixes the bits and what the references are known by; and unless two preimages of the
nodes of two trees have one digest, the roots are equal exactly when their trees are. -/
theorem beq_iff_tree_eq (c d : Cell) :
    (c.preimage = d.preimage → c.bits = d.bits ∧ c.refs.length = d.refs.length ∧
      c.refs.map depth = d.refs.map depth ∧ c.refs.map hash = d.refs.map hash) ∧
    (Set.InjOn sha256 (preimages c d) → ((c == d) = true ↔ c.tree = d.tree)) := by
  refine ⟨preimage_inj, fun free => ?_⟩
  rw [beq_eq, beq_iff_eq, tree_inj]
  exact ⟨eq_of_hash_eq free, congrArg hash⟩

/-- A leaf and a cell with one bit that refers to it. -/
theorem beq_iff_tree_eq_leaf : ∃ above : Cell, above.Holds [true] [.empty] ∧
    Set.InjOn sha256 (preimages above .empty) ∧
      (above == empty) = false ∧ above.tree ≠ empty.tree ∧
      (Slice.ofCell above).toCell.refs.map hash = above.refs.map hash := by
  obtain ⟨above, held⟩ : ∃ above : Cell, above.Holds [true] [.empty] :=
    exists_holds_iff.2 ⟨by decide, by decide, by decide⟩
  have leaf (node : Cell) : node.Within .empty ↔ node = .empty := by
    have none_below : empty.refs = [] := refs_ofContent _
    rw [within_iff, none_below]
    simp
  have nodes (node : Cell) (within : node.Within above ∨ node.Within .empty) :
      node = above ∨ node = .empty := by
    rw [within_iff, held.refs_eq, leaf] at within
    simpa [leaf, or_assoc] using within
  have apart : sha256 above.preimage ≠ sha256 empty.preimage := by
    rw [preimage, held.bits_eq, held.refs_eq]
    decide +kernel
  have free : Set.InjOn sha256 (preimages above .empty) := by
    rintro _ ⟨node, within, rfl⟩ _ ⟨node', within', rfl⟩ same
    obtain rfl | rfl := nodes node within <;> obtain rfl | rfl := nodes node' within'
    · rfl
    · exact absurd same apart
    · exact absurd same.symm apart
    · rfl
  have differ : (above == empty) = false := by
    rw [beq_eq, beq_eq_false_iff_ne, hash_eq, hash_eq]
    exact apart
  have same_tree := (beq_iff_tree_eq above empty).2 free
  have reopened : (Slice.ofCell above).toCell.preimage = above.preimage :=
    congrArg preimage (ofContent_content _)
  refine ⟨above, held, free, differ, fun same => ?_, ((beq_iff_tree_eq _ _).1 reopened).2.2.2⟩
  rw [same_tree.2 same] at differ
  cases differ

end Cell

end WalletWire
