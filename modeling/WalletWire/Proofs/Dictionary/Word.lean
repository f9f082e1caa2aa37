import WalletWire.Proofs.Dictionary.Forks

/-!
# Labels in machine words

A machine keeps a label as the low bits of a word of 64 bits, next to their number.  Written part
by part, it compares the word with zero and with a mask of ones to see whether all bits are alike
(`Label.storeWord`); read, it makes the word of the bits or of such a mask (`Label.loadWord`).  Both
do what is done with bit strings (`Label.appends_storeWord`, `Label.loadWord_eq`).  So what is
written is as long as the least of the costs of the forms, and it is read back whatever follows it
(`Label.cheapest_codec`).
-/

namespace WalletWire

open Program

/-! ## Bits that are all alike -/

namespace Label

theorem uniform_iff {label : Bits} : uniform label = true ↔
    0 < label.length ∧ ∃ bit, label = List.replicate label.length bit := by
  constructor
  · intro alike
    refine ⟨List.length_pos_iff.2 ?_, _, eq_replicate_of_uniform alike⟩
    rintro rfl
    cases alike
  · rintro ⟨pos, bit, same⟩
    obtain ⟨n, length⟩ := Nat.exists_eq_add_of_lt pos
    rw [same, length]
    simp [uniform, List.replicate_succ]

section Word

variable {n value : ℕ} (small : value < 2 ^ n)

include small

theorem uniform_ofNat_iff : uniform (Bits.ofNat n value) = true ↔
    0 < n ∧ (value = 0 ∨ value = 2 ^ n - 1) := by
  rw [uniform_iff, Bits.length_ofNat]
  simp only [Bits.ofNat_eq_replicate_iff small, Bool.exists_bool, if_true, Bool.false_eq_true,
    if_false]

/-- The first of bits that are all alike tells whether the number is zero. -/
theorem headD_ofNat (alike : uniform (Bits.ofNat n value) = true) :
    (Bits.ofNat n value).headD false = decide (value ≠ 0) := by
  obtain ⟨pos, bit, same⟩ := uniform_iff.1 alike
  rw [Bits.length_ofNat] at pos same
  have number := (Bits.ofNat_eq_replicate_iff small).1 same
  have first : (List.replicate n bit).headD false = bit := by
    obtain ⟨m, rfl⟩ := Nat.exists_eq_add_one_of_ne_zero pos.ne'
    rfl
  have two_le : 2 ^ 1 ≤ 2 ^ n := Nat.pow_le_pow_right two_pos pos
  rw [same, first, number]
  cases bit
  · rfl
  · simp only [if_true, ne_eq]
    exact (decide_eq_true (by omega)).symm

end Word

/-! ## Labels in words -/

/-- The word with so many ones at its end. -/
def mask (count : ℕ) : UInt64 :=
  if count < 64 then (1 : UInt64) <<< .ofNat count - 1 else ~~~0

/-- Writes the low bits of a word as a label in its cheapest form, part by part. -/
def storeWord (max : ℕ) (word : UInt64) (length : ℕ) : Store Cell.Error Unit := do
  let width := lengthWidth max
  let short := 2 * length + 2
  let long := 2 + width + length
  let same := 3 + width
  if (0 < length && (word == 0 || word == mask length)) && same < short && same < long then
    Store.bit true
    Store.bit true
    Store.bit (word != 0)
    Store.uint length width
  else if long < short then
    Store.bit true
    Store.bit false
    Store.uint length width
    Store.uint word.toNat length
  else
    Store.bit false
    (List.replicate length true).forM Store.bit
    Store.bit false
    Store.uint word.toNat length

/-- Takes so many bits as a word, next to their number. -/
def field (count : ℕ) : Load Cell.Error (UInt64 × ℕ) :=
  return (.ofNat (← Load.uint count), count)

/-- Takes a label of at most `max` bits in any form, as a word and the number of its bits. -/
def loadWord (max : ℕ) : Load Cell.Error (UInt64 × ℕ) := do
  if !(← Load.bit) then
    field (← ones max max)
  else if !(← Load.bit) then
    field (← length max)
  else
    let bit ← Load.bit
    let count ← length max
    return (if bit then mask count else 0, count)

/-- The word of a label and the number of its bits. -/
def toWord (label : Bits) : UInt64 × ℕ := (.ofNat label.toNat, label.length)

theorem toNat_mask {count : ℕ} (le : count ≤ 64) : (mask count).toNat = 2 ^ count - 1 := by
  unfold mask
  by_cases part : count < 64
  · have below : 2 ^ count < 2 ^ 64 := Nat.pow_lt_pow_right (by decide) part
    have shifted : ((1 : UInt64) <<< UInt64.ofNat count).toNat = 2 ^ count := by
      rw [UInt64.toNat_shiftLeft, UInt64.toNat_ofNat', Nat.mod_eq_of_lt (by omega : count < 2 ^ 64),
        Nat.mod_eq_of_lt part, UInt64.toNat_one, Nat.one_shiftLeft, Nat.mod_eq_of_lt below]
    have one_le : 1 ≤ (1 : UInt64) <<< UInt64.ofNat count := by
      rw [UInt64.le_iff_toNat_le, shifted]
      exact Nat.one_le_two_pow
    rw [if_pos part, UInt64.toNat_sub_of_le _ _ one_le, shifted]
    rfl
  · rw [if_neg part, show count = 64 by omega]
    rfl

theorem toWord_replicate {count : ℕ} (le : count ≤ 64) (bit : Bool) :
    toWord (List.replicate count bit) = (if bit then mask count else 0, count) := by
  unfold toWord
  rw [List.length_replicate, Bits.toNat_replicate]
  cases bit
  · rfl
  · rw [if_pos rfl, if_pos rfl, ← toNat_mask le, UInt64.ofNat_toNat]

/-! ## Writing -/

theorem appends_ones (n : ℕ) :
    ((List.replicate n true).forM Store.bit).Appends (List.replicate n true) [] := by
  induction n with
  | zero => exact Store.appends_pure
  | succ n ih => exact (Store.appends_bit true).bind ih

/-- Whether all bits are alike can be seen from the word. -/
theorem uniform_word {length : ℕ} {word : UInt64} (le : length ≤ 64)
    (small : word.toNat < 2 ^ length) : uniform (.ofNat length word.toNat) =
      (0 < length && (word == 0 || word == mask length)) := by
  rw [Bool.eq_iff_iff, uniform_ofNat_iff small, ← toNat_mask le]
  simp only [Bool.and_eq_true, Bool.or_eq_true, decide_eq_true_eq, beq_iff_eq,
    ← UInt64.toNat_inj, UInt64.toNat_zero]

theorem appends_storeWord {max length : ℕ} {word : UInt64} (narrow : max ≤ 64) (le : length ≤ max)
    (small : word.toNat < 2 ^ length) :
    (storeWord max word length).Appends (write max (.ofNat length word.toNat)) [] := by
  have width := lengthWidth_le narrow
  have alike := uniform_word (le.trans narrow) small
  have length_field : (Store.uint length (lengthWidth max)).Appends
      (.ofNat (lengthWidth max) length) [] :=
    Store.appends_uint (by omega) (lt_two_pow_lengthWidth le)
  have label_field : (Store.uint word.toNat length).Appends (.ofNat length word.toNat) [] :=
    Store.appends_uint (by omega) small
  unfold storeWord write form
  simp only [← alike, Bits.length_ofNat, Form.cost]
  split
  · next chosen =>
    have first : (Bits.ofNat length word.toNat).headD false = (word != 0) := by
      simp only [Bool.and_eq_true] at chosen
      rw [headD_ofNat small chosen.1.1, Bool.eq_iff_iff]
      simp [← UInt64.toNat_inj]
    rw [Form.write, first, Bits.length_ofNat]
    exact (Store.appends_bit true).bind <| (Store.appends_bit true).bind <|
      (Store.appends_bit (word != 0)).bind length_field
  · split
    · rw [Form.write, Bits.length_ofNat]
      exact (Store.appends_bit true).bind <| (Store.appends_bit false).bind <|
        length_field.bind label_field
    · rw [Form.write, Bits.length_ofNat]
      exact (Store.appends_bit false).bind <| (appends_ones length).bind <|
        (Store.appends_bit false).bind label_field

/-! ## Reading -/

theorem field_eq {count : ℕ} (le : count ≤ 64) : field count = toWord <$> Load.bits count := by
  unfold field Load.uint
  rw [if_pos le, bind_assoc, map_eq_pure_bind]
  apply bind_congr_of_ok
  intro slice bs rest taken
  rw [pure_bind, toWord, (Load.bits_ok_iff.1 taken).1]

theorem loadWord_eq {max : ℕ} (narrow : max ≤ 64) : loadWord max = toWord <$> load max := by
  unfold loadWord load
  -- Each length that is read is at most `max`, so that the bits it counts fit in a word.
  rw [map_bind]
  refine bind_congr fun first => ?_
  cases first with
  | false =>
    simp only [Bool.not_false, if_true, map_bind]
    refine bind_congr_of_ok fun _ n _ counted => field_eq ?_
    exact (ones_ok_iff.1 counted).1.trans narrow
  | true =>
    simp only [Bool.not_true, Bool.false_eq_true, if_false, map_bind]
    refine bind_congr fun second => ?_
    cases second with
    | false =>
      simp only [Bool.not_false, if_true, map_bind]
      refine bind_congr_of_ok fun _ n _ counted => field_eq ?_
      exact ((length_ok_iff narrow).1 counted).1.trans narrow
    | true =>
      simp only [Bool.not_true, Bool.false_eq_true, if_false, map_bind, map_pure]
      refine bind_congr fun bit => bind_congr_of_ok fun _ n _ counted => ?_
      rw [toWord_replicate (((length_ok_iff narrow).1 counted).1.trans narrow)]

/-! ## The codec -/

theorem length_write_ofNat {max length value : ℕ} (small : value < 2 ^ length) :
    (write max (.ofNat length value)).length =
      if 0 < length ∧ (value = 0 ∨ value = 2 ^ length - 1) then
        min (min (2 * length + 2) (2 + max.size + length)) (3 + max.size)
      else min (2 * length + 2) (2 + max.size + length) := by
  simp only [length_write, leastCost, Form.cost, uniform_ofNat_iff small, Bits.length_ofNat,
    Tlb.lengthWidth_eq_size]

/-- A label of at most `max` bits takes as many bits as the cheapest of its forms: repeating a bit
is one only where all bits are alike, and a length takes as many bits as `max` has.  A builder with
room for these accepts the label.  From them it is read back, whatever follows, and nothing else is
taken.  This holds of labels in words as of those in bit strings. -/
theorem cheapest_codec {max length : ℕ} {word : UInt64} (narrow : max ≤ 64) (le : length ≤ max)
    (small : word.toNat < 2 ^ length) :
    let plain := min (2 * length + 2) (2 + max.size + length)
    let label := Bits.ofNat length word.toNat
    ∃ written : Bits,
      written.length = (if 0 < length ∧ (word.toNat = 0 ∨ word.toNat = 2 ^ length - 1) then
        min plain (3 + max.size) else plain) ∧
      (∀ builder : Builder, builder.bits.length + written.length ≤ 1023 → ∃ result : Builder,
        storeWord max word length builder = .ok () result ∧
        store max label builder = .ok () result ∧
        result.bits = builder.bits ++ written ∧ result.refs = builder.refs) ∧
      ∀ (slice : Slice) (more : Bits), slice.bits = written ++ more → ∃ rest : Slice,
        loadWord max slice = .ok (word, length) rest ∧ load max slice = .ok label rest ∧
        rest.bits = more ∧ rest.refs = slice.refs := by
  intro plain label
  refine ⟨write max label, length_write_ofNat small, fun builder room => ?_,
    fun slice more starts => ?_⟩
  · have has_room : builder.HasRoom (write max label) [] := ⟨room, builder.refs_le⟩
    obtain ⟨result, extended⟩ := Builder.exists_extends_iff.2 ⟨has_room, depth_lt_of_mem_nil⟩
    refine ⟨result, (appends_storeWord narrow le small builder result).2 extended,
      (Store.appends_bits builder result).2 extended, extended.1, ?_⟩
    rw [extended.2, List.append_nil]
  · have label_le : label.length ≤ max := by rwa [Bits.length_ofNat]
    obtain ⟨rest, splits, rest_bits, rest_refs⟩ :=
      Slice.exists_splits starts (List.nil_append slice.refs).symm
    have loaded := load_of_spells narrow (spells_write label_le) splits
    have same : toWord label = (word, length) := by
      rw [toWord, Bits.toNat_ofNat, Nat.mod_eq_of_lt small, UInt64.ofNat_toNat, Bits.length_ofNat]
    refine ⟨rest, ?_, loaded, rest_bits, rest_refs⟩
    rw [loadWord_eq narrow]
    exact map_ok_iff.2 ⟨label, loaded, same⟩

/-- A whole word of ones takes ten bits, and the empty label where no bit is left takes two. -/
theorem cheapest_codec_ones : ∃ ones none : Bits, ones.length = 10 ∧ none.length = 2 ∧
    (∃ result : Builder, storeWord 64 (~~~0) 64 .empty = .ok () result ∧ result.bits = ones) ∧
    (∃ result : Builder, storeWord 0 0 0 .empty = .ok () result ∧ result.bits = none) ∧
    ∀ slice : Slice, slice.bits = ones ++ none → ∃ mid rest,
      loadWord 64 slice = .ok (~~~0, 64) mid ∧ loadWord 0 mid = .ok (0, 0) rest ∧
        rest.bits = [] := by
  obtain ⟨ones, ones_length, ones_stored, ones_loaded⟩ :=
    cheapest_codec (le_refl 64) (le_refl 64) (show (~~~0 : UInt64).toNat < 2 ^ 64 by decide)
  obtain ⟨none, none_length, none_stored, none_loaded⟩ :=
    cheapest_codec (Nat.zero_le 64) (le_refl 0) (show (0 : UInt64).toNat < 2 ^ 0 by decide)
  have seven : Nat.size 64 = 7 := by decide
  have ten : ones.length = 10 := ones_length.trans (by rw [seven]; decide)
  have two : none.length = 2 := none_length.trans (by rw [Nat.size_zero]; decide)
  refine ⟨ones, none, ten, two, ?_, ?_, fun slice starts => ?_⟩
  · obtain ⟨result, stored, -, bits_eq, -⟩ := ones_stored .empty (by rw [ten]; decide)
    exact ⟨result, stored, bits_eq⟩
  · obtain ⟨result, stored, -, bits_eq, -⟩ := none_stored .empty (by rw [two]; decide)
    exact ⟨result, stored, bits_eq⟩
  · obtain ⟨mid, first, -, mid_bits, -⟩ := ones_loaded slice none starts
    obtain ⟨rest, second, -, rest_bits, -⟩ :=
      none_loaded mid [] (mid_bits.trans (List.append_nil none).symm)
    exact ⟨mid, rest, first, second, rest_bits⟩

end Label

end WalletWire
