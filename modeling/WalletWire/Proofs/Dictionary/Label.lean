import WalletWire.Dictionary.Label
import WalletWire.Proofs.Cell.Writing

/-!
# The grammar of labels

`Label.Spells max bits label` is the grammar of labels of at most `max` bits, in any of the three
forms.  Reading a label accepts exactly what the grammar derives (`load_ok_iff`), and the form that
is chosen for writing is one of those (`spells_write`).
-/

namespace WalletWire.Label

open Program

/-- The bits are a spelling of the label in one of the three forms. -/
inductive Spells (max : ℕ) : (bits label : Bits) → Prop where
  | short {label : Bits} (le : label.length ≤ max) :
      Spells max (false :: (List.replicate label.length true ++ false :: label)) label
  | long {label : Bits} (le : label.length ≤ max) :
      Spells max (true :: false :: (Bits.ofNat (lengthWidth max) label.length ++ label)) label
  | same (bit : Bool) {count : ℕ} (le : count ≤ max) :
      Spells max (true :: true :: bit :: Bits.ofNat (lengthWidth max) count)
        (List.replicate count bit)

theorem Spells.length_le {max : ℕ} {bits label : Bits} (h : Spells max bits label) :
    label.length ≤ max := by
  cases h with
  | short le => exact le
  | long le => exact le
  | same bit le => rwa [List.length_replicate]

/-! ## The width of lengths -/

theorem lt_two_pow_lengthWidth {max n : ℕ} (le : n ≤ max) : n < 2 ^ lengthWidth max := by
  unfold lengthWidth
  split
  · omega
  · exact Nat.lt_of_le_of_lt le Nat.lt_log2_self

theorem lengthWidth_le {max : ℕ} (narrow : max ≤ 64) : lengthWidth max ≤ 7 := by
  unfold lengthWidth
  split
  · decide
  · next pos => exact (Nat.log2_lt pos).2 (by omega)

/-! ## Writing -/

theorem eq_replicate_of_uniform {label : Bits} (h : uniform label = true) :
    label = List.replicate label.length (label.headD false) := by
  cases label with
  | nil => rfl
  | cons bit bits =>
    simp only [uniform, List.all_eq_true, beq_iff_eq] at h
    refine List.eq_replicate_iff.2 ⟨rfl, ?_⟩
    intro b mem
    rcases List.mem_cons.1 mem with rfl | mem
    · rfl
    · exact h b mem

theorem form_eq_same {max : ℕ} {label : Bits} (h : form max label = .same) :
    uniform label = true := by
  unfold form at h
  dsimp only at h
  split at h
  · next chosen =>
    simp only [Bool.and_eq_true] at chosen
    exact chosen.1.1
  · split at h <;> cases h

theorem spells_write {max : ℕ} {label : Bits} (le : label.length ≤ max) :
    Spells max (write max label) label := by
  unfold write
  cases chosen : form max label with
  | short => exact .short le
  | long => exact .long le
  | same =>
    have spelled := Spells.same (label.headD false) le
    rwa [← eq_replicate_of_uniform (form_eq_same chosen)] at spelled

/-! ## Reading -/

variable {slice rest : Slice}

/-- At most `room` ones and a zero. -/
theorem ones_ok_iff {max room n : ℕ} : ones max room slice = .ok n rest ↔
    n ≤ room ∧ slice.Splits (List.replicate n true ++ [false]) [] rest := by
  induction room generalizing slice n rest with
  | zero =>
    simp only [ones, bind_ok_iff, Load.bit_ok_iff]
    constructor
    · rintro ⟨b, mid, h, done⟩
      cases b with
      | false =>
        obtain ⟨rfl, rfl⟩ := pure_ok_iff.1 done
        exact ⟨le_rfl, h⟩
      | true => exact (throw_ok_iff.1 done).elim
    · rintro ⟨le, h⟩
      obtain rfl : n = 0 := by omega
      exact ⟨false, rest, h, pure_ok_iff.2 ⟨rfl, rfl⟩⟩
  | succ room ih =>
    simp only [ones, bind_ok_iff, Load.bit_ok_iff]
    constructor
    · rintro ⟨b, mid, h, done⟩
      cases b with
      | false =>
        obtain ⟨rfl, rfl⟩ := pure_ok_iff.1 done
        exact ⟨Nat.zero_le _, h⟩
      | true =>
        simp only [if_true, bind_ok_iff, pure_ok_iff, ih] at done
        obtain ⟨n, _, ⟨le, h'⟩, rfl, rfl⟩ := done
        exact ⟨Nat.succ_le_succ le, h.append h'⟩
    · rintro ⟨le, h⟩
      cases n with
      | zero => exact ⟨false, rest, h, pure_ok_iff.2 ⟨rfl, rfl⟩⟩
      | succ n =>
        obtain ⟨mid, h, h'⟩ := Slice.splits_bit_iff.1 h
        refine ⟨true, mid, h, ?_⟩
        simp only [if_true, bind_ok_iff, pure_ok_iff, ih]
        exact ⟨n, rest, ⟨Nat.le_of_succ_le_succ le, h'⟩, rfl, rfl⟩

variable {max : ℕ} (narrow : max ≤ 64)

include narrow

theorem length_ok_iff {n : ℕ} : length max slice = .ok n rest ↔
    n ≤ max ∧ slice.Splits (Bits.ofNat (lengthWidth max) n) [] rest := by
  have width := lengthWidth_le narrow
  simp only [length, bind_ok_iff, Load.uint_ok_iff]
  constructor
  · rintro ⟨m, mid, ⟨-, -, h⟩, done⟩
    split at done
    · next le =>
      obtain ⟨rfl, rfl⟩ := pure_ok_iff.1 done
      exact ⟨le, h⟩
    · exact (throw_ok_iff.1 done).elim
  · rintro ⟨le, h⟩
    refine ⟨n, rest, ⟨by omega, lt_two_pow_lengthWidth le, h⟩, ?_⟩
    rw [if_pos le]
    exact pure_ok_iff.2 ⟨rfl, rfl⟩

theorem spells_of_load {label : Bits} (h : load max slice = .ok label rest) :
    ∃ bits, Spells max bits label ∧ slice.Splits bits [] rest := by
  simp only [load, bind_ok_iff, Load.bit_ok_iff] at h
  obtain ⟨first, s₁, h₁, h⟩ := h
  cases first with
  | false =>
    simp only [Bool.not_false, if_true, bind_ok_iff, ones_ok_iff, Load.bits_ok_iff] at h
    obtain ⟨n, s₂, ⟨le, h₂⟩, rfl, h₃⟩ := h
    refine ⟨_, .short le, ?_⟩
    have spelled := h₁.append (h₂.append h₃)
    rwa [List.append_assoc] at spelled
  | true =>
    simp only [Bool.not_true, Bool.false_eq_true, if_false, bind_ok_iff, Load.bit_ok_iff] at h
    obtain ⟨second, s₂, h₂, h⟩ := h
    cases second with
    | false =>
      simp only [Bool.not_false, if_true, bind_ok_iff, length_ok_iff narrow,
        Load.bits_ok_iff] at h
      obtain ⟨n, s₃, ⟨le, h₃⟩, rfl, h₄⟩ := h
      exact ⟨_, .long le, h₁.append (h₂.append (h₃.append h₄))⟩
    | true =>
      simp only [Bool.not_true, Bool.false_eq_true, if_false, bind_ok_iff, Load.bit_ok_iff,
        length_ok_iff narrow, pure_ok_iff] at h
      obtain ⟨bit, s₃, h₃, n, s₄, ⟨le, h₄⟩, rfl, rfl⟩ := h
      exact ⟨_, .same bit le, h₁.append (h₂.append (h₃.append h₄))⟩

theorem load_of_spells {bits label : Bits} (spelled : Spells max bits label)
    (h : slice.Splits bits [] rest) : load max slice = .ok label rest := by
  simp only [load, bind_ok_iff, Load.bit_ok_iff]
  cases spelled with
  | short le =>
    obtain ⟨s₁, h₁, h⟩ := Slice.splits_bit_iff.1 h
    rw [List.append_cons] at h
    obtain ⟨s₂, h₂, h₃⟩ := Slice.splits_bits_iff.1 h
    refine ⟨false, s₁, h₁, ?_⟩
    simp only [Bool.not_false, if_true, bind_ok_iff, ones_ok_iff, Load.bits_ok_iff]
    exact ⟨label.length, s₂, ⟨le, h₂⟩, rfl, h₃⟩
  | long le =>
    obtain ⟨s₁, h₁, h⟩ := Slice.splits_bit_iff.1 h
    obtain ⟨s₂, h₂, h⟩ := Slice.splits_bit_iff.1 h
    obtain ⟨s₃, h₃, h₄⟩ := Slice.splits_bits_iff.1 h
    refine ⟨true, s₁, h₁, ?_⟩
    simp only [Bool.not_true, Bool.false_eq_true, if_false, bind_ok_iff, Load.bit_ok_iff]
    refine ⟨false, s₂, h₂, ?_⟩
    simp only [Bool.not_false, if_true, bind_ok_iff, length_ok_iff narrow, Load.bits_ok_iff]
    exact ⟨label.length, s₃, ⟨le, h₃⟩, rfl, h₄⟩
  | same bit le =>
    obtain ⟨s₁, h₁, h⟩ := Slice.splits_bit_iff.1 h
    obtain ⟨s₂, h₂, h⟩ := Slice.splits_bit_iff.1 h
    obtain ⟨s₃, h₃, h₄⟩ := Slice.splits_bit_iff.1 h
    refine ⟨true, s₁, h₁, ?_⟩
    simp only [Bool.not_true, Bool.false_eq_true, if_false, bind_ok_iff, Load.bit_ok_iff]
    refine ⟨true, s₂, h₂, ?_⟩
    simp only [Bool.not_true, Bool.false_eq_true, if_false, bind_ok_iff, Load.bit_ok_iff,
      length_ok_iff narrow, pure_ok_iff]
    exact ⟨bit, s₃, h₃, _, rest, ⟨le, h₄⟩, rfl, rfl⟩

/-- Reading a label accepts its spellings. -/
theorem load_ok_iff {label : Bits} : load max slice = .ok label rest ↔
    ∃ bits, Spells max bits label ∧ slice.Splits bits [] rest := by
  constructor
  · exact spells_of_load narrow
  · rintro ⟨bits, spelled, h⟩
    exact load_of_spells narrow spelled h

end WalletWire.Label
