import WalletWire.Bits
import Mathlib

/-!
# Bit strings, numbers and bytes

The laws of the conversions of bit strings.  `toNat_ofNat` and `ofNat_toNat` say that a number of
`width` bits and a bit string of that length are the same thing, and `ofBytes_toBytes` says so of
bytes.
-/

namespace WalletWire.Bits

/-! ## Numbers -/

theorem toNat_append (as bs : Bits) :
    toNat (as ++ bs) = toNat as * 2 ^ bs.length + toNat bs := by
  have shift : ∀ (bs : Bits) (n : ℕ), bs.foldl (fun n bit => 2 * n + bit.toNat) n =
      n * 2 ^ bs.length + bs.foldl (fun n bit => 2 * n + bit.toNat) 0 := by
    intro bs
    induction bs with
    | nil => intro n; simp
    | cons b bs ih =>
      intro n
      rw [List.foldl_cons, ih, List.foldl_cons, ih (2 * 0 + b.toNat), List.length_cons]
      ring
  rw [toNat, List.foldl_append, shift]
  rfl

theorem toNat_cons (b : Bool) (bs : Bits) :
    toNat (b :: bs) = b.toNat * 2 ^ bs.length + toNat bs := by
  have := toNat_append [b] bs
  simpa [toNat] using this

theorem toNat_lt (bs : Bits) : toNat bs < 2 ^ bs.length := by
  induction bs with
  | nil => decide
  | cons b bs ih =>
    rw [toNat_cons, List.length_cons, pow_succ]
    cases b <;> simp only [Bool.toNat_false, Bool.toNat_true] <;> omega

theorem toNat_replicate (n : ℕ) (bit : Bool) :
    toNat (List.replicate n bit) = if bit then 2 ^ n - 1 else 0 := by
  induction n with
  | zero => cases bit <;> rfl
  | succ n ih =>
    have pos := Nat.two_pow_pos n
    rw [List.replicate_succ, toNat_cons, ih, List.length_replicate, pow_succ]
    cases bit
    · simp
    · simp only [Bool.toNat_true, if_true]
      omega

theorem fits_iff (n width : ℕ) : fits n width = true ↔ n < 2 ^ width := by
  simp [fits, Nat.shiftRight_eq_div_pow, Nat.div_eq_zero_iff]

/-- Only the low bits of a number count. -/
theorem toNat_ofNat (width n : ℕ) : toNat (ofNat width n) = n % 2 ^ width := by
  induction width with
  | zero => simp [ofNat, toNat, Nat.mod_one]
  | succ width ih =>
    rw [ofNat, toNat_cons, ih, length_ofNat, Nat.toNat_testBit, Nat.mod_pow_succ]
    ring

/-- Numbers that agree in their low bits have the same low bits. -/
theorem ofNat_congr {width m n : ℕ} (h : m % 2 ^ width = n % 2 ^ width) :
    ofNat width m = ofNat width n := by
  induction width with
  | zero => rfl
  | succ width ih =>
    have bit : m.testBit width = n.testBit width := by
      have hm := Nat.testBit_mod_two_pow m (width + 1) width
      have hn := Nat.testBit_mod_two_pow n (width + 1) width
      simp only [Nat.lt_succ_self, decide_true, Bool.true_and] at hm hn
      rw [← hm, ← hn, h]
    have rest : m % 2 ^ width = n % 2 ^ width := by
      have hm := Nat.mod_mod_of_dvd m (pow_dvd_pow 2 (Nat.le_succ width))
      have hn := Nat.mod_mod_of_dvd n (pow_dvd_pow 2 (Nat.le_succ width))
      rw [← hm, ← hn, h]
    simp only [ofNat, bit, ih rest]

/-- A bit string is spelled again by its number and its length. -/
theorem ofNat_toNat (bs : Bits) : ofNat bs.length (toNat bs) = bs := by
  induction bs with
  | nil => rfl
  | cons b bs ih =>
    have small := toNat_lt bs
    have head : (toNat (b :: bs)).testBit bs.length = b := by
      have value : toNat (b :: bs) / 2 ^ bs.length = b.toNat := by
        rw [toNat_cons, mul_comm, Nat.mul_add_div (Nat.two_pow_pos _), Nat.div_eq_of_lt small,
          add_zero]
      rw [Nat.testBit_eq_decide_div_mod_eq, value]
      cases b <;> decide
    have tail : ofNat bs.length (toNat (b :: bs)) = ofNat bs.length (toNat bs) := by
      apply ofNat_congr
      rw [toNat_cons, mul_comm, Nat.mul_add_mod]
    simp only [List.length_cons, ofNat, head, tail, ih]

/-- A number that fits is spelled by one bit repeated just when it is the number of these bits. -/
theorem ofNat_eq_replicate_iff {n value : ℕ} {bit : Bool} (small : value < 2 ^ n) :
    ofNat n value = List.replicate n bit ↔ value = if bit then 2 ^ n - 1 else 0 := by
  rw [← toNat_replicate]
  constructor
  · intro same
    rw [← same, toNat_ofNat, Nat.mod_eq_of_lt small]
  · rintro rfl
    have spelled := ofNat_toNat (List.replicate n bit)
    rwa [List.length_replicate] at spelled

/-! ## Bytes -/

/-- Bytes read off a bit string spell that bit string again. -/
theorem ofBytes_toBytes (count : ℕ) (bs : Bits) (whole : bs.length = 8 * count) :
    ofBytes (toBytes count bs).toList = bs := by
  have piecewise : ∀ (count : ℕ) (bs : Bits), bs.length = 8 * count →
      ofBytes ((pieces 8 count bs).map fun piece => UInt8.ofNat (toNat piece)) = bs := by
    intro count
    induction count with
    | zero =>
      intro bs h
      simp only [Nat.mul_zero, List.length_eq_zero_iff] at h
      simp only [pieces, List.map_nil, ofBytes, List.flatMap_nil, h]
    | succ count ih =>
      intro bs h
      have front : (bs.take 8).length = 8 := by rw [List.length_take]; omega
      have small := toNat_lt (bs.take 8)
      have byte : (UInt8.ofNat (toNat (bs.take 8))).toNat = toNat (bs.take 8) := by
        rw [UInt8.toNat_ofNat']; rw [front] at small; omega
      have first : ofNat 8 (toNat (bs.take 8)) = bs.take 8 := by
        have := ofNat_toNat (bs.take 8)
        rwa [front] at this
      have rest := ih (bs.drop 8) (by rw [List.length_drop]; omega)
      simp only [pieces, List.map_cons, ofBytes, List.flatMap_cons, byte, first] at rest ⊢
      rw [rest, List.take_append_drop]
  simpa [toBytes] using piecewise count bs whole

end WalletWire.Bits
