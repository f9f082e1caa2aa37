import WalletWire.Bits.Lemmas
import WalletWire.Dictionary.Hashmap
import WalletWire.Proofs.Dictionary.Trie

/-!
# The entries of a trie

The trie of an ascending list of entries has one path for each of them, which spells the low bits of
its key, and the paths come in the order of the list (`paths_ofEntries`).  So a dictionary is found
again in its trie (`decode_of_encode`).
-/

namespace WalletWire.Trie

/-- The paths of a trie that need not be there. -/
def pathsOf : Option Trie → List (Bits × Cell)
  | none => []
  | some trie => trie.paths

theorem paths_prepend (bit : Bool) (trie : Trie) :
    (trie.prepend bit).paths = trie.paths.map fun path => (bit :: path.1, path.2) := by
  cases trie with
  | leaf label value => rfl
  | fork label zero one => simp [prepend, paths, Function.comp_def]

theorem pathsOf_join (zero one : Option Trie) : pathsOf (join zero one) =
    ((pathsOf zero).map fun path => (false :: path.1, path.2)) ++
      (pathsOf one).map fun path => (true :: path.1, path.2) := by
  cases zero <;> cases one <;> simp [join, pathsOf, paths, paths_prepend]

theorem ofEntries_succ (width : ℕ) (entries : List (ℕ × Cell)) : ofEntries (width + 1) entries =
    join (ofEntries width (entries.filter fun entry => !entry.1.testBit width))
      (ofEntries width (entries.filter fun entry => entry.1.testBit width)) := by
  cases entries with
  | nil => simp [ofEntries, join]
  | cons entry entries =>
    rw [ofEntries]
    simp

/-! ## Keys by their low bits -/

section LowBits

variable {width : ℕ}

theorem mod_two_pow_succ (n : ℕ) :
    n % 2 ^ (width + 1) = n % 2 ^ width + 2 ^ width * (n.testBit width).toNat := by
  rw [Nat.mod_pow_succ, Nat.toNat_testBit]

theorem testBit_of_mod_lt {m n : ℕ} (lt : m % 2 ^ (width + 1) < n % 2 ^ (width + 1))
    (hm : m.testBit width = true) : n.testBit width = true := by
  by_contra hn
  have small := Nat.mod_lt n (Nat.two_pow_pos width)
  rw [mod_two_pow_succ, mod_two_pow_succ n, hm, Bool.eq_false_of_not_eq_true hn] at lt
  simp only [Bool.toNat_true, Bool.toNat_false] at lt
  omega

theorem mod_lt_of_testBit_eq {m n : ℕ} (lt : m % 2 ^ (width + 1) < n % 2 ^ (width + 1))
    (same : m.testBit width = n.testBit width) : m % 2 ^ width < n % 2 ^ width := by
  rw [mod_two_pow_succ, mod_two_pow_succ n, same] at lt
  omega

/-- The keys ascend in their low `width` bits. -/
def Ascends (width : ℕ) (entries : List (ℕ × Cell)) : Prop :=
  entries.Pairwise fun e f => e.1 % 2 ^ width < f.1 % 2 ^ width

variable {entries : List (ℕ × Cell)}

/-- In ascending order, the keys without the bit come before those with it. -/
theorem Ascends.filter_append_filter (ascends : Ascends (width + 1) entries) :
    (entries.filter fun entry => !entry.1.testBit width) ++
      (entries.filter fun entry => entry.1.testBit width) = entries := by
  induction entries with
  | nil => rfl
  | cons first others ih =>
    obtain ⟨above, others_ascend⟩ := List.pairwise_cons.1 ascends
    by_cases bit : first.1.testBit width = true
    · -- From the first key with the bit on, all have it.
      have all : ∀ entry ∈ first :: others, entry.1.testBit width = true := by
        intro entry mem
        rcases List.mem_cons.1 mem with rfl | mem
        · exact bit
        · exact testBit_of_mod_lt (above entry mem) bit
      have no_zeros : (first :: others).filter (fun entry => !entry.1.testBit width) = [] := by
        rw [List.filter_eq_nil_iff]
        intro entry mem
        simp [all entry mem]
      rw [no_zeros, List.nil_append, List.filter_eq_self]
      exact all
    · have rest := ih others_ascend
      simp only [List.filter_cons, bit, Bool.not_false, if_true, Bool.false_eq_true, if_false,
        List.cons_append, rest]

/-- No two keys ascend in no bits. -/
theorem Ascends.nil_or_singleton (ascends : Ascends 0 entries) :
    entries = [] ∨ ∃ entry, entries = [entry] := by
  cases entries with
  | nil => exact .inl rfl
  | cons entry others =>
    cases others with
    | nil => exact .inr ⟨entry, rfl⟩
    | cons next others =>
      have lt := (List.pairwise_cons.1 ascends).1 next (List.mem_cons_self ..)
      simp [Nat.mod_one] at lt

/-- Keys that agree in the leading bit ascend in the other bits. -/
theorem Ascends.of_agree {bit : Bool} (ascends : Ascends (width + 1) entries)
    (agree : ∀ entry ∈ entries, entry.1.testBit width = bit) : Ascends width entries := by
  refine List.Pairwise.imp_of_mem ?_ ascends
  intro e f he hf lt
  exact mod_lt_of_testBit_eq lt ((agree e he).trans (agree f hf).symm)

theorem Ascends.filter_testBit (ascends : Ascends (width + 1) entries) (p : ℕ × Cell → Bool)
    (bit : Bool) (by_bit : ∀ entry, p entry = true → entry.1.testBit width = bit) :
    Ascends width (entries.filter p) := by
  have ascending : Ascends (width + 1) (entries.filter p) := List.Pairwise.filter p ascends
  exact ascending.of_agree fun entry mem => by_bit entry (List.mem_filter.1 mem).2

end LowBits

/-! ## Paths -/

theorem paths_ofEntries {width : ℕ} {entries : List (ℕ × Cell)} (ascends : Ascends width entries) :
    pathsOf (ofEntries width entries) =
      entries.map fun entry => (Bits.ofNat width entry.1, entry.2) := by
  induction width generalizing entries with
  | zero => obtain rfl | ⟨entry, rfl⟩ := ascends.nil_or_singleton <;> rfl
  | succ width ih =>
    have zeros := ascends.filter_testBit (fun entry => !entry.1.testBit width) false
      (by simp)
    have ones := ascends.filter_testBit (fun entry => entry.1.testBit width) true (by simp)
    rw [ofEntries_succ, pathsOf_join, ih zeros, ih ones]
    conv_rhs => rw [← ascends.filter_append_filter, List.map_append]
    rw [List.map_map, List.map_map]
    congr 1
    · refine List.map_congr_left fun entry mem => ?_
      have bit : entry.1.testBit width = false := by simpa using (List.mem_filter.1 mem).2
      simp only [Function.comp_apply, Bits.ofNat, bit]
    · refine List.map_congr_left fun entry mem => ?_
      have bit : entry.1.testBit width = true := (List.mem_filter.1 mem).2
      simp only [Function.comp_apply, Bits.ofNat, bit]

theorem paths_of_ofEntries {width : ℕ} {entries : List (ℕ × Cell)} {trie : Trie}
    (ascends : Ascends width entries) (built : ofEntries width entries = some trie) :
    trie.paths = entries.map fun entry => (Bits.ofNat width entry.1, entry.2) := by
  rw [← paths_ofEntries ascends, built]
  rfl

theorem Fits.prepend {width : ℕ} {trie : Trie} (fits : trie.Fits width) (bit : Bool) :
    (trie.prepend bit).Fits (width + 1) := by
  cases trie with
  | leaf label value =>
    have full : label.length = width := fits
    show label.length + 1 = width + 1
    rw [full]
  | fork label zero one =>
    obtain ⟨more, zero_fits, one_fits⟩ := fits
    refine ⟨Nat.succ_lt_succ more, ?_, ?_⟩
    · rwa [List.length_cons, Nat.add_sub_add_right]
    · rwa [List.length_cons, Nat.add_sub_add_right]

theorem fits_of_join {width : ℕ} {zero one : Option Trie} {trie : Trie}
    (h : join zero one = some trie) (zero_fits : ∀ t, zero = some t → t.Fits width)
    (one_fits : ∀ t, one = some t → t.Fits width) : trie.Fits (width + 1) := by
  cases zero with
  | none =>
    cases one with
    | none => cases h
    | some o =>
      cases h
      exact (one_fits o rfl).prepend true
  | some z =>
    cases one with
    | none =>
      cases h
      exact (zero_fits z rfl).prepend false
    | some o =>
      cases h
      exact ⟨Nat.succ_pos _, zero_fits z rfl, one_fits o rfl⟩

theorem fits_ofEntries {width : ℕ} {entries : List (ℕ × Cell)} {trie : Trie}
    (h : ofEntries width entries = some trie) : trie.Fits width := by
  induction width generalizing entries trie with
  | zero =>
    cases entries with
    | nil => cases h
    | cons entry others =>
      cases h
      rfl
  | succ width ih =>
    rw [ofEntries_succ] at h
    exact fits_of_join h (fun _ => ih) fun _ => ih

end WalletWire.Trie
