import WalletWire.Proofs.Cell.Failure
import WalletWire.Proofs.Dictionary.Paths

/-!
# What reading a dictionary fails for

A dictionary is refused only for errors of reading (`Load.failsOnly_dictionary`).  Widths and keys
give no others: labels are never so wide that a number could not hold their length, and a trie that
is read has no key twice, as its keys ascend from left to right.
-/

namespace WalletWire

open Program

/-! ## Labels -/

namespace Label

theorem failsOnly_ones (max room : ℕ) : FailsOnly (ones max room) Cell.Error.OfReading := by
  induction room with
  | zero =>
    refine Load.failsOnly_bit.bind fun bit => ?_
    cases bit with
    | false => exact failsOnly_pure _
    | true => exact failsOnly_throw (.invalidLabel (Nat.lt_succ_self max))
  | succ room ih =>
    refine Load.failsOnly_bit.bind fun bit => ?_
    cases bit with
    | false => exact failsOnly_pure _
    | true => exact ih.bind fun _ => failsOnly_pure _

variable {max : ℕ} (narrow : max ≤ 64)

include narrow

theorem failsOnly_length : FailsOnly (length max) Cell.Error.OfReading := by
  have width := lengthWidth_le narrow
  refine (Load.failsOnly_uint (by omega)).bind fun n => ?_
  by_cases le : n ≤ max
  · rw [if_pos le]
    exact failsOnly_pure _
  · rw [if_neg le]
    exact failsOnly_throw (.invalidLabel (Nat.lt_of_not_le le))

theorem failsOnly_load : FailsOnly (load max) Cell.Error.OfReading := by
  refine Load.failsOnly_bit.bind fun first => ?_
  cases first with
  | false => exact (failsOnly_ones max max).bind fun _ => Load.failsOnly_bits _
  | true =>
    refine Load.failsOnly_bit.bind fun second => ?_
    cases second with
    | false => exact (failsOnly_length narrow).bind fun _ => Load.failsOnly_bits _
    | true =>
      exact Load.failsOnly_bit.bind fun _ => (failsOnly_length narrow).bind fun _ =>
        failsOnly_pure _

end Label

/-! ## Tries -/

namespace Trie

theorem failsOnly_branches : FailsOnly branches Cell.Error.OfReading :=
  Load.failsOnly_ref.bind fun _ => Load.failsOnly_ref.bind fun _ =>
    Load.failsOnly_finish.bind fun _ => failsOnly_pure _

theorem failsOnly_readLabel {width : ℕ} (narrow : width ≤ 64) :
    FailsOnly (do return (← Label.load width, ← get)) Cell.Error.OfReading :=
  (Label.failsOnly_load narrow).bind fun _ => failsOnly_get.bind fun _ => failsOnly_pure _

theorem failsOnly_decode {width : ℕ} (narrow : width ≤ 64) (root : Cell) :
    Outcome.FailsOnly (decode width root) Cell.Error.OfReading := by
  -- Every fork takes at least one key bit.
  induction width using Nat.strong_induction_on generalizing root with
  | _ width ih =>
    have below {next : ℕ} (less : next < width) (cell : Cell) :
        Outcome.FailsOnly (decode next cell) Cell.Error.OfReading :=
      ih next less (by omega) cell
    rw [decode]
    refine (Cell.failsOnly_read (failsOnly_readLabel narrow) root).bind fun read => ?_
    obtain ⟨label, rest⟩ := read
    dsimp only
    by_cases more : label.length < width
    · rw [dif_pos more]
      exact (Slice.failsOnly_read failsOnly_branches rest).bind fun _ =>
        (below (by omega) _).bind fun _ => (below (by omega) _).bind fun _ =>
        Outcome.failsOnly_ok _
    · rw [dif_neg more]
      exact Outcome.failsOnly_ok _

end Trie

/-! ## Dictionaries -/

namespace Dictionary

variable {width : ℕ} (width_ok : 1 ≤ width ∧ width ≤ 64)

include width_ok

theorem checkWidth_eq : checkWidth width = .ok () := if_pos width_ok

theorem failsOnly_decode (root : Cell) :
    Outcome.FailsOnly (decode width root) Cell.Error.OfReading := by
  intro e failed
  unfold decode at failed
  rw [checkWidth_eq width_ok, Outcome.ok_bind] at failed
  obtain failed | ⟨trie, read, failed⟩ := Outcome.bind_error_iff.1 failed
  · exact Trie.failsOnly_decode width_ok.2 root e failed
  · have derives := Trie.derives_of_decode width_ok.2 read
    have collected := ofEntries_entries ⟨trie.entries, derives.fits.grows.ascending⟩
    cases failed.symm.trans collected

end Dictionary

theorem Load.failsOnly_dictionary {width : ℕ} (width_ok : 1 ≤ width ∧ width ≤ 64) :
    FailsOnly (Load.dictionary width) Cell.Error.OfReading := by
  unfold Load.dictionary
  rw [Dictionary.checkWidth_eq width_ok]
  refine (Outcome.failsOnly_ok ()).ofExcept.bind fun _ => failsOnly_bit.bind fun marked => ?_
  cases marked with
  | false => exact failsOnly_pure _
  | true =>
    exact failsOnly_ref.bind fun root => (Dictionary.failsOnly_decode width_ok root).ofExcept

end WalletWire
