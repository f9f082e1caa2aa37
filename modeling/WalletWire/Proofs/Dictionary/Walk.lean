import WalletWire.Proofs.Dictionary.Failure
import WalletWire.Proofs.Dictionary.Forks
import WalletWire.Proofs.Dictionary.Normal

/-!
# Walking a trie with a machine word

`Dictionary.walk` reads a dictionary the way a machine does: it goes down the cells of the trie with
the key bits so far in one word of 64 bits, shifts the bits on the way into it, and puts each value
into the dictionary when it gets there.  A walk would stop at a shift that loses a bit of the key.
None does (`Dictionary.lossless_walk`): the word always spells the path above the cell, which never
has more bits than are left for it, and the entries that were found are below this path.  So a new
key goes to the end, whatever labels follow, also when both sides of a fork are one cell.
-/

namespace WalletWire

open Program

namespace Dictionary

/-- What ends a walk early. -/
inductive Stop where
  /-- A cell cannot be read, or a key is there already. -/
  | refused (cause : Cell.Error)
  /-- A bit of the key is shifted out of the word. -/
  | lostBit
  deriving DecidableEq

/-- The word moved up, which is zero for a whole word or more.  Stops when a set bit gets lost. -/
def shift (word : UInt64) (count : ℕ) : Except Stop UInt64 :=
  let moved := if count < 64 then word <<< .ofNat count else 0
  if moved.toNat = word.toNat * 2 ^ count then .ok moved else .error .lostBit

/-- Puts the entries of a trie into a dictionary from left to right.  The key bits above the trie
are in a machine word, into which those on the way are shifted. -/
def walk (width : ℕ) (above : UInt64) (root : Cell) (found : Dictionary) :
    Except Stop Dictionary := do
  let (label, rest) ← (root.read do return (← Label.load width, ← get)).mapError .refused
  let key := (← shift above label.length) ||| .ofNat label.toNat
  if _more : label.length < width then
    let (zero, one) ← (rest.read Trie.branches).mapError .refused
    let front ← shift key 1
    let found ← walk (width - label.length - 1) front zero found
    walk (width - label.length - 1) (front ||| 1) one found
  else
    (found.insert key.toNat rest.toCell).mapError .refused
termination_by width

/-! ## The word -/

section Word

variable {word moved : UInt64} {path bits : Bits} {count : ℕ}

/-- As long as there is room for the bits, none is lost. -/
theorem shift_eq (spells : word.toNat = path.toNat) (room : path.length + count ≤ 64) :
    ∃ moved, shift word count = .ok moved ∧ moved.toNat = path.toNat * 2 ^ count := by
  have small : path.toNat * 2 ^ count < 2 ^ 64 :=
    calc path.toNat * 2 ^ count
        < 2 ^ path.length * 2 ^ count := Nat.mul_lt_mul_of_pos_right path.toNat_lt (by positivity)
      _ = 2 ^ (path.length + count) := (Nat.pow_add ..).symm
      _ ≤ 2 ^ 64 := Nat.pow_le_pow_right two_pos room
  have value : (if count < 64 then word <<< UInt64.ofNat count else 0).toNat =
      path.toNat * 2 ^ count := by
    by_cases part : count < 64
    · rw [if_pos part, UInt64.toNat_shiftLeft, spells, UInt64.toNat_ofNat',
        Nat.mod_eq_of_lt (by omega : count < 2 ^ 64), Nat.mod_eq_of_lt part, Nat.shiftLeft_eq,
        Nat.mod_eq_of_lt small]
    · -- A whole word is free only when nothing is in it.
      have none_above : path = [] := List.length_eq_zero_iff.1 (by omega)
      rw [if_neg part, none_above]
      simp [Bits.toNat]
  refine ⟨_, if_pos ?_, value⟩
  rw [value, spells]

theorem toNat_or_bits (spells : moved.toNat = path.toNat * 2 ^ bits.length)
    (room : bits.length ≤ 64) : (moved ||| .ofNat bits.toNat).toNat = (path ++ bits).toNat := by
  have small := bits.toNat_lt
  have fits : bits.toNat < 2 ^ 64 := small.trans_le (Nat.pow_le_pow_right two_pos room)
  rw [UInt64.toNat_or, spells, UInt64.toNat_ofNat', Nat.mod_eq_of_lt fits, Bits.toNat_append,
    mul_comm, Nat.two_pow_add_eq_or_of_lt small]

/-- Of the two ways on from a fork, one leaves the new bit clear and the other sets it. -/
theorem shift_one_eq (spells : word.toNat = path.toNat) (room : path.length + 1 ≤ 64) :
    ∃ front, shift word 1 = .ok front ∧ front.toNat = (path ++ [false]).toNat ∧
      (front ||| 1).toNat = (path ++ [true]).toNat := by
  obtain ⟨front, up, front_eq⟩ := shift_eq spells room
  refine ⟨front, up, ?_, toNat_or_bits front_eq (show [true].length ≤ 64 by decide)⟩
  rw [front_eq, Bits.toNat_append]
  rfl

end Word

end Dictionary

namespace Trie

/-- The entries of the trie when these bits stand above it. -/
def entriesUnder (path : Bits) (trie : Trie) : List (ℕ × Cell) :=
  trie.paths.map fun inner => ((path ++ inner.1).toNat, inner.2)

variable {width : ℕ} {path : Bits} {trie : Trie}

theorem entriesUnder_fork (path label : Bits) (zero one : Trie) :
    (fork label zero one).entriesUnder path =
      zero.entriesUnder (path ++ label ++ [false]) ++
        one.entriesUnder (path ++ label ++ [true]) := by
  unfold entriesUnder
  rw [paths, List.map_append, List.map_map, List.map_map]
  simp only [Function.comp_def, List.append_assoc, List.singleton_append]

theorem lt_of_mem_entriesUnder (fits : trie.Fits width) {entry : ℕ × Cell}
    (mem : entry ∈ trie.entriesUnder path) : entry.1 < (path.toNat + 1) * 2 ^ width := by
  obtain ⟨inner, held, rfl⟩ := List.mem_map.1 mem
  have small := inner.1.toNat_lt
  rw [fits.grows.length_eq held] at small
  show (path ++ inner.1).toNat < _
  rw [Bits.toNat_append, fits.grows.length_eq held, Nat.succ_mul]
  omega

theorem paths_ne_nil (trie : Trie) : trie.paths ≠ [] := by
  induction trie with
  | leaf label value => exact List.cons_ne_nil _ _
  | fork label zero one zero_ih one_ih =>
    rw [paths]
    simp [zero_ih]

end Trie

namespace Dictionary

/-- The walk ends like the reading of the trie: with its error, or with its entries behind those
that were there. -/
inductive Walked (path : Bits) (found : Dictionary) :
    Except Cell.Error Trie → Except Stop Dictionary → Prop where
  | refused {cause : Cell.Error} : Walked path found (.error cause) (.error (.refused cause))
  | ok {trie : Trie} {all : Dictionary}
      (entries : all.entries = found.entries ++ trie.entriesUnder path) :
      Walked path found (.ok trie) (.ok all)

namespace Walked

variable {path label : Bits} {found : Dictionary}

/-- A key that is above all others goes to the end. -/
theorem insert {key : UInt64} {value : Cell} (spells : key.toNat = (path ++ label).toNat)
    (below : ∀ entry ∈ found.entries, entry.1 < (path ++ label).toNat) :
    Walked path found (.ok (.leaf label value))
      ((found.insert key.toNat value).mapError .refused) := by
  rw [spells, insert_of_place (place_of_gt below)]
  exact .ok rfl

/-- The sides of a fork are walked one after the other. -/
theorem fork {zero? one? : Except Cell.Error Trie} {left : Except Stop Dictionary}
    {right : Dictionary → Except Stop Dictionary}
    (zero_walked : Walked (path ++ label ++ [false]) found zero? left)
    (one_walked : ∀ zero all, zero? = .ok zero →
      all.entries = found.entries ++ zero.entriesUnder (path ++ label ++ [false]) →
      Walked (path ++ label ++ [true]) all one? (right all)) :
    Walked path found (do return Trie.fork label (← zero?) (← one?)) (left >>= right) := by
  cases zero_walked with
  | refused => exact .refused
  | @ok zero middle zeros =>
    have one_walked := one_walked zero middle rfl zeros
    rw [Outcome.ok_bind, Outcome.ok_bind]
    generalize right middle = result at one_walked ⊢
    cases one_walked with
    | refused => exact .refused
    | ok ones =>
      refine .ok ?_
      rw [ones, zeros, Trie.entriesUnder_fork, List.append_assoc]

end Walked

/-! ## The walk -/

/-- All keys are below those on the paths through this one. -/
def Below (dictionary : Dictionary) (path : Bits) (width : ℕ) : Prop :=
  ∀ entry ∈ dictionary.entries, entry.1 < path.toNat * 2 ^ width

namespace Below

variable {width : ℕ} {path label : Bits} {found all : Dictionary} {zero : Trie}

/-- What is below a path is below all that goes on from it. -/
theorem append (below : found.Below path width) (le : label.length ≤ width) :
    found.Below (path ++ label) (width - label.length) := by
  intro entry mem
  have split : 2 ^ width = 2 ^ label.length * 2 ^ (width - label.length) := by
    rw [← Nat.pow_add, Nat.add_sub_cancel' le]
  calc entry.1
      < path.toNat * 2 ^ width := below entry mem
    _ = path.toNat * 2 ^ label.length * 2 ^ (width - label.length) := by rw [split, mul_assoc]
    _ ≤ (path ++ label).toNat * 2 ^ (width - label.length) := by
        rw [Bits.toNat_append]
        exact Nat.mul_le_mul_right _ (Nat.le_add_right _ _)

/-- What comes on the left of a fork is below all that is on its right. -/
theorem left_below_right (below : found.Below (path ++ [true]) width) (fits : zero.Fits width)
    (entries : all.entries = found.entries ++ zero.entriesUnder (path ++ [false])) :
    all.Below (path ++ [true]) width := by
  have next : (path ++ [false]).toNat + 1 = (path ++ [true]).toNat := by
    rw [Bits.toNat_append, Bits.toNat_append]
    rfl
  unfold Below
  rw [entries, List.forall_mem_append]
  refine ⟨below, fun entry mem => ?_⟩
  have lt := Trie.lt_of_mem_entriesUnder fits mem
  rwa [next] at lt

end Below

theorem walked {width : ℕ} {above : UInt64} {path : Bits} {found : Dictionary}
    (spells : above.toNat = path.toNat) (room : path.length + width ≤ 64)
    (below : found.Below path width) (root : Cell) :
    Walked path found (Trie.decode width root) (walk width above root found) := by
  -- Every fork takes at least one key bit.
  induction width using Nat.strong_induction_on generalizing above path found root with
  | _ width ih =>
    rw [walk, Trie.decode]
    cases read : root.read (do return (← Label.load width, ← get)) with
    | error cause => exact .refused
    | ok split =>
      obtain ⟨label, rest⟩ := split
      obtain ⟨spelled, label_spells, -⟩ := (Trie.readLabel_ok_iff (by omega)).1 read
      have label_le := label_spells.length_le
      obtain ⟨moved, shifted, moved_eq⟩ := shift_eq spells (show _ + label.length ≤ 64 by omega)
      have key_eq := toNat_or_bits moved_eq (by omega)
      have key_below := below.append label_le
      simp only [Except.mapError, Outcome.ok_bind, shifted]
      by_cases more : label.length < width
      · rw [dif_pos more, dif_pos more]
        cases branched : rest.read Trie.branches with
        | error cause => exact .refused
        | ok roots =>
          obtain ⟨zeroRoot, oneRoot⟩ := roots
          have longer : (path ++ label).length + 1 + (width - label.length - 1) ≤ 64 := by
            rw [List.length_append]
            omega
          obtain ⟨front, up, zero_eq, one_eq⟩ := shift_one_eq key_eq (by omega)
          simp only [Outcome.ok_bind, up]
          have less : width - label.length - 1 < width := by omega
          have fork_room (bit : Bool) :
              (path ++ label ++ [bit]).length + (width - label.length - 1) ≤ 64 := by
            rwa [List.length_append]
          have fork_below (bit : Bool) :
              found.Below (path ++ label ++ [bit]) (width - label.length - 1) :=
            key_below.append (show 1 ≤ width - label.length by omega)
          apply Walked.fork
          · exact ih _ less zero_eq (fork_room false) (fork_below false) zeroRoot
          · intro zero all zero_read entries
            have zero_fits := (Trie.derives_of_decode (by omega) zero_read).fits
            have right_below := (fork_below true).left_below_right zero_fits entries
            exact ih _ less one_eq (fork_room true) right_below oneRoot
      · rw [dif_neg more, dif_neg more]
        have full : width - label.length = 0 := by omega
        rw [full] at key_below
        apply Walked.insert key_eq
        simpa [Below] using key_below

/-- From no key bits and no entries, the walk reads the dictionary. -/
theorem walk_eq {width : ℕ} (width_ok : 1 ≤ width ∧ width ≤ 64) (root : Cell) :
    walk width 0 root .empty = (decode width root).mapError .refused := by
  have room : ([] : Bits).length + width ≤ 64 := by simpa using width_ok.2
  have none_found : empty.Below [] width := List.forall_mem_nil _
  have ends := walked (show UInt64.toNat 0 = Bits.toNat [] from rfl) room none_found root
  cases read : Trie.decode width root with
  | error cause =>
    have failed : decode width root = .error cause := by
      rw [decode, checkWidth_eq width_ok, Outcome.ok_bind, read]
      rfl
    rw [read] at ends
    rw [failed]
    generalize walk width 0 root .empty = result at ends ⊢
    cases ends
    rfl
  | ok trie =>
    have derives := Trie.derives_of_decode width_ok.2 read
    have built : decode width root = .ok ⟨trie.entries, derives.fits.grows.ascending⟩ :=
      decode_ok_iff_entries.2 ⟨width_ok, trie, derives, rfl⟩
    rw [read] at ends
    rw [built]
    generalize walk width 0 root .empty = result at ends ⊢
    cases ends with
    | ok entries => exact congrArg Except.ok (Dictionary.ext entries)

/-- The walk comes to the dictionary that is read, or to the same error, without losing a bit.  No
key is met twice; all keys fit, and there are as many as leaves on the paths of the trie, at least
one.  Nothing is refused but for errors of reading. -/
theorem lossless_walk {width : ℕ} (width_ok : 1 ≤ width ∧ width ≤ 64) (root : Cell) :
    walk width 0 root .empty = (decode width root).mapError .refused ∧
    (∀ key, decode width root ≠ .error (.duplicateKey key)) ∧
    (∀ dictionary, decode width root = .ok dictionary →
      dictionary.entries ≠ [] ∧ (∀ key ∈ dictionary.keys, key < 2 ^ width) ∧
      ∃ trie, Trie.Derives width root trie ∧
        dictionary.entries.length = trie.leaves.length) ∧
    Outcome.FailsOnly (decode width root) Cell.Error.OfReading := by
  have fails := failsOnly_decode width_ok root
  refine ⟨walk_eq width_ok root, fun key failed => ?_, fun dictionary read => ?_, fails⟩
  · cases fails _ failed
  · obtain ⟨-, trie, derives, entries⟩ := decode_ok_iff_entries.1 read
    have count : dictionary.entries.length = trie.leaves.length := by
      rw [entries, trie.length_leaves, Trie.entries, List.length_map]
    refine ⟨?_, ?_, trie, derives, count⟩
    · rw [entries]
      simpa [Trie.entries] using trie.paths_ne_nil
    · unfold keys
      rw [entries, List.forall_mem_map]
      exact fun entry => derives.fits.grows.key_lt

theorem not_derives_empty {width : ℕ} {trie : Trie} : ¬ Trie.Derives width .empty trie := by
  intro derives
  have written {spelled label more : Bits} (spells : Label.Spells width spelled label) :
      Cell.empty.bits ≠ spelled ++ more := by
    show [] ≠ _
    cases spells <;> simp
  cases derives with
  | leaf spells _ held => exact written spells held.bits_eq
  | fork spells _ held => exact written spells (held.bits_eq.trans (List.append_nil _).symm)

/-- A leaf with 63 ones for its label, and nothing in it. -/
def onesLeaf : Cell :=
  .ofContent { Content.empty with bits := .replicate 9 true, bits_le := by decide }

/-- A fork under an empty label in the long form, over one and the same leaf on both sides. -/
def twinFork : Cell :=
  .ofContent ⟨true :: .replicate 8 false, [onesLeaf, onesLeaf], by decide, by decide, by decide⟩

theorem derives_twinFork : ∃ ones, Trie.Derives 64 twinFork
    (.fork [] (.leaf ones .empty) (.leaf ones .empty)) := by
  have none_left : Cell.empty.refs = [] := Cell.refs_ofContent _
  have ones : Label.Spells 63 (.replicate 9 true) (.replicate 63 true) :=
    Label.Spells.same true (le_refl 63)
  have none : Label.Spells 64 (true :: .replicate 8 false) [] :=
    @Label.Spells.long 64 [] (Nat.zero_le 64)
  have leaf : Trie.Derives 63 onesLeaf (.leaf (.replicate 63 true) .empty) :=
    .leaf ones List.length_replicate ⟨rfl, (Cell.refs_ofContent _).trans none_left.symm⟩
  exact ⟨_, .fork none (by decide) ⟨rfl, Cell.refs_ofContent _⟩ leaf leaf⟩

/-- A leaf that is met twice gives two keys, which take all 64 bits.  The cell of nothing is no
trie. -/
theorem lossless_walk_twinFork : (∃ dictionary, decode 64 twinFork = .ok dictionary ∧
      walk 64 0 twinFork .empty = .ok dictionary ∧ dictionary.entries.length = 2) ∧
    ∃ e, walk 64 0 .empty .empty = .error (.refused e) ∧ e.OfReading := by
  have width_ok : 1 ≤ 64 ∧ 64 ≤ 64 := by decide
  constructor
  · obtain ⟨ones, derives⟩ := derives_twinFork
    obtain ⟨dictionary, read⟩ : ∃ dictionary, decode 64 twinFork = .ok dictionary :=
      ⟨⟨_, derives.fits.grows.ascending⟩, decode_ok_iff_entries.2 ⟨width_ok, _, derives, rfl⟩⟩
    obtain ⟨same, -, accepted, -⟩ := lossless_walk width_ok twinFork
    obtain ⟨-, -, trie, again, count⟩ := accepted dictionary read
    obtain rfl := derives.unique width_ok.2 again
    rw [read] at same
    exact ⟨dictionary, read, same, count⟩
  · obtain ⟨same, -, accepted, fails⟩ := lossless_walk width_ok .empty
    cases outcome : decode 64 .empty with
    | error e =>
      rw [outcome] at same
      exact ⟨e, same, fails e outcome⟩
    | ok dictionary =>
      obtain ⟨-, -, trie, derives, -⟩ := accepted dictionary outcome
      exact absurd derives not_derives_empty

end Dictionary

end WalletWire
