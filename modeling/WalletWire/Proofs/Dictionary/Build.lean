import WalletWire.Proofs.Dictionary.Walk
import WalletWire.Proofs.Dictionary.Word

/-!
# Building a trie with machine words

`Dictionary.root` builds the trie of a dictionary the way a machine does, from keys in words of 64
bits.  What the first and the last of some ascending keys have in common all keys between them have,
so the label of an edge is found from these two: they part at the highest bit that is set in their
exclusive or (`Dictionary.exists_prefixLength`).  The keys without this bit come first, and where
they end is found by halving (`partitionPoint_append`).  No count on the way goes below zero, and no
side of a fork is empty.  So the cells are those of the trie that is split bit by bit
(`Dictionary.root_eq_encode`), and the walk through them comes back to the dictionary
(`Dictionary.walk_of_root`).
-/

namespace WalletWire

open Program

/-! ## Search -/

section Search

variable {α : Type}

/-- The first place from `low` on, and before `high`, where a test fails, found by halving.  The
test must not succeed again behind it. -/
def partitionPoint (test : α → Bool) (xs : List α) (low high : ℕ) : ℕ :=
  if _open : low < high then
    let mid := low + (high - low) / 2
    if xs[mid]?.any test then partitionPoint test xs (mid + 1) high
    else partitionPoint test xs low mid
  else low
termination_by high - low

variable {test : α → Bool} {front back : List α}

/-- The test tells which part an element is from. -/
theorem any_getElem?_append (holds : ∀ x ∈ front, test x = true)
    (fails : ∀ x ∈ back, test x = false) {i : ℕ} (inside : i < (front ++ back).length) :
    (front ++ back)[i]?.any test = decide (i < front.length) := by
  by_cases before : i < front.length
  · rw [List.getElem?_append_left before, List.getElem?_eq_getElem before, Option.any_some,
      holds _ (List.getElem_mem before), decide_eq_true before]
  · rw [List.length_append] at inside
    have behind : i - front.length < back.length := by omega
    rw [List.getElem?_append_right (by omega), List.getElem?_eq_getElem behind, Option.any_some,
      fails _ (List.getElem_mem behind), decide_eq_false before]

theorem partitionPoint_append (holds : ∀ x ∈ front, test x = true)
    (fails : ∀ x ∈ back, test x = false) {low high : ℕ} (low_le : low ≤ front.length)
    (le_high : front.length ≤ high) (inside : high ≤ (front ++ back).length) :
    partitionPoint test (front ++ back) low high = front.length := by
  have tells {i : ℕ} (lt : i < high) := any_getElem?_append holds fails (lt.trans_le inside)
  fun_induction partitionPoint test (front ++ back) low high with
  | case1 low high some_left mid passed ih =>
    rw [tells (by omega), decide_eq_true_eq] at passed
    exact ih passed le_high inside tells
  | case2 low high some_left mid failed ih =>
    rw [tells (by omega), decide_eq_true_eq] at failed
    exact ih low_le (by omega) (by omega) fun lt => tells (by omega)
  | case3 low high none_left => omega

end Search

namespace Dictionary

/-- What ends the building of a trie early. -/
inductive Halt where
  /-- A cell cannot be written, or a width or a key is not in range. -/
  | refused (cause : Cell.Error)
  /-- A count goes below zero. -/
  | underflow
  /-- There is no entry where one is looked up. -/
  | noEntry
  deriving DecidableEq

/-- The difference of two counts. -/
def minus (count less : ℕ) : Except Halt ℕ :=
  if less ≤ count then .ok (count - less) else .error .underflow

/-- How many of the low `width` bits two keys have in common before they part. -/
def prefixLength (width : ℕ) (first last : UInt64) : Except Halt ℕ := do
  let parted := first ^^^ last
  if parted = 0 then return width
  else minus (← minus width 1) (← minus 63 parted.toBitVec.clz.toNat)

/-- So many bits of a word above those that are skipped. -/
def labelWord (word : UInt64) (skipped count : ℕ) : UInt64 :=
  (if skipped < 64 then word >>> .ofNat skipped else 0) &&& Label.mask count

/-- Goes on with the builder that a write leaves. -/
def proceed (write : Store Cell.Error Unit) (builder : Builder) : Except Halt Builder :=
  match write builder with
  | .ok _ result => .ok result
  | .error e _ => .error (.refused e)

/-- The cell of some entries, of whose keys the low `width` bits are left. -/
def edge (width : ℕ) (entries : List (UInt64 × Cell)) : Except Halt Cell := do
  let some (first, value) := entries.head? | throw .noEntry
  let some (last, _) := entries.getLast? | throw .noEntry
  let first := first &&& Label.mask width
  let last := last &&& Label.mask width
  let count ← prefixLength width first last
  let label := labelWord first (width - count) count
  let labelled ← proceed (Label.storeWord width label count) .empty
  if _more : width - count = 0 then
    return (← proceed (Store.inline value) labelled).build
  else
    let bit := width - count - 1
    let split := partitionPoint (fun entry => entry.1 >>> .ofNat bit &&& 1 == 0) entries 0
      entries.length
    let zero ← edge bit (entries.take split)
    let one ← edge bit (entries.drop split)
    let referred ← proceed (Store.ref zero) labelled
    return (← proceed (Store.ref one) referred).build
termination_by width

/-- The root of the trie of some entries; none without entries. -/
def root (width : ℕ) (entries : List (UInt64 × Cell)) : Except Halt (Option Cell) :=
  if width = 0 ∨ 64 < width then .error (.refused (.unsupportedKeyWidth width))
  else
    match entries.find? fun entry => Label.mask width < entry.1 with
    | some entry => .error (.refused (.keyOutOfRange entry.1.toNat width))
    | none => if entries.isEmpty then .ok none else some <$> edge width entries

end Dictionary

/-! ## Common bits -/

namespace Trie

/-- The trie with some bits more in front of its label. -/
def above (label : Bits) (trie : Trie) : Trie :=
  label.foldr prepend trie

theorem above_leaf (front label : Bits) (value : Cell) :
    above front (leaf label value) = leaf (front ++ label) value := by
  induction front with
  | nil => rfl
  | cons bit front ih => exact congrArg (prepend bit) ih

theorem above_fork (front label : Bits) (zero one : Trie) :
    above front (fork label zero one) = fork (front ++ label) zero one := by
  induction front with
  | nil => rfl
  | cons bit front ih => exact congrArg (prepend bit) ih

variable {width count : ℕ} {label : Bits} {entries : List (ℕ × Cell)}

/-- The keys have these bits above the low `width` bits. -/
def Share (width : ℕ) (label : Bits) (entries : List (ℕ × Cell)) : Prop :=
  ∀ entry ∈ entries, Bits.ofNat label.length (entry.1 / 2 ^ width) = label

theorem Share.of_cons {bit : Bool} (share : Share width (bit :: label) entries) :
    (∀ entry ∈ entries, entry.1.testBit (width + label.length) = bit) ∧
      Share width label entries := by
  have both (entry : ℕ × Cell) (mem : entry ∈ entries) := List.cons.inj (share entry mem)
  refine ⟨fun entry mem => ?_, fun entry mem => (both entry mem).2⟩
  have first := (both entry mem).1
  rwa [Nat.testBit_div_two_pow, Nat.add_comm] at first

/-- Bits that all keys have in common go in front of the label at the root. -/
theorem ofEntries_of_share (share : Share width label entries) :
    ofEntries (width + label.length) entries = (ofEntries width entries).map (above label) := by
  induction label with
  | nil => exact (Option.map_id' ..).symm
  | cons bit label ih =>
    obtain ⟨agree, share⟩ := share.of_cons
    rw [List.length_cons, ← Nat.add_assoc, Grows.ofEntries_of_agree agree, ih share,
      Option.map_map]
    rfl

theorem ofEntries_singleton (width : ℕ) (entry : ℕ × Cell) :
    ofEntries width [entry] = some (leaf (.ofNat width entry.1) entry.2) := by
  have share : Share 0 (.ofNat width entry.1) [entry] := by
    intro other mem
    rw [List.mem_singleton.1 mem, Bits.length_ofNat, Nat.pow_zero, Nat.div_one]
  have built := ofEntries_of_share share
  rw [Bits.length_ofNat, Nat.zero_add] at built
  rw [built]
  show some (above _ (leaf [] entry.2)) = _
  rw [above_leaf, List.append_nil]

/-- Below the bits that all keys have in common, they fork. -/
theorem ofEntries_of_sides {bit : ℕ} {zeros ones : List (ℕ × Cell)} {zero one : Trie}
    (share : Share (bit + 1) label (zeros ++ ones))
    (zero_bit : ∀ entry ∈ zeros, entry.1.testBit bit = false)
    (one_bit : ∀ entry ∈ ones, entry.1.testBit bit = true)
    (zero_built : ofEntries bit zeros = some zero) (one_built : ofEntries bit ones = some one) :
    ofEntries (bit + 1 + label.length) (zeros ++ ones) = some (fork label zero one) := by
  rw [ofEntries_of_share share, Grows.ofEntries_append zero_bit one_bit, zero_built, one_built]
  show some (above label (fork [] zero one)) = _
  rw [above_fork, List.append_nil]

theorem Ascends.of_share (ascends : Ascends (width + label.length) entries)
    (share : Share width label entries) : Ascends width entries := by
  induction label with
  | nil => exact ascends
  | cons bit label ih =>
    obtain ⟨agree, share⟩ := share.of_cons
    exact ih (Ascends.of_agree ascends agree) share

/-- Keys that ascend lie between the first and the last of them. -/
theorem Ascends.between (ascends : Ascends width entries) {first last : ℕ × Cell}
    (head : entries.head? = some first) (tail : entries.getLast? = some last) :
    ∀ entry ∈ entries, first.1 % 2 ^ width ≤ entry.1 % 2 ^ width ∧
      entry.1 % 2 ^ width ≤ last.1 % 2 ^ width := by
  intro entry mem
  constructor
  · obtain ⟨others, rfl⟩ := List.head?_eq_some_iff.1 head
    obtain rfl | mem := List.mem_cons.1 mem
    · exact le_rfl
    · exact ((List.pairwise_cons.1 ascends).1 entry mem).le
  · obtain ⟨others, rfl⟩ := List.getLast?_eq_some_iff.1 tail
    obtain mem | mem := List.mem_append.1 mem
    · exact ((List.pairwise_append.1 ascends).2.2 entry mem last (by simp)).le
    · rw [List.mem_singleton.1 mem]

/-- What the first and the last key have in common all have. -/
theorem Ascends.share (ascends : Ascends (width + count) entries) {first last : ℕ × Cell}
    (head : entries.head? = some first) (tail : entries.getLast? = some last)
    (same : first.1 % 2 ^ (width + count) / 2 ^ width = last.1 % 2 ^ (width + count) / 2 ^ width) :
    Share width (.ofNat count (first.1 % 2 ^ (width + count) / 2 ^ width)) entries := by
  intro entry mem
  obtain ⟨above, below⟩ := ascends.between head tail entry mem
  have squeezed : entry.1 % 2 ^ (width + count) / 2 ^ width =
      first.1 % 2 ^ (width + count) / 2 ^ width :=
    le_antisymm ((Nat.div_le_div_right below).trans same.ge) (Nat.div_le_div_right above)
  rw [Bits.length_ofNat, ← squeezed]
  apply Bits.ofNat_congr
  rw [Nat.pow_add, Nat.mod_mul_right_div_self, Nat.mod_mod]

end Trie

namespace Dictionary

/-! ## Words -/

section Words

variable {width count skipped : ℕ} {first last word : UInt64}

theorem toNat_and_mask (le : width ≤ 64) (word : UInt64) :
    (word &&& Label.mask width).toNat = word.toNat % 2 ^ width := by
  rw [UInt64.toNat_and, Label.toNat_mask le, Nat.and_two_pow_sub_one_eq_mod]

theorem toNat_labelWord (le : count ≤ 64) :
    (labelWord word skipped count).toNat = word.toNat / 2 ^ skipped % 2 ^ count := by
  unfold labelWord
  rw [toNat_and_mask le]
  congr 1
  by_cases part : skipped < 64
  · rw [if_pos part, UInt64.toNat_shiftRight, UInt64.toNat_ofNat',
      Nat.mod_eq_of_lt (by omega : skipped < 2 ^ 64), Nat.mod_eq_of_lt part,
      Nat.shiftRight_eq_div_pow]
  · have small : word.toNat < 2 ^ skipped :=
      word.toNat_lt.trans_le (Nat.pow_le_pow_right two_pos (Nat.le_of_not_lt part))
    rw [if_neg part, Nat.div_eq_of_lt small]
    rfl

/-- Whether a bit is clear. -/
theorem shiftRight_and_one (small : skipped < 64) :
    (word >>> .ofNat skipped &&& 1 == 0) = !word.toNat.testBit skipped := by
  have value : (word >>> .ofNat skipped &&& 1).toNat = word.toNat / 2 ^ skipped % 2 := by
    rw [UInt64.toNat_and, UInt64.toNat_shiftRight, UInt64.toNat_ofNat',
      Nat.mod_eq_of_lt (by omega : skipped < 2 ^ 64), Nat.mod_eq_of_lt small,
      Nat.shiftRight_eq_div_pow]
    exact Nat.and_one_is_mod _
  rw [Bool.eq_iff_iff, beq_iff_eq, ← UInt64.toNat_inj, value, Bool.not_eq_true',
    Nat.testBit_eq_decide_div_mod_eq, decide_eq_false_iff_not, UInt64.toNat_zero]
  omega

theorem prefixLength_self : prefixLength width word word = .ok width := by
  unfold prefixLength
  rw [UInt64.xor_self]
  rfl

theorem minus_eq {count less : ℕ} (le : less ≤ count) : minus count less = .ok (count - less) :=
  if_pos le

/-- The zeros in front of a word tell its highest bit. -/
theorem clz_spec (some_set : word ≠ 0) : word.toBitVec.clz.toNat ≤ 63 ∧
    2 ^ (63 - word.toBitVec.clz.toNat) ≤ word.toNat ∧
    word.toNat < 2 ^ (63 - word.toBitVec.clz.toNat + 1) ∧
    word.toNat.testBit (63 - word.toBitVec.clz.toNat) = true := by
  have nonzero : word.toBitVec ≠ 0 := fun zero => some_set (UInt64.toBitVec_inj.1 zero)
  have above := @BitVec.toNat_lt_two_pow_sub_clz 64 word.toBitVec
  have below := BitVec.two_pow_sub_clz_le_toNat_of_ne_zero (by decide) nonzero
  have set := BitVec.getLsbD_true_clz_of_ne_zero (by decide) nonzero
  have le : word.toBitVec.clz.toNat ≤ 63 := by
    by_contra all
    have none_left : 64 - word.toBitVec.clz.toNat = 0 := by omega
    rw [none_left] at above
    have pos := Nat.two_pow_pos (64 - 1 - word.toBitVec.clz.toNat)
    omega
  have next : 64 - word.toBitVec.clz.toNat = 63 - word.toBitVec.clz.toNat + 1 := by omega
  rw [next] at above
  exact ⟨le, below, above, set⟩

/-- Two keys part at the highest bit that is set in their exclusive or: it is set in the greater one
only, and all bits above are the same. -/
theorem exists_prefixLength (less : first.toNat < last.toNat) (small : last.toNat < 2 ^ width) :
    ∃ bit count, width = bit + 1 + count ∧ prefixLength width first last = .ok count ∧
      first.toNat / 2 ^ (bit + 1) = last.toNat / 2 ^ (bit + 1) ∧
      first.toNat.testBit bit = false ∧ last.toNat.testBit bit = true := by
  have differ : first ^^^ last ≠ 0 := by
    rw [ne_eq, UInt64.xor_eq_zero_iff]
    rintro rfl
    exact lt_irrefl _ less
  obtain ⟨clz_le, low, high, set⟩ := clz_spec differ
  have computed : prefixLength width first last =
      minus width 1 >>= fun n => minus 63 (first ^^^ last).toBitVec.clz.toNat >>= minus n :=
    if_neg differ
  rw [minus_eq clz_le] at computed
  generalize 63 - (first ^^^ last).toBitVec.clz.toNat = bit at computed low high set
  rw [UInt64.toNat_xor] at low high set
  have parted_small := Nat.xor_lt_two_pow (less.trans small) small
  have inside : bit < width := (Nat.pow_lt_pow_iff_right one_lt_two).1 (low.trans_lt parted_small)
  have same : first.toNat / 2 ^ (bit + 1) = last.toNat / 2 ^ (bit + 1) := by
    rw [← Nat.xor_eq_zero_iff, ← Nat.xor_div_two_pow, Nat.div_eq_of_lt high]
  have low_less : first.toNat % 2 ^ (bit + 1) < last.toNat % 2 ^ (bit + 1) := by
    have first_eq := Nat.div_add_mod first.toNat (2 ^ (bit + 1))
    have last_eq := Nat.div_add_mod last.toNat (2 ^ (bit + 1))
    rw [same] at first_eq
    omega
  rw [Nat.testBit_xor] at set
  refine ⟨bit, width - 1 - bit, by omega, ?_, same, ?_⟩
  · rw [computed, minus_eq (by omega), Outcome.ok_bind, Outcome.ok_bind, minus_eq (by omega)]
  · cases first_bit : first.toNat.testBit bit with
    | false => simpa [first_bit] using set
    | true => simp [first_bit, Trie.testBit_of_mod_lt low_less first_bit] at set

end Words

/-! ## Entries -/

section Entries

variable {width bit : ℕ} {entries : List (UInt64 × Cell)}

/-- The entries with their keys as numbers. -/
def numbers (entries : List (UInt64 × Cell)) : List (ℕ × Cell) :=
  entries.map fun entry => (entry.1.toNat, entry.2)

theorem numbers_injective : Function.Injective numbers := by
  refine List.map_injective_iff.2 fun e f same => ?_
  obtain ⟨key, value⟩ := Prod.mk.inj same
  exact Prod.ext (UInt64.toNat_inj.1 key) value

/-- The keys with a zero in their leading bit come before those with a one. -/
theorem exists_sides (ascends : Trie.Ascends (bit + 1) (numbers entries)) :
    ∃ zeros ones, entries = zeros ++ ones ∧
      (∀ entry ∈ zeros, entry.1.toNat.testBit bit = false) ∧
      ∀ entry ∈ ones, entry.1.toNat.testBit bit = true := by
  refine ⟨entries.filter fun entry => !entry.1.toNat.testBit bit,
    entries.filter fun entry => entry.1.toNat.testBit bit, ?_, ?_, ?_⟩
  · apply numbers_injective
    rw [← ascends.filter_append_filter]
    unfold numbers
    rw [List.map_append, List.filter_map, List.filter_map]
    rfl
  · simp
  · simp

end Entries

/-! ## Edges -/

section Builders

variable {first rest : Store Cell.Error Unit} {builder mid : Builder}

theorem proceed_of_ok (written : first builder = .ok () mid) :
    proceed first builder = .ok mid := by
  rw [proceed, written]

theorem proceed_bind : proceed (first >>= fun _ => rest) builder =
    proceed first builder >>= proceed rest := by
  unfold proceed
  cases written : first builder with
  | ok u mid => rw [bind_of_ok written, Outcome.ok_bind]
  | error e left => rw [bind_error_iff.2 (.inl written)]; rfl

/-- A cell is built by going on from builder to builder. -/
theorem build_eq_proceed (write : Store Cell.Error Unit) :
    (Cell.build write).mapError .refused = Builder.build <$> proceed write .empty := by
  unfold Cell.build proceed
  cases write .empty <;> rfl

end Builders

/-- In a new builder there is room for a label, whether it comes as a word or as bits. -/
theorem exists_labelled {max length : ℕ} {word : UInt64} (narrow : max ≤ 64) (le : length ≤ max)
    (small : word.toNat < 2 ^ length) : ∃ labelled,
      Label.storeWord max word length .empty = .ok () labelled ∧
      Label.store max (.ofNat length word.toNat) .empty = .ok () labelled := by
  have short := Label.length_write_le max (.ofNat length word.toNat)
  have room : Builder.empty.HasRoom (Label.write max (.ofNat length word.toNat)) [] := by
    refine ⟨?_, Builder.empty.refs_le⟩
    rw [Bits.length_ofNat] at short
    have none_written : Builder.empty.bits.length = 0 := rfl
    unfold maxBits
    omega
  obtain ⟨labelled, extended⟩ := Builder.exists_extends_iff.2 ⟨room, depth_lt_of_mem_nil⟩
  exact ⟨labelled, (Label.appends_storeWord narrow le small _ _).2 extended,
    (Store.appends_bits _ _).2 extended⟩

/-- A single entry becomes a leaf. -/
theorem edge_singleton {width : ℕ} (narrow : width ≤ 64) (key : UInt64) (value : Cell) :
    edge width [(key, value)] =
      (Trie.encode width (.leaf (.ofNat width key.toNat) value)).mapError .refused := by
  have label_eq : (labelWord (key &&& Label.mask width) 0 width).toNat =
      key.toNat % 2 ^ width := by
    rw [toNat_labelWord narrow, toNat_and_mask narrow, Nat.pow_zero, Nat.div_one, Nat.mod_mod]
  obtain ⟨labelled, as_word, as_bits⟩ := exists_labelled narrow le_rfl
    (label_eq.trans_lt (Nat.mod_lt _ (Nat.two_pow_pos width)))
  rw [label_eq, Bits.ofNat_congr (Nat.mod_mod _ _)] at as_bits
  rw [edge, Trie.encode, build_eq_proceed, proceed_bind, proceed_of_ok as_bits]
  simp only [List.head?_cons, List.getLast?_singleton, prefixLength_self, Outcome.ok_bind,
    Nat.sub_self, proceed_of_ok as_word]
  rfl

/-- Where keys part, they become a fork above the edges on both sides. -/
theorem edge_fork {width bit count : ℕ} {zeros ones : List (UInt64 × Cell)} {zero one : Trie}
    {first last : UInt64 × Cell} (narrow : width ≤ 64) (parts : width = bit + 1 + count)
    (head : (zeros ++ ones).head? = some first) (tail : (zeros ++ ones).getLast? = some last)
    (common : prefixLength width (first.1 &&& Label.mask width) (last.1 &&& Label.mask width) =
      .ok count)
    (zero_bit : ∀ entry ∈ zeros, entry.1.toNat.testBit bit = false)
    (one_bit : ∀ entry ∈ ones, entry.1.toNat.testBit bit = true)
    (zero_eq : edge bit zeros = (zero.encode bit).mapError .refused)
    (one_eq : edge bit ones = (one.encode bit).mapError .refused) :
    edge width (zeros ++ ones) =
      (Trie.encode width (.fork
        (.ofNat count ((first.1 &&& Label.mask width).toNat / 2 ^ (bit + 1))) zero one)).mapError
          .refused := by
  have skipped : width - count = bit + 1 := by omega
  have label_eq : (labelWord (first.1 &&& Label.mask width) (bit + 1) count).toNat =
      (first.1 &&& Label.mask width).toNat / 2 ^ (bit + 1) % 2 ^ count :=
    toNat_labelWord (by omega)
  obtain ⟨labelled, as_word, as_bits⟩ := exists_labelled narrow (by omega : count ≤ width)
    (label_eq.trans_lt (Nat.mod_lt _ (Nat.two_pow_pos count)))
  rw [label_eq, Bits.ofNat_congr (Nat.mod_mod _ _)] at as_bits
  have split : partitionPoint (fun entry => entry.1 >>> .ofNat bit &&& 1 == 0) (zeros ++ ones) 0
      (zeros ++ ones).length = zeros.length := by
    refine partitionPoint_append (fun entry mem => ?_) (fun entry mem => ?_) (Nat.zero_le _)
      (by simp) le_rfl
    · rw [shiftRight_and_one (by omega), zero_bit entry mem, Bool.not_false]
    · rw [shiftRight_and_one (by omega), one_bit entry mem, Bool.not_true]
  have left : width - count - 1 = bit := by omega
  rw [edge, Trie.encode, Bits.length_ofNat, left]
  simp only [head, tail, common, Outcome.ok_bind, skipped, proceed_of_ok as_word]
  rw [dif_neg (Nat.succ_ne_zero bit)]
  simp only [Nat.add_sub_cancel, split, List.take_left, List.drop_left, zero_eq, one_eq]
  cases zero.encode bit with
  | error e => rfl
  | ok z =>
    cases one.encode bit with
    | error e => rfl
    | ok o =>
      show _ = (Cell.build _).mapError Halt.refused
      rw [build_eq_proceed, proceed_bind, proceed_of_ok as_bits, Outcome.ok_bind, proceed_bind,
        map_bind]
      rfl

/-- There is a trie of the entries, and their edge is its cell. -/
def Edged (width : ℕ) (entries : List (UInt64 × Cell)) : Prop :=
  ∃ trie, Trie.ofEntries width (numbers entries) = some trie ∧
    edge width entries = (trie.encode width).mapError .refused

section Sides

variable {width bit count : ℕ} {entries zeros ones : List (UInt64 × Cell)}
  {first last : UInt64 × Cell}

/-- Where the first and the last key part, all keys have the same bits above. -/
theorem exists_parted (narrow : width ≤ 64) (ascends : Trie.Ascends width (numbers entries))
    (head : entries.head? = some first) (tail : entries.getLast? = some last)
    (less : first.1.toNat % 2 ^ width < last.1.toNat % 2 ^ width) :
    ∃ bit count, width = bit + 1 + count ∧
      prefixLength width (first.1 &&& Label.mask width) (last.1 &&& Label.mask width) =
        .ok count ∧
      Trie.Share (bit + 1) (.ofNat count (first.1.toNat % 2 ^ width / 2 ^ (bit + 1)))
        (numbers entries) ∧
      first.1.toNat.testBit bit = false ∧ last.1.toNat.testBit bit = true := by
  have masked (word : UInt64) := toNat_and_mask narrow word
  have words_less : (first.1 &&& Label.mask width).toNat < (last.1 &&& Label.mask width).toNat := by
    rwa [masked, masked]
  have small : (last.1 &&& Label.mask width).toNat < 2 ^ width := by
    rw [masked]
    exact Nat.mod_lt _ (Nat.two_pow_pos width)
  obtain ⟨bit, count, parts, common, same, first_bit, last_bit⟩ :=
    exists_prefixLength words_less small
  have inside : bit < width := by omega
  simp only [masked, Nat.testBit_mod_two_pow, inside, decide_true, Bool.true_and]
    at same first_bit last_bit
  have first_eq : (numbers entries).head? = some (first.1.toNat, first.2) := by
    rw [numbers, List.head?_map, head]
    rfl
  have last_eq : (numbers entries).getLast? = some (last.1.toNat, last.2) := by
    rw [numbers, List.getLast?_map, tail]
    rfl
  refine ⟨bit, count, parts, common, ?_, first_bit, last_bit⟩
  subst parts
  exact ascends.share first_eq last_eq same

/-- Where both sides of a fork are edges of tries, so is the fork. -/
theorem edged_append (narrow : width ≤ 64) (parts : width = bit + 1 + count)
    (head : (zeros ++ ones).head? = some first) (tail : (zeros ++ ones).getLast? = some last)
    (common : prefixLength width (first.1 &&& Label.mask width) (last.1 &&& Label.mask width) =
      .ok count)
    (share : Trie.Share (bit + 1) (.ofNat count (first.1.toNat % 2 ^ width / 2 ^ (bit + 1)))
      (numbers zeros ++ numbers ones))
    (zero_bit : ∀ entry ∈ zeros, entry.1.toNat.testBit bit = false)
    (one_bit : ∀ entry ∈ ones, entry.1.toNat.testBit bit = true)
    (zeros_edged : Edged bit zeros) (ones_edged : Edged bit ones) :
    Edged width (zeros ++ ones) := by
  obtain ⟨zero, zero_built, zero_eq⟩ := zeros_edged
  obtain ⟨one, one_built, one_eq⟩ := ones_edged
  have built := Trie.ofEntries_of_sides share (List.forall_mem_map.2 zero_bit)
    (List.forall_mem_map.2 one_bit) zero_built one_built
  have joined := edge_fork narrow parts head tail common zero_bit one_bit zero_eq one_eq
  rw [toNat_and_mask narrow] at joined
  rw [Bits.length_ofNat, ← parts] at built
  refine ⟨_, ?_, joined⟩
  rw [numbers, List.map_append]
  exact built

/-- When the first and the last key part, both sides of the fork have fewer bits left. -/
theorem edged_of_less (narrow : width ≤ 64) (head : entries.head? = some first)
    (tail : entries.getLast? = some last)
    (less : first.1.toNat % 2 ^ width < last.1.toNat % 2 ^ width)
    (ascends : Trie.Ascends width (numbers entries))
    (below : ∀ bit < width, ∀ side ≠ [], Trie.Ascends bit (numbers side) → Edged bit side) :
    Edged width entries := by
  obtain ⟨bit, count, parts, common, share, first_bit, last_bit⟩ :=
    exists_parted narrow ascends head tail less
  have inside : bit < width := by omega
  have lower : Trie.Ascends (bit + 1) (numbers entries) :=
    Trie.Ascends.of_share (by rwa [Bits.length_ofNat, ← parts]) share
  obtain ⟨zeros, ones, rfl, zero_bit, one_bit⟩ := exists_sides lower
  -- The first key is on one side, and the last on the other.
  have zeros_left : zeros ≠ [] := by
    rintro rfl
    simp [one_bit first (List.mem_of_head? head)] at first_bit
  have ones_left : ones ≠ [] := by
    rintro rfl
    rw [List.append_nil] at tail
    simp [zero_bit last (List.mem_of_getLast? tail)] at last_bit
  rw [numbers, List.map_append] at lower share
  obtain ⟨zeros_ascend, ones_ascend, -⟩ := List.pairwise_append.1 lower
  have zeros_edged : Edged bit zeros := below bit inside zeros zeros_left
    (Trie.Ascends.of_agree zeros_ascend (List.forall_mem_map.2 zero_bit))
  have ones_edged : Edged bit ones := below bit inside ones ones_left
    (Trie.Ascends.of_agree ones_ascend (List.forall_mem_map.2 one_bit))
  exact edged_append narrow parts head tail common share zero_bit one_bit zeros_edged ones_edged

end Sides

/-- The edge of some entries is that of their trie. -/
theorem edge_eq {width : ℕ} {entries : List (UInt64 × Cell)} (narrow : width ≤ 64)
    (some_left : entries ≠ []) (ascends : Trie.Ascends width (numbers entries)) :
    Edged width entries := by
  -- Every fork takes at least one key bit.
  induction width using Nat.strong_induction_on generalizing entries with
  | _ width ih =>
    match entries with
    | [] => exact absurd rfl some_left
    | [(key, value)] =>
      exact ⟨_, Trie.ofEntries_singleton width _, edge_singleton narrow key value⟩
    | first :: next :: others =>
      obtain ⟨last, tail⟩ : ∃ last, (next :: others).getLast? = some last :=
        ⟨_, List.getLast?_eq_some_getLast (List.cons_ne_nil next others)⟩
      have less := (List.pairwise_cons.1 ascends).1 (last.1.toNat, last.2)
        (List.mem_map_of_mem (List.mem_of_getLast? tail))
      rw [← List.getLast?_cons_cons] at tail
      exact edged_of_less narrow rfl tail less ascends fun bit lt side left ascends =>
        ih bit lt (by omega) left ascends

/-! ## The root -/

variable {width : ℕ} {entries : List (UInt64 × Cell)}
  {ascending : entries.Pairwise fun e f => e.1 < f.1}

/-- The dictionary with the entries. -/
def ofWords (entries : List (UInt64 × Cell)) (ascending : entries.Pairwise fun e f => e.1 < f.1) :
    Dictionary where
  entries := numbers entries
  ascending := List.pairwise_map.2 (ascending.imp UInt64.lt_iff_toNat_lt.1)

/-- A key that the mask does not cover does not fit. -/
theorem mask_lt (narrow : width ≤ 64) (key : UInt64) :
    decide (Label.mask width < key) = !Bits.fits key.toNat width := by
  have pos := Nat.two_pow_pos width
  rw [Bool.eq_iff_iff, decide_eq_true_eq, UInt64.lt_iff_toNat_lt, Label.toNat_mask narrow,
    Bool.not_eq_true', Bool.eq_false_iff, ne_eq, Bits.fits_iff]
  omega

theorem checkKeys_ofWords (narrow : width ≤ 64) : (ofWords entries ascending).checkKeys width =
    match entries.find? fun entry => Label.mask width < entry.1 with
    | some entry => .error (.keyOutOfRange entry.1.toNat width)
    | none => .ok () := by
  have keys : (ofWords entries ascending).keys = entries.map fun entry => entry.1.toNat :=
    List.map_map
  unfold checkKeys
  rw [keys, List.find?_map]
  simp only [mask_lt narrow, Function.comp_def]
  cases entries.find? fun entry => !Bits.fits entry.1.toNat width <;> rfl

/-- A machine builds the same cell as is written for the dictionary, or fails with the same error.
It never counts below zero, and never looks for an entry where there is none. -/
theorem root_eq_encode (width : ℕ) (entries : List (UInt64 × Cell))
    (ascending : entries.Pairwise fun e f => e.1 < f.1) :
    root width entries = ((ofWords entries ascending).encode width).mapError .refused := by
  unfold root encode
  by_cases width_ok : 1 ≤ width ∧ width ≤ 64
  · have checked := @checkKeys_ofWords width entries ascending width_ok.2
    rw [if_neg (by omega), checkWidth_eq width_ok, Outcome.ok_bind, checked]
    cases found : entries.find? fun entry => Label.mask width < entry.1 with
    | some entry => rfl
    | none =>
      rw [found] at checked
      have fits := checkKeys_ok_iff.1 checked
      rw [Outcome.ok_bind]
      obtain rfl | some_left := eq_or_ne entries []
      · rw [show (ofWords [] ascending).entries = [] from rfl, Trie.Grows.ofEntries_nil]
        rfl
      · obtain ⟨trie, built, edge_eq⟩ := edge_eq width_ok.2 some_left (ascends fits)
        rw [show (ofWords entries ascending).entries = numbers entries from rfl, built,
          List.isEmpty_eq_false_iff.2 some_left]
        show some <$> edge width entries = (some <$> trie.encode width).mapError _
        rw [edge_eq]
        cases trie.encode width <;> rfl
  · have refused : checkWidth width = .error (.unsupportedKeyWidth width) := if_neg width_ok
    rw [if_pos (by omega), refused]
    rfl

/-- What a machine has built, it walks back to the dictionary. -/
theorem walk_of_root {cell : Cell} (built : root width entries = .ok (some cell)) :
    walk width 0 cell .empty = .ok (ofWords entries ascending) := by
  rw [root_eq_encode width entries ascending, Outcome.mapError_ok_iff] at built
  rw [walk_eq (encode_ok_iff.1 built).1, decode_of_encode built]
  rfl

end Dictionary

end WalletWire
