import WalletWire.Proofs.Dictionary.RoundTrip

/-!
# The keys of a trie

In a trie with `width` key bits the paths spell keys of that width, which ascend from left to right
(`Grows.ascending`).  So no key comes twice and the entries of a trie are always a dictionary
(`Dictionary.decode_ok_iff_entries`).  No other trie has these entries (`Grows.ofEntries_entries`):
as a fork has something on both sides, every label ends just where the keys below it part, however
the trie was come by.
-/

namespace WalletWire

namespace Trie

/-- The keys that the paths spell, with their values. -/
def entries (trie : Trie) : List (ℕ × Cell) :=
  trie.paths.map fun path => (path.1.toNat, path.2)

theorem mem_paths_fork {label path : Bits} {zero one : Trie} {value : Cell} :
    (path, value) ∈ (fork label zero one).paths ↔ ∃ bit inner,
      path = label ++ bit :: inner ∧ (inner, value) ∈ (bif bit then one else zero).paths := by
  rw [paths, List.mem_append, List.mem_map, List.mem_map]
  constructor
  · rintro (⟨⟨inner, _⟩, mem, ⟨⟩⟩ | ⟨⟨inner, _⟩, mem, ⟨⟩⟩)
    · exact ⟨false, inner, rfl, mem⟩
    · exact ⟨true, inner, rfl, mem⟩
  · rintro ⟨bit, inner, rfl, mem⟩
    cases bit with
    | false => exact .inl ⟨_, mem, rfl⟩
    | true => exact .inr ⟨_, mem, rfl⟩

/-- The trie is made of leaves by forking and by putting one key bit in front at a time. -/
inductive Grows : (width : ℕ) → Trie → Prop where
  | leaf (value : Cell) : Grows 0 (leaf [] value)
  | fork {width : ℕ} {zero one : Trie} :
      Grows width zero → Grows width one → Grows (width + 1) (fork [] zero one)
  | prepend (bit : Bool) {width : ℕ} {trie : Trie} :
      Grows width trie → Grows (width + 1) (trie.prepend bit)

theorem Fits.grows {width : ℕ} {trie : Trie} (fits : trie.Fits width) : Grows width trie := by
  induction width generalizing trie with
  | zero =>
    cases trie with
    | leaf label value =>
      obtain rfl := List.length_eq_zero_iff.1 fits
      exact .leaf value
    | fork label zero one => exact absurd fits.1 (Nat.not_lt_zero _)
  | succ width ih =>
    cases trie with
    | leaf label value =>
      cases label with
      | nil => cases fits
      | cons bit label =>
        have rest : (Trie.leaf label value).Fits width := Nat.succ.inj fits
        exact .prepend bit (ih rest)
    | fork label zero one =>
      obtain ⟨more, zero_fits, one_fits⟩ := fits
      cases label with
      | nil => exact .fork (ih zero_fits) (ih one_fits)
      | cons bit label =>
        rw [List.length_cons, Nat.add_sub_add_right] at zero_fits one_fits
        have rest : (Trie.fork label zero one).Fits width :=
          ⟨Nat.lt_of_succ_lt_succ more, zero_fits, one_fits⟩
        exact .prepend bit (ih rest)

theorem Derives.fits {width : ℕ} {root : Cell} {trie : Trie} (derives : Derives width root trie) :
    trie.Fits width := by
  induction derives with
  | leaf _ full _ => exact full
  | fork _ more _ _ _ zero_ih one_ih => exact ⟨more, zero_ih, one_ih⟩

namespace Grows

variable {width : ℕ} {zero one trie : Trie} {entries : List (ℕ × Cell)}

/-! ## The keys -/

theorem paths_fork_nil (zero one : Trie) : (Trie.fork [] zero one).paths =
    (zero.prepend false).paths ++ (one.prepend true).paths := by
  simp only [paths, List.nil_append, paths_prepend]

theorem length_eq (grows : Grows width trie) {path : Bits × Cell} (mem : path ∈ trie.paths) :
    path.1.length = width := by
  have longer {width : ℕ} {trie : Trie} (bit : Bool)
      (all : ∀ inner ∈ trie.paths, inner.1.length = width) :
      ∀ path ∈ (trie.prepend bit).paths, path.1.length = width + 1 := by
    intro path mem
    rw [paths_prepend] at mem
    obtain ⟨inner, held, rfl⟩ := List.mem_map.1 mem
    rw [List.length_cons, all inner held]
  induction grows generalizing path with
  | leaf value =>
    obtain rfl := List.mem_singleton.1 mem
    rfl
  | fork _ _ zero_ih one_ih =>
    rw [paths_fork_nil, List.mem_append] at mem
    rcases mem with mem | mem
    · exact longer false (fun _ => zero_ih) path mem
    · exact longer true (fun _ => one_ih) path mem
  | prepend bit _ ih => exact longer bit (fun _ => ih) path mem

theorem key_lt (grows : Grows width trie) {entry : ℕ × Cell} (mem : entry ∈ trie.entries) :
    entry.1 < 2 ^ width := by
  obtain ⟨path, held, rfl⟩ := List.mem_map.1 mem
  have small := Bits.toNat_lt path.1
  rwa [grows.length_eq held] at small

theorem entries_prepend (grows : Grows width trie) (bit : Bool) : (trie.prepend bit).entries =
    trie.entries.map fun entry => (bit.toNat * 2 ^ width + entry.1, entry.2) := by
  unfold Trie.entries
  rw [paths_prepend, List.map_map, List.map_map]
  refine List.map_congr_left fun path mem => ?_
  simp only [Function.comp_apply, Bits.toNat_cons, grows.length_eq mem]

theorem ascending_prepend (grows : Grows width trie) (bit : Bool)
    (ascending : trie.entries.Pairwise fun e f => e.1 < f.1) :
    (trie.prepend bit).entries.Pairwise fun e f => e.1 < f.1 := by
  rw [grows.entries_prepend, List.pairwise_map]
  exact ascending.imp fun lt => Nat.add_lt_add_left lt _

theorem ascending (grows : Grows width trie) : trie.entries.Pairwise fun e f => e.1 < f.1 := by
  induction grows with
  | leaf value => exact List.pairwise_singleton ..
  | @fork width zero one zero_grows one_grows zero_ih one_ih =>
    have split : (Trie.fork [] zero one).entries =
        (zero.prepend false).entries ++ (one.prepend true).entries := by
      unfold Trie.entries
      rw [paths_fork_nil, List.map_append]
    rw [split, List.pairwise_append]
    refine ⟨ascending_prepend zero_grows false zero_ih, ascending_prepend one_grows true one_ih, ?_⟩
    -- The leading bit puts the keys on the left below those on the right.
    intro e he f hf
    rw [zero_grows.entries_prepend] at he
    rw [one_grows.entries_prepend] at hf
    obtain ⟨e, held, rfl⟩ := List.mem_map.1 he
    obtain ⟨f, _, rfl⟩ := List.mem_map.1 hf
    have small := zero_grows.key_lt held
    simp only [Bool.toNat_false, Bool.toNat_true]
    omega
  | prepend bit grows ih => exact ascending_prepend grows bit ih

/-! ## From the entries back to the trie -/

/-- The trie of keys in two groups, one for each value of the leading bit, joins their tries. -/
theorem ofEntries_append {zeros ones : List (ℕ × Cell)}
    (zero_bit : ∀ entry ∈ zeros, entry.1.testBit width = false)
    (one_bit : ∀ entry ∈ ones, entry.1.testBit width = true) :
    ofEntries (width + 1) (zeros ++ ones) =
      join (ofEntries width zeros) (ofEntries width ones) := by
  have left : (zeros ++ ones).filter (fun entry => !entry.1.testBit width) = zeros := by
    rw [List.filter_append, List.filter_eq_self.2 fun entry mem => by rw [zero_bit entry mem]; rfl,
      List.filter_eq_nil_iff.2 fun entry mem => by rw [one_bit entry mem]; decide, List.append_nil]
  have right : (zeros ++ ones).filter (fun entry => entry.1.testBit width) = ones := by
    rw [List.filter_append, List.filter_eq_self.2 one_bit,
      List.filter_eq_nil_iff.2 fun entry mem => by rw [zero_bit entry mem]; decide, List.nil_append]
  rw [ofEntries_succ, left, right]

theorem ofEntries_nil (width : ℕ) : ofEntries width [] = none := by
  cases width <;> rfl

/-- A leading bit that all keys have in common goes in front of the label at the root. -/
theorem ofEntries_of_agree {bit : Bool} (agree : ∀ entry ∈ entries, entry.1.testBit width = bit) :
    ofEntries (width + 1) entries = (ofEntries width entries).map (Trie.prepend bit) := by
  cases bit with
  | false =>
    have joined := ofEntries_append agree (List.forall_mem_nil _)
    rw [List.append_nil, ofEntries_nil] at joined
    rw [joined]
    cases ofEntries width entries <;> rfl
  | true =>
    have joined := ofEntries_append (List.forall_mem_nil _) agree
    rw [List.nil_append, ofEntries_nil] at joined
    rw [joined]
    cases ofEntries width entries <;> rfl

/-- The entries follow the paths of the trie with the low bits of their keys. -/
def Follow (width : ℕ) (entries : List (ℕ × Cell)) (trie : Trie) : Prop :=
  (entries.map fun entry => (Bits.ofNat width entry.1, entry.2)) = trie.paths

theorem Follow.of_prepend {bit : Bool} (follow : Follow (width + 1) entries (trie.prepend bit)) :
    (∀ entry ∈ entries, entry.1.testBit width = bit) ∧ Follow width entries trie := by
  unfold Follow at follow ⊢
  rw [paths_prepend] at follow
  constructor
  · intro entry mem
    have held : (Bits.ofNat (width + 1) entry.1, entry.2) ∈ trie.paths.map _ :=
      follow ▸ List.mem_map.2 ⟨entry, mem, rfl⟩
    obtain ⟨path, -, same⟩ := List.mem_map.1 held
    exact (List.cons.inj (Prod.mk.inj same).1).1.symm
  · have tails := congrArg (List.map fun path : Bits × Cell => (path.1.tail, path.2)) follow
    simpa only [List.map_map, Function.comp_def, Bits.ofNat, List.tail_cons, List.map_id']
      using tails

theorem ofEntries_eq (grows : Grows width trie) (follow : Follow width entries trie) :
    ofEntries width entries = some trie := by
  induction grows generalizing entries with
  | leaf value =>
    obtain ⟨entry, rfl, same⟩ := List.map_eq_singleton_iff.1 follow
    cases same
    rfl
  | fork _ _ zero_ih one_ih =>
    unfold Follow at follow
    rw [paths_fork_nil, List.map_eq_append_iff] at follow
    obtain ⟨zeros, ones, rfl, zeros_follow, ones_follow⟩ := follow
    obtain ⟨zero_bit, zeros_follow⟩ := Follow.of_prepend zeros_follow
    obtain ⟨one_bit, ones_follow⟩ := Follow.of_prepend ones_follow
    rw [ofEntries_append zero_bit one_bit, zero_ih zeros_follow, one_ih ones_follow]
    rfl
  | prepend bit _ ih =>
    obtain ⟨same, rest⟩ := follow.of_prepend
    rw [ofEntries_of_agree same, ih rest]
    rfl

/-- The trie of the entries of a trie is this trie. -/
theorem ofEntries_entries (grows : Grows width trie) :
    ofEntries width trie.entries = some trie := by
  refine grows.ofEntries_eq ?_
  unfold Follow Trie.entries
  rw [List.map_map]
  conv_rhs => rw [← List.map_id trie.paths]
  refine List.map_congr_left fun path mem => ?_
  have spelled := Bits.ofNat_toNat path.1
  rw [grows.length_eq mem] at spelled
  simp only [Function.comp_apply, spelled, id]

end Grows

end Trie

/-! ## Reading without duplicates -/

namespace Dictionary

/-- A cell is read as a dictionary when it is a trie, and then the dictionary has its entries. -/
theorem decode_ok_iff_entries {dictionary : Dictionary} {width : ℕ} {root : Cell} :
    decode width root = .ok dictionary ↔ (1 ≤ width ∧ width ≤ 64) ∧
      ∃ trie, Trie.Derives width root trie ∧ dictionary.entries = trie.entries := by
  rw [decode_ok_iff]
  refine and_congr_right fun _ => exists_congr fun trie => and_congr_right fun derives => ?_
  have collected := ofEntries_entries ⟨trie.entries, derives.fits.grows.ascending⟩
  show ofEntries trie.entries = _ ↔ _
  rw [collected, Except.ok.injEq, Dictionary.ext_iff, eq_comm]

end Dictionary

end WalletWire
