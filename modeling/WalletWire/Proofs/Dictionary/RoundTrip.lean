import WalletWire.Proofs.Dictionary.Entries

/-!
# Dictionaries in a cell

A dictionary that has been written, among whatever else, is read back where it was written
(`load_store_dictionary`).
-/

namespace WalletWire

open Program

namespace Dictionary

/-! ## Entries in ascending order -/

theorem place_of_lt {key : ℕ} {value : Cell} {entries : List (ℕ × Cell)}
    (below : ∀ entry ∈ entries, key < entry.1) :
    place key value entries = some ((key, value) :: entries) := by
  cases entries with
  | nil => rfl
  | cons first others => rw [place, if_pos (below first (List.mem_cons_self ..))]

theorem place_of_gt {key : ℕ} {value : Cell} {entries : List (ℕ × Cell)}
    (above : ∀ entry ∈ entries, entry.1 < key) :
    place key value entries = some (entries ++ [(key, value)]) := by
  induction entries with
  | nil => rfl
  | cons first others ih =>
    obtain ⟨less, others_less⟩ := List.forall_mem_cons.1 above
    rw [place, if_neg less.not_gt, if_neg less.ne', ih others_less]
    rfl

theorem insert_of_place {dictionary : Dictionary} {key : ℕ} {value : Cell}
    {entries : List (ℕ × Cell)} (placed : place key value dictionary.entries = some entries) :
    dictionary.insert key value =
      .ok ⟨entries, pairwise_of_place dictionary.ascending placed⟩ := by
  unfold insert
  split
  · next found =>
    rw [placed, Option.some.injEq] at found
    subst found
    rfl
  · next missing =>
    rw [placed] at missing
    cases missing

/-- A dictionary is the dictionary of its entries. -/
theorem ofEntries_entries (dictionary : Dictionary) :
    ofEntries dictionary.entries = .ok dictionary := by
  obtain ⟨entries, ascending⟩ := dictionary
  induction entries with
  | nil => rfl
  | cons first others ih =>
    obtain ⟨above, others_ascend⟩ := List.pairwise_cons.1 ascending
    have inner := ih others_ascend
    simp only [ofEntries, List.foldrM_cons] at inner ⊢
    rw [inner]
    exact insert_of_place (place_of_lt above)

/-! ## The trie of a dictionary -/

theorem checkWidth_ok_iff {width : ℕ} {u : Unit} :
    checkWidth width = .ok u ↔ 1 ≤ width ∧ width ≤ 64 := by
  unfold checkWidth
  split <;> simp_all

theorem checkKeys_ok_iff {dictionary : Dictionary} {width : ℕ} {u : Unit} :
    dictionary.checkKeys width = .ok u ↔ ∀ entry ∈ dictionary.entries, entry.1 < 2 ^ width := by
  unfold checkKeys keys
  rw [← List.forall_mem_map (P := (· < 2 ^ width))]
  split
  · next key found =>
    have out := List.find?_some found
    have mem := List.mem_of_find?_eq_some found
    simp only [Bool.not_eq_true', Bool.eq_false_iff, ne_eq, Bits.fits_iff] at out
    simp only [reduceCtorEq, false_iff]
    exact fun all => out (all key mem)
  · next none_out =>
    simp only [List.find?_eq_none, Bool.not_eq_true', Bool.not_eq_false, Bits.fits_iff] at none_out
    simp only [true_iff]
    exact none_out

theorem encode_ok_iff {dictionary : Dictionary} {width : ℕ} {root? : Option Cell} :
    dictionary.encode width = .ok root? ↔ (1 ≤ width ∧ width ≤ 64) ∧
      (∀ entry ∈ dictionary.entries, entry.1 < 2 ^ width) ∧
      (Trie.ofEntries width dictionary.entries).mapM (Trie.encode width) = .ok root? := by
  unfold encode
  simp only [Outcome.bind_ok_iff, checkWidth_ok_iff, checkKeys_ok_iff, exists_const]

theorem encode_some_iff {dictionary : Dictionary} {width : ℕ} {root : Cell} :
    dictionary.encode width = .ok (some root) ↔ (1 ≤ width ∧ width ≤ 64) ∧
      (∀ entry ∈ dictionary.entries, entry.1 < 2 ^ width) ∧
      ∃ trie, Trie.ofEntries width dictionary.entries = some trie ∧
        trie.encode width = .ok root := by
  rw [encode_ok_iff]
  cases Trie.ofEntries width dictionary.entries <;> simp [Option.mapM]

theorem decode_ok_iff {dictionary : Dictionary} {width : ℕ} {root : Cell} :
    decode width root = .ok dictionary ↔ (1 ≤ width ∧ width ≤ 64) ∧
      ∃ trie, Trie.Derives width root trie ∧
        ofEntries (trie.paths.map fun path => (path.1.toNat, path.2)) = .ok dictionary := by
  unfold decode
  simp only [Outcome.bind_ok_iff, checkWidth_ok_iff, exists_const]
  refine and_congr_right fun width_ok => exists_congr fun trie => and_congr_left fun _ => ?_
  exact Trie.decode_ok_iff width_ok.2

theorem ascends {dictionary : Dictionary} {width : ℕ}
    (fits : ∀ entry ∈ dictionary.entries, entry.1 < 2 ^ width) :
    Trie.Ascends width dictionary.entries := by
  refine List.Pairwise.imp_of_mem ?_ dictionary.ascending
  intro e f he hf lt
  rwa [Nat.mod_eq_of_lt (fits e he), Nat.mod_eq_of_lt (fits f hf)]

/-- A dictionary whose keys fit is found again in the paths of its trie. -/
theorem entries_of_paths {dictionary : Dictionary} {width : ℕ}
    (fits : ∀ entry ∈ dictionary.entries, entry.1 < 2 ^ width) :
    (Trie.pathsOf (Trie.ofEntries width dictionary.entries)).map
      (fun path => (path.1.toNat, path.2)) = dictionary.entries := by
  rw [Trie.paths_ofEntries (ascends fits), List.map_map]
  conv_rhs => rw [← List.map_id dictionary.entries]
  refine List.map_congr_left fun entry mem => ?_
  simp only [Function.comp_apply, Bits.toNat_ofNat, Nat.mod_eq_of_lt (fits entry mem), id]

/-- The dictionary of a root that is there unless the dictionary is empty. -/
def ofRoot? (width : ℕ) : Option Cell → Except Cell.Error Dictionary
  | none => .ok .empty
  | some root => decode width root

theorem eq_empty_of_encode {dictionary : Dictionary} {width : ℕ}
    (written : dictionary.encode width = .ok none) : dictionary = empty := by
  obtain ⟨-, fits, built⟩ := encode_ok_iff.1 written
  have paths := entries_of_paths fits
  cases none_built : Trie.ofEntries width dictionary.entries with
  | none =>
    rw [none_built] at paths
    exact Dictionary.ext paths.symm
  | some trie =>
    rw [none_built] at built
    simp [Option.mapM] at built

theorem decode_of_encode {dictionary : Dictionary} {width : ℕ} {root : Cell}
    (written : dictionary.encode width = .ok (some root)) :
    decode width root = .ok dictionary := by
  obtain ⟨width_ok, fits, trie, built, encoded⟩ := encode_some_iff.1 written
  have paths := entries_of_paths fits
  rw [built] at paths
  refine decode_ok_iff.2 ⟨width_ok, trie, ?_, ?_⟩
  · exact Trie.derives_of_encode (Trie.fits_ofEntries built) encoded
  · rw [show trie.paths.map _ = _ from paths]
    exact ofEntries_entries dictionary

theorem ofRoot?_of_encode {dictionary : Dictionary} {width : ℕ} {root? : Option Cell}
    (written : dictionary.encode width = .ok root?) : ofRoot? width root? = .ok dictionary := by
  cases root? with
  | none => exact congrArg Except.ok (eq_empty_of_encode written).symm
  | some root => exact decode_of_encode written

theorem isSome_encode_iff {width : ℕ} {dictionary : Dictionary} {root? : Option Cell}
    (written : dictionary.encode width = .ok root?) :
    root?.isSome = true ↔ dictionary.entries ≠ [] := by
  cases root? with
  | none => simp [eq_empty_of_encode written, empty]
  | some root =>
    obtain ⟨-, -, trie, built, -⟩ := encode_some_iff.1 written
    simp only [Option.isSome_some, ne_eq, true_iff]
    intro none_left
    rw [none_left] at built
    simp [Trie.ofEntries] at built

end Dictionary

/-! ## A dictionary among other data -/

theorem Store.dictionary_ok_iff {width : ℕ} {dictionary : Dictionary} {builder stored : Builder} :
    Store.dictionary width dictionary builder = .ok () stored ↔
      ∃ root?, dictionary.encode width = .ok root? ∧
        builder.Extends [root?.isSome] root?.toList stored := by
  unfold Store.dictionary
  simp only [bind_ok_iff, ofExcept_ok_iff]
  constructor
  · rintro ⟨root?, _, ⟨written, rfl⟩, h⟩
    refine ⟨root?, written, ?_⟩
    cases root? with
    | none => exact (appends_bit false _ _).1 h
    | some root => exact ((appends_bit true).bind (appends_ref root) _ _).1 h
  · rintro ⟨root?, written, h⟩
    refine ⟨root?, builder, ⟨written, rfl⟩, ?_⟩
    cases root? with
    | none => exact (appends_bit false _ _).2 h
    | some root => exact ((appends_bit true).bind (appends_ref root) _ _).2 h

theorem Load.dictionary_ok_iff {width : ℕ} {dictionary : Dictionary} {slice rest : Slice} :
    Load.dictionary width slice = .ok dictionary rest ↔ (1 ≤ width ∧ width ≤ 64) ∧
      ∃ root?, slice.Splits [root?.isSome] root?.toList rest ∧
        Dictionary.ofRoot? width root? = .ok dictionary := by
  unfold Load.dictionary
  simp only [bind_ok_iff, ofExcept_ok_iff, Dictionary.checkWidth_ok_iff, Load.bit_ok_iff]
  constructor
  · rintro ⟨⟨⟩, _, ⟨width_ok, rfl⟩, marked, mid, h, done⟩
    refine ⟨width_ok, ?_⟩
    cases marked with
    | false =>
      obtain ⟨rfl, rfl⟩ := pure_ok_iff.1 done
      exact ⟨none, h, rfl⟩
    | true =>
      simp only [if_true, bind_ok_iff, ofExcept_ok_iff, Load.ref_ok_iff] at done
      obtain ⟨root, _, h', decoded, rfl⟩ := done
      exact ⟨some root, h.append h', decoded⟩
  · rintro ⟨width_ok, root?, h, decoded⟩
    refine ⟨(), slice, ⟨width_ok, rfl⟩, ?_⟩
    cases root? with
    | none => exact ⟨false, rest, h, pure_ok_iff.2 ⟨Except.ok.inj decoded, rfl⟩⟩
    | some root =>
      obtain ⟨mid, h, h'⟩ := Slice.splits_bit_iff.1 h
      refine ⟨true, mid, h, ?_⟩
      simp only [if_true, bind_ok_iff, ofExcept_ok_iff, Load.ref_ok_iff]
      exact ⟨root, rest, h', decoded, rfl⟩

/-- A dictionary is read back from where it was written, and reading it stops where the data
written after it begin. -/
theorem load_store_dictionary {width : ℕ} {dictionary : Dictionary}
    {builder stored finished : Builder} {bits : Bits} {refs : List Cell}
    (written : Store.dictionary width dictionary builder = .ok () stored)
    (followed : stored.Extends bits refs finished) :
    let slice := ((Slice.ofCell finished.build).dropBits builder.bits.length).dropRefs
      builder.refs.length
    ∃ rest, Load.dictionary width slice = .ok dictionary rest ∧
      rest.bits = bits ∧ rest.refs = refs ∧ slice.bits.length = bits.length + 1 ∧
      slice.refs.length = refs.length + if dictionary.entries = [] then 0 else 1 := by
  intro slice
  obtain ⟨root?, encoded, appended⟩ := Store.dictionary_ok_iff.1 written
  have whole := Builder.extends_append_iff.2 ⟨stored, appended, followed⟩
  have slice_bits : slice.bits = [root?.isSome] ++ bits := by
    show finished.bits.drop builder.bits.length = _
    rw [whole.1, List.drop_left]
  have slice_refs : slice.refs = root?.toList ++ refs := by
    show finished.build.refs.drop builder.refs.length = _
    rw [finished.build_holds.refs_eq, whole.2, List.drop_left]
  obtain ⟨rest, split, rest_bits, rest_refs⟩ := Slice.exists_splits slice_bits slice_refs
  have read : Load.dictionary width slice = .ok dictionary rest :=
    Load.dictionary_ok_iff.2 ⟨(Dictionary.encode_ok_iff.1 encoded).1, root?, split,
      Dictionary.ofRoot?_of_encode encoded⟩
  refine ⟨rest, read, rest_bits, rest_refs, ?_, ?_⟩
  · rw [slice_bits, List.length_append, List.length_singleton, Nat.add_comm]
  · rw [slice_refs, List.length_append, Nat.add_comm]
    congr 1
    have marked := Dictionary.isSome_encode_iff encoded
    cases root? with
    | none => simp_all
    | some root => simp_all

/-- Two keys that differ in all of their 64 bits. -/
def farKeys : Dictionary :=
  ⟨[(0, .empty), (2 ^ 64 - 1, .empty)], by decide⟩

theorem load_store_dictionary_farKeys : ∃ (builder stored finished : Builder) (rest : Slice),
    builder.bits = [true] ∧ builder.refs = [.empty] ∧
    Store.dictionary 64 farKeys builder = .ok () stored ∧
    stored.Extends [false] [.empty] finished ∧
    Load.dictionary 64 (((Slice.ofCell finished.build).dropBits 1).dropRefs 1) =
      .ok farKeys rest ∧ rest.bits = [false] ∧ rest.refs = [.empty] := by
  have shallow : ∀ child ∈ [Cell.empty], child.depth < maxDepth := by decide
  let builder := Builder.empty.append [true] [.empty] (by decide) (by decide) shallow
  obtain ⟨stored, finished, written, more⟩ : ∃ stored finished,
      Store.dictionary 64 farKeys builder = .ok () stored ∧
      Store.append [false] [.empty] shallow stored = .ok () finished := ⟨_, _, rfl, rfl⟩
  have followed := (Store.appends_append shallow _ _).1 more
  obtain ⟨rest, read, rest_bits, rest_refs, -, -⟩ := load_store_dictionary written followed
  exact ⟨builder, stored, finished, rest, rfl, rfl, written, followed, read, rest_bits, rest_refs⟩

end WalletWire
