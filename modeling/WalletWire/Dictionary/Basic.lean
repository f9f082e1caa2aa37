import WalletWire.Cell.Basic
import WalletWire.Cell.Error

/-!
# Dictionaries

A dictionary maps unsigned numbers to cells.  It is a list of entries in ascending order of their
keys, so that two dictionaries with the same entries are equal.
-/

namespace WalletWire

/-- Entries with distinct keys, in ascending order. -/
@[ext] structure Dictionary where
  entries : List (Nat × Cell)
  ascending : entries.Pairwise fun e f => e.1 < f.1

namespace Dictionary

/-- No entries. -/
def empty : Dictionary := ⟨[], .nil⟩

/-- The keys in ascending order. -/
def keys (dictionary : Dictionary) : List Nat :=
  dictionary.entries.map Prod.fst

/-- An ascending list of entries with one more in its place, unless the key is there. -/
def place (key : Nat) (value : Cell) : List (Nat × Cell) → Option (List (Nat × Cell))
  | [] => some [(key, value)]
  | entry :: entries =>
    if key < entry.1 then some ((key, value) :: entry :: entries)
    else if key = entry.1 then none
    else (place key value entries).map (entry :: ·)

theorem mem_of_place {key : Nat} {value : Cell} {entries placed : List (Nat × Cell)}
    (h : place key value entries = some placed) {entry : Nat × Cell} (mem : entry ∈ placed) :
    entry = (key, value) ∨ entry ∈ entries := by
  induction entries generalizing placed with
  | nil =>
    simp only [place, Option.some.injEq] at h
    subst h
    exact .inl (List.mem_singleton.1 mem)
  | cons first rest ih =>
    simp only [place] at h
    split at h
    · simp only [Option.some.injEq] at h
      subst h
      exact (List.mem_cons.1 mem)
    · split at h
      · simp at h
      · obtain ⟨inner, found, rfl⟩ := Option.map_eq_some_iff.1 h
        rcases List.mem_cons.1 mem with rfl | mem
        · exact .inr (List.mem_cons_self ..)
        · exact (ih found mem).imp_right (List.mem_cons_of_mem _)

theorem pairwise_of_place {key : Nat} {value : Cell} {entries placed : List (Nat × Cell)}
    (ascending : entries.Pairwise fun e f => e.1 < f.1)
    (h : place key value entries = some placed) : placed.Pairwise fun e f => e.1 < f.1 := by
  induction entries generalizing placed with
  | nil =>
    simp only [place, Option.some.injEq] at h
    subst h
    exact List.pairwise_singleton ..
  | cons first rest ih =>
    have above := (List.pairwise_cons.1 ascending).1
    simp only [place] at h
    split at h
    · next less =>
      simp only [Option.some.injEq] at h
      subst h
      refine List.pairwise_cons.2 ⟨fun entry mem => ?_, ascending⟩
      rcases List.mem_cons.1 mem with rfl | mem
      · exact less
      · exact Nat.lt_trans less (above entry mem)
    · split at h
      · simp at h
      · obtain ⟨inner, found, rfl⟩ := Option.map_eq_some_iff.1 h
        have tail := ih (List.pairwise_cons.1 ascending).2 found
        refine List.pairwise_cons.2 ⟨fun entry mem => ?_, tail⟩
        rcases mem_of_place found mem with rfl | mem
        · show first.1 < key
          omega
        · exact above entry mem

/-- The dictionary with one entry more, whose key must be new. -/
def insert (dictionary : Dictionary) (key : Nat) (value : Cell) : Except Cell.Error Dictionary :=
  match h : place key value dictionary.entries with
  | some entries => .ok ⟨entries, pairwise_of_place dictionary.ascending h⟩
  | none => .error (.duplicateKey key)

/-- The dictionary of entries in any order; a key that comes twice is refused. -/
def ofEntries (entries : List (Nat × Cell)) : Except Cell.Error Dictionary :=
  entries.foldrM (fun entry dictionary => dictionary.insert entry.1 entry.2) empty

end Dictionary

end WalletWire
