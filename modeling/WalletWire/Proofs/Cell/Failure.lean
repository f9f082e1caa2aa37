import WalletWire.Proofs.Cell.Tree
import WalletWire.Proofs.Cell.Writing

/-!
# What reading and writing fail for

A read fails because of what is left of the cell: too little, or too much at the end
(`Cell.Error.OfReading`).  A write fails for want of room (`Cell.Error.OfRoom`).  One that has room
for all it appends can fail for one reason only, which is that a cell is too deep to be referred to;
`Store.AppendsUnless` carries this through the parts of a write.
-/

namespace WalletWire

open Program

/-! ## Reading -/

/-- The error lies in what is left to read, or in a label that is longer than its key. -/
inductive Cell.Error.OfReading : Cell.Error → Prop where
  | notEnoughBits {requested available : ℕ} (short : available < requested) :
      OfReading (.notEnoughBits requested available)
  | notEnoughRefs : OfReading .notEnoughRefs
  | trailingData {bits refs : ℕ} (more : 0 < bits + refs) : OfReading (.trailingData bits refs)
  | invalidLabel {length max : ℕ} (long : max < length) : OfReading (.invalidLabel length max)

/-- The body cannot be read, for one of these errors. -/
inductive BodyError.OfReading : BodyError → Prop where
  | cell {cause : Cell.Error} (reading : cause.OfReading) : OfReading (.layout (.cell cause))

theorem BodyError.OfReading.inLayout {e : BodyError} (reading : e.OfReading) : e.InLayout := by
  cases reading
  exact ⟨_, rfl⟩

theorem Program.FailsOnly.liftReading {σ α : Type} {x : EStateM Cell.Error σ α}
    (h : FailsOnly x Cell.Error.OfReading) :
    FailsOnly (liftM x : EStateM BodyError σ α) BodyError.OfReading :=
  h.lift fun _ => .cell

theorem Outcome.FailsOnly.liftReading {α : Type} {x : Except Cell.Error α}
    (h : FailsOnly x Cell.Error.OfReading) :
    FailsOnly (liftM x : Except BodyError α) BodyError.OfReading :=
  h.lift fun _ => .cell

namespace Load

/-- Reading bits fails just when there are too few of them. -/
theorem bits_error {count : ℕ} {slice rest : Slice} {e : Cell.Error}
    (failed : bits count slice = .error e rest) :
    slice.bits.length < count ∧ e = .notEnoughBits count slice.bits.length := by
  by_cases enough : count ≤ slice.bits.length
  · rw [bits_eq enough] at failed
    cases failed
  · have short := Nat.lt_of_not_le enough
    rw [bits_short short] at failed
    cases failed
    exact ⟨short, rfl⟩

theorem failsOnly_bits (count : ℕ) : FailsOnly (bits count) Cell.Error.OfReading := by
  intro slice e rest failed
  obtain ⟨short, rfl⟩ := bits_error failed
  exact .notEnoughBits short

theorem failsOnly_ref : FailsOnly ref Cell.Error.OfReading := by
  intro slice e rest failed
  cases left : slice.refs with
  | nil =>
    rw [ref_short left] at failed
    cases failed
    exact .notEnoughRefs
  | cons cell cells =>
    rw [ref_eq left] at failed
    cases failed

theorem failsOnly_finish : FailsOnly finish Cell.Error.OfReading := by
  intro slice e rest failed
  unfold finish at failed
  split at failed
  · cases failed
  · next more =>
    cases failed
    refine .trailingData (Nat.pos_of_ne_zero fun none_left => more ?_)
    obtain ⟨no_bits, no_refs⟩ := Nat.add_eq_zero_iff.1 none_left
    rw [Slice.isEmpty, List.length_eq_zero_iff.1 no_bits, List.length_eq_zero_iff.1 no_refs]
    rfl

theorem failsOnly_bit : FailsOnly bit Cell.Error.OfReading :=
  (failsOnly_bits 1).bind fun _ => failsOnly_pure _

theorem failsOnly_uint {width : ℕ} (narrow : width ≤ 64) :
    FailsOnly (uint width) Cell.Error.OfReading := by
  unfold uint
  rw [if_pos narrow]
  exact (failsOnly_bits width).bind fun _ => failsOnly_pure _

/-- A machine word is read as a number of its width. -/
theorem failsOnly_word {W : Type} {width : ℕ} (ofNat : ℕ → W) (narrow : width ≤ 64) :
    FailsOnly (do return ofNat (← uint width)) Cell.Error.OfReading :=
  (failsOnly_uint narrow).bind fun _ => failsOnly_pure _

/-- Reading a machine word fails just when there are too few bits. -/
theorem word_error {W : Type} {width : ℕ} {ofNat : ℕ → W} (narrow : width ≤ 64)
    {slice rest : Slice} {e : Cell.Error}
    (failed : (do return ofNat (← uint width) : Load Cell.Error W) slice = .error e rest) :
    slice.bits.length < width := by
  unfold uint at failed
  rw [if_pos narrow] at failed
  obtain failed | ⟨_, _, -, ⟨⟩⟩ := bind_error_iff.1 failed
  obtain failed | ⟨_, _, -, ⟨⟩⟩ := bind_error_iff.1 failed
  exact (bits_error failed).1

theorem failsOnly_u8 : FailsOnly u8 Cell.Error.OfReading := failsOnly_word _ (by decide)

theorem failsOnly_u32 : FailsOnly u32 Cell.Error.OfReading := failsOnly_word _ (by decide)

theorem failsOnly_u64 : FailsOnly u64 Cell.Error.OfReading := failsOnly_word _ (by decide)

theorem failsOnly_i8 : FailsOnly i8 Cell.Error.OfReading :=
  failsOnly_u8.bind fun _ => failsOnly_pure _

theorem failsOnly_bytes (count : ℕ) : FailsOnly (bytes count) Cell.Error.OfReading :=
  (failsOnly_bits _).bind fun _ => failsOnly_pure _

theorem failsOnly_rest : FailsOnly rest Cell.Error.OfReading :=
  failsOnly_get.bind fun _ => failsOnly_pure _

end Load

/-! ## Writing -/

/-- There is room behind the builder for these bits and references. -/
def Builder.HasRoom (builder : Builder) (bits : Bits) (refs : List Cell) : Prop :=
  builder.bits.length + bits.length ≤ maxBits ∧ builder.refs.length + refs.length ≤ maxRefs

theorem Builder.exists_extends_iff {builder : Builder} {bits : Bits} {refs : List Cell} :
    (∃ result, builder.Extends bits refs result) ↔
      builder.HasRoom bits refs ∧ ∀ child ∈ refs, child.depth < maxDepth := by
  constructor
  · rintro ⟨result, hb, hr⟩
    have bits_fit := result.bits_le
    have refs_fit := result.refs_le
    rw [hb, List.length_append] at bits_fit
    rw [hr, List.length_append] at refs_fit
    refine ⟨⟨bits_fit, refs_fit⟩, fun child mem => result.depth_lt child ?_⟩
    rw [hr]
    exact List.mem_append_right _ mem
  · rintro ⟨⟨bits_fit, refs_fit⟩, shallow⟩
    exact ⟨builder.append bits refs bits_fit refs_fit shallow, rfl, rfl⟩

/-- A reference to a cell of the greatest depth is refused for this. -/
def Cell.Error.tooDeep : Cell.Error := .depthOverflow maxDepth maxDepth

/-- There is no room: too few bits are free, or a cell is too deep to be referred to. -/
inductive Cell.Error.OfRoom : Cell.Error → Prop where
  | bitOverflow {requested available : ℕ} (short : available < requested) :
      OfRoom (.bitOverflow requested available)
  | tooDeep : OfRoom .tooDeep

namespace Store

variable {ε : Type} {P : ε → Prop} {bs bs' : Bits} {cells cells' : List Cell}

/-- With room for the references, a write fails only for want of room for the bits. -/
theorem append_error {shallow : ∀ child ∈ cells, child.depth < maxDepth} {builder left : Builder}
    {e : Cell.Error} (refs_fit : builder.refs.length + cells.length ≤ maxRefs)
    (failed : append bs cells shallow builder = .error e left) :
    e = .bitOverflow bs.length builder.freeBits ∧ builder.freeBits < bs.length := by
  by_cases bits_fit : builder.bits.length + bs.length ≤ maxBits
  · rw [append_eq bits_fit refs_fit] at failed
    cases failed
  · rw [append_of_bits (Nat.lt_of_not_le bits_fit)] at failed
    cases failed
    have written := builder.bits_le
    refine ⟨rfl, ?_⟩
    unfold Builder.freeBits
    omega

/-- The write appends these bits and references.  Where there is room for them it fails with no
errors but those in `P`. -/
structure AppendsUnless (P : ε → Prop) (write : Store ε Unit) (bits : Bits) (refs : List Cell) :
    Prop where
  appends : write.Appends bits refs
  fails : ∀ builder : Builder, builder.HasRoom bits refs →
    ∀ e left, write builder = .error e left → P e

namespace AppendsUnless

theorem bind {x y : Store ε Unit} (hx : AppendsUnless P x bs cells)
    (hy : AppendsUnless P y bs' cells') :
    AppendsUnless P (x >>= fun _ => y) (bs ++ bs') (cells ++ cells') where
  appends := hx.appends.bind hy.appends
  fails := by
    rintro builder ⟨bits_fit, refs_fit⟩ e left failed
    rw [List.length_append] at bits_fit refs_fit
    obtain failed | ⟨_, mid, written, failed⟩ := bind_error_iff.1 failed
    · exact hx.fails builder ⟨by omega, by omega⟩ e left failed
    · obtain ⟨mid_bits, mid_refs⟩ := (hx.appends builder mid).1 written
      refine hy.fails mid ⟨?_, ?_⟩ e left failed
      · rw [mid_bits, List.length_append]
        omega
      · rw [mid_refs, List.length_append]
        omega

theorem lift {P : BodyError → Prop} {Q : Cell.Error → Prop} {x : Store Cell.Error Unit}
    (hx : AppendsUnless Q x bs cells) (into : ∀ e, Q e → P (.ofCell e)) :
    AppendsUnless P (liftM x : Store BodyError Unit) bs cells where
  appends := hx.appends.lift
  fails := by
    intro builder room e left failed
    obtain ⟨cause, refused, rfl⟩ := lift_error_iff.1 failed
    exact into cause (hx.fails builder room cause left refused)

/-- Bits for which there is room are written without fail. -/
theorem of_bits {write : Store ε Unit} (appends : write.Appends bs []) :
    AppendsUnless P write bs [] where
  appends := appends
  fails := by
    rintro builder ⟨bits_fit, refs_fit⟩ e left failed
    let result := builder.append bs [] bits_fit refs_fit depth_lt_of_mem_nil
    have written : write builder = .ok () result := (appends builder result).2 ⟨rfl, rfl⟩
    rw [written] at failed
    cases failed

theorem ref (cell : Cell) : AppendsUnless (· = .tooDeep) (Store.ref cell) [] [cell] where
  appends := appends_ref cell
  fails := by
    rintro builder ⟨bits_fit, refs_fit⟩ e left failed
    unfold Store.ref at failed
    by_cases shallow : cell.depth < maxDepth
    · rw [dif_pos shallow, append_eq bits_fit refs_fit] at failed
      cases failed
    · rw [dif_neg shallow, if_pos (Nat.lt_of_succ_le refs_fit)] at failed
      cases failed
      have deepest : cell.depth = maxDepth := le_antisymm cell.depth_le (Nat.le_of_not_lt shallow)
      rw [deepest]
      rfl

theorem refOf (cell : Cell) : AppendsUnless (· = BodyError.ofCell .tooDeep)
    (liftM (Store.ref cell) : Store BodyError Unit) [] [cell] :=
  (ref cell).lift fun _ => congrArg BodyError.ofCell

theorem build_error {write : Store ε Unit} (h : AppendsUnless P write bs cells)
    (bits_fit : bs.length ≤ maxBits) (refs_fit : cells.length ≤ maxRefs) {e : ε}
    (failed : Cell.build write = .error e) : P e := by
  have room : Builder.empty.HasRoom bs cells := by
    unfold Builder.HasRoom
    simpa [Builder.empty, Content.empty] using And.intro bits_fit refs_fit
  unfold Cell.build at failed
  split at failed
  · cases failed
  · next cause left written =>
    cases failed
    exact h.fails _ room _ _ written

end AppendsUnless

end Store

end WalletWire
