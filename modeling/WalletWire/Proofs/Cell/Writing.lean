import WalletWire.Bits.Lemmas
import WalletWire.Cell.Builder
import WalletWire.Proofs.Cell.Reading

/-!
# What writing appends

A write that ends well extends the builder: `builder.Extends bits refs result` says that `result`
is the builder with `bits` and `refs` behind it.  As a builder always fits in one cell, a write
`Appends` its bits and references exactly when it ends well, and nothing more has to be said about
room or depth.
-/

namespace WalletWire

open Program

namespace Builder

theorem eq_of_bits_refs {b c : Builder} (bits : b.bits = c.bits) (refs : b.refs = c.refs) :
    b = c := by
  cases b
  cases c
  exact congrArg Builder.mk (Content.ext bits refs)

/-- The result is the builder with these bits and references behind it. -/
def Extends (builder : Builder) (bits : Bits) (refs : List Cell) (result : Builder) : Prop :=
  result.bits = builder.bits ++ bits ∧ result.refs = builder.refs ++ refs

variable {builder result : Builder} {bits bits' : Bits} {refs refs' : List Cell}

theorem extends_nil_iff : builder.Extends [] [] result ↔ builder = result := by
  constructor
  · rintro ⟨hb, hr⟩
    rw [List.append_nil] at hb hr
    exact (eq_of_bits_refs hb hr).symm
  · rintro rfl
    exact ⟨(List.append_nil _).symm, (List.append_nil _).symm⟩

/-- What fits in two parts fits when only the first is written. -/
theorem extends_append_iff : builder.Extends (bits ++ bits') (refs ++ refs') result ↔
    ∃ mid, builder.Extends bits refs mid ∧ mid.Extends bits' refs' result := by
  constructor
  · rintro ⟨hb, hr⟩
    have bits_fit := result.bits_le
    have refs_fit := result.refs_le
    rw [hb, List.length_append, List.length_append] at bits_fit
    rw [hr, List.length_append, List.length_append] at refs_fit
    have shallow : ∀ child ∈ refs, child.depth < maxDepth := by
      intro child mem
      apply result.depth_lt
      rw [hr]
      simp only [List.mem_append, mem, true_or, or_true]
    refine ⟨builder.append bits refs (by omega) (by omega) shallow, ⟨rfl, rfl⟩, ?_, ?_⟩
    · rw [hb]
      exact (List.append_assoc ..).symm
    · rw [hr]
      exact (List.append_assoc ..).symm
  · rintro ⟨mid, h, h'⟩
    refine ⟨?_, ?_⟩
    · rw [h'.1, h.1, List.append_assoc]
    · rw [h'.2, h.2, List.append_assoc]

theorem build_holds (builder : Builder) : builder.build.Holds builder.bits builder.refs :=
  ⟨rfl, Cell.refs_ofContent _⟩

theorem empty_extends_iff : empty.Extends bits refs result ↔ result.build.Holds bits refs := by
  constructor
  · rintro ⟨hb, hr⟩
    exact ⟨result.build_holds.bits_eq.trans hb, result.build_holds.refs_eq.trans hr⟩
  · rintro ⟨hb, hr⟩
    exact ⟨result.build_holds.bits_eq.symm.trans hb, result.build_holds.refs_eq.symm.trans hr⟩

end Builder

/-! ## Stores -/

namespace Store

variable {ε : Type} {bs bs' : Bits} {cells cells' : List Cell}

/-- The write appends these bits and references whenever there is room, and fails otherwise. -/
def Appends (write : Store ε Unit) (bits : Bits) (refs : List Cell) : Prop :=
  ∀ builder result, write builder = .ok () result ↔ builder.Extends bits refs result

theorem Appends.bind_ok_iff {x y : Store ε Unit} (hx : x.Appends bs cells)
    {builder result : Builder} : (x >>= fun _ => y) builder = .ok () result ↔
      ∃ mid, builder.Extends bs cells mid ∧ y mid = .ok () result := by
  rw [Program.bind_ok_iff]
  constructor
  · rintro ⟨⟨⟩, mid, hmid, hresult⟩
    exact ⟨mid, (hx _ _).1 hmid, hresult⟩
  · rintro ⟨mid, hmid, hresult⟩
    exact ⟨(), mid, (hx _ _).2 hmid, hresult⟩

theorem Appends.bind {x y : Store ε Unit} (hx : x.Appends bs cells) (hy : y.Appends bs' cells') :
    Appends (x >>= fun _ => y) (bs ++ bs') (cells ++ cells') := by
  intro builder result
  rw [Builder.extends_append_iff, hx.bind_ok_iff]
  exact exists_congr fun mid => and_congr_right fun _ => hy mid result

theorem Appends.lift {x : Store Cell.Error Unit} (hx : x.Appends bs cells) :
    Appends (liftM x : Store BodyError Unit) bs cells := by
  intro builder result
  rw [lift_ok_iff, hx]

theorem appends_pure : Appends (pure () : Store ε Unit) [] [] := by
  intro builder result
  rw [pure_ok_iff, Builder.extends_nil_iff]
  simp

theorem appends_append (shallow : ∀ child ∈ cells, child.depth < maxDepth) :
    (append bs cells shallow).Appends bs cells := by
  intro builder result
  unfold append
  constructor
  · intro h
    split at h
    · split at h
      · cases h
        exact ⟨rfl, rfl⟩
      · cases h
    · cases h
  · rintro ⟨hb, hr⟩
    have bits_fit := result.bits_le
    have refs_fit := result.refs_le
    rw [hb, List.length_append] at bits_fit
    rw [hr, List.length_append] at refs_fit
    rw [dif_pos bits_fit, dif_pos refs_fit]
    exact congrArg (EStateM.Result.ok ()) (Builder.eq_of_bits_refs hb.symm hr.symm)

theorem appends_bits : (bits bs).Appends bs [] := appends_append _

theorem appends_bit (b : Bool) : (bit b).Appends [b] [] := appends_bits

theorem appends_bytes (bytes : List UInt8) : (Store.bytes bytes).Appends (.ofBytes bytes) [] :=
  appends_bits

theorem appends_uint {value width : ℕ} (narrow : width ≤ 64) (fits : value < 2 ^ width) :
    (uint value width).Appends (.ofNat width value) [] := by
  unfold uint
  rw [if_pos (by simp [narrow, (Bits.fits_iff _ _).2 fits])]
  exact appends_bits

theorem appends_u8 (v : UInt8) : (u8 v).Appends (.ofNat 8 v.toNat) [] :=
  appends_uint (by decide) v.toNat_lt

theorem appends_i8 (v : Int8) : (i8 v).Appends (.ofNat 8 v.toUInt8.toNat) [] := appends_u8 _

theorem appends_u16 (v : UInt16) : (u16 v).Appends (.ofNat 16 v.toNat) [] :=
  appends_uint (by decide) v.toNat_lt

theorem appends_u32 (v : UInt32) : (u32 v).Appends (.ofNat 32 v.toNat) [] :=
  appends_uint (by decide) v.toNat_lt

theorem appends_u64 (v : UInt64) : (u64 v).Appends (.ofNat 64 v.toNat) [] :=
  appends_uint (by decide) v.toNat_lt

/-- A cell too deep to be referred to extends no builder. -/
theorem appends_ref (cell : Cell) : (ref cell).Appends [] [cell] := by
  intro builder result
  unfold ref
  by_cases shallow : cell.depth < maxDepth
  · rw [dif_pos shallow]
    exact appends_append _ builder result
  · rw [dif_neg shallow]
    constructor
    · intro h
      split at h <;> cases h
    · rintro ⟨-, hr⟩
      exact absurd (result.depth_lt cell (by rw [hr]; simp)) shallow

theorem appends_refs (cells : List Cell) : (refs cells).Appends [] cells := by
  induction cells with
  | nil => exact appends_pure
  | cons cell cells ih => exact (appends_ref cell).bind ih

theorem appends_inline (cell : Cell) : (inline cell).Appends cell.bits cell.refs :=
  appends_append _

end Store

theorem Cell.build_ok_iff {ε : Type} {write : Store ε Unit} {cell : Cell} :
    Cell.build write = .ok cell ↔ ∃ result, write .empty = .ok () result ∧ result.build = cell := by
  unfold Cell.build
  cases write .empty <;> simp

theorem Cell.build_error_iff {ε : Type} {write : Store ε Unit} {e : ε} :
    Cell.build write = .error e ↔ ∃ left, write .empty = .error e left := by
  unfold Cell.build
  cases write .empty <;> simp

theorem Builder.empty_extends_of_holds {cell : Cell} {bits : Bits} {refs : List Cell}
    (held : cell.Holds bits refs) :
    ∃ result, Builder.empty.Extends bits refs result ∧ result.build = cell := by
  have built : Builder.build ⟨cell.content⟩ = cell := Cell.ofContent_content cell
  refine ⟨⟨cell.content⟩, empty_extends_iff.2 ?_, built⟩
  rwa [built]

/-- What a write appends to nothing is what its cell holds. -/
theorem Store.Appends.build_ok_iff {ε : Type} {write : Store ε Unit} {bits : Bits}
    {refs : List Cell} (h : write.Appends bits refs) {cell : Cell} :
    Cell.build write = .ok cell ↔ cell.Holds bits refs := by
  rw [Cell.build_ok_iff]
  constructor
  · rintro ⟨result, written, rfl⟩
    exact Builder.empty_extends_iff.1 ((h _ _).1 written)
  · intro held
    obtain ⟨result, appended, built⟩ := Builder.empty_extends_of_holds held
    exact ⟨result, (h _ _).2 appended, built⟩

end WalletWire
