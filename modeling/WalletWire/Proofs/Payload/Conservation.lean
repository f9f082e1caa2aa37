import WalletWire.Payload.FixedSlot
import WalletWire.Payload.Highload
import WalletWire.Proofs.Cell.Cursor

/-!
# Reading loses nothing

Dictionaries and messages are read by loads alone, so what their readings leave of a slice is what
some loads leave of it (`Load.Stepwise`), also where they fail.  What holds of every run of loads
thus holds of every reading: the items that have been taken and the slice that is left make up the
cell (`reading_conserves`).
-/

namespace WalletWire

open Program

/-! ## Readings made of loads -/

/-- Some loads, any of which may fail, lead from one slice to the other. -/
def Slice.Reaches (slice rest : Slice) : Prop :=
  ∃ kinds, (slice.attemptAll kinds).2 = rest

theorem Slice.attemptAll_append (slice : Slice) (kinds more : List Item.Kind) :
    (slice.attemptAll (kinds ++ more)).2 = ((slice.attemptAll kinds).2.attemptAll more).2 := by
  induction kinds generalizing slice with
  | nil => rfl
  | cons kind kinds ih => exact ih (slice.attempt kind.load).2

theorem Slice.Reaches.refl (slice : Slice) : slice.Reaches slice := ⟨[], rfl⟩

theorem Slice.Reaches.trans {slice mid rest : Slice} (first : slice.Reaches mid)
    (second : mid.Reaches rest) : slice.Reaches rest := by
  obtain ⟨kinds, rfl⟩ := first
  obtain ⟨more, rfl⟩ := second
  exact ⟨kinds ++ more, slice.attemptAll_append kinds more⟩

namespace Load

variable {ε α β : Type}

/-- Loads lead to what the reading leaves, whether it succeeds or fails. -/
structure Stepwise (action : Load ε α) : Prop where
  ok : ∀ slice a rest, action slice = .ok a rest → slice.Reaches rest
  error : ∀ slice e left, action slice = .error e left → slice.Reaches left

theorem stepwise_load (kind : Item.Kind) : Stepwise kind.load where
  ok slice item rest loaded := by
    refine ⟨[kind], ?_⟩
    rw [Slice.attemptAll_of_ok loaded]
    rfl
  error slice e left failed := by
    refine ⟨[kind], ?_⟩
    rw [Slice.attemptAll_of_error failed]
    rfl

theorem Stepwise.of_map {action : Load ε α} {f : α → β} (h : Stepwise (f <$> action)) :
    Stepwise action where
  ok slice a rest done := h.ok slice (f a) rest (map_ok_iff.2 ⟨a, done, rfl⟩)
  error slice e left failed := by
    apply h.error slice e left
    rw [← bind_pure_comp]
    exact bind_error_iff.2 (.inl failed)

theorem stepwise_bit : Stepwise bit := (stepwise_load .bit).of_map

theorem stepwise_u8 : Stepwise u8 := (stepwise_load .u8).of_map

theorem stepwise_ref : Stepwise ref := (stepwise_load .ref).of_map

theorem stepwise_pure (a : α) : Stepwise (pure a : Load ε α) where
  ok slice _ _ done := (pure_ok_iff.1 done).2 ▸ .refl slice
  error := nofun

theorem stepwise_get : Stepwise (get : Load ε Slice) where
  ok slice _ _ done := (get_ok_iff.1 done).2 ▸ .refl slice
  error := nofun

theorem stepwise_ofExcept (x : Except ε α) : Stepwise (MonadExcept.ofExcept x : Load ε α) where
  ok slice _ _ done := (ofExcept_ok_iff.1 done).2 ▸ .refl slice
  error slice _ _ failed := (ofExcept_error_iff.1 failed).2 ▸ .refl slice

theorem stepwise_finish : Stepwise finish where
  ok slice _ _ done := (finish_ok_iff.1 done).1 ▸ .refl slice
  error slice e left failed := atomic_finish slice e left failed ▸ .refl left

theorem Stepwise.bind {action : Load ε α} {next : α → Load ε β} (first : Stepwise action)
    (second : ∀ a, Stepwise (next a)) : Stepwise (action >>= next) where
  ok slice b rest done := by
    obtain ⟨a, mid, first_done, next_done⟩ := bind_ok_iff.1 done
    exact (first.ok slice a mid first_done).trans ((second a).ok mid b rest next_done)
  error slice e left failed := by
    obtain first_failed | ⟨a, mid, first_done, next_failed⟩ := bind_error_iff.1 failed
    · exact first.error slice e left first_failed
    · exact (first.ok slice a mid first_done).trans ((second a).error mid e left next_failed)

theorem Stepwise.lift {action : Load Cell.Error α} (h : Stepwise action) :
    Stepwise (liftM action : Load BodyError α) where
  ok slice a rest done := h.ok slice a rest (lift_ok_iff.1 done)
  error slice e left failed := by
    obtain ⟨cause, refused, -⟩ := lift_error_iff.1 failed
    exact h.error slice cause left refused

theorem stepwise_dictionary (width : ℕ) : Stepwise (Load.dictionary width) := by
  refine (stepwise_ofExcept _).bind fun _ => stepwise_bit.bind fun marked => ?_
  cases marked with
  | false => exact stepwise_pure _
  | true => exact stepwise_ref.bind fun root => stepwise_ofExcept _

theorem stepwise_slotsOf (count : ℕ) : Stepwise (slotsOf count) := by
  induction count with
  | zero => exact stepwise_finish.lift.bind fun _ => stepwise_pure _
  | succ count ih =>
    exact stepwise_ref.lift.bind fun _ => stepwise_u8.lift.bind fun _ =>
      ih.bind fun _ => stepwise_pure _

theorem stepwise_slots : Stepwise slots :=
  stepwise_get.bind fun slice => stepwise_slotsOf slice.refs.length

theorem stepwise_indexed (policy : IndexPolicy) : Stepwise (indexed policy) :=
  (stepwise_dictionary indexWidth).lift.bind fun _ => stepwise_ofExcept _

end Load

/-! ## Conservation -/

/-- Wherever loads lead, failures among them, the cursor is within the cell and shows what is left,
as many bits and references as the differences of words say.  What has been taken, in order, and
what is left make up the cell.  A load that fails there moves nothing, and nothing is left just
when the cursor is at the end.  The readings of dictionaries and of messages lead nowhere else. -/
theorem reading_conserves :
    (∀ (cell : Cell) (kinds : List Item.Kind),
      let run := (Slice.ofCell cell).attemptAll kinds
      let cursor := Cursor.start.afterAll cell kinds
      (cursor.Shows cell run.2 ∧
        (cursor.bitsLeft cell).toNat = run.2.bits.length ∧
        (cursor.refsLeft cell).toNat = run.2.refs.length) ∧
      (Item.allBits (Item.taken run.1) ++ run.2.bits = cell.bits ∧
        Item.allRefs (Item.taken run.1) ++ run.2.refs = cell.refs) ∧
      (∀ kind e left, kind.load run.2 = .error e left →
        left = run.2 ∧ cursor.after cell kind = cursor) ∧
      ((∃ left, Load.finish run.2 = .ok () left) ↔
        cursor.bitPos.toNat = cell.bits.length ∧ cursor.refPos.toNat = cell.refs.length)) ∧
    (∀ width, (Load.dictionary width).Stepwise) ∧ Load.slots.Stepwise ∧
    ∀ policy, (Load.indexed policy).Stepwise := by
  refine ⟨fun cell kinds => ?_, Load.stepwise_dictionary, Load.stepwise_slots,
    Load.stepwise_indexed⟩
  intro run cursor
  have shown : cursor.Shows cell run.2 := (Cursor.shows_start cell).afterAll kinds
  have splits := (Slice.ofCell cell).splits_attemptAll kinds
  refine ⟨⟨shown, shown.toNat_bitsLeft, shown.toNat_refsLeft⟩, ⟨splits.1.symm, splits.2.symm⟩,
    fun _ _ _ failed => shown.after_error failed, ?_⟩
  rw [← shown.spent_iff]
  simp only [Load.finish_ok_iff, exists_eq_left']

/-- Ten bits and three references. -/
def tenBits : Cell :=
  .ofContent ⟨.ofNat 10 683, [.empty, .empty, .empty], by decide, by decide, by decide⟩

theorem reading_conserves_tenBits :
    let kinds := [.u64, .u8, .ref, .ref, .uint 65, .ref, .string 2, .ref]
    let run := (Slice.ofCell tenBits).attemptAll kinds
    let cursor := Cursor.start.afterAll tenBits kinds
    (cursor.bitPos = 10 ∧ cursor.refPos = 3 ∧ cursor.bitsLeft tenBits = 0) ∧
    Item.allBits (Item.taken run.1) ++ run.2.bits = .ofNat 10 683 ∧
    (∃ e left, Item.Kind.bit.load run.2 = .error e left ∧ left = run.2 ∧
      cursor.after tenBits .bit = cursor) ∧
    ∃ left, Load.finish run.2 = .ok () left := by
  intro kinds run cursor
  obtain ⟨-, ⟨bits_eq, -⟩, unmoved, finished_iff⟩ := reading_conserves.1 tenBits kinds
  have at_end : cursor.bitPos = 10 ∧ cursor.refPos = 3 ∧ cursor.bitsLeft tenBits = 0 := by decide
  obtain ⟨e, left, failed⟩ : ∃ e left, Item.Kind.bit.load run.2 = .error e left := ⟨_, _, rfl⟩
  refine ⟨at_end, bits_eq, ⟨e, left, failed, unmoved _ e left failed⟩, finished_iff.2 ?_⟩
  rw [at_end.1, at_end.2.1]
  decide

end WalletWire
