import InlineCache.Proofs.GuardVerdict
import InlineCache.Proofs.MemoryWords

/-!
Reading values back. A slot does not hold the header of a cell, which is in memory at the address
that the slot does hold; everything else of a well-formed value can be read off its word, in either
representation. Registers that were set to a value show the word that a slot would hold.
-/

namespace InlineCache

namespace Value

/-- The value with what a slot does not hold left out. -/
def withoutHeader : Value → Value
  | cell address _ _ => cell address ⟨0#32⟩ 0#8
  | v => v

def ofPacked (w : Word) : Value :=
  if Packed.numberTag ≤ w then int32 (w.setWidth 32)
  else if Packed.doubleOffset ≤ w then double (w - Packed.doubleOffset)
  else if w &&& Packed.tagMask = 0#64 then cell w ⟨0#32⟩ 0#8
  else if w = Packed.falseWord then boolean false
  else if w = Packed.trueWord then boolean true
  else if w = Packed.nullWord then null
  else undefined

def ofSplit (tag payload : Half) : Value :=
  if tag = Split.int32Tag then int32 payload
  else if tag = Split.booleanTag then boolean (payload == 1#32)
  else if tag = Split.nullTag then null
  else if tag = Split.undefinedTag then undefined
  else if tag = Split.cellTag then cell (payload.setWidth 64) ⟨0#32⟩ 0#8
  else double (tag ++ payload)

def ofSlot (w : Word) : Representation → Value
  | .packed => ofPacked w
  | .split => ofSplit (w.extractLsb' 32 32) (w.setWidth 32)

theorem ofPacked_packedWord {v : Value} (wellFormed : v.WellFormed .packed) :
    ofPacked v.packedWord = v.withoutHeader := by
  have range := packedWord_range wellFormed
  have number : Packed.numberTag.toNat = 0xFFFF000000000000 := by decide
  have offset : Packed.doubleOffset.toNat = 2 ^ 48 := by decide
  cases v with
  | int32 n =>
    have least : Packed.numberTag ≤ (int32 n).packedWord := by
      rw [BitVec.le_def, number]
      exact range
    have low : (int32 n).packedWord.setWidth 32 = n := by
      simp [packedWord, Packed.numberTag, BitVec.setWidth_or]
    rw [ofPacked, if_pos least, low]
    rfl
  | double bits =>
    have small : ¬ Packed.numberTag ≤ (double bits).packedWord := by
      rw [BitVec.le_def, number]
      exact Nat.not_le.mpr range.2
    have moved : Packed.doubleOffset ≤ (double bits).packedWord := by
      rw [BitVec.le_def, offset]
      exact range.1
    have back : (double bits).packedWord - Packed.doubleOffset = bits := BitVec.add_sub_cancel _ _
    rw [ofPacked, if_neg small, if_pos moved, back]
    rfl
  | boolean b => cases b <;> decide
  | null => decide
  | undefined => decide
  | cell address shape cellType =>
    have unnumbered : ¬ Packed.numberTag ≤ address := by
      rw [BitVec.le_def, number]
      exact Nat.not_le.mpr (Nat.lt_trans range (by decide))
    have unmoved : ¬ Packed.doubleOffset ≤ address := by
      rw [BitVec.le_def, offset]
      exact Nat.not_le.mpr range
    rw [packedWord, ofPacked, if_neg unnumbered, if_neg unmoved, if_pos wellFormed.2, withoutHeader]

theorem ofSplit_double {bits : Word} (wellFormed : (double bits).WellFormed .split) :
    ofSplit (double bits).splitTag (double bits).splitPayload = double bits := by
  have differs (tag : Half) (known : Split.lowestTag.toNat ≤ tag.toNat) :
      (double bits).splitTag ≠ tag :=
    beq_eq_false_iff_ne.mp (splitTag_double_beq wellFormed known)
  have halves : (double bits).splitTag ++ (double bits).splitPayload = bits := by
    have bound := bits.isLt
    apply BitVec.eq_of_toNat_eq
    rw [Memory.toNat_append_halves, splitTag, splitPayload, BitVec.extractLsb'_toNat,
      BitVec.toNat_setWidth, Nat.shiftRight_eq_div_pow]
    omega
  rw [ofSplit, if_neg (differs _ (by decide)), if_neg (differs _ (by decide)),
    if_neg (differs _ (by decide)), if_neg (differs _ (by decide)), if_neg (differs _ (by decide)),
    halves]

theorem ofSplit_split {v : Value} (wellFormed : v.WellFormed .split) :
    ofSplit v.splitTag v.splitPayload = v.withoutHeader := by
  cases v with
  | int32 n => rfl
  | double bits => exact ofSplit_double wellFormed
  | boolean b => cases b <;> rfl
  | null => rfl
  | undefined => rfl
  | cell address shape cellType =>
    have small : address.toNat < 2 ^ 32 := wellFormed.2
    have whole : (address.setWidth 32).setWidth 64 = address := by
      apply BitVec.eq_of_toNat_eq
      rw [BitVec.toNat_setWidth, BitVec.toNat_setWidth]
      omega
    change cell ((address.setWidth 32).setWidth 64) ⟨0#32⟩ 0#8 = _
    rw [whole, withoutHeader]

theorem ofSlot_slotWord {v : Value} {r : Representation} (wellFormed : v.WellFormed r) :
    ofSlot (v.slotWord r) r = v.withoutHeader := by
  cases r with
  | packed => exact ofPacked_packedWord wellFormed
  | split =>
    rw [slotWord, ofSlot, BitVec.extractLsb'_append_eq_left, BitVec.setWidth_append_eq_right]
    exact ofSplit_split wellFormed

theorem slotWord_withoutHeader (v : Value) (r : Representation) :
    v.withoutHeader.slotWord r = v.slotWord r := by
  cases v <;> cases r <;> rfl

end Value

theorem State.valueBits_setHalves (s : State) {tag payload : Gpr} (apart : tag ≠ payload)
    (high low : Half) :
    ((s.setGpr tag (high.setWidth 64)).setGpr payload (low.setWidth 64)).valueBits
      (.split tag payload) = high ++ low := by
  have narrowed (h : Half) : (h.setWidth 64).setWidth 32 = h :=
    (BitVec.setWidth_setWidth_of_le h (by decide)).trans (BitVec.setWidth_eq h)
  rw [valueBits, State.low, State.low, gpr_setGpr, gpr_setGpr, gpr_setGpr, if_neg apart, if_pos rfl,
    if_pos rfl, narrowed, narrowed]

theorem State.valueBits_setValue (s : State) {regs : ValueRegs} (distinct : regs.gprs.Nodup)
    (v : Value) : (s.setValue regs v).valueBits regs = v.slotWord regs.representation := by
  cases regs with
  | packed value =>
    rw [setValue, valueBits, gpr_setGpr, if_pos rfl]
    rfl
  | split tag payload =>
    have apart : tag ≠ payload := by simpa [ValueRegs.gprs] using distinct
    exact s.valueBits_setHalves apart v.splitTag v.splitPayload

/-- Well-formed values have the same word in a slot exactly if they are the same value, cells up to
their headers. Registers that are set to a value show that word. -/
theorem Value.slotWord_lossless :
    (∀ (r : Representation) (a b : Value), a.WellFormed r → b.WellFormed r →
      (a.slotWord r = b.slotWord r ↔ a.withoutHeader = b.withoutHeader)) ∧
    ∀ (s : State) (regs : ValueRegs) (v : Value), regs.gprs.Nodup →
      (s.setValue regs v).valueBits regs = v.slotWord regs.representation := by
  constructor
  · intro r a b left right
    constructor
    · intro same
      rw [← ofSlot_slotWord left, ← ofSlot_slotWord right, same]
    · intro same
      rw [← slotWord_withoutHeader a, ← slotWord_withoutHeader b, same]
  · intro s regs v distinct
    exact s.valueBits_setValue distinct v

theorem Value.slotWord_of_extreme_doubles :
    (double 0xFFF0000000000000#64).slotWord .packed ≠ (int32 0#32).slotWord .packed ∧
      (State.zero.setValue (.split .t0 .t1) (double pureNaN)).valueBits (.split .t0 .t1) =
        (double pureNaN).slotWord .split := by
  obtain ⟨lossless, shown⟩ := slotWord_lossless
  constructor
  · intro same
    have infinite : (double 0xFFF0000000000000#64).WellFormed .packed := by
      intro nan
      revert nan
      decide
    cases (lossless .packed _ (int32 0#32) infinite trivial).mp same
  · exact shown State.zero (.split .t0 .t1) (double pureNaN) (by decide)

end InlineCache
