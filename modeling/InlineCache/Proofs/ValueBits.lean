import InlineCache.Emit.Guard
import InlineCache.Machine.State
import Mathlib.Algebra.Group.Nat.Defs

/-!
Values as registers show them. The readings `State.hasCell`, `State.hasInt32` and so on say what a
value is by the bits alone, in any state of the machine; on registers that hold a well-formed value
they agree with the value itself. The ranges that numbers, constants and addresses take up in the
packed word, and the tags of the split representation, keep the kinds apart.
-/

namespace InlineCache

section Bits

variable {n : Nat}

theorem and_not_or_and (w m : BitVec n) : (w &&& ~~~m) ||| (w &&& m) = w := by
  ext i bound
  simp only [BitVec.getElem_or, BitVec.getElem_and, BitVec.getElem_not]
  cases w[i] <;> cases m[i] <;> rfl

theorem and_not_of_and_eq_zero {c m : BitVec n} (clear : c &&& m = 0#n) : c &&& ~~~m = c := by
  have whole := and_not_or_and c m
  rwa [clear, BitVec.or_zero] at whole

theorem or_and_not (w m : BitVec n) : (w ||| m) &&& ~~~m = w &&& ~~~m := by
  ext i bound
  simp only [BitVec.getElem_or, BitVec.getElem_and, BitVec.getElem_not]
  cases w[i] <;> cases m[i] <;> rfl

theorem and_not_or (w m : BitVec n) : (w &&& ~~~m) ||| m = w ||| m := by
  ext i bound
  simp only [BitVec.getElem_or, BitVec.getElem_and, BitVec.getElem_not]
  cases w[i] <;> cases m[i] <;> rfl

theorem and_not_twoPow_eq_iff {w c : BitVec n} {k : Nat} (clear : c &&& BitVec.twoPow n k = 0#n) :
    w &&& ~~~BitVec.twoPow n k = c ↔ w = c ∨ w = c ||| BitVec.twoPow n k := by
  constructor
  · intro rest
    have whole := and_not_or_and w (BitVec.twoPow n k)
    rw [rest, BitVec.and_twoPow] at whole
    split at whole
    next set => exact .inr whole.symm
    next unset => exact .inl (by rw [← whole, BitVec.or_zero])
  · rintro (rfl | rfl)
    · exact and_not_of_and_eq_zero clear
    · rw [or_and_not]
      exact and_not_of_and_eq_zero clear

theorem or_twoPow_eq_iff {w c : BitVec n} {k : Nat} (clear : c &&& BitVec.twoPow n k = 0#n) :
    w ||| BitVec.twoPow n k = c ||| BitVec.twoPow n k ↔ w = c ∨ w = c ||| BitVec.twoPow n k := by
  rw [← and_not_twoPow_eq_iff clear]
  constructor
  · intro same
    rw [← or_and_not w, same, or_and_not]
    exact and_not_of_and_eq_zero clear
  · intro same
    rw [← and_not_or w, same]

end Bits

namespace Packed

theorem and_numberTag (w : Word) : w &&& numberTag = (w >>> 48) <<< 48 := by
  rw [show numberTag = BitVec.allOnes 64 <<< 48 by decide]
  ext i bound
  simp only [BitVec.getElem_and, BitVec.getElem_shiftLeft, BitVec.getElem_allOnes]
  by_cases low : i < 48
  · simp [low]
  · have back : 48 + (i - 48) = i := by omega
    simp [low, back, BitVec.getLsbD_eq_getElem, bound]

theorem and_numberTag_eq_zero_iff (w : Word) : w &&& numberTag = 0#64 ↔ w.toNat < 2 ^ 48 := by
  have value : (w &&& numberTag).toNat = w.toNat / 2 ^ 48 * 2 ^ 48 := by
    have bound := w.isLt
    rw [and_numberTag, BitVec.toNat_shiftLeft, BitVec.toNat_ushiftRight, Nat.shiftRight_eq_div_pow,
      Nat.shiftLeft_eq, Nat.mod_eq_of_lt]
    omega
  rw [← BitVec.toNat_inj, value, BitVec.toNat_ofNat]
  omega

theorem lt_of_and_tagMask {w : Word} (clear : w &&& tagMask = 0#64) : w.toNat < 2 ^ 48 := by
  rw [← and_numberTag_eq_zero_iff]
  have inside : numberTag = tagMask &&& numberTag := by decide
  rw [inside, ← BitVec.and_assoc, clear, BitVec.zero_and]

end Packed

namespace Double

theorem isNaN_eq_decide (bits : Word) :
    isNaN bits = decide (0x7FF0000000000000 < bits.toNat % 2 ^ 63) := by
  have rest : (magnitude bits).toNat = bits.toNat % 2 ^ 63 := by
    rw [magnitude, BitVec.toNat_and]
    exact Nat.and_two_pow_sub_one_eq_mod bits.toNat 63
  rw [isNaN, BitVec.ult_eq_decide, rest]
  rfl

theorem le_of_pure {bits : Word} (pure : isNaN bits = true → bits = pureNaN) :
    bits.toNat ≤ 0xFFF0000000000000 := by
  cases nan : isNaN bits with
  | true =>
    rw [pure nan]
    decide
  | false =>
    have bound := bits.isLt
    rw [isNaN_eq_decide, decide_eq_false_iff_not] at nan
    omega

end Double

namespace Value

/-- What a representation asks of its values: no NaN but the pure one, and aligned cells whose
addresses leave the tags alone. -/
def WellFormed (representation : Representation) : Value → Prop
  | double bits => Double.isNaN bits = true → bits = pureNaN
  | cell address _ _ => address.toNat % 8 = 0 ∧
      match representation with
      | .packed => address &&& Packed.tagMask = 0#64
      | .split => address.toNat < 2 ^ 32
  | _ => True

def isCell : Value → Bool
  | cell _ _ _ => true
  | _ => false

def packedRange : Value → Nat → Prop
  | int32 _, w => 0xFFFF000000000000 ≤ w
  | double _, w => 2 ^ 48 ≤ w ∧ w < 0xFFFF000000000000
  | _, w => w < 2 ^ 48

theorem packedWord_range {v : Value} (wellFormed : v.WellFormed .packed) :
    v.packedRange v.packedWord.toNat := by
  cases v with
  | int32 k =>
    have tagged : (Packed.numberTag ||| k.setWidth 64) &&& Packed.numberTag = Packed.numberTag := by
      ext i bound
      simp only [BitVec.getElem_and, BitVec.getElem_or]
      cases Packed.numberTag[i] <;> cases (k.setWidth 64)[i] <;> rfl
    have least := Nat.and_le_left (n := (Packed.numberTag ||| k.setWidth 64).toNat)
      (m := Packed.numberTag.toNat)
    have tag : Packed.numberTag.toNat = 0xFFFF000000000000 := by decide
    rw [← BitVec.toNat_and, tagged, tag] at least
    simpa only [packedRange, packedWord] using least
  | double bits =>
    have bound := Double.le_of_pure wellFormed
    have moved : (double bits).packedWord.toNat = bits.toNat + 2 ^ 48 := by
      rw [packedWord, Packed.doubleOffset, BitVec.toNat_add, BitVec.toNat_ofNat]
      omega
    rw [packedRange, moved]
    omega
  | boolean b => cases b <;> simp only [packedRange, packedWord] <;> decide
  | null => simp only [packedRange, packedWord]; decide
  | undefined => simp only [packedRange, packedWord]; decide
  | cell address shape cellType => exact Packed.lt_of_and_tagMask wellFormed.2

theorem splitTag_double_lt {bits : Word} (wellFormed : (double bits).WellFormed .split) :
    (double bits).splitTag.toNat < Split.lowestTag.toNat := by
  have bound := Double.le_of_pure wellFormed
  simp only [splitTag, BitVec.extractLsb'_toNat, Nat.shiftRight_eq_div_pow, Split.lowestTag,
    Split.deletedTag, BitVec.toNat_ofNat]
  omega

theorem splitTag_double_beq {bits : Word} (wellFormed : (double bits).WellFormed .split)
    {tag : Half} (known : Split.lowestTag.toNat ≤ tag.toNat) :
    ((double bits).splitTag == tag) = false := by
  have below := splitTag_double_lt wellFormed
  apply beq_eq_false_iff_ne.mpr
  intro same
  rw [same] at below
  omega

theorem packedWord_beq_constant {v : Value} (wellFormed : v.WellFormed .packed)
    (apart : Ty.number.admits v = true ∨ v.isCell = true) {w : Word} (small : w.toNat < 2 ^ 48)
    (tagged : w &&& Packed.tagMask ≠ 0#64) : (v.packedWord == w) = false := by
  apply beq_eq_false_iff_ne.mpr
  rintro rfl
  have range := packedWord_range wellFormed
  cases v with
  | int32 _ | double _ =>
    simp only [packedRange] at range
    omega
  | cell address shape cellType => exact tagged wellFormed.2
  | _ => simp [Ty.admits, isCell] at apart

end Value

namespace State

def Holds (s : State) : ValueRegs → Value → Prop
  | .packed value, v => s.gpr value = v.packedWord
  | .split tag payload, v =>
      s.gpr tag = v.splitTag.setWidth 64 ∧ s.gpr payload = v.splitPayload.setWidth 64

def TagsInPlace (s : State) : Prop :=
  s.gpr .numberTag = Packed.numberTag ∧ s.gpr .tagMask = Packed.tagMask

/-- Tests of these registers find the tag constants where they look for them. Only the packed ones
look for any, and only in registers that are reserved. -/
def FindsTags (s : State) (o : Options) (regs : ValueRegs) : Prop :=
  regs.representation = .packed → o.tagRegisters = .reserved → s.TagsInPlace

/-- A cell has its shape and its type in memory. -/
def HasHeader (s : State) : Value → Prop
  | .cell address shape cellType =>
      s.memory.read32 address = shape.raw ∧ s.memory.byte (address + 5#64) = cellType
  | _ => True

def hasCell (s : State) (o : Options) : ValueRegs → Bool
  | .packed value => s.gpr value &&& s.operand64 o.tagMask == 0#64
  | .split tag _ => s.low tag == Split.cellTag

def hasInt32 (s : State) (o : Options) : ValueRegs → Bool
  | .packed value => !(s.gpr value).ult (s.operand64 o.numberTag)
  | .split tag _ => s.low tag == Split.int32Tag

def hasNumber (s : State) (o : Options) : ValueRegs → Bool
  | .packed value => s.gpr value &&& s.operand64 o.numberTag != 0#64
  | .split tag _ => s.low tag == Split.int32Tag || (s.low tag).ult Split.lowestTag

def hasOther (s : State) : ValueRegs → Bool
  | .packed value => s.gpr value == Packed.nullWord || s.gpr value == Packed.undefinedWord
  | .split tag _ => s.low tag == Split.nullTag || s.low tag == Split.undefinedTag

def hasBoolean (s : State) : ValueRegs → Bool
  | .packed value => s.gpr value == Packed.falseWord || s.gpr value == Packed.trueWord
  | .split tag _ => s.low tag == Split.booleanTag

def shapeOf (s : State) (regs : ValueRegs) : ShapeId := ⟨s.memory.read32 (s.gpr regs.payload)⟩

def typeOf (s : State) (regs : ValueRegs) : Byte := s.memory.byte (s.gpr regs.payload + 5#64)

/-- Whether the value in the registers has a type, as far as bits and memory tell. -/
def passes (s : State) (o : Options) (regs : ValueRegs) : Ty → Bool
  | .bottom => false
  | .boolean => s.hasBoolean regs
  | .other => s.hasOther regs
  | .int32 => s.hasInt32 o regs
  | .number => s.hasNumber o regs
  | .string => s.hasCell o regs && s.typeOf regs = Cell.stringType
  | .object => s.hasCell o regs && Cell.objectType ≤ s.typeOf regs
  | .objectOrOther => s.hasOther regs || (s.hasCell o regs && Cell.objectType ≤ s.typeOf regs)
  | .objectWithShape shape => s.hasCell o regs && s.shapeOf regs = shape
  | .objectWithShapeOrOther shape =>
      s.hasOther regs || (s.hasCell o regs && s.shapeOf regs = shape)
  | .top => true

section Readings

variable {s : State} {o : Options} {regs : ValueRegs} {v : Value}

theorem operand64_numberTag (tags : s.TagsInPlace) (o : Options) :
    s.operand64 o.numberTag = Packed.numberTag := by
  unfold Options.numberTag
  split
  next => exact tags.1
  next => rfl

theorem operand64_tagMask (tags : s.TagsInPlace) (o : Options) :
    s.operand64 o.tagMask = Packed.tagMask := by
  unfold Options.tagMask
  split
  next => exact tags.2
  next => rfl

theorem TagsInPlace.findsTags (tags : s.TagsInPlace) (o : Options) (regs : ValueRegs) :
    s.FindsTags o regs :=
  fun _ _ => tags

theorem FindsTags.operands {value : Gpr} (tags : s.FindsTags o (.packed value)) :
    s.operand64 o.numberTag = Packed.numberTag ∧ s.operand64 o.tagMask = Packed.tagMask := by
  cases registers : o.tagRegisters with
  | reserved =>
    have inPlace := tags rfl registers
    exact ⟨operand64_numberTag inPlace o, operand64_tagMask inPlace o⟩
  | absent =>
    rw [Options.numberTag, Options.tagMask, registers]
    exact ⟨rfl, rfl⟩

theorem low_of_holds {tag payload : Gpr} (held : s.Holds (.split tag payload) v) :
    s.low tag = v.splitTag := by
  rw [low, held.1]
  exact BitVec.setWidth_setWidth_of_le _ (by decide)

theorem payload_of_holds {address : Word} {shape : ShapeId} {cellType : Byte}
    (held : s.Holds regs (.cell address shape cellType))
    (wellFormed : (Value.cell address shape cellType).WellFormed regs.representation) :
    s.gpr regs.payload = address := by
  cases regs with
  | packed value => exact held
  | split tag payload =>
    have small : address.toNat < 2 ^ 32 := wellFormed.2
    rw [ValueRegs.payload, held.2]
    apply BitVec.eq_of_toNat_eq
    simp only [Value.splitPayload, BitVec.toNat_setWidth]
    omega

theorem hasCell_eq_isCell (held : s.Holds regs v) (tags : s.FindsTags o regs)
    (wellFormed : v.WellFormed regs.representation) : s.hasCell o regs = v.isCell := by
  cases regs with
  | packed value =>
    have range := v.packedWord_range wellFormed
    have untagged : v.packedWord &&& Packed.tagMask = 0#64 → v.packedWord.toNat < 2 ^ 48 :=
      Packed.lt_of_and_tagMask
    simp only [hasCell, tags.operands.2, show s.gpr value = v.packedWord from held]
    cases v with
    | int32 _ | double _ =>
      apply beq_eq_false_iff_ne.mpr
      intro clear
      have small := untagged clear
      simp only [Value.packedRange] at range
      omega
    | boolean b => cases b <;> decide
    | null => decide
    | undefined => decide
    | cell address shape cellType => exact beq_iff_eq.mpr wellFormed.2
  | split tag payload =>
    simp only [hasCell, low_of_holds held]
    cases v with
    | double bits => exact Value.splitTag_double_beq wellFormed (by decide)
    | _ => rfl

theorem hasInt32_eq_admits (held : s.Holds regs v) (tags : s.FindsTags o regs)
    (wellFormed : v.WellFormed regs.representation) : s.hasInt32 o regs = Ty.int32.admits v := by
  cases regs with
  | packed value =>
    have range := v.packedWord_range wellFormed
    have tag : Packed.numberTag.toNat = 0xFFFF000000000000 := by decide
    simp only [hasInt32, tags.operands.1, BitVec.ult_eq_decide, tag,
      show s.gpr value = v.packedWord from held]
    cases v <;> simp only [Value.packedRange] at range <;> simp [Ty.admits] <;> omega
  | split tag payload =>
    simp only [hasInt32, low_of_holds held]
    cases v with
    | double bits => exact Value.splitTag_double_beq wellFormed (by decide)
    | _ => rfl

theorem hasNumber_eq_admits (held : s.Holds regs v) (tags : s.FindsTags o regs)
    (wellFormed : v.WellFormed regs.representation) : s.hasNumber o regs = Ty.number.admits v := by
  cases regs with
  | packed value =>
    have range := v.packedWord_range wellFormed
    have zero := Packed.and_numberTag_eq_zero_iff v.packedWord
    simp only [hasNumber, tags.operands.1, show s.gpr value = v.packedWord from held]
    rw [Bool.eq_iff_iff, bne_iff_ne, ne_eq, zero]
    cases v <;> simp only [Value.packedRange] at range <;> simp [Ty.admits] <;> omega
  | split tag payload =>
    simp only [hasNumber, low_of_holds held]
    cases v with
    | double bits =>
      have below := Value.splitTag_double_lt wellFormed
      simp [BitVec.ult_eq_decide, below, Ty.admits]
    | _ => rfl

theorem hasOther_eq_isOther (held : s.Holds regs v)
    (wellFormed : v.WellFormed regs.representation) : s.hasOther regs = v.isOther := by
  cases regs with
  | packed value =>
    simp only [hasOther, show s.gpr value = v.packedWord from held]
    cases v with
    | boolean b => cases b <;> decide
    | null => decide
    | undefined => decide
    | _ =>
      rw [Value.packedWord_beq_constant wellFormed (by simp [Ty.admits, Value.isCell]) (by decide)
          (by decide),
        Value.packedWord_beq_constant wellFormed (by simp [Ty.admits, Value.isCell]) (by decide)
          (by decide)]
      rfl
  | split tag payload =>
    simp only [hasOther, low_of_holds held]
    cases v with
    | double bits =>
      rw [Value.splitTag_double_beq wellFormed (by decide),
        Value.splitTag_double_beq wellFormed (by decide)]
      rfl
    | _ => rfl

theorem hasBoolean_eq_admits (held : s.Holds regs v)
    (wellFormed : v.WellFormed regs.representation) : s.hasBoolean regs = Ty.boolean.admits v := by
  cases regs with
  | packed value =>
    simp only [hasBoolean, show s.gpr value = v.packedWord from held]
    cases v with
    | boolean b => cases b <;> decide
    | null => decide
    | undefined => decide
    | _ =>
      rw [Value.packedWord_beq_constant wellFormed (by simp [Ty.admits, Value.isCell]) (by decide)
          (by decide),
        Value.packedWord_beq_constant wellFormed (by simp [Ty.admits, Value.isCell]) (by decide)
          (by decide)]
      rfl
  | split tag payload =>
    simp only [hasBoolean, low_of_holds held]
    cases v with
    | double bits => exact Value.splitTag_double_beq wellFormed (by decide)
    | _ => rfl

/-- On registers that hold a value, what the bits and the memory tell is what the value is. -/
theorem passes_eq_admits (held : s.Holds regs v) (tags : s.TagsInPlace) (header : s.HasHeader v)
    (wellFormed : v.WellFormed regs.representation) (t : Ty) :
    s.passes o regs t = t.admits v := by
  have shapes : ∀ shape, (s.hasCell o regs && s.shapeOf regs = shape) = Ty.hasShape shape v := by
    intro shape
    rw [hasCell_eq_isCell held (tags.findsTags o regs) wellFormed]
    cases v with
    | cell address found cellType =>
      simp only [shapeOf, payload_of_holds held wellFormed, header.1]
      simp [Value.isCell, Ty.hasShape]
    | _ => rfl
  have objects : (s.hasCell o regs && Cell.objectType ≤ s.typeOf regs) = Ty.isObject v := by
    rw [hasCell_eq_isCell held (tags.findsTags o regs) wellFormed]
    cases v with
    | cell address shape cellType =>
      simp [typeOf, payload_of_holds held wellFormed, header.2, Value.isCell, Ty.isObject]
    | _ => rfl
  cases t with
  | bottom => rfl
  | top => rfl
  | boolean => exact hasBoolean_eq_admits held wellFormed
  | other => exact hasOther_eq_isOther held wellFormed
  | int32 => exact hasInt32_eq_admits held (tags.findsTags o regs) wellFormed
  | number => exact hasNumber_eq_admits held (tags.findsTags o regs) wellFormed
  | string =>
    rw [passes, hasCell_eq_isCell held (tags.findsTags o regs) wellFormed]
    cases v with
    | cell address shape cellType =>
      simp [typeOf, payload_of_holds held wellFormed, header.2, Value.isCell, Ty.admits]
    | _ => rfl
  | object => exact objects
  | objectOrOther => rw [passes, objects, hasOther_eq_isOther held wellFormed, Ty.admits]
  | objectWithShape shape => exact shapes shape
  | objectWithShapeOrOther shape =>
    rw [passes, shapes, hasOther_eq_isOther held wellFormed, Ty.admits]

end Readings

end State

end InlineCache
