import InlineCache.Proofs.SelfCheckVerdict

/-!
Doubles that can be boxed. Doubles up to a bound are told from all other values by the packed word
and by the split tag, and the NaNs with the largest bits lie beyond it. Purifying replaces every NaN
by one below the bound and leaves all other doubles alone, so that what it leaves is taken for a
number, and for nothing else, by the tests in either representation.
-/

namespace InlineCache

namespace Double

def exponent (bits : Word) : BitVec 11 := bits.extractLsb' 52 11

def significand (bits : Word) : BitVec 52 := bits.extractLsb' 0 52

theorem isNaN_iff (bits : Word) :
    isNaN bits = true ↔ exponent bits = BitVec.allOnes 11 ∧ significand bits ≠ 0#52 := by
  have bound := bits.isLt
  rw [isNaN_eq_decide, decide_eq_true_eq, ne_eq, ← BitVec.toNat_inj, ← BitVec.toNat_inj, exponent,
    significand, BitVec.extractLsb'_toNat, BitVec.extractLsb'_toNat, Nat.shiftRight_eq_div_pow,
    BitVec.toNat_allOnes, BitVec.toNat_ofNat]
  omega

theorem equal_self (bits : Word) : equal bits bits = !isNaN bits := by
  rw [equal, BEq.rfl, Bool.true_or, Bool.and_true, Bool.and_self]

end Double

namespace Value

/-- The packed word of a double does not wrap and stays below the integers exactly up to here. -/
theorem packedWord_double_iff (bits : Word) :
    (double bits).packedWord.toNat = bits.toNat + 2 ^ 48 ∧
        (double bits).packedWord.toNat < 0xFFFF000000000000 ↔
      bits.toNat < 0xFFFE000000000000 := by
  rw [packedWord, Packed.doubleOffset, BitVec.toNat_add, BitVec.toNat_ofNat]
  omega

theorem splitTag_double_iff (bits : Word) :
    (double bits).splitTag.toNat < Split.lowestTag.toNat ↔ bits.toNat < 0xFFFFFFF900000000 := by
  have bound := bits.isLt
  rw [splitTag, BitVec.extractLsb'_toNat, Nat.shiftRight_eq_div_pow, Split.lowestTag,
    Split.deletedTag, BitVec.toNat_ofNat]
  omega

end Value

theorem State.holds_setValue (s : State) {regs : ValueRegs} (distinct : regs.gprs.Nodup)
    (v : Value) : (s.setValue regs v).Holds regs v := by
  cases regs with
  | packed value => rw [Holds, setValue, gpr_setGpr, if_pos rfl]
  | split tag payload =>
    have apart : tag ≠ payload := by simpa [ValueRegs.gprs] using distinct
    rw [Holds, setValue, gpr_setGpr, gpr_setGpr, gpr_setGpr, if_neg apart, if_pos rfl, if_pos rfl]
    exact ⟨rfl, rfl⟩

namespace Guard

section Tests

variable (o : Options) (s : State) (regs : ValueRegs) (temp : Gpr)

theorem leaves_notBoolean : (notBoolean regs temp).leaves o s = !s.hasBoolean regs := by
  obtain ⟨_, _, behaves⟩ := notBoolean_behaves .none s o regs temp
  exact leaves_eq behaves

theorem leaves_isOther : (isOther regs temp).leaves o s = s.hasOther regs := by
  obtain ⟨_, _, behaves⟩ := @other_behaves .none s regs temp .equal id fun _ _ => rfl
  exact leaves_eq behaves

theorem leaves_notOther : (notOther regs temp).leaves o s = !s.hasOther regs := by
  obtain ⟨_, _, behaves⟩ := @other_behaves .none s regs temp .notEqual (! ·) fun _ _ => rfl
  exact leaves_eq behaves

end Tests

/-- The single tests of the registers take the value for a number that is no integer. -/
structure TakesForDouble (o : Options) (s : State) (regs : ValueRegs) (temp : Gpr) : Prop where
  number : (notNumber regs temp).leaves o s = false
  int32 : (notInt32 regs).leaves o s = true
  boolean : (notBoolean regs temp).leaves o s = true
  notOther : (notOther regs temp).leaves o s = true
  isOther : (isOther regs temp).leaves o s = false
  notCell : (notCell regs).leaves o s = true
  isCell : (isCell regs).leaves o s = false

theorem takesForDouble {o : Options} {s : State} {regs : ValueRegs} {bits : Word}
    (held : s.Holds regs (.double bits)) (tags : s.FindsTags o regs)
    (pure : Double.isNaN bits = true → bits = pureNaN) (temp : Gpr) :
    TakesForDouble o s regs temp := by
  have wellFormed : (Value.double bits).WellFormed regs.representation := pure
  have other := State.hasOther_eq_isOther held wellFormed
  have cell : s.hasCell o regs = false := State.hasCell_eq_isCell held tags wellFormed
  constructor
  case number =>
    rw [leaves_notNumber, State.hasNumber_eq_admits held tags wellFormed]
    rfl
  case int32 =>
    rw [leaves_notInt32, State.hasInt32_eq_admits held tags wellFormed]
    rfl
  case boolean =>
    rw [leaves_notBoolean, State.hasBoolean_eq_admits held wellFormed]
    rfl
  case notOther =>
    rw [leaves_notOther, other]
    rfl
  case isOther =>
    rw [leaves_isOther, other]
    rfl
  case notCell =>
    rw [leaves_notCell, cell]
    rfl
  case isCell => rw [leaves_isCell, cell]

def purified (s : State) (f : Fpr) : State :=
  if Double.isNaN (s.fpr f) then s.setFpr f pureNaN else s

theorem purifyNaN_behaves (v : Services) (s : State) (f : Fpr) :
    (purifyNaN f).Behaves v s false (purified s f) := by
  have test : Fragment.Behaves v [.branch (.double .equal f f) none] s
      (!Double.isNaN (s.fpr f)) s := .branch (Double.equal_self _)
  unfold purified
  cases nan : Double.isNaN (s.fpr f) with
  | false =>
    rw [nan] at test
    exact test.skipping_of_leaves
  | true =>
    rw [nan] at test
    exact test.skipping (.plain rfl fun _ => rfl)

theorem fpr_purified (s : State) (f r : Fpr) :
    (purified s f).fpr r =
      if r = f ∧ Double.isNaN (s.fpr f) = true then pureNaN else s.fpr r := by
  unfold purified
  cases Double.isNaN (s.fpr f) with
  | false => simp
  | true => simp [State.fpr_setFpr]

theorem isNaN_purified {s : State} {f : Fpr}
    (nan : Double.isNaN ((purified s f).fpr f) = true) : (purified s f).fpr f = pureNaN := by
  rw [fpr_purified] at nan ⊢
  split at nan
  next replaced => rw [if_pos replaced]
  next kept => exact absurd ⟨rfl, nan⟩ kept

/-- Code that purifies a register can be placed wherever there is room, and falls through. It
replaces a NaN in that register by the pure one and changes nothing else. The double that is then in
the register is boxed without wrapping: as a packed word above the addresses and below the integers,
or with a high half below the tags. Wherever it is held, the tests take it for a number, and neither
for an integer nor for a boolean, null, undefined or a cell. -/
theorem purified_double_boxes_apart (s : State) (f : Fpr) :
    ∃ final : State,
      (∀ (v : Services) (a : Assembler), a.origin = 0 →
        a.next + (purifyNaN f).length < wordLimit →
        ∃ placed, a.place (purifyNaN f) = .ok (placed, []) ∧ ∀ rest : Array Inst,
          ∃ trace, Run.Passes v (placed.code ++ rest) a.next s trace placed.next final ∧
            ∀ q ∈ trace, a.next ≤ q ∧ q < placed.next) ∧
      final.gprs = s.gprs ∧ final.memory = s.memory ∧ (∀ r, r ≠ f → final.fpr r = s.fpr r) ∧
      final.fpr f =
        (if Double.exponent (s.fpr f) = BitVec.allOnes 11 ∧ Double.significand (s.fpr f) ≠ 0#52
          then pureNaN else s.fpr f) ∧
      (Value.double (final.fpr f)).packedWord.toNat = (final.fpr f).toNat + 2 ^ 48 ∧
      (Value.double (final.fpr f)).packedWord.toNat < 0xFFFF000000000000 ∧
      (Value.double (final.fpr f)).splitTag.toNat < Split.lowestTag.toNat ∧
      ∀ (o : Options) (regs : ValueRegs) (temp : Gpr) (t : State),
        t.Holds regs (.double (final.fpr f)) → t.FindsTags o regs →
        TakesForDouble o t regs temp := by
  have pure : Double.isNaN ((purified s f).fpr f) = true → (purified s f).fpr f = pureNaN :=
    isNaN_purified
  have bound := Double.le_of_pure pure
  obtain ⟨moved, below⟩ := (Value.packedWord_double_iff _).mpr
    (Nat.lt_of_le_of_lt bound (by decide))
  refine ⟨purified s f, fun v a fresh room => ?_, ?_, ?_, fun r other => ?_, ?_, moved, below,
    (Value.splitTag_double_iff _).mpr (Nat.lt_of_le_of_lt bound (by decide)),
    fun o regs temp t held tags => takesForDouble held tags pure temp⟩
  · have forward : (purifyNaN f).Forward (purifyNaN f).length :=
      Fragment.Forward.skipping (.of_no_target (by simp [Inst.target?]))
        (.of_no_target (by simp [Inst.target?]))
    have closed : (purifyNaN f).Closed := .skipping _ (by simp [Fragment.Closed, Inst.isUnlinked])
    exact forward.passes_placed (closed.exitsFrom_eq_nil a.next) (purifyNaN_behaves v s f) fresh
      room
  · unfold purified
    split <;> rfl
  · unfold purified
    split <;> rfl
  · rw [fpr_purified, if_neg fun both => other both.1]
  · rw [fpr_purified]
    simp only [true_and, Double.isNaN_iff]

/-- A NaN that would be boxed as a cell, or as an integer in the split representation, is a number
once it was purified. -/
theorem purified_nan_boxes_apart :
    let s := State.zero.setTags.setFpr .t0 0xFFFFFFFFFFFFFFFD#64
    ∃ placed trace final, ({} : Assembler).place (purifyNaN .t0) = .ok (placed, []) ∧
      Run.Passes .none placed.code 0 s trace placed.next final ∧ final.fpr .t0 = pureNaN ∧
      TakesForDouble {} (final.setValue (.packed .t1) (.double (final.fpr .t0))) (.packed .t1) .t2 ∧
      TakesForDouble (.split true) (final.setValue (.split .t1 .t2) (.double (final.fpr .t0)))
        (.split .t1 .t2) .t3 := by
  intro s
  obtain ⟨final, runs, gprs, _, _, bits, _, _, _, tests⟩ := purified_double_boxes_apart s .t0
  obtain ⟨placed, placing, run⟩ := runs .none {} rfl (by decide)
  obtain ⟨trace, passes, _⟩ := run #[]
  rw [Array.append_empty] at passes
  have inPlace : final.TagsInPlace := by
    rw [State.TagsInPlace, State.gpr, State.gpr, gprs]
    exact ⟨rfl, rfl⟩
  have tags : (final.setValue (.packed .t1) (.double (final.fpr .t0))).TagsInPlace := by
    rw [State.TagsInPlace, State.setValue, State.gpr_setGpr, State.gpr_setGpr,
      if_neg (by decide), if_neg (by decide)]
    exact inPlace
  refine ⟨placed, trace, final, placing, passes, bits.trans (if_pos (by decide)), ?_, ?_⟩
  · exact tests _ _ _ _ (final.holds_setValue (by decide) _) (tags.findsTags _ _)
  · apply tests _ _ _ _ (final.holds_setValue (by decide) _)
    intro packed
    cases packed

end Guard

end InlineCache
