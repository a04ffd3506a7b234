import InlineCache.Proofs.Placement
import InlineCache.Proofs.ValueBits

/-!
What guards decide. Each test behaves as the reading of the bits that it is named for, on any
contents of the registers, and so does the guard of a type. On registers that hold a well-formed
value, the guard therefore leaves exactly if the type does not admit the value.
-/

namespace InlineCache

namespace ValueRegs

def gprs : ValueRegs → List Gpr
  | packed value => [value]
  | split tag payload => [tag, payload]

theorem payload_mem_gprs (regs : ValueRegs) : regs.payload ∈ regs.gprs := by
  cases regs <;> simp [payload, gprs]

end ValueRegs

namespace State

/-- Nothing but one general-purpose register differs. -/
structure SameExcept (temp : Gpr) (s t : State) : Prop where
  memory : t.memory = s.memory
  fprs : t.fprs = s.fprs
  gprs : ∀ r, r ≠ temp → t.gpr r = s.gpr r

namespace SameExcept

variable {temp : Gpr} {s t u : State} {regs : ValueRegs} {o : Options}

theorem refl (temp : Gpr) (s : State) : SameExcept temp s s := ⟨rfl, rfl, fun _ _ => rfl⟩

theorem setGpr (same : SameExcept temp s t) (w : Word) : SameExcept temp s (t.setGpr temp w) where
  memory := same.memory
  fprs := same.fprs
  gprs := fun r other => by rw [gpr_setGpr, if_neg other, same.gprs r other]

theorem hasCell_eq (same : SameExcept temp s t) (free : temp ∉ regs.gprs)
    (unreserved : temp ≠ .tagMask) : t.hasCell o regs = s.hasCell o regs := by
  cases regs with
  | packed value =>
    have kept : value ≠ temp := fun clash => free (by simp [ValueRegs.gprs, clash])
    have mask : t.operand64 o.tagMask = s.operand64 o.tagMask := by
      unfold Options.tagMask
      split
      next => exact same.gprs _ (Ne.symm unreserved)
      next => rfl
    rw [hasCell, hasCell, same.gprs value kept, mask]
  | split tag payload =>
    have kept : tag ≠ temp := fun clash => free (by simp [ValueRegs.gprs, clash])
    rw [hasCell, hasCell, low, low, same.gprs tag kept]

theorem payload_eq (same : SameExcept temp s t) (free : temp ∉ regs.gprs) :
    t.gpr regs.payload = s.gpr regs.payload :=
  same.gprs _ fun clash => free (clash ▸ regs.payload_mem_gprs)

theorem shapeOf_eq (same : SameExcept temp s t) (free : temp ∉ regs.gprs) :
    t.shapeOf regs = s.shapeOf regs := by
  rw [shapeOf, shapeOf, same.memory, same.payload_eq free]

theorem typeOf_eq (same : SameExcept temp s t) (free : temp ∉ regs.gprs) :
    t.typeOf regs = s.typeOf regs := by
  rw [typeOf, typeOf, same.memory, same.payload_eq free]

end SameExcept

end State

namespace Guard

open Fragment

variable (v : Services) (s : State) (o : Options) (regs : ValueRegs) (temp : Gpr)

theorem notCell_behaves : ((notCell regs).code o).Behaves v s (!s.hasCell o regs) s := by
  cases regs with
  | packed value => exact Behaves.branch rfl
  | split tag payload => exact Behaves.branch rfl

theorem notInt32_behaves : ((notInt32 regs).code o).Behaves v s (!s.hasInt32 o regs) s := by
  cases regs with
  | packed value => exact Behaves.branch (by rw [State.hasInt32, Bool.not_not]; rfl)
  | split tag payload => exact Behaves.branch rfl

/-- The tag of integers wraps to zero, which is below the bound that doubles are tested with. -/
theorem wrapped_tag_aboveOrEqual (tag : Half) :
    Relation.aboveOrEqual.holds (tag + 1#32) (Split.lowestTag + 1) =
      !(tag == Split.int32Tag || tag.ult Split.lowestTag) := by
  simp only [Relation.holds, BitVec.ule_eq_decide, BitVec.ult_eq_decide, Split.lowestTag,
    Split.deletedTag, Split.int32Tag]
  rw [Bool.eq_iff_iff]
  simp
  bv_omega

theorem notNumber_behaves :
    ∃ t, s.SameExcept temp t ∧
      ((notNumber regs temp).code o).Behaves v s (!s.hasNumber o regs) t := by
  cases regs with
  | packed value =>
    refine ⟨s, .refl temp s, Behaves.branch ?_⟩
    rw [State.hasNumber, bne, Bool.not_not]
    rfl
  | split tag payload =>
    let t := s.setGpr temp ((s.low tag + 1#32).setWidth 64)
    have add : Behaves v [.add32 temp tag 1#32] s false t := .plain rfl fun _ => rfl
    have sum : t.operand32 (.reg temp) = s.low tag + 1#32 := by
      simp [t, State.operand32, State.low, State.gpr_setGpr]
    have verdict : t.holds (.compare32 .aboveOrEqual (.reg temp) (half (Split.lowestTag + 1))) =
        !s.hasNumber o (.split tag payload) := by
      rw [State.holds, sum, State.hasNumber, ← wrapped_tag_aboveOrEqual]
      rfl
    exact ⟨t, (State.SameExcept.refl temp s).setGpr _, add.andThen (Behaves.branch verdict)⟩

/-- Null and undefined differ in one bit, which the packed test clears. -/
theorem cleared_eq_null (w : Word) :
    (w &&& ~~~Packed.undefinedBit == Packed.nullWord) =
      (w == Packed.nullWord || w == Packed.undefinedWord) := by
  have bit : Packed.undefinedBit = BitVec.twoPow 64 3 := by decide
  have undefined : Packed.undefinedWord = Packed.nullWord ||| BitVec.twoPow 64 3 := by decide
  rw [Bool.eq_iff_iff, Bool.or_eq_true, beq_iff_eq, beq_iff_eq, beq_iff_eq, bit, undefined]
  exact and_not_twoPow_eq_iff (by decide)

theorem raised_eq_nullTag (tag : Half) :
    (tag ||| 1#32 == Split.nullTag) = (tag == Split.nullTag || tag == Split.undefinedTag) := by
  have bit : (1#32) = BitVec.twoPow 32 0 := by decide
  have null : Split.nullTag = Split.undefinedTag ||| BitVec.twoPow 32 0 := by decide
  rw [Bool.eq_iff_iff, Bool.or_eq_true, beq_iff_eq, beq_iff_eq, beq_iff_eq, bit, null, or_comm]
  exact or_twoPow_eq_iff (by decide)

theorem flipped_nonZero (w : Word) :
    MaskTest.nonZero.holds ((w ^^^ Packed.falseWord) &&& ~~~1#64) =
      !(w == Packed.falseWord || w == Packed.trueWord) := by
  have bit : (1#64) = BitVec.twoPow 64 0 := by decide
  have true : Packed.trueWord = Packed.falseWord ^^^ (0#64 ||| BitVec.twoPow 64 0) := by decide
  have rest := and_not_twoPow_eq_iff (w := w ^^^ Packed.falseWord) (c := 0#64)
    (k := 0) (by decide)
  have flip (c : Word) : w ^^^ Packed.falseWord = c ↔ w = Packed.falseWord ^^^ c := by
    constructor
    · rintro rfl
      rw [BitVec.xor_comm w, ← BitVec.xor_assoc, BitVec.xor_self, BitVec.zero_xor]
    · rintro rfl
      rw [BitVec.xor_comm _ Packed.falseWord, ← BitVec.xor_assoc, BitVec.xor_self, BitVec.zero_xor]
  rw [flip, flip, BitVec.xor_zero, ← true, ← bit] at rest
  rw [Bool.eq_iff_iff]
  simp only [MaskTest.holds, bne_iff_ne, Bool.not_eq_true', Bool.or_eq_false_iff,
    beq_eq_false_iff_ne]
  exact (not_congr rest).trans not_or

theorem other_behaves {relation : Relation} {verdict : Bool → Bool}
    (equality : ∀ {n : Nat} (a b : BitVec n), relation.holds a b = verdict (a == b)) :
    ∃ t, s.SameExcept temp t ∧
      (other relation temp regs).code.Behaves v s (verdict (s.hasOther regs)) t := by
  cases regs with
  | packed value =>
    let moved := s.setGpr temp (s.gpr value)
    let cleared := moved.setGpr temp (moved.gpr temp &&& ~~~Packed.undefinedBit)
    have move : Behaves v [.move temp value] s false moved := .plain rfl fun _ => rfl
    have clear : Behaves v [.and64 temp (~~~Packed.undefinedBit)] moved false cleared :=
      .plain rfl fun _ => rfl
    have held : cleared.operand64 (.reg temp) = s.gpr value &&& ~~~Packed.undefinedBit := by
      simp [cleared, moved, State.operand64, State.gpr_setGpr]
    have compared : cleared.holds (.compare64 relation (.reg temp) (.imm Packed.nullWord)) =
        verdict (s.hasOther (.packed value)) := by
      rw [State.holds, held, equality, State.hasOther, ← cleared_eq_null]
      rfl
    exact ⟨cleared, ((State.SameExcept.refl temp s).setGpr _).setGpr _,
      move.andThen (clear.andThen (Behaves.branch compared))⟩
  | split tag payload =>
    let moved := s.setGpr temp (s.gpr tag)
    let raised := moved.setGpr temp ((moved.low temp ||| 1#32).setWidth 64)
    have move : Behaves v [.move temp tag] s false moved := .plain rfl fun _ => rfl
    have raise : Behaves v [.or32 temp 1#32] moved false raised := .plain rfl fun _ => rfl
    have held : raised.operand32 (.reg temp) = s.low tag ||| 1#32 := by
      simp [raised, moved, State.operand32, State.low, State.gpr_setGpr]
    have compared : raised.holds (.compare32 relation (.reg temp) (half Split.nullTag)) =
        verdict (s.hasOther (.split tag payload)) := by
      rw [State.holds, held, equality, State.hasOther, ← raised_eq_nullTag]
      rfl
    exact ⟨raised, ((State.SameExcept.refl temp s).setGpr _).setGpr _,
      move.andThen (raise.andThen (Behaves.branch compared))⟩

theorem notBoolean_behaves :
    ∃ t, s.SameExcept temp t ∧
      ((notBoolean regs temp).code o).Behaves v s (!s.hasBoolean regs) t := by
  cases regs with
  | packed value =>
    let moved := s.setGpr temp (s.gpr value)
    let flipped := moved.setGpr temp (moved.gpr temp ^^^ Packed.falseWord)
    have move : Behaves v [.move temp value] s false moved := .plain rfl fun _ => rfl
    have flip : Behaves v [.xor64 temp Packed.falseWord] moved false flipped :=
      .plain rfl fun _ => rfl
    have held : flipped.operand64 (.reg temp) = s.gpr value ^^^ Packed.falseWord := by
      simp [flipped, moved, State.operand64, State.gpr_setGpr]
    have masked : flipped.holds (.mask64 .nonZero (.reg temp) (.imm (~~~1#64))) =
        !s.hasBoolean (.packed value) := by
      rw [State.holds, held, State.hasBoolean, ← flipped_nonZero]
      rfl
    exact ⟨flipped, ((State.SameExcept.refl temp s).setGpr _).setGpr _,
      move.andThen (flip.andThen (Behaves.branch masked))⟩
  | split tag payload => exact ⟨s, .refl temp s, Behaves.branch rfl⟩

theorem notString_behaves :
    ((notString regs.payload).code o).Behaves v s (!(s.typeOf regs = Cell.stringType)) s := by
  have widened (b c : Byte) : (b.setWidth 32 != c.setWidth 32) = !decide (b = c) := by
    rw [Bool.eq_iff_iff, bne_iff_ne, Bool.not_eq_true', decide_eq_false_iff_not, ne_eq,
      ← BitVec.toNat_inj, BitVec.toNat_setWidth_of_le (by decide),
      BitVec.toNat_setWidth_of_le (by decide), BitVec.toNat_inj]
  exact Behaves.branch (widened (s.typeOf regs) Cell.stringType)

theorem notObject_behaves :
    ((notObject regs.payload).code o).Behaves v s (!(Cell.objectType ≤ s.typeOf regs)) s := by
  have widened (b c : Byte) : (b.setWidth 32).ult (c.setWidth 32) = !decide (c ≤ b) := by
    rw [BitVec.ult_eq_decide, BitVec.toNat_setWidth_of_le (by decide),
      BitVec.toNat_setWidth_of_le (by decide), ← decide_not, decide_eq_decide, BitVec.le_def]
    omega
  exact Behaves.branch (widened (s.typeOf regs) Cell.objectType)

theorem shape_behaves (shape : ShapeId) :
    ((Guard.shape .notEqual regs.payload shape).code o).Behaves v s
      (!(s.shapeOf regs = shape)) s := by
  have raw : s.memory.read32 (s.address (.base regs.payload Cell.shapeOffset)) =
      (s.shapeOf regs).raw := by
    simp [State.address, State.shapeOf, Cell.shapeOffset]
  have compared : s.holds (.compare32 .notEqual (.mem (.base regs.payload Cell.shapeOffset))
      (half shape.raw)) = !(s.shapeOf regs = shape) := by
    rw [State.holds, State.operand32, raw]
    cases s.shapeOf regs
    cases shape
    simp [Relation.holds, State.operand32, half, bne, Bool.beq_eq_decide_eq]
  exact Behaves.branch compared

theorem cellTest_behaves {test : Guard} {accepts : Bool}
    (tested : (test.code o).Behaves v s (!accepts) s) :
    (cellTest o regs test).Behaves v s (!(s.hasCell o regs && accepts)) s := by
  have first := notCell_behaves v s o regs
  cases cell : s.hasCell o regs with
  | false =>
    rw [cell] at first
    exact first.andThen_of_leaves
  | true =>
    rw [cell] at first
    exact first.andThen tested

/-- A guard that lets null and undefined pass makes its other tests in the state that the test for
those two leaves behind. -/
theorem orOther_behaves {body : Fragment} {accepts : Bool}
    (tested : ∀ t, s.SameExcept temp t → body.Behaves v t (!accepts) t) :
    ∃ t, s.SameExcept temp t ∧
      (((isOther regs temp).code o).skipping body).Behaves v s
        (!(s.hasOther regs || accepts)) t := by
  obtain ⟨t, same, test⟩ := @other_behaves v s regs temp .equal id fun _ _ => rfl
  refine ⟨t, same, ?_⟩
  cases other : s.hasOther regs with
  | false =>
    rw [other] at test
    exact Behaves.skipping test (tested t same)
  | true =>
    rw [other] at test
    exact Behaves.skipping_of_leaves test

theorem notTy_behaves (free : temp ∉ regs.gprs) (unreserved : temp ≠ .tagMask) (t : Ty) :
    ∃ u, s.SameExcept temp u ∧ (notTy o regs temp t).Behaves v s (!s.passes o regs t) u := by
  have objects (u : State) (same : s.SameExcept temp u) :
      (cellTest o regs (notObject regs.payload)).Behaves v u (!s.passes o regs .object) u := by
    have tested := cellTest_behaves v u o regs (notObject_behaves v u o regs)
    rwa [same.hasCell_eq free unreserved, same.typeOf_eq free] at tested
  have shapes (shape : ShapeId) (u : State) (same : s.SameExcept temp u) :
      (cellTest o regs (Guard.shape .notEqual regs.payload shape)).Behaves v u
        (!s.passes o regs (.objectWithShape shape)) u := by
    have tested := cellTest_behaves v u o regs (shape_behaves v u o regs shape)
    rwa [same.hasCell_eq free unreserved, same.shapeOf_eq free] at tested
  cases t with
  | bottom => exact ⟨s, .refl temp s, Behaves.branch rfl⟩
  | boolean => exact notBoolean_behaves v s o regs temp
  | other => exact other_behaves v s regs temp fun _ _ => rfl
  | int32 => exact ⟨s, .refl temp s, notInt32_behaves v s o regs⟩
  | number => exact notNumber_behaves v s o regs temp
  | string => exact ⟨s, .refl temp s, cellTest_behaves v s o regs (notString_behaves v s o regs)⟩
  | object => exact ⟨s, .refl temp s, objects s (.refl temp s)⟩
  | objectOrOther => exact orOther_behaves v s o regs temp objects
  | objectWithShape shape => exact ⟨s, .refl temp s, shapes shape s (.refl temp s)⟩
  | objectWithShapeOrOther shape => exact orOther_behaves v s o regs temp (shapes shape)
  | top => exact ⟨s, .refl temp s, Behaves.empty v s⟩

/-- Registers of the representation compiled for get a guard. Placed anywhere and linked to a target
outside of it, the guard leaves for that target by one of its exits exactly if the type does not
admit the value, and else goes on behind its end; it changes nothing but the temporary. -/
theorem forTy_leaves_iff_not_admits (v : Services) (o : Options) (t : Ty) {regs : ValueRegs}
    {temp : Gpr} {value : Value} {s : State} (matching : regs.representation = o.representation)
    (free : temp ∉ regs.gprs) (unreserved : temp ≠ .tagMask)
    (wellFormed : value.WellFormed o.representation) (held : s.Holds regs value)
    (tags : s.TagsInPlace) (header : s.HasHeader value) :
    ∃ guard, forTy o regs temp t = .ok guard ∧
      ∀ {a placed linked : Assembler} {exits : List Nat} {target : Nat} (rest : Array Inst),
        a.origin = 0 → a.place guard = .ok (placed, exits) →
        placed.linkAll exits target = .ok linked → target < a.next ∨ placed.next < target →
        ∃ (trace : List Nat) (last : Nat) (final : State),
          (∀ limit fuel before made,
            Run.resume v (linked.code ++ rest) limit (trace.length + fuel) a.next s before made =
              Run.resume v (linked.code ++ rest) limit fuel last final (before ++ trace.toArray)
                made) ∧
          (∀ q ∈ trace, a.next ≤ q ∧ q < placed.next) ∧
          ((last = target ∧ ∃ q ∈ exits, trace.getLast? = some q) ↔ t.admits value = false) ∧
          (last = placed.next ↔ t.admits value = true) ∧ s.SameExcept temp final := by
  refine ⟨notTy o regs temp t, by rw [forTy, if_pos matching], ?_⟩
  intro a placed linked exits target rest fresh placing linking outside
  rw [← matching] at wellFormed
  obtain ⟨final, same, behaves⟩ := notTy_behaves v s o regs temp free unreserved t
  rw [State.passes_eq_admits held tags header wellFormed] at behaves
  obtain ⟨trace, path, within, lastExit⟩ :=
    behaves _ _ _ (Fragment.standsAt_of_place fresh placing linking rest)
  rw [← Assembler.next_place placing] at path within
  rw [← (Assembler.place_eq_ok placing).2] at lastExit
  refine ⟨trace, if !t.admits value then target else placed.next, final,
    fun limit fuel before made => ?_, within, ?_, ?_, same⟩
  · rw [path.resume_eq, Array.append_empty]
  -- The target lies outside of the guard, so that leaving and going on cannot be confused.
  · cases verdict : t.admits value with
    | false => simpa [verdict] using lastExit
    | true =>
      have apart : placed.next ≠ target := by
        have grown := Assembler.next_place placing
        omega
      simp [apart]
  · cases verdict : t.admits value with
    | false =>
      have apart : target ≠ placed.next := by
        have grown := Assembler.next_place placing
        omega
      simpa using apart
    | true => simp

theorem forTy_leaves_on_other_shape :
    ∃ guard, forTy {} (.packed .t0) .t3 (.objectWithShapeOrOther ⟨7#32⟩) = .ok guard ∧
      ∃ placed exits linked, ({} : Assembler).place guard = .ok (placed, exits) ∧
        placed.linkAll exits 100 = .ok linked ∧
        ∃ (trace : List Nat) (final : State),
          (∀ fuel, Run.resume .none linked.code 1000 (trace.length + fuel) 0
              (((State.zero.setTags).setGpr .t0 0x1000#64).setByte 0x1005#64 0x11#8) #[] #[] =
            Run.resume .none linked.code 1000 fuel 100 final trace.toArray #[]) ∧
          ∃ q ∈ exits, trace.getLast? = some q := by
  let s : State := ((State.zero.setTags).setGpr .t0 0x1000#64).setByte 0x1005#64 0x11#8
  have header : s.HasHeader (.cell 0x1000#64 ⟨0#32⟩ 0x11#8) := by
    constructor
    · simp [s, State.setByte, State.setGpr, State.setTags, State.zero, Memory.read32, Memory.read,
        Memory.byte_setByte]
    · simp [s, State.setByte, Memory.byte_setByte]
  have wellFormed : (Value.cell 0x1000#64 ⟨0#32⟩ 0x11#8).WellFormed .packed :=
    ⟨by decide, by decide⟩
  have held : s.Holds (.packed .t0) (.cell 0x1000#64 ⟨0#32⟩ 0x11#8) := rfl
  have tags : s.TagsInPlace := ⟨rfl, rfl⟩
  obtain ⟨guard, emitted, placements⟩ := forTy_leaves_iff_not_admits .none {}
    (.objectWithShapeOrOther ⟨7#32⟩) rfl (by decide : Gpr.t3 ∉ (ValueRegs.packed .t0).gprs)
    (by decide) wellFormed held tags header
  refine ⟨guard, emitted, ?_⟩
  cases emitted
  let placed := notTy {} (.packed .t0) .t3 (.objectWithShapeOrOther ⟨7#32⟩)
  have placing : ({} : Assembler).place placed =
      .ok ({ code := (Fragment.shift 0 placed).toArray }, [3, 4]) := rfl
  have linking : Assembler.linkAll { code := (Fragment.shift 0 placed).toArray } [3, 4] 100 =
      .ok { code := (Fragment.linkExits 100 (Fragment.shift 0 placed)).toArray } := rfl
  refine ⟨_, _, _, placing, linking, ?_⟩
  obtain ⟨trace, last, final, run, _, leaves, _⟩ := placements #[] rfl placing linking (by decide)
  obtain ⟨rfl, exit⟩ := leaves.mpr rfl
  rw [Array.append_empty] at run
  exact ⟨trace, final, fun fuel => (run 1000 fuel #[] #[]).trans (by rw [Array.empty_append]), exit⟩

end Guard

end InlineCache
