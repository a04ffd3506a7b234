import InlineCache.Proofs.MemoryWords
import InlineCache.Proofs.SelfCheckVerdict

/-!
What patched regions do. The code of an access has the effect that its resolution names: the slot
goes to the registers of the result, the value to the slot, a new header to the object. In front of
it stands the test of the shape, so that a region has this effect on the objects that were seen
before and leaves for the slow path, with nothing changed, on all others.
-/

namespace InlineCache

/-- The address of an inline slot of a cell. The slot number is read as a signed one. -/
def Cell.slotAddress (cell : Word) (slot : Half) : Word :=
  cell + (slot.signExtend 64 * 8#64 + 16#64)

def ValueRegs.Proper : ValueRegs → Prop
  | packed _ => True
  | split tag payload => tag ≠ payload

def State.setBits (s : State) (bits : Word) : ValueRegs → State
  | .packed value => s.setGpr value bits
  | .split tag payload =>
      (s.setGpr tag ((bits.extractLsb' 32 32).setWidth 64)).setGpr payload
        ((bits.setWidth 32).setWidth 64)

/-- What an access does to an object that has the shape it was resolved for. -/
def Resolution.effect (shapes : ShapeModel) (snapshot : Snapshot) (s : State) : Resolution → State
  | load _ slot =>
      match snapshot.result? with
      | some result =>
          s.setBits (s.memory.read64 (Cell.slotAddress (s.gpr snapshot.base.payload) slot)) result
      | none => s
  | store _ slot =>
      match snapshot.value? with
      | some value =>
          s.write64 (Cell.slotAddress (s.gpr snapshot.base.payload) slot) (s.valueBits value)
      | none => s
  | transition _ target slot =>
      match shapes.shape? target, snapshot.value? with
      | some header, some value =>
          (s.write64 (Cell.slotAddress (s.gpr snapshot.base.payload) slot)
            (s.valueBits value)).writeHeader (s.gpr snapshot.base.payload) header
      | _, _ => s
  | present _ =>
      match snapshot.result? with
      | some result => s.setValue result (.boolean true)
      | none => s
  | slowPath _ => s

theorem signExtend_ofInt {x : Int} (fits : Cell.isDisplacement x = true) :
    (BitVec.ofInt 32 x).signExtend 64 = BitVec.ofInt 64 x := by
  simp only [Cell.isDisplacement, Bool.and_eq_true, decide_eq_true_eq] at fits
  rw [BitVec.signExtend, BitVec.toInt_ofInt, Int.bmod_eq_of_le (by omega) (by omega)]

theorem State.setGpr_comm (s : State) {r q : Gpr} (differ : r ≠ q) (a b : Word) :
    (s.setGpr r a).setGpr q b = (s.setGpr q b).setGpr r a := by
  have apart : r.index.val ≠ q.index.val := fun same =>
    differ (by rw [Gpr.mk.injEq, Fin.ext_iff]; exact same)
  simp only [setGpr]
  congr 1
  exact Vector.set_comm _ _ apart

theorem State.passes_writeHeader {s : State} {o : Options} {regs : ValueRegs} {a : Word}
    (shape : Shape) (address : s.gpr regs.payload = a) (cell : s.hasCell o regs = true) :
    (s.writeHeader a shape).passes o regs (.objectWithShape shape.id) = true := by
  have kept : (s.writeHeader a shape).hasCell o regs = s.hasCell o regs := by
    cases regs with
    | packed value =>
      rw [hasCell, hasCell, Options.tagMask]
      cases o.tagRegisters <;> rfl
    | split tag payload => rfl
  have held : (s.writeHeader a shape).shapeOf regs = shape.id := by
    have read : (s.memory.write64 a shape.header).read32 (s.gpr regs.payload) = shape.id.raw := by
      rw [address, Memory.read32_write64, Shape.header, BitVec.setWidth_append_eq_right]
    exact congrArg ShapeId.mk read
  rw [passes, kept, held, cell]
  simp

namespace Slot

variable {object : Gpr} {slot : Half} {regs : ValueRegs} {f : Fragment}

theorem location_eq_ok {low : Mem} (located : location object slot = .ok low) (s : State) :
    s.address low = Cell.slotAddress (s.gpr object) slot ∧
      s.address (low.displace 4#32) = Cell.slotAddress (s.gpr object) slot + 4#64 := by
  simp only [location, bind_eq_ok_iff, Cell.slotDisplacement] at located
  obtain ⟨displacement, computed, same⟩ := located
  cases same
  split at computed
  next fits =>
    cases computed
    have size : Cell.slotSize.toInt = 8 := by decide
    have offset : Cell.slotsOffset.toInt = 16 := by decide
    simp only [size, offset, Bool.and_eq_true] at fits ⊢
    have wide : BitVec.ofInt 64 (slot.toInt * 8 + 16) = slot.signExtend 64 * 8#64 + 16#64 := by
      rw [BitVec.ofInt_add, BitVec.ofInt_mul]
      rfl
    have further : Cell.isDisplacement (slot.toInt * 8 + 16 + 4) = true := by
      simp only [Cell.isDisplacement, Bool.and_eq_true, decide_eq_true_eq] at fits ⊢
      omega
    constructor
    · rw [State.address, signExtend_ofInt fits.2, wide, Cell.slotAddress]
    · have high : BitVec.ofInt 32 (slot.toInt * 8 + 16) + 4#32 =
          BitVec.ofInt 32 (slot.toInt * 8 + 16 + 4) := by
        rw [BitVec.ofInt_add _ 4]
        rfl
      rw [Mem.displace, State.address, high, signExtend_ofInt further, BitVec.ofInt_add _ 4, wide,
        Cell.slotAddress, ← BitVec.add_assoc]
      rfl
  next => cases computed

theorem load_behaves (v : Services) (s : State) (loaded : load object slot regs = .ok f)
    (proper : regs.Proper) :
    f.Behaves v s false
      (s.setBits (s.memory.read64 (Cell.slotAddress (s.gpr object) slot)) regs) := by
  obtain ⟨low, located, rest⟩ := bind_eq_ok_iff.mp loaded
  have here := location_eq_ok located
  cases regs with
  | packed dst =>
    cases rest
    exact .plain rfl fun pc => by rw [step, (here s).1]; rfl
  | split tag payload =>
    let low' := Cell.slotAddress (s.gpr object) slot
    have high_half : (s.memory.read64 low').extractLsb' 32 32 = s.memory.read32 (low' + 4#64) := by
      rw [Memory.read64_eq_append, BitVec.extractLsb'_append_eq_left]
    have low_half : (s.memory.read64 low').setWidth 32 = s.memory.read32 low' := by
      rw [Memory.read64_eq_append, BitVec.setWidth_append_eq_right]
    rw [State.setBits, high_half, low_half]
    simp only at rest
    -- The register of the object may be overwritten by the last load only.
    split at rest
    next same =>
      cases rest
      subst same
      let t := s.setGpr tag ((s.memory.read32 (low' + 4#64)).setWidth 64)
      have kept : t.gpr payload = s.gpr payload := by
        rw [State.gpr_setGpr, if_neg (Ne.symm proper)]
      have first : Fragment.Behaves v [.load32 tag (low.displace 4#32)] s false t :=
        .plain rfl fun pc => by rw [step, (here s).2]
      have second : Fragment.Behaves v [.load32 payload low] t false
          (t.setGpr payload ((s.memory.read32 low').setWidth 64)) :=
        .plain rfl fun pc => by rw [step, (here t).1, kept]; rfl
      exact first.andThen second
    next differs =>
      cases rest
      let t := s.setGpr payload ((s.memory.read32 low').setWidth 64)
      have kept : t.gpr object = s.gpr object := by
        rw [State.gpr_setGpr, if_neg (Ne.symm differs)]
      have first : Fragment.Behaves v [.load32 payload low] s false t :=
        .plain rfl fun pc => by rw [step, (here s).1]
      have second : Fragment.Behaves v [.load32 tag (low.displace 4#32)] t false
          (t.setGpr tag ((s.memory.read32 (low' + 4#64)).setWidth 64)) :=
        .plain rfl fun pc => by rw [step, (here t).2, kept]; rfl
      rw [State.setGpr_comm s proper]
      exact first.andThen second

theorem store_behaves (v : Services) (s : State) (stored : store object slot regs = .ok f) :
    f.Behaves v s false
      (s.write64 (Cell.slotAddress (s.gpr object) slot) (s.valueBits regs)) := by
  obtain ⟨low, located, rest⟩ := bind_eq_ok_iff.mp stored
  have here := location_eq_ok located
  cases regs with
  | packed src =>
    cases rest
    exact .plain rfl fun pc => by rw [step, (here s).1]; rfl
  | split tag payload =>
    cases rest
    let half := s.write32 (Cell.slotAddress (s.gpr object) slot) (s.low payload)
    have first : Fragment.Behaves v [.store32 payload low] s false half :=
      .plain rfl fun pc => by rw [step, (here s).1]
    have second : Fragment.Behaves v [.store32 tag (low.displace 4#32)] half false
        (s.write64 (Cell.slotAddress (s.gpr object) slot) (s.valueBits (.split tag payload))) := by
      have kept : half.gpr object = s.gpr object := rfl
      refine .plain rfl fun pc => ?_
      rw [step, (here half).2, kept, State.write32_low_high]
      rfl
    exact first.andThen second

theorem setTrue_behaves (v : Services) (s : State) (regs : ValueRegs) :
    (setTrue regs).Behaves v s false (s.setValue regs (.boolean true)) := by
  cases regs with
  | packed dst => exact .plain rfl fun _ => rfl
  | split tag payload =>
    have first : Fragment.Behaves v [.moveImm tag (Split.booleanTag.setWidth 64)] s false
        (s.setGpr tag (Split.booleanTag.setWidth 64)) := .plain rfl fun _ => rfl
    have second : Fragment.Behaves v [.moveImm payload 1#64]
        (s.setGpr tag (Split.booleanTag.setWidth 64)) false
        (s.setValue (.split tag payload) (.boolean true)) := .plain rfl fun _ => rfl
    exact first.andThen second

end Slot

theorem Shape.bytes_typeInfo (shape : Shape) :
    BitVec.ofNat 8 (shape.typeInfo.toNat / 256 ^ 0) = shape.indexingType ∧
      BitVec.ofNat 8 (shape.typeInfo.toNat / 256 ^ 1) = shape.cellType ∧
      BitVec.ofNat 8 (shape.typeInfo.toNat / 256 ^ 2) = shape.flags ∧
      BitVec.ofNat 8 (shape.typeInfo.toNat / 256 ^ 3) = 0#8 := by
  have first := shape.indexingType.isLt
  have second := shape.cellType.isLt
  have third := shape.flags.isLt
  have zero : (0#8).toNat = 0 := rfl
  have sum : shape.typeInfo.toNat = shape.flags.toNat * 2 ^ 16 + shape.cellType.toNat * 2 ^ 8 +
      shape.indexingType.toNat := by
    simp only [typeInfo, BitVec.toNat_append]
    rw [← Nat.shiftLeft_add_eq_or_of_lt first, ← Nat.shiftLeft_add_eq_or_of_lt second,
      ← Nat.shiftLeft_add_eq_or_of_lt third]
    simp only [Nat.shiftLeft_eq, BitVec.toNat_ofNat]
    omega
  refine ⟨?_, ?_, ?_, ?_⟩ <;>
    · apply BitVec.eq_of_toNat_eq
      rw [BitVec.toNat_ofNat]
      omega

namespace Header

variable (v : Services) (s : State) (o : Options) (shape : Shape) (dest : Gpr)

theorem holds_byte {offset : Half} {expected : Byte} {k : Nat} (within : k < 4)
    (place : offset.signExtend 64 = BitVec.ofNat 64 (4 + k))
    (field : BitVec.ofNat 8 (shape.typeInfo.toNat / 256 ^ k) = expected) :
    (s.writeHeader (s.gpr dest) shape).holds (.compare8 .equal (.base dest offset) expected) =
      true := by
  have held : (s.writeHeader (s.gpr dest) shape).memory.byte
      ((s.writeHeader (s.gpr dest) shape).address (.base dest offset)) = expected := by
    have halves := Memory.byte_of_halves shape.typeInfo shape.id.raw (k := 4 + k) (by omega)
    rw [if_neg (by omega), Nat.add_sub_cancel_left, field] at halves
    rw [← halves, State.address, place]
    exact Memory.byte_write64 _ _ _ (by omega)
  simp [State.holds, held, Relation.holds]

theorem address_shape : s.address (.base dest Cell.shapeOffset) = s.gpr dest := by
  simp [State.address, Cell.shapeOffset]

theorem operand32_shape :
    (s.writeHeader (s.gpr dest) shape).operand32 (.mem (.base dest Cell.shapeOffset)) =
      shape.id.raw := by
  have kept : (s.writeHeader (s.gpr dest) shape).gpr dest = s.gpr dest := rfl
  rw [State.operand32, address_shape, kept]
  refine (Memory.read32_write64 _ _ _).trans ?_
  rw [Shape.header, BitVec.setWidth_append_eq_right]

theorem holds_shape :
    (s.writeHeader (s.gpr dest) shape).holds (.compare32 .equal
      (.mem (.base dest Cell.shapeOffset)) (Guard.half shape.id.raw)) = true := by
  rw [State.holds, operand32_shape]
  simp [State.operand32, Guard.half, Relation.holds]

theorem tests_hold : ∀ test ∈ tests shape dest,
    test.2.holds (s.writeHeader (s.gpr dest) shape) = true := by
  obtain ⟨indexing, kind, flags, _⟩ := shape.bytes_typeInfo
  simp only [tests, List.forall_mem_cons, SelfCheck.Evidence.holds, List.any_cons, List.any_nil,
    Bool.or_false]
  exact ⟨holds_shape s shape dest, holds_byte s shape dest (by decide) rfl indexing,
    holds_byte s shape dest (by decide) rfl kind, holds_byte s shape dest (by decide) rfl flags,
    by simp⟩

theorem store_behaves :
    (store o shape dest).Behaves v s false (s.writeHeader (s.gpr dest) shape) := by
  unfold store
  split
  next =>
    have written : Fragment.Behaves v [.store64Imm shape.header (.base dest Cell.shapeOffset)] s
        false (s.writeHeader (s.gpr dest) shape) :=
      .plain rfl fun pc => by rw [step, address_shape]; rfl
    exact written.andThen (SelfCheck.testAll_behaves v o _ (tests_hold s shape dest))
  next =>
    have high : s.address (.base dest Cell.indexingTypeOffset) = s.gpr dest + 4#64 := rfl
    let half := s.write32 (s.gpr dest + 4#64) shape.typeInfo
    have kept : half.gpr dest = s.gpr dest := rfl
    have first : Fragment.Behaves v
        [.store32Imm shape.typeInfo (.base dest Cell.indexingTypeOffset)] s false half :=
      .plain rfl fun pc => by rw [step, high]
    have second : Fragment.Behaves v [.store32Imm shape.id.raw (.base dest Cell.shapeOffset)]
        half false (s.writeHeader (s.gpr dest) shape) := by
      refine .plain rfl fun pc => ?_
      rw [step, address_shape, kept, State.write32_high_low]
      rfl
    exact first.andThen second

end Header

section Region

variable {v : Services} {s : State} {o : Options} {shapes : ShapeModel} {snapshot : Snapshot}
  {shape : ShapeId} {access : Access} {resolution : Resolution} {rest : Fragment}

/-- What the code of an access does in every state, with the registers that it uses. -/
def Resolution.Does (shapes : ShapeModel) (snapshot : Snapshot) (code : Fragment) :
    Resolution → Prop
  | load _ slot => ∃ result, snapshot.result? = some result ∧ (result.Proper → ∀ v s,
      code.Behaves v s false
        (s.setBits (s.memory.read64 (Cell.slotAddress (s.gpr snapshot.base.payload) slot)) result))
  | store _ slot => ∃ value, snapshot.value? = some value ∧ ∀ v s,
      code.Behaves v s false
        (s.write64 (Cell.slotAddress (s.gpr snapshot.base.payload) slot) (s.valueBits value))
  | transition _ target slot => ∃ header value, shapes.shape? target = some header ∧
      snapshot.value? = some value ∧ ∀ v s, code.Behaves v s false
        ((s.write64 (Cell.slotAddress (s.gpr snapshot.base.payload) slot)
          (s.valueBits value)).writeHeader (s.gpr snapshot.base.payload) header)
  | present _ => ∃ result, snapshot.result? = some result ∧ ∀ v s,
      code.Behaves v s false (s.setValue result (.boolean true))
  | slowPath _ => False

theorem Access.specialize_does
    (resolved : access.specialize o shapes snapshot shape = .ok (.ok (resolution, rest))) :
    resolution.Does shapes snapshot rest := by
  rcases specialize_eq_ok resolved with ⟨slot, result, rfl, known, loaded⟩ |
    ⟨slot, value, rfl, known, stored⟩ |
    ⟨target, slot, header, value, write, rfl, valid, known, stored, rfl⟩ | ⟨result, rfl, known, rfl⟩
  · exact ⟨result, known, fun proper v s => Slot.load_behaves v s loaded proper⟩
  · exact ⟨value, known, fun v s => Slot.store_behaves v s stored⟩
  · exact ⟨header, value, valid, known, fun v s =>
      (Slot.store_behaves v s stored).andThen (Header.store_behaves _ _ _ _ _)⟩
  · exact ⟨result, known, fun v s => Slot.setTrue_behaves v s result⟩

theorem Access.specialize_behaves
    (resolved : access.specialize o shapes snapshot shape = .ok (.ok (resolution, rest)))
    (proper : ∀ regs, snapshot.result? = some regs → regs.Proper) :
    rest.Behaves v s false (resolution.effect shapes snapshot s) := by
  have does := specialize_does resolved
  cases resolution with
  | load _ slot =>
    obtain ⟨result, known, behaves⟩ := does
    simp only [Resolution.effect, known]
    exact behaves (proper result known) v s
  | store _ slot =>
    obtain ⟨value, known, behaves⟩ := does
    simp only [Resolution.effect, known]
    exact behaves v s
  | transition _ target slot =>
    obtain ⟨header, value, valid, known, behaves⟩ := does
    simp only [Resolution.effect, valid, known]
    exact behaves v s
  | present _ =>
    obtain ⟨result, known, behaves⟩ := does
    simp only [Resolution.effect, known]
    exact behaves v s
  | slowPath _ => exact does.elim

theorem Fragment.nops_behave (v : Services) (s : State) (n : Nat) :
    Fragment.Behaves v (List.replicate n .nop) s false s := by
  induction n with
  | zero => exact .empty v s
  | succ n ih =>
    have shifted :
        Fragment.andThen [.nop] (List.replicate n .nop) = List.replicate (n + 1) .nop := by
      simp [Fragment.andThen, Fragment.shift, Inst.shift, List.replicate_succ]
    rw [← shifted]
    exact Fragment.Behaves.andThen (.plain rfl fun _ => rfl) ih

theorem Patch.body_leaves (access : Fragment) (length : Nat)
    (rejected : s.passes o snapshot.base (.objectWithShape shape) = false) :
    (body o snapshot.base shape access length).Behaves v s true s := by
  have tested := Guard.cellTest_behaves v s o snapshot.base
    (Guard.shape_behaves v s o snapshot.base shape)
  rw [← State.passes, rejected] at tested
  exact tested.andThen_of_leaves.andThen_of_leaves

theorem Patch.body_completes {t : State} (done : rest.Behaves v s false t) (length : Nat)
    (accepted : s.passes o snapshot.base (.objectWithShape shape) = true) :
    (body o snapshot.base shape rest length).Behaves v s false t := by
  have tested := Guard.cellTest_behaves v s o snapshot.base
    (Guard.shape_behaves v s o snapshot.base shape)
  rw [← State.passes, accepted] at tested
  exact (tested.andThen done).andThen (Fragment.nops_behave _ _ _)

/-- A patched region does the access if the object has the shape, and leaves otherwise. -/
theorem Patch.body_behaves
    (resolved : access.specialize o shapes snapshot shape = .ok (.ok (resolution, rest)))
    (proper : ∀ regs, snapshot.result? = some regs → regs.Proper) (length : Nat) :
    (body o snapshot.base shape rest length).Behaves v s
      (!s.passes o snapshot.base (.objectWithShape shape))
      (if s.passes o snapshot.base (.objectWithShape shape) then resolution.effect shapes snapshot s
        else s) := by
  cases verdict : s.passes o snapshot.base (.objectWithShape shape) with
  | false => exact body_leaves rest length verdict
  | true => exact body_completes (Access.specialize_behaves resolved proper) length verdict

end Region

end InlineCache
