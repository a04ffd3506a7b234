import InlineCache.Proofs.ForwardBranches
import InlineCache.Proofs.RegionContents

/-!
The room in patchable regions. Whatever an access becomes, the test of the shape and the access
itself take up no more than a region has, so that linking a region with a slow path cannot fail. It
takes registers of the right representation and slots whose displacement fits.
-/

namespace InlineCache

namespace Cell

def lastSlot : Nat := 0x0FFFFFFD

theorem slotDisplacement_succeeds {slot : Half} (small : slot.toNat ≤ lastSlot) :
    ∃ displacement, slotDisplacement slot = .ok displacement := by
  unfold lastSlot at small
  have plain : slot.toInt = slot.toNat := BitVec.toInt_eq_toNat_of_lt (by omega)
  have size : slotSize.toInt = 8 := by decide
  have offset : slotsOffset.toInt = 16 := by decide
  have fits : isDisplacement (slot.toNat * 8) = true ∧
      isDisplacement (slot.toNat * 8 + 16) = true := by
    simp only [isDisplacement, Bool.and_eq_true, decide_eq_true_eq]
    omega
  exact ⟨_, by rw [slotDisplacement, plain, size, offset, if_pos (by simp [fits])]⟩

end Cell

namespace Slot

variable {object : Gpr} {slot : Half} {regs : ValueRegs} {f : Fragment}

theorem load_succeeds (small : slot.toNat ≤ Cell.lastSlot) (object : Gpr) (regs : ValueRegs) :
    ∃ f, load object slot regs = .ok f := by
  obtain ⟨displacement, located⟩ := Cell.slotDisplacement_succeeds small
  cases regs with
  | packed dst => exact ⟨_, by rw [load, location, located]; rfl⟩
  | split tag payload =>
    by_cases overwritten : payload = object
    · exact ⟨_, by simp [load, location, located, overwritten]; rfl⟩
    · exact ⟨_, by simp [load, location, located, overwritten]; rfl⟩

theorem store_succeeds (small : slot.toNat ≤ Cell.lastSlot) (object : Gpr) (regs : ValueRegs) :
    ∃ f, store object slot regs = .ok f := by
  obtain ⟨displacement, located⟩ := Cell.slotDisplacement_succeeds small
  cases regs with
  | packed src => exact ⟨_, by rw [store, location, located]; rfl⟩
  | split tag payload => exact ⟨_, by rw [store, location, located]; rfl⟩

theorem load_within (loaded : load object slot regs = .ok f) : f.Within 2 := by
  obtain ⟨low, _, rest⟩ := bind_eq_ok_iff.mp loaded
  cases regs with
  | packed dst =>
    cases rest
    exact .plain (by simp [Inst.target?]) (by simp)
  | split tag payload =>
    simp only at rest
    split at rest
    next =>
      cases rest
      exact .plain (by simp [Inst.target?]) (Nat.le_refl 2)
    next =>
      cases rest
      exact .plain (by simp [Inst.target?]) (Nat.le_refl 2)

theorem store_within (stored : store object slot regs = .ok f) : f.Within 2 := by
  obtain ⟨low, _, rest⟩ := bind_eq_ok_iff.mp stored
  cases regs with
  | packed src =>
    cases rest
    exact .plain (by simp [Inst.target?]) (by simp)
  | split tag payload =>
    cases rest
    exact .plain (by simp [Inst.target?]) (Nat.le_refl 2)

theorem setTrue_within (regs : ValueRegs) : (setTrue regs).Within 2 := by
  cases regs with
  | packed dst => exact .plain (by simp [setTrue, Inst.target?]) (by simp [setTrue])
  | split tag payload => exact .plain (by simp [setTrue, Inst.target?]) (Nat.le_refl 2)

end Slot

theorem Header.store_within (o : Options) (s : Shape) (dest : Gpr) : (store o s dest).Within 9 := by
  unfold store
  split
  next =>
    have written : Fragment.Within [.store64Imm s.header (.base dest Cell.shapeOffset)] 1 :=
      .plain (by simp [Inst.target?]) (Nat.le_refl 1)
    exact written.andThen (SelfCheck.testAll_within o (tests s dest))
  next => exact .plain (by simp [halves, Inst.target?]) (by simp [halves])

theorem Guard.cellTest_shape_within (o : Options) (regs : ValueRegs) (relation : Relation)
    (cell : Gpr) (shape : ShapeId) :
    (cellTest o regs (.shape relation cell shape)).Within 2 := by
  have cells : ((notCell regs).code o).length = 1 := by
    cases regs with
    | packed value => rfl
    | split tag payload => rfl
  have whole := (code_within o (notCell regs)).andThen (code_within o (.shape relation cell shape))
  rw [cells] at whole
  exact whole

/-- A model whose slots all have a displacement. -/
structure ShapeModel.Reachable (shapes : ShapeModel) : Prop where
  slots : ∀ shape key slot, shapes.slot? shape key = some slot → slot.toNat ≤ Cell.lastSlot
  transitions : ∀ shape key target slot, shapes.transition? shape key = some (target, slot) →
    slot.toNat ≤ Cell.lastSlot

namespace Access

variable {o : Options} {shapes : ShapeModel} {snapshot : Snapshot} {shape : ShapeId}
  {access : Access} {resolution : Resolution} {rest : Fragment}

theorem specialize_succeeds (reachable : shapes.Reachable) (o : Options) (snapshot : Snapshot)
    (shape : ShapeId) (access : Access) :
    ∃ answer, access.specialize o shapes snapshot shape = .ok answer := by
  unfold specialize
  cases access with
  | read key =>
    simp only
    split
    next => exact ⟨_, rfl⟩
    next => exact ⟨_, rfl⟩
    next slot result known _ =>
      obtain ⟨f, loaded⟩ :=
        Slot.load_succeeds (reachable.slots _ _ _ known) snapshot.base.payload result
      rw [loaded]
      exact ⟨_, rfl⟩
  | write key mode kind =>
    cases kind with
    | replace =>
      simp only
      split
      next => exact ⟨_, rfl⟩
      next => exact ⟨_, rfl⟩
      next slot value known _ =>
        obtain ⟨f, stored⟩ :=
          Slot.store_succeeds (reachable.slots _ _ _ known) snapshot.base.payload value
        rw [stored]
        exact ⟨_, rfl⟩
    | define =>
      simp only
      split
      next => exact ⟨_, rfl⟩
      next target slot known =>
        split
        next => exact ⟨_, rfl⟩
        next => exact ⟨_, rfl⟩
        next header value _ _ =>
          obtain ⟨f, stored⟩ :=
            Slot.store_succeeds (reachable.transitions _ _ _ _ known) snapshot.base.payload value
          rw [stored]
          exact ⟨_, rfl⟩
  | has key =>
    simp only
    split
    next => exact ⟨_, rfl⟩
    next => exact ⟨_, rfl⟩
    next => exact ⟨_, rfl⟩

theorem specialize_within
    (resolved : access.specialize o shapes snapshot shape = .ok (.ok (resolution, rest))) :
    rest.Within 11 := by
  rcases specialize_eq_ok resolved with
    ⟨_, _, _, _, loaded⟩ | ⟨_, _, _, _, stored⟩ | ⟨_, _, header, _, _, _, _, _, stored, rfl⟩ |
    ⟨result, _, _, rfl⟩
  · exact (Slot.load_within loaded).mono (by decide)
  · exact (Slot.store_within stored).mono (by decide)
  · exact (Slot.store_within stored).andThen (Header.store_within o header _)
  · exact (Slot.setTrue_within result).mono (by decide)

end Access

theorem Assembler.guarded_succeeds {start slowPath : Nat} {guard : Fragment}
    (forward : guard.Forward guard.length) (room : start + guard.length < wordLimit) :
    ∃ placed exits linked, ({ origin := start } : Assembler).place guard = .ok (placed, exits) ∧
      placed.linkAll exits slowPath = .ok linked ∧ linked.next = start + guard.length ∧
      linked.origin = start := by
  obtain ⟨placed, exits, placing⟩ := @place_succeeds { origin := start } guard (forward.fits room)
  obtain ⟨linked, linking⟩ := @linkAll_succeeds placed exits slowPath fun q member => by
    obtain ⟨cond, found⟩ := inst?_of_mem_exits placing member
    exact ⟨cond, none, found⟩
  obtain ⟨origin, next, _⟩ := linkAll_eq_ok linking
  refine ⟨placed, exits, linked, placing, linking, ?_, ?_⟩
  · rw [next, next_place placing]
    rfl
  · rw [origin, origin_place placing]

namespace Patch

variable {o : Options} {shapes : ShapeModel} {snapshot : Snapshot} {p : Patch}

theorem specialize_succeeds (reachable : shapes.Reachable)
    (matching : snapshot.base.representation = o.representation)
    (length : p.region.length = Patch.length) (fits : p.region.stop < wordLimit) (access : Access)
    (slowPath : Nat) :
    ∃ answer, p.specialize o shapes snapshot access slowPath = .ok answer := by
  have room : p.region.start + 16 < wordLimit := by
    rwa [Region.stop, length] at fits
  unfold specialize
  split
  next => exact ⟨_, rfl⟩
  next shape seen =>
    split
    next => exact ⟨_, rfl⟩
    next valid =>
      have tested :=
        Guard.cellTest_shape_within o snapshot.base .notEqual snapshot.base.payload shape
      have short := tested.length
      obtain ⟨placed, exits, linked, placing, linking, next, origin⟩ :=
        @Assembler.guarded_succeeds p.region.start slowPath _ tested.forward (by omega)
      obtain ⟨answer, resolving⟩ := Access.specialize_succeeds reachable o snapshot shape access
      simp only [bind_eq_ok_iff, liftFault_eq_ok_iff, Guard.forTy, if_pos matching]
      cases answer with
      | error reason =>
        exact ⟨.error reason, _, rfl, _, placing, linked, linking, _, resolving, rfl⟩
      | ok resolved =>
        have brief := Access.specialize_within resolving
        have within := brief.length
        obtain ⟨whole, none_left, following⟩ :=
          @Assembler.place_succeeds linked resolved.2 (brief.forward.fits (by omega))
        -- Two instructions for the test and eleven for the access leave three of the sixteen over.
        have size : ¬ p.region.length < whole.code.size := by
          have behind := Assembler.next_place following
          rw [Assembler.next, Assembler.origin_place following, origin, next] at behind
          rw [length, Patch.length]
          omega
        let padding := Array.replicate (p.region.length - whole.code.size) Inst.nop
        refine ⟨.ok (resolved.1, whole.code ++ padding), _, rfl, _, placing, linked, linking, _,
          resolving, ?_⟩
        simp only [bind_eq_ok_iff, liftFault_eq_ok_iff]
        exact ⟨_, following, by rw [if_neg size]; rfl⟩

theorem link_succeeds {code : Array Inst} {slowPath : Nat} (reachable : shapes.Reachable)
    (matching : snapshot.base.representation = o.representation)
    (length : p.region.length = Patch.length) (fits : p.region.stop < wordLimit)
    (leads : (code[p.placeholder]?).bind Inst.target? = some slowPath)
    (inside : p.region.stop ≤ code.size) (access : Access) :
    ∃ after resolution, p.link o shapes snapshot access code = .ok (after, resolution) := by
  obtain ⟨answer, resolved⟩ :=
    specialize_succeeds reachable matching length fits access slowPath
  cases answer with
  | error reason =>
    exact ⟨code, .slowPath reason,
      link_eq_ok_iff.mpr ⟨slowPath, leads, .inl ⟨reason, resolved, rfl, rfl⟩⟩⟩
  | ok result =>
    obtain ⟨after, installed⟩ := @install_succeeds result.2 code _ fits inside
    exact ⟨after, result.1, link_eq_ok_iff.mpr ⟨slowPath, leads, .inr ⟨_, resolved, installed⟩⟩⟩

end Patch

end InlineCache
