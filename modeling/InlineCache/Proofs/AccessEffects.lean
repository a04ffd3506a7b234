import InlineCache.Proofs.LinkedSites
import InlineCache.Proofs.RegionRoom
import InlineCache.Proofs.SlotDecoding

/-!
What specialised regions leave behind, to the last byte. A region that writes stores the value in
the slot, and the new header if the object gets another shape; a region that reads puts the slot
into the registers of the result, and an existence test answers there. Everything else is as it
was, however registers coincide.
-/

namespace InlineCache

namespace State

/-- The words listed stand in memory at their addresses, and nothing else has changed. -/
structure Stores (s : State) (words : List (Word × Word)) (t : State) : Prop where
  gprs : t.gprs = s.gprs
  fprs : t.fprs = s.fprs
  held : ∀ a w, (a, w) ∈ words → t.memory.read64 a = w
  others : ∀ c, (∀ a w, (a, w) ∈ words → 8 ≤ (c - a).toNat) → t.memory.byte c = s.memory.byte c

/-- The registers of a value have got new bits, and nothing else has changed. -/
structure Receives (s : State) (regs : ValueRegs) (bits : Word) (t : State) : Prop where
  bits : t.valueBits regs = bits
  gprs : ∀ r, r ∉ regs.gprs → t.gpr r = s.gpr r
  fprs : t.fprs = s.fprs
  memory : t.memory = s.memory

variable {s t : State} {words : List (Word × Word)} {regs : ValueRegs}

theorem Stores.none (s : State) : s.Stores [] s where
  gprs := rfl
  fprs := rfl
  held := by simp
  others := fun _ _ => rfl

theorem Stores.write64 (stores : s.Stores words t) {a : Word} (w : Word)
    (apart : ∀ b x, (b, x) ∈ words → 8 ≤ (b - a).toNat ∧ 8 ≤ (a - b).toNat) :
    s.Stores ((a, w) :: words) (t.write64 a w) where
  gprs := stores.gprs
  fprs := stores.fprs
  held := by
    intro b x member
    rcases List.mem_cons.mp member with same | earlier
    · obtain ⟨rfl, rfl⟩ := Prod.mk.inj same
      exact t.memory.read64_write64 b x
    · rw [← stores.held b x earlier]
      exact t.memory.read64_write64_of_apart w (apart b x earlier).1 (apart b x earlier).2
  others := by
    intro c outside
    rw [← stores.others c fun b x earlier => outside b x (.tail _ earlier)]
    exact t.memory.byte_write64_of_outside w (outside a w (.head _))

theorem receives_setBits (s : State) (bits : Word) (proper : regs.Proper) :
    s.Receives regs bits (s.setBits bits regs) := by
  cases regs with
  | packed value =>
    refine ⟨?_, fun r other => ?_, rfl, rfl⟩
    · rw [valueBits, setBits, gpr_setGpr, if_pos rfl]
    · rw [setBits, gpr_setGpr, if_neg (mt List.mem_singleton.mpr other)]
  | split tag payload =>
    refine ⟨?_, fun r other => ?_, rfl, rfl⟩
    · rw [setBits, s.valueBits_setHalves proper, append_halves]
    · simp only [ValueRegs.gprs, List.mem_cons, List.not_mem_nil, or_false, not_or] at other
      rw [setBits, gpr_setGpr, gpr_setGpr, if_neg other.2, if_neg other.1]

theorem setValue_eq_setBits (s : State) (regs : ValueRegs) (v : Value) :
    s.setValue regs v = s.setBits (v.slotWord regs.representation) regs := by
  cases regs with
  | packed value => rfl
  | split tag payload =>
    rw [setValue, setBits, ValueRegs.representation, Value.slotWord,
      BitVec.extractLsb'_append_eq_left, BitVec.setWidth_append_eq_right]

end State

theorem Cell.slotAddress_of_small {slot : Half} (small : slot.toNat ≤ lastSlot) (cell : Word) :
    slotAddress cell slot = cell + BitVec.ofNat 64 (16 + 8 * slot.toNat) := by
  unfold lastSlot at small
  have wide : slot.signExtend 64 = BitVec.ofNat 64 slot.toNat := by
    rw [BitVec.signExtend, BitVec.toInt_eq_toNat_of_lt (by omega)]
    rfl
  rw [slotAddress, wide]
  congr 1
  apply BitVec.eq_of_toNat_eq
  simp only [BitVec.toNat_add, BitVec.toNat_mul, BitVec.toNat_ofNat]
  omega

theorem Cell.slot_apart_header {slot : Half} (small : slot.toNat ≤ lastSlot) (cell : Word) :
    8 ≤ (cell + BitVec.ofNat 64 (16 + 8 * slot.toNat) - cell).toNat ∧
      8 ≤ (cell - (cell + BitVec.ofNat 64 (16 + 8 * slot.toNat))).toNat := by
  unfold lastSlot at small
  have distance : (BitVec.ofNat 64 (16 + 8 * slot.toNat)).toNat = 16 + 8 * slot.toNat := by
    rw [BitVec.toNat_ofNat]
    omega
  bv_omega

namespace Finished

section Outcomes

variable {o : Options} {d : Draft} {jumps : List Nat} {u : Finished} {maps : StackMaps}
  {shapes : ShapeModel} {l : Linked}

theorem runs_of_outcome (generated : Draft.Generated o 0 d jumps) (finished : d.finish = .ok u)
    (linked : u.link maps shapes = .ok l) {r : Outcome} (reported : r ∈ l.report) :
    ∃ site snapshot, u.sites[r.site]? = some site ∧
      (∃ p, site.patches[r.patch]? = some p ∧ p.region = r.region) ∧
      maps site.stackMap = some snapshot ∧
      ∀ shape, r.resolution.shape? = some shape → ∃ rest, r.resolution.Does shapes snapshot rest ∧
        ∀ v s t, s.passes u.options snapshot.base (.objectWithShape shape) = true →
          rest.Behaves v s false t →
            ∃ trace, Run.Passes v l.code r.region.start s trace r.region.stop t := by
  obtain ⟨_, links⟩ := generated.linksTo finished linked
  obtain ⟨site, p, exit, snapshot, placed, found, region, known, patch⟩ :=
    patch_of_outcome links linked reported
  refine ⟨site, snapshot, placed, ⟨p, found, region⟩, known, fun shape tests => ?_⟩
  obtain ⟨rest, resolving, runs⟩ := patch.completes known tests
  refine ⟨rest, Access.specialize_does resolving, fun v s t accepted behaves => ?_⟩
  obtain ⟨trace, path, _⟩ := runs v s t accepted behaves
  rw [region] at path
  exact ⟨trace, path.passes⟩

/-- A region that was specialised for a write stores the value in the slot of an object that passes
its test, and the header of the new shape if there is one. Everything else in memory and all
registers are as before. -/
theorem specialized_writes_store (generated : Draft.Generated o 0 d jumps)
    (finished : d.finish = .ok u) (linked : u.link maps shapes = .ok l) {r : Outcome}
    (reported : r ∈ l.report) :
    ∃ site snapshot, u.sites[r.site]? = some site ∧
      (∃ p, site.patches[r.patch]? = some p ∧ p.region = r.region) ∧
      maps site.stackMap = some snapshot ∧
      (∀ shape slot, r.resolution = .store shape slot → slot.toNat ≤ Cell.lastSlot →
        ∃ value, snapshot.value? = some value ∧ ∀ (v : Services) (s : State),
          s.passes u.options snapshot.base (.objectWithShape shape) = true →
          ∃ trace t, Run.Passes v l.code r.region.start s trace r.region.stop t ∧
            s.Stores [(s.gpr snapshot.base.payload + BitVec.ofNat 64 (16 + 8 * slot.toNat),
              s.valueBits value)] t) ∧
      ∀ shape target slot, r.resolution = .transition shape target slot →
        slot.toNat ≤ Cell.lastSlot →
        ∃ header value, shapes.shape? target = some header ∧ snapshot.value? = some value ∧
          ∀ (v : Services) (s : State),
            s.passes u.options snapshot.base (.objectWithShape shape) = true →
            ∃ trace t, Run.Passes v l.code r.region.start s trace r.region.stop t ∧
              s.Stores [(s.gpr snapshot.base.payload, header.header),
                (s.gpr snapshot.base.payload + BitVec.ofNat 64 (16 + 8 * slot.toNat),
                  s.valueBits value)] t := by
  obtain ⟨site, snapshot, placed, found, known, runs⟩ :=
    runs_of_outcome generated finished linked reported
  refine ⟨site, snapshot, placed, found, known, fun shape slot same small => ?_,
    fun shape target slot same small => ?_⟩
  · obtain ⟨rest, does, passes⟩ := runs shape (by rw [same]; rfl)
    rw [same] at does
    obtain ⟨value, registers, behaves⟩ := does
    refine ⟨value, registers, fun v s accepted => ?_⟩
    obtain ⟨trace, run⟩ := passes v s _ accepted (behaves v s)
    rw [Cell.slotAddress_of_small small] at run
    exact ⟨trace, _, run, (State.Stores.none s).write64 _ (by simp)⟩
  · obtain ⟨rest, does, passes⟩ := runs shape (by rw [same]; rfl)
    rw [same] at does
    obtain ⟨header, value, valid, registers, behaves⟩ := does
    refine ⟨header, value, valid, registers, fun v s accepted => ?_⟩
    obtain ⟨trace, run⟩ := passes v s _ accepted (behaves v s)
    rw [Cell.slotAddress_of_small small] at run
    refine ⟨trace, _, run, ((State.Stores.none s).write64 _ (by simp)).write64 _ ?_⟩
    intro b x member
    cases List.mem_singleton.mp member
    exact Cell.slot_apart_header small _

end Outcomes

namespace OneDefine

def snapshot : Snapshot := ⟨.packed .t0, .t3, some (.packed .t1), none, some ⟨1#32⟩⟩

def shapes : ShapeModel where
  shape? := fun id => some ⟨id, 0x21#8, 0x11#8, 3#8⟩
  slot? := fun _ _ => none
  transition? := fun _ _ => some (⟨2#32⟩, 3#32)

def unit : Finished where
  options := {}
  code := (.branch .alwaysPatchable (some 17) :: (List.replicate 15 .nop ++
    [.ret, .callSlowPath ⟨.write .strict .define, ⟨0#32⟩, ⟨0#32⟩⟩, .branch .always none])).toArray
  sites := [⟨⟨0#32⟩, ⟨0#32⟩, .write ⟨0#32⟩ .strict .define, [⟨0, ⟨0, 16⟩, 0, 16⟩], [18]⟩]

def start : State :=
  ((State.zero.setTags.setGpr .t0 0x1000#64).setGpr .t1 0x55#64).writeHeader 0x1000#64
    ⟨⟨1#32⟩, 0#8, 0x11#8, 0#8⟩

theorem start_passes :
    start.passes unit.options snapshot.base (.objectWithShape ⟨1#32⟩) = true :=
  State.passes_writeHeader ⟨⟨1#32⟩, 0#8, 0x11#8, 0#8⟩ rfl rfl

theorem generated : Draft.Generated {} 0 ⟨{}, ⟨0, unit.code⟩, unit.sites⟩ [] := by
  have created : Draft.Generated {} 0 _ [] :=
    @Draft.Generated.addSite _ _ _ _ _ _ ⟨0#32⟩ ⟨0#32⟩ (.write ⟨0#32⟩ .strict .define) .empty rfl
  have region : Draft.Generated {} 0 _ [] := @Draft.Generated.emitPatch _ _ _ _ _ 0 _ created rfl
  have returns : Draft.Generated {} 0 _ [] := @Draft.Generated.place _ _ _ _ [.ret] _ _ region rfl
  exact @Draft.Generated.emitSlowPaths _ _ _ _ _ 0 _ returns rfl

end OneDefine

open OneDefine in
theorem specialized_define_stores :
    ∃ l trace t, unit.link (fun _ => some snapshot) shapes = .ok l ∧
      OneDefine.start.passes unit.options snapshot.base (.objectWithShape ⟨1#32⟩) = true ∧
      Run.Passes .none l.code 0 OneDefine.start trace 16 t ∧
      OneDefine.start.Stores [(0x1000#64, 0x0003112100000002#64), (0x1028#64, 0x55#64)] t := by
  obtain ⟨l, linked, reported⟩ : ∃ l, unit.link (fun _ => some snapshot) shapes = .ok l ∧
      ⟨0, 0, ⟨0, 16⟩, .transition ⟨1#32⟩ ⟨2#32⟩ 3#32⟩ ∈ l.report := ⟨_, rfl, .head _⟩
  obtain ⟨_, _, placed, _, known, _, transitions⟩ :=
    specialized_writes_store OneDefine.generated rfl linked reported
  cases placed
  cases known
  obtain ⟨header, value, valid, registers, writes⟩ :=
    transitions ⟨1#32⟩ ⟨2#32⟩ 3#32 rfl (by decide)
  cases valid
  cases registers
  obtain ⟨trace, t, passes, stores⟩ := writes .none OneDefine.start OneDefine.start_passes
  exact ⟨l, trace, t, linked, OneDefine.start_passes, passes, stores⟩

section Outcomes

variable {o : Options} {d : Draft} {jumps : List Nat} {u : Finished} {maps : StackMaps}
  {shapes : ShapeModel} {l : Linked}

/-- A region that was specialised for a read puts the slot of an object that passes its test into
the registers of the result, and a specialised existence test answers there. Memory and all other
registers are as before. -/
theorem specialized_reads_receive (generated : Draft.Generated o 0 d jumps)
    (finished : d.finish = .ok u) (linked : u.link maps shapes = .ok l) {r : Outcome}
    (reported : r ∈ l.report) :
    ∃ site snapshot, u.sites[r.site]? = some site ∧
      (∃ p, site.patches[r.patch]? = some p ∧ p.region = r.region) ∧
      maps site.stackMap = some snapshot ∧
      (∀ shape slot, r.resolution = .load shape slot → slot.toNat ≤ Cell.lastSlot →
        ∃ result, snapshot.result? = some result ∧ (result.Proper →
          ∀ (v : Services) (s : State),
            s.passes u.options snapshot.base (.objectWithShape shape) = true →
            ∃ trace t, Run.Passes v l.code r.region.start s trace r.region.stop t ∧
              s.Receives result (s.memory.read64
                (s.gpr snapshot.base.payload + BitVec.ofNat 64 (16 + 8 * slot.toNat))) t)) ∧
      ∀ shape, r.resolution = .present shape →
        ∃ result, snapshot.result? = some result ∧ (result.Proper →
          ∀ (v : Services) (s : State),
            s.passes u.options snapshot.base (.objectWithShape shape) = true →
            ∃ trace t, Run.Passes v l.code r.region.start s trace r.region.stop t ∧
              s.Receives result ((Value.boolean true).slotWord result.representation) t) := by
  obtain ⟨site, snapshot, placed, found, known, runs⟩ :=
    runs_of_outcome generated finished linked reported
  refine ⟨site, snapshot, placed, found, known, fun shape slot same small => ?_,
    fun shape same => ?_⟩
  · obtain ⟨rest, does, passes⟩ := runs shape (by rw [same]; rfl)
    rw [same] at does
    obtain ⟨result, registers, behaves⟩ := does
    refine ⟨result, registers, fun proper v s accepted => ?_⟩
    obtain ⟨trace, run⟩ := passes v s _ accepted (behaves proper v s)
    rw [Cell.slotAddress_of_small small] at run
    exact ⟨trace, _, run, s.receives_setBits _ proper⟩
  · obtain ⟨rest, does, passes⟩ := runs shape (by rw [same]; rfl)
    rw [same] at does
    obtain ⟨result, registers, behaves⟩ := does
    refine ⟨result, registers, fun proper v s accepted => ?_⟩
    obtain ⟨trace, run⟩ := passes v s _ accepted (behaves v s)
    rw [State.setValue_eq_setBits] at run
    exact ⟨trace, _, run, s.receives_setBits _ proper⟩

end Outcomes

namespace OneSplitRead

/-- The payload of the result goes to the register that holds the address of the object. -/
def snapshot : Snapshot := ⟨.split .t0 .t1, .t3, none, some (.split .t2 .t1), some ⟨1#32⟩⟩

def unit : Finished := { OneRead.unit with options := .split true }

def start : State :=
  (((State.zero.setGpr .t0 (Split.cellTag.setWidth 64)).setGpr .t1 0x1000#64).write64 0x1020#64
    0xFFFFFFFF00000007#64).writeHeader 0x1000#64 ⟨⟨1#32⟩, 0#8, 0x11#8, 0#8⟩

theorem start_passes :
    start.passes unit.options snapshot.base (.objectWithShape ⟨1#32⟩) = true :=
  State.passes_writeHeader ⟨⟨1#32⟩, 0#8, 0x11#8, 0#8⟩ rfl rfl

theorem generated :
    Draft.Generated (.split true) 0 ⟨.split true, ⟨0, unit.code⟩, unit.sites⟩ [] := by
  have created : Draft.Generated (.split true) 0 _ [] :=
    @Draft.Generated.addSite _ _ _ _ _ _ ⟨0#32⟩ ⟨0#32⟩ (.read ⟨0#32⟩) .empty rfl
  have region : Draft.Generated (.split true) 0 _ [] :=
    @Draft.Generated.emitPatch _ _ _ _ _ 0 _ created rfl
  have returns : Draft.Generated (.split true) 0 _ [] :=
    @Draft.Generated.place _ _ _ _ [.ret] _ _ region rfl
  exact @Draft.Generated.emitSlowPaths _ _ _ _ _ 0 _ returns rfl

end OneSplitRead

open OneSplitRead in
theorem specialized_split_read_receives :
    ∃ l trace t, unit.link (fun _ => some snapshot) OneRead.shapes = .ok l ∧
      OneSplitRead.start.passes unit.options snapshot.base (.objectWithShape ⟨1#32⟩) = true ∧
      Run.Passes .none l.code 0 OneSplitRead.start trace 16 t ∧
      OneSplitRead.start.Receives (.split .t2 .t1)
        (OneSplitRead.start.memory.read64 0x1020#64) t := by
  obtain ⟨l, linked, reported⟩ : ∃ l, unit.link (fun _ => some snapshot) OneRead.shapes = .ok l ∧
      ⟨0, 0, ⟨0, 16⟩, .load ⟨1#32⟩ 2#32⟩ ∈ l.report := ⟨_, rfl, .head _⟩
  obtain ⟨_, _, placed, _, known, loads, _⟩ :=
    specialized_reads_receive OneSplitRead.generated rfl linked reported
  cases placed
  cases known
  obtain ⟨result, registers, reads⟩ := loads ⟨1#32⟩ 2#32 rfl (by decide)
  cases registers
  have proper : (ValueRegs.split .t2 .t1).Proper := by
    intro same
    cases same
  obtain ⟨trace, t, passes, receives⟩ :=
    reads proper .none OneSplitRead.start OneSplitRead.start_passes
  exact ⟨l, trace, t, linked, OneSplitRead.start_passes, passes, receives⟩

end Finished

end InlineCache
