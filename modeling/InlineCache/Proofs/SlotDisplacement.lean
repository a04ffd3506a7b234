import InlineCache.Proofs.RegionRoom
import InlineCache.Proofs.Transparency
import Mathlib.Algebra.Group.Int.Defs

/-!
Where patched code looks for slots. The displacement of a slot is computed from its number as a
signed one: the slots up to `Cell.lastSlot` lie where their numbers say, those that are negative and
small in size are looked for before the first slot, and linking fails on all others. The code of a
region moves the registers of the value at that displacement and moves nothing else, in every unit
that can be linked.
-/

namespace InlineCache

/-- The slots from this one on have a displacement again, with their numbers taken as negative. -/
def Cell.firstNegativeSlot : Nat := 0xF0000000

def Resolution.slot? : Resolution → Option Half
  | load _ slot => some slot
  | store _ slot => some slot
  | transition _ _ slot => some slot
  | present _ => none
  | slowPath _ => none

def Resolution.moved? (snapshot : Snapshot) : Resolution → Option ValueRegs
  | load _ _ => snapshot.result?
  | store _ _ => snapshot.value?
  | transition _ _ _ => snapshot.value?
  | present _ => none
  | slowPath _ => none

def Inst.transfer? : Inst → Option (Gpr × Mem)
  | load64 dst src => some (dst, src)
  | load32 dst src => some (dst, src)
  | load8 dst src => some (dst, src)
  | store64 src dst => some (src, dst)
  | store32 src dst => some (src, dst)
  | _ => none

theorem Inst.transfer?_shift (i : Inst) (distance : Nat) :
    (i.shift distance).transfer? = i.transfer? := by
  cases i with
  | branch cond target => cases target <;> rfl
  | _ => rfl

theorem Inst.transfer?_linkOpen (i : Inst) (target : Nat) :
    (i.linkOpen target).transfer? = i.transfer? := by
  cases i with
  | branch cond destination => cases destination <;> rfl
  | _ => rfl

def ValueRegs.places : ValueRegs → List (Gpr × Nat)
  | packed value => [(value, 0)]
  | split tag payload => [(payload, 0), (tag, 4)]

namespace Fragment

def transfers (f : Fragment) : List (Gpr × Mem) := f.filterMap Inst.transfer?

/-- The fragment moves the registers of a value, at a distance from the address in a register, and
moves nothing else. -/
def MovesAt (f : Fragment) (regs : ValueRegs) (object : Gpr) (distance : Int) : Prop :=
  ∀ register location, (register, location) ∈ f.transfers ↔
    ∃ place displacement, (register, place) ∈ regs.places ∧
      location = .base object displacement ∧ displacement.toInt = distance + (place : Nat)

@[simp]
theorem transfers_shift (distance : Nat) (f : Fragment) :
    (shift distance f).transfers = f.transfers := by
  have same : Inst.transfer? ∘ Inst.shift distance = Inst.transfer? := by
    funext i
    exact i.transfer?_shift distance
  rw [transfers, shift, List.filterMap_map, same]
  rfl

@[simp]
theorem transfers_linkExits (target : Nat) (f : Fragment) :
    (linkExits target f).transfers = f.transfers := by
  have same : Inst.transfer? ∘ Inst.linkOpen target = Inst.transfer? := by
    funext i
    exact i.transfer?_linkOpen target
  rw [transfers, linkExits, List.filterMap_map, same]
  rfl

@[simp]
theorem transfers_andThen (f g : Fragment) :
    (f.andThen g).transfers = f.transfers ++ g.transfers := by
  rw [transfers, andThen, List.filterMap_append]
  exact congrArg (f.transfers ++ ·) (transfers_shift _ g)

@[simp]
theorem transfers_skipping (f g : Fragment) :
    (f.skipping g).transfers = f.transfers ++ g.transfers := by
  rw [skipping_eq_andThen, transfers_andThen, transfers_linkExits]

theorem transfers_nops (n : Nat) : transfers (List.replicate n .nop) = [] := by
  rw [transfers, List.filterMap_replicate_of_none rfl]

end Fragment

section Emitters

open Fragment

theorem SelfCheck.transfers_testAll (o : Options) (tests : List (AbortReason × Evidence)) :
    (testAll o tests).transfers = [] := by
  induction tests with
  | nil => rfl
  | cons test rest ih =>
    have quiet : test.2.code.transfers = [] := by
      cases test.2 with
      | any cond others => simp [Evidence.code, transfers, Inst.transfer?]
      | butNot cond excluded => rfl
    rw [testAll, transfers_andThen, ih, List.append_nil, abortUnless]
    split
    next => rw [transfers_skipping, quiet]; rfl
    next => rfl

theorem Header.transfers_store (o : Options) (s : Shape) (dest : Gpr) :
    (Header.store o s dest).transfers = [] := by
  unfold store
  split
  next =>
    rw [transfers_andThen, SelfCheck.transfers_testAll]
    rfl
  next => rfl

theorem Guard.transfers_cellTest (o : Options) (regs : ValueRegs) (relation : Relation)
    (cell : Gpr) (shape : ShapeId) :
    (cellTest o regs (.shape relation cell shape)).transfers = [] := by
  rw [cellTest, transfers_andThen]
  cases regs <;> rfl

end Emitters

/-- Exactly the slots up to the last one and those from the first negative one on have a
displacement, and it goes by the number as a signed one. -/
theorem Cell.slotDisplacement_eq_ok_iff {slot displacement : Half} :
    slotDisplacement slot = .ok displacement ↔ displacement.toInt = 16 + 8 * slot.toInt ∧
      (slot.toNat ≤ lastSlot ∨ firstNegativeSlot ≤ slot.toNat) := by
  have size : slotSize.toInt = 8 := by decide
  have offset : slotsOffset.toInt = 16 := by decide
  have signed := slot.toInt_eq_toNat_cond
  have bound := slot.isLt
  have fits : (isDisplacement (slot.toInt * 8) && isDisplacement (slot.toInt * 8 + 16)) = true ↔
      slot.toNat ≤ lastSlot ∨ firstNegativeSlot ≤ slot.toNat := by
    simp only [isDisplacement, lastSlot, firstNegativeSlot, Bool.and_eq_true, decide_eq_true_eq]
    omega
  rw [slotDisplacement, size, offset]
  constructor
  · intro computed
    split at computed
    next within =>
      cases computed
      refine ⟨?_, fits.mp within⟩
      simp only [isDisplacement, Bool.and_eq_true, decide_eq_true_eq] at within
      rw [BitVec.toInt_ofInt_eq_self (by decide) (by omega) (by omega)]
      omega
    next => cases computed
  · rintro ⟨value, within⟩
    rw [if_pos (fits.mpr within), Except.ok.injEq]
    apply BitVec.eq_of_toInt_eq
    have range := displacement.le_toInt
    have range' := displacement.toInt_lt
    rw [BitVec.toInt_ofInt_eq_self (by decide) (by omega) (by omega)]
    omega

theorem Cell.toInt_add_place {slot displacement : Half}
    (computed : slotDisplacement slot = .ok displacement) {regs : ValueRegs} {register : Gpr}
    {place : Nat} (placed : (register, place) ∈ regs.places) :
    (displacement + BitVec.ofNat 32 place).toInt = displacement.toInt + place := by
  obtain ⟨value, range⟩ := slotDisplacement_eq_ok_iff.mp computed
  have signed := slot.toInt_eq_toNat_cond
  have bound := slot.isLt
  have small : place = 0 ∨ place = 4 := by
    cases regs <;> simp [ValueRegs.places] at placed <;> omega
  unfold lastSlot firstNegativeSlot at range
  rw [BitVec.toInt_add]
  rcases small with rfl | rfl
  · rw [show (BitVec.ofNat 32 0).toInt = 0 by decide, Int.bmod_eq_of_le (by omega) (by omega)]
    rfl
  · rw [show (BitVec.ofNat 32 4).toInt = 4 by decide, Int.bmod_eq_of_le (by omega) (by omega)]
    rfl

namespace Slot

variable {object : Gpr} {slot : Half} {regs : ValueRegs} {f : Fragment}

theorem movesAt_of_places {displacement : Half}
    (computed : Cell.slotDisplacement slot = .ok displacement)
    (moved : ∀ x, x ∈ f.transfers ↔ ∃ y ∈ regs.places,
      x = (y.1, .base object (displacement + BitVec.ofNat 32 y.2))) :
    f.MovesAt regs object (16 + 8 * slot.toInt) := by
  have value := (Cell.slotDisplacement_eq_ok_iff.mp computed).1
  intro register location
  rw [moved]
  constructor
  · rintro ⟨⟨r, place⟩, placed, same⟩
    cases same
    exact ⟨place, _, placed, rfl, by rw [Cell.toInt_add_place computed placed, value]⟩
  · rintro ⟨place, other, placed, rfl, distance⟩
    refine ⟨(register, place), placed, ?_⟩
    have equal : other = displacement + BitVec.ofNat 32 place := by
      apply BitVec.eq_of_toInt_eq
      rw [Cell.toInt_add_place computed placed, value, distance]
    rw [equal]

theorem location_eq_ok_iff {low : Mem} : location object slot = .ok low ↔
    ∃ displacement, Cell.slotDisplacement slot = .ok displacement ∧
      low = .base object displacement := by
  rw [location, bind_eq_ok_iff]
  apply exists_congr
  intro displacement
  constructor
  · rintro ⟨computed, same⟩
    cases same
    exact ⟨computed, rfl⟩
  · rintro ⟨computed, rfl⟩
    exact ⟨computed, rfl⟩

theorem load_movesAt (loaded : load object slot regs = .ok f) :
    (slot.toNat ≤ Cell.lastSlot ∨ Cell.firstNegativeSlot ≤ slot.toNat) ∧
      f.MovesAt regs object (16 + 8 * slot.toInt) := by
  obtain ⟨low, located, rest⟩ := bind_eq_ok_iff.mp loaded
  obtain ⟨displacement, computed, rfl⟩ := location_eq_ok_iff.mp located
  refine ⟨(Cell.slotDisplacement_eq_ok_iff.mp computed).2, movesAt_of_places computed ?_⟩
  intro x
  cases regs with
  | packed dst =>
    cases rest
    simp [Fragment.transfers, Inst.transfer?, ValueRegs.places]
  | split tag payload =>
    simp only at rest
    split at rest
    next =>
      cases rest
      simp [Fragment.transfers, Inst.transfer?, ValueRegs.places, Mem.displace, or_comm]
    next =>
      cases rest
      simp [Fragment.transfers, Inst.transfer?, ValueRegs.places, Mem.displace]

theorem store_movesAt (stored : store object slot regs = .ok f) :
    (slot.toNat ≤ Cell.lastSlot ∨ Cell.firstNegativeSlot ≤ slot.toNat) ∧
      f.MovesAt regs object (16 + 8 * slot.toInt) := by
  obtain ⟨low, located, rest⟩ := bind_eq_ok_iff.mp stored
  obtain ⟨displacement, computed, rfl⟩ := location_eq_ok_iff.mp located
  refine ⟨(Cell.slotDisplacement_eq_ok_iff.mp computed).2, movesAt_of_places computed ?_⟩
  intro x
  cases regs with
  | packed src =>
    cases rest
    simp [Fragment.transfers, Inst.transfer?, ValueRegs.places]
  | split tag payload =>
    cases rest
    simp [Fragment.transfers, Inst.transfer?, ValueRegs.places, Mem.displace]

end Slot

section Contents

variable {o : Options} {maps : StackMaps} {shapes : ShapeModel} {snapshot : Snapshot}
  {shape : ShapeId} {access : Access} {resolution : Resolution} {rest : Fragment} {slot : Half}
  {code after : Array Inst} {early late : List Outcome} {r : Outcome}

theorem Access.specialize_movesAt
    (resolved : access.specialize o shapes snapshot shape = .ok (.ok (resolution, rest)))
    (accessed : resolution.slot? = some slot) :
    (slot.toNat ≤ Cell.lastSlot ∨ Cell.firstNegativeSlot ≤ slot.toNat) ∧
      ∃ regs, resolution.moved? snapshot = some regs ∧
        rest.MovesAt regs snapshot.base.payload (16 + 8 * slot.toInt) := by
  rcases specialize_eq_ok resolved with ⟨_, result, rfl, known, loaded⟩ |
    ⟨_, value, rfl, known, stored⟩ | ⟨_, _, _, value, write, rfl, _, known, stored, rfl⟩ |
    ⟨_, rfl, _⟩
  · cases accessed
    obtain ⟨range, moves⟩ := Slot.load_movesAt loaded
    exact ⟨range, result, known, moves⟩
  · cases accessed
    obtain ⟨range, moves⟩ := Slot.store_movesAt stored
    exact ⟨range, value, known, moves⟩
  · cases accessed
    obtain ⟨range, moves⟩ := Slot.store_movesAt stored
    refine ⟨range, value, known, ?_⟩
    rw [Fragment.MovesAt, Fragment.transfers_andThen, Header.transfers_store, List.append_nil]
    exact moves
  · cases accessed

theorem Patch.transfers_specialize {p : Patch} {slowPath : Nat} {contents : Array Inst}
    (resolved : p.specialize o shapes snapshot access slowPath =
      .ok (.ok (resolution, contents))) :
    ∃ shape rest, access.specialize o shapes snapshot shape = .ok (.ok (resolution, rest)) ∧
      Fragment.transfers contents.toList = rest.transfers := by
  obtain ⟨shape, rest, _, _, resolving, _, built⟩ := specialize_eq_ok resolved
  refine ⟨shape, rest, resolving, ?_⟩
  simp only [built, body, Fragment.transfers_linkExits, Fragment.transfers_shift,
    Fragment.transfers_andThen, Guard.transfers_cellTest, Fragment.transfers_nops, List.nil_append,
    List.append_nil]

theorem RedirectedAt.transfer?_eq {index : Nat} {target : Option Nat}
    (redirected : RedirectedAt code after index target) :
    (after[index]?).bind Inst.transfer? = (code[index]?).bind Inst.transfer? := by
  cases target with
  | none => exact congrArg (Option.bind · Inst.transfer?) redirected
  | some target =>
    obtain ⟨cond, old, was, now⟩ := redirected
    rw [was, now]
    rfl

/-- In a linked unit, a region still moves what it was filled to move where no region that was
linked later has been filled. -/
theorem Finished.link_contents {u : Finished} {l : Linked} (linked : u.link maps shapes = .ok l)
    (reported : l.report = early ++ r :: late) (fast : r.resolution.isSpecialized = true) :
    ∃ site p snapshot slowPath contents, u.sites[r.site]? = some site ∧
      site.patches[r.patch]? = some p ∧ p.region = r.region ∧
      maps site.stackMap = some snapshot ∧
      p.specialize u.options shapes snapshot site.access slowPath =
        .ok (.ok (r.resolution, contents)) ∧
      ∀ q, r.region.Covers q → (∀ other ∈ late, ¬ other.Overwrites q) →
        (l.code[q]?).bind Inst.transfer? =
          (contents[q - r.region.start]?).bind Inst.transfer? := by
  have run := link_eq_ok_iff.mp linked
  rw [reported] at run
  obtain ⟨snapshot, access, p, rest, mid, done, taken, region, filled, last⟩ :=
    LinkStep.run_of_outcome run
  obtain ⟨j, site, placed, own⟩ := mem_plan_iff.mp taken
  obtain ⟨_, known, rfl, rfl, found⟩ := Site.region_mem_steps_iff.mp own
  obtain ⟨_, slowPath, _, ⟨slow, _⟩ | ⟨contents, _, resolved, changed⟩⟩ := Patch.link_eq_ok filled
  · cases slow.symm.trans fast
  · refine ⟨site, p, snapshot, slowPath, contents, placed, found, region, known, resolved, ?_⟩
    intro q covered kept
    have here : done[q]? = contents[q - r.region.start]? := by
      rw [changed, region, if_pos covered]
    rw [← here]
    exact ((LinkStep.runAll_rewritten last).redirected q kept).transfer?_eq

end Contents

namespace Finished

/-- A region that was specialised for a slot moves the registers of the value and nothing else, and
keeps doing so where no region that was linked later overwrites it. If the slot is not beyond the
last one, the displacement is what its number says. Linking also accepts the slots from the first
negative one on, whose displacement is too low by `2 ^ 35`, and no others. -/
theorem link_displaces_slots_as_signed {u : Finished} {maps : StackMaps} {shapes : ShapeModel}
    {l : Linked} (linked : u.link maps shapes = .ok l) {early late : List Outcome} {r : Outcome}
    (reported : l.report = early ++ r :: late) {slot : Half}
    (accessed : r.resolution.slot? = some slot) :
    ∃ site p snapshot regs slowPath contents, u.sites[r.site]? = some site ∧
      site.patches[r.patch]? = some p ∧ p.region = r.region ∧
      maps site.stackMap = some snapshot ∧ r.resolution.moved? snapshot = some regs ∧
      p.specialize u.options shapes snapshot site.access slowPath =
        .ok (.ok (r.resolution, contents)) ∧
      (∀ q, r.region.Covers q → (∀ other ∈ late, ¬ other.Overwrites q) →
        (l.code[q]?).bind Inst.transfer? =
          (contents[q - r.region.start]?).bind Inst.transfer?) ∧
      (slot.toNat ≤ Cell.lastSlot →
        Fragment.MovesAt contents.toList regs snapshot.base.payload (16 + 8 * slot.toNat)) ∧
      (Cell.lastSlot < slot.toNat → Cell.firstNegativeSlot ≤ slot.toNat ∧
        Fragment.MovesAt contents.toList regs snapshot.base.payload
          (16 + 8 * slot.toNat - 2 ^ 35)) := by
  have fast : r.resolution.isSpecialized = true := by
    cases resolution : r.resolution with
    | slowPath reason =>
      rw [resolution] at accessed
      cases accessed
    | _ => rfl
  obtain ⟨site, p, snapshot, slowPath, contents, placed, found, region, known, resolved, holds⟩ :=
    link_contents linked reported fast
  obtain ⟨shape, rest, resolving, same⟩ := Patch.transfers_specialize resolved
  obtain ⟨range, regs, registers, moves⟩ := Access.specialize_movesAt resolving accessed
  rw [Fragment.MovesAt, ← same] at moves
  refine ⟨site, p, snapshot, regs, slowPath, contents, placed, found, region, known,
    registers, resolved, holds, fun small => ?_, fun large => ?_⟩
  · have signed : slot.toInt = slot.toNat := by
      unfold Cell.lastSlot at small
      exact BitVec.toInt_eq_toNat_of_lt (by omega)
    rw [signed] at moves
    exact moves
  · have negative := range.resolve_left (Nat.not_le.mpr large)
    refine ⟨negative, ?_⟩
    have signed : 16 + 8 * slot.toInt = 16 + 8 * slot.toNat - 2 ^ 35 := by
      unfold Cell.firstNegativeSlot at negative
      rw [BitVec.toInt_eq_toNat_cond]
      omega
    rw [signed] at moves
    exact moves

def OneRead.shapesAt (slot : Half) : ShapeModel := { shapes with slot? := fun _ _ => some slot }

open OneRead in
theorem link_displaces_last_slot :
    ∃ (l : Linked) (contents : Array Inst),
      unit.link (fun _ => some snapshot) (shapesAt 0x0FFFFFFD#32) = .ok l ∧
      l.report = [⟨0, 0, ⟨0, 16⟩, .load ⟨1#32⟩ 0x0FFFFFFD#32⟩] ∧
      (∀ q < 16, (l.code[q]?).bind Inst.transfer? = (contents[q]?).bind Inst.transfer?) ∧
      Fragment.MovesAt contents.toList (.packed .t1) .t0 0x7FFFFFF8 := by
  obtain ⟨l, linked, reported⟩ :
      ∃ l, unit.link (fun _ => some snapshot) (shapesAt 0x0FFFFFFD#32) = .ok l ∧
        l.report = [] ++ ⟨0, 0, ⟨0, 16⟩, .load ⟨1#32⟩ 0x0FFFFFFD#32⟩ :: [] := ⟨_, rfl, rfl⟩
  obtain ⟨site, p, base, regs, _, contents, placed, _, _, known, registers, _, holds, near, _⟩ :=
    link_displaces_slots_as_signed linked reported rfl
  cases placed
  cases known
  cases registers
  refine ⟨l, contents, linked, reported, fun q within => ?_, near (by decide)⟩
  exact holds q ⟨Nat.zero_le q, within⟩ (by simp)

open OneRead in
/-- Slot `0xFFFFFFFE` is taken for slot -2, which would lie where the header of the object is. Its
own displacement would not fit. -/
theorem link_reads_header_as_slot :
    ∃ l, unit.link (fun _ => some snapshot) (shapesAt 0xFFFFFFFE#32) = .ok l ∧
      l.report = [⟨0, 0, ⟨0, 16⟩, .load ⟨1#32⟩ 0xFFFFFFFE#32⟩] ∧
      l.code[2]? = some (.load64 .t1 (.base .t0 0#32)) ∧
      (0#32 : Half).toInt ≠ 16 + 8 * (0xFFFFFFFE#32 : Half).toNat ∧
      Cell.isDisplacement (16 + 8 * (0xFFFFFFFE#32 : Half).toNat) = false :=
  ⟨_, rfl, rfl, rfl, by decide, by decide⟩

end Finished

end InlineCache
