import InlineCache.Proofs.GuardVerdict

/-!
Guards on values that are no cells. Code is made *blind* by putting a breakpoint in the place of
every instruction that has a memory operand. Execution that gets through blind code gets through the
code itself without such an instruction, so it goes the same way whatever the memory holds. On a
value that is no cell by its bits, the guard of a type gets through blind.
-/

namespace InlineCache

def Operand.isMem : Operand → Bool
  | mem _ => true
  | _ => false

@[simp]
theorem Operand.isMem_reg (r : Gpr) : (reg r).isMem = false := rfl

@[simp]
theorem Operand.isMem_imm (value : Word) : (imm value).isMem = false := rfl

@[simp]
theorem Options.isMem_numberTag (o : Options) : o.numberTag.isMem = false := by
  unfold numberTag
  split <;> rfl

@[simp]
theorem Options.isMem_tagMask (o : Options) : o.tagMask.isMem = false := by
  unfold tagMask
  split <;> rfl

def Cond.usesMemory : Cond → Bool
  | compare64 _ lhs rhs => lhs.isMem || rhs.isMem
  | compare32 _ lhs rhs => lhs.isMem || rhs.isMem
  | compare8 _ _ _ => true
  | mask64 _ value mask => value.isMem || mask.isMem
  | mask32 _ value mask => value.isMem || mask.isMem
  | double _ _ _ => false
  | always => false
  | alwaysPatchable => false

namespace Inst

def usesMemory : Inst → Bool
  | load64 _ _ => true
  | load32 _ _ => true
  | load8 _ _ => true
  | store64 _ _ => true
  | store32 _ _ => true
  | store64Imm _ _ => true
  | store32Imm _ _ => true
  | loadDouble _ _ => true
  | storeDouble _ _ => true
  | branch cond _ => cond.usesMemory
  | _ => false

/-- The instruction, or a breakpoint if it has a memory operand. -/
def blind (i : Inst) : Inst := if i.usesMemory then breakpoint else i

theorem blind_uniform : Uniform blind where
  shift := by
    intro i distance
    cases i with
    | branch cond target =>
      cases target with
      | none => cases used : cond.usesMemory <;> simp [blind, usesMemory, shift, used]
      | some target => cases used : cond.usesMemory <;> simp [blind, usesMemory, shift, used]
    | _ => rfl
  linkOpen := by
    intro i target
    cases i with
    | branch cond old =>
      cases old with
      | none => cases used : cond.usesMemory <;> simp [blind, usesMemory, linkOpen, used]
      | some old => cases used : cond.usesMemory <;> simp [blind, usesMemory, linkOpen, used]
    | _ => rfl

end Inst

namespace State

def withMemory (s : State) (m : Memory) : State := { s with memory := m }

theorem eq_withMemory {s t : State} (gprs : t.gprs = s.gprs) (fprs : t.fprs = s.fprs) :
    ∃ m, t = s.withMemory m := by
  cases t with
  | mk _ _ memory =>
    cases gprs
    cases fprs
    exact ⟨memory, rfl⟩

variable (s : State) (m : Memory)

theorem operand64_withMemory {x : Operand} (register : x.isMem = false) :
    (s.withMemory m).operand64 x = s.operand64 x := by
  cases x with
  | reg r => rfl
  | imm value => rfl
  | mem location => cases register

theorem operand32_withMemory {x : Operand} (register : x.isMem = false) :
    (s.withMemory m).operand32 x = s.operand32 x := by
  cases x with
  | reg r => rfl
  | imm value => rfl
  | mem location => cases register

theorem holds_withMemory {cond : Cond} (blind : cond.usesMemory = false) :
    (s.withMemory m).holds cond = s.holds cond := by
  cases cond with
  | compare64 relation lhs rhs =>
    rw [Cond.usesMemory, Bool.or_eq_false_iff] at blind
    rw [holds, holds, operand64_withMemory s m blind.1, operand64_withMemory s m blind.2]
  | compare32 relation lhs rhs =>
    rw [Cond.usesMemory, Bool.or_eq_false_iff] at blind
    rw [holds, holds, operand32_withMemory s m blind.1, operand32_withMemory s m blind.2]
  | mask64 test value mask =>
    rw [Cond.usesMemory, Bool.or_eq_false_iff] at blind
    rw [holds, holds, operand64_withMemory s m blind.1, operand64_withMemory s m blind.2]
  | mask32 test value mask =>
    rw [Cond.usesMemory, Bool.or_eq_false_iff] at blind
    rw [holds, holds, operand32_withMemory s m blind.1, operand32_withMemory s m blind.2]
  | compare8 relation lhs rhs => cases blind
  | double test lhs rhs => rfl
  | always => rfl
  | alwaysPatchable => rfl

end State

section Blind

variable {v : Services} {code : Array Inst} {pc mid last : Nat} {s t : State} {trace : List Nat}
  {calls : List Call} {i : Inst}

theorem step_withMemory (m : Memory) (blind : i.usesMemory = false)
    (stepped : step v pc s i = .next mid t) :
    step v pc (s.withMemory m) i = .next mid (t.withMemory m) := by
  cases i with
  | branch cond target =>
    cases target with
    | none => cases stepped
    | some target =>
      cases stepped
      rw [step, State.holds_withMemory s m blind]
  | call target =>
    rw [step] at stepped
    split at stepped
    next => cases stepped
    next => cases stepped
  | callSlowPath call =>
    rw [step] at stepped
    split at stepped
    next => cases stepped
    next => cases stepped
  | load64 dst src | load32 dst src | load8 dst src | loadDouble dst src => cases blind
  | store64 src dst | store32 src dst | storeDouble src dst => cases blind
  | store64Imm value dst | store32Imm value dst => cases blind
  | abort reason => cases stepped
  | breakpoint => cases stepped
  | ret => cases stepped
  | _ =>
    cases stepped
    rfl

/-- Execution that meets no memory operand goes the same way over any memory. -/
theorem Path.withMemory (m : Memory) (path : Path v code pc s trace [] last t)
    (blind : ∀ q ∈ trace, ∃ i, code[q]? = some i ∧ i.usesMemory = false) :
    Path v code pc (s.withMemory m) trace [] last (t.withMemory m) := by
  generalize quiet : ([] : List Call) = calls at path
  induction path with
  | stay pc s => exact .stay pc _
  | called => cases quiet
  | next fetched stepped _ ih =>
    rw [List.forall_mem_cons] at blind
    obtain ⟨j, found, register⟩ := blind.1
    cases fetched.symm.trans found
    exact .next fetched (step_withMemory m register stepped) (ih blind.2 quiet)

theorem Path.of_blind (path : Path v (code.map Inst.blind) pc s trace calls last t) :
    Path v code pc s trace calls last t ∧
      ∀ q ∈ trace, ∃ i, code[q]? = some i ∧ i.usesMemory = false := by
  have unblind (pc : Nat) (s : State) (i : Inst) (fetched : (code.map Inst.blind)[pc]? = some i)
      (goes : (step v pc s i).position?.isSome) : code[pc]? = some i ∧ i.usesMemory = false := by
    rw [Array.getElem?_map, Option.map_eq_some_iff] at fetched
    obtain ⟨j, found, rfl⟩ := fetched
    cases used : j.usesMemory with
    | true =>
      rw [Inst.blind, if_pos used] at goes
      cases goes
    | false =>
      rw [Inst.blind, used]
      exact ⟨found, used⟩
  induction path with
  | stay pc s => exact ⟨.stay pc s, by simp⟩
  | next fetched stepped _ ih =>
    obtain ⟨found, register⟩ := unblind _ _ _ fetched (by rw [stepped]; rfl)
    exact ⟨.next found stepped ih.1, List.forall_mem_cons.mpr ⟨⟨_, found, register⟩, ih.2⟩⟩
  | called fetched stepped _ ih =>
    obtain ⟨found, register⟩ := unblind _ _ _ fetched (by rw [stepped]; rfl)
    exact ⟨.called found stepped ih.1, List.forall_mem_cons.mpr ⟨⟨_, found, register⟩, ih.2⟩⟩

end Blind

namespace Fragment

variable {f g : Fragment} {code : Array Inst} {start exit : Nat}

def blind (f : Fragment) : Fragment := f.map Inst.blind

@[simp]
theorem length_blind (f : Fragment) : f.blind.length = f.length := List.length_map _

theorem blind_eq_self (registers : ∀ i ∈ f, i.usesMemory = false) : f.blind = f := by
  calc
    f.blind = f.map id := by
      apply List.map_congr_left
      intro i member
      rw [Inst.blind, registers i member]
      rfl
    _ = f := List.map_id f

theorem blind_andThen (f g : Fragment) : (f.andThen g).blind = f.blind.andThen g.blind :=
  map_andThen Inst.blind_uniform f g

theorem blind_skipping (f g : Fragment) : (f.skipping g).blind = f.blind.skipping g.blind :=
  map_skipping Inst.blind_uniform f g

theorem StandsAt.blind (stands : f.StandsAt code start exit) :
    f.blind.StandsAt (code.map Inst.blind) start exit := by
  intro n i found
  rw [Fragment.blind, List.getElem?_map, Option.map_eq_some_iff] at found
  obtain ⟨j, found, rfl⟩ := found
  rw [Array.getElem?_map, stands n j found, Option.map_some, Inst.blind_uniform.linkOpen,
    Inst.blind_uniform.shift]

theorem mem_exitsFrom_of_blind {position : Nat} (exit : position ∈ exitsFrom start f.blind) :
    position ∈ exitsFrom start f := by
  rw [mem_exitsFrom] at exit ⊢
  obtain ⟨n, i, found, unlinked, rfl⟩ := exit
  rw [blind, List.getElem?_map, Option.map_eq_some_iff] at found
  obtain ⟨j, found, rfl⟩ := found
  refine ⟨n, j, found, ?_, rfl⟩
  cases used : j.usesMemory with
  | true =>
    rw [Inst.blind, if_pos used] at unlinked
    cases unlinked
  | false => rwa [Inst.blind, used] at unlinked

end Fragment

namespace State

/-- By its bits, the value in the registers is no cell. -/
def ShowsNoCell (s : State) : ValueRegs → Prop
  | .packed value => s.gpr value &&& Packed.tagMask ≠ 0#64
  | .split tag _ => s.low tag ≠ Split.cellTag

variable {s : State} {regs : ValueRegs}

theorem hasCell_eq_false (tags : s.TagsInPlace) (noCell : s.ShowsNoCell regs) (o : Options) :
    s.hasCell o regs = false := by
  cases regs with
  | packed value =>
    rw [hasCell, operand64_tagMask tags]
    exact beq_eq_false_iff_ne.mpr noCell
  | split tag payload => exact beq_eq_false_iff_ne.mpr noCell

theorem showsNoCell_of_hasOther (other : s.hasOther regs = true) : s.ShowsNoCell regs := by
  cases regs with
  | packed value =>
    rw [hasOther, Bool.or_eq_true, beq_iff_eq, beq_iff_eq] at other
    rcases other with null | undefined
    · rw [ShowsNoCell, null]
      decide
    · rw [ShowsNoCell, undefined]
      decide
  | split tag payload =>
    rw [hasOther, Bool.or_eq_true, beq_iff_eq, beq_iff_eq] at other
    rcases other with null | undefined
    · rw [ShowsNoCell, null]
      decide
    · rw [ShowsNoCell, undefined]
      decide

end State

namespace Guard

open Fragment

variable (v : Services) {s : State} {o : Options} {regs : ValueRegs} {temp : Gpr}

def looksInside : Guard → Bool
  | notString _ => true
  | notObject _ => true
  | shape _ _ _ => true
  | _ => false

theorem blind_code {g : Guard} (outside : g.looksInside = false) (o : Options) :
    (g.code o).blind = g.code o := by
  apply blind_eq_self
  cases g with
  | notInt32 regs | notCell regs | isCell regs =>
    cases regs <;> simp [code, test, Test.code, half, Inst.usesMemory, Cond.usesMemory]
  | notNumber regs temp | notBoolean regs temp =>
    cases regs <;> simp [code, test, Test.code, half, Inst.usesMemory, Cond.usesMemory]
  | isOther regs temp | notOther regs temp =>
    cases regs <;> simp [code, test, Test.code, other, half, Inst.usesMemory, Cond.usesMemory]
  | notString cell | notObject cell | shape relation cell s => cases outside

theorem blind_cellTest_behaves (noCell : s.hasCell o regs = false) (test : Guard) :
    (cellTest o regs test).blind.Behaves v s true s := by
  have leaves := notCell_behaves v s o regs
  rw [noCell, Bool.not_false] at leaves
  rw [cellTest, blind_andThen, blind_code rfl]
  exact leaves.andThen_of_leaves

theorem blind_orOther_behaves (noCell : s.hasCell o regs = false) (free : temp ∉ regs.gprs)
    (unreserved : temp ≠ .tagMask) (test : Guard) :
    ∃ t, s.SameExcept temp t ∧
      (((isOther regs temp).code o).skipping (cellTest o regs test)).blind.Behaves v s
        (!s.hasOther regs) t := by
  have tested : ∀ t, s.SameExcept temp t →
      (cellTest o regs test).blind.Behaves v t (!false) t := by
    intro t same
    apply blind_cellTest_behaves
    rw [same.hasCell_eq free unreserved, noCell]
  rw [blind_skipping, blind_code rfl, ← Bool.or_false (s.hasOther regs)]
  exact orOther_behaves v s o regs temp tested

theorem blind_notTy_behaves (noCell : s.hasCell o regs = false) (free : temp ∉ regs.gprs)
    (unreserved : temp ≠ .tagMask) (t : Ty) :
    ∃ u leaves, s.SameExcept temp u ∧ (notTy o regs temp t).blind.Behaves v s leaves u := by
  have whole (registers : (notTy o regs temp t).blind = notTy o regs temp t) :
      ∃ u leaves, s.SameExcept temp u ∧ (notTy o regs temp t).blind.Behaves v s leaves u := by
    obtain ⟨u, same, behaves⟩ := notTy_behaves v s o regs temp free unreserved t
    exact ⟨u, _, same, registers.symm ▸ behaves⟩
  have tested (test : Guard) :
      ∃ u leaves, s.SameExcept temp u ∧ (cellTest o regs test).blind.Behaves v s leaves u :=
    ⟨s, true, .refl temp s, blind_cellTest_behaves v noCell test⟩
  have escaped (test : Guard) := blind_orOther_behaves v noCell free unreserved test
  cases t with
  | bottom => exact whole rfl
  | boolean => exact whole (blind_code rfl o)
  | other => exact whole (blind_code (g := notOther regs temp) rfl o)
  | int32 => exact whole (blind_code rfl o)
  | number => exact whole (blind_code rfl o)
  | string => exact tested _
  | object => exact tested _
  | objectWithShape shape => exact tested _
  | objectOrOther =>
    obtain ⟨u, same, behaves⟩ := escaped (notObject regs.payload)
    exact ⟨u, _, same, behaves⟩
  | objectWithShapeOrOther found =>
    obtain ⟨u, same, behaves⟩ := escaped (shape .notEqual regs.payload found)
    exact ⟨u, _, same, behaves⟩
  | top => exact whole rfl

/-- Registers of the representation compiled for get a guard. On a value that is no cell by its
bits, null and undefined among them, the guard runs alike over any two memories: through the same
positions, out by the same exit or past its end, to the same registers. No instruction that it
executes has a memory operand. -/
theorem forTy_blind_to_noncells (o : Options) (t : Ty) {regs : ValueRegs} {temp : Gpr}
    {first second : State} (matching : regs.representation = o.representation)
    (free : temp ∉ regs.gprs) (unreserved : temp ≠ .tagMask)
    (gprs : second.gprs = first.gprs) (fprs : second.fprs = first.fprs)
    (tags : first.TagsInPlace)
    (noCell : first.ShowsNoCell regs ∨ first.hasOther regs = true) :
    ∃ guard, forTy o regs temp t = .ok guard ∧
      ∀ {a placed linked : Assembler} {exits : List Nat} {target : Nat} (rest : Array Inst),
        a.origin = 0 → a.place guard = .ok (placed, exits) →
        placed.linkAll exits target = .ok linked →
        ∃ (trace : List Nat) (last : Nat) (firstEnd secondEnd : State),
          Run.Passes v (linked.code ++ rest) a.next first trace last firstEnd ∧
          Run.Passes v (linked.code ++ rest) a.next second trace last secondEnd ∧
          (last = target ∧ (∃ q ∈ exits, trace.getLast? = some q) ∨ last = placed.next) ∧
          secondEnd.gprs = firstEnd.gprs ∧ secondEnd.fprs = firstEnd.fprs ∧
          first.SameExcept temp firstEnd ∧ second.SameExcept temp secondEnd ∧
          ∀ q ∈ trace, (a.next ≤ q ∧ q < placed.next) ∧
            ∃ i, linked.code[q]? = some i ∧ i.usesMemory = false := by
  refine ⟨notTy o regs temp t, by rw [forTy, if_pos matching], ?_⟩
  intro a placed linked exits target rest fresh placing linking
  have bits : first.hasCell o regs = false := by
    apply State.hasCell_eq_false tags
    rcases noCell with shown | other
    · exact shown
    · exact State.showsNoCell_of_hasOther other
  obtain ⟨final, leaves, same, behaves⟩ := blind_notTy_behaves v bits free unreserved t
  have stands := standsAt_of_place fresh placing linking rest
  -- The run is found in the blind code, where it cannot depend on the memory, and taken back.
  obtain ⟨trace, path, within, lastExit⟩ := behaves _ _ _ stands.blind
  obtain ⟨path, registers⟩ := path.of_blind
  rw [length_blind, ← Assembler.next_place placing] at path within
  obtain ⟨m, rfl⟩ := State.eq_withMemory gprs fprs
  have alike := path.withMemory m registers
  refine ⟨trace, _, final, final.withMemory m, path.passes, alike.passes, ?_, rfl, rfl, same, ?_,
    ?_⟩
  · cases leaves with
    | true =>
      obtain ⟨q, exit, atEnd⟩ := lastExit rfl
      refine .inl ⟨rfl, q, ?_, atEnd⟩
      rw [(Assembler.place_eq_ok placing).2]
      exact mem_exitsFrom_of_blind exit
    | false => exact .inr rfl
  · exact ⟨rfl, same.fprs, same.gprs⟩
  · intro q member
    have inside := within q member
    refine ⟨inside, ?_⟩
    obtain ⟨i, found, register⟩ := registers q member
    have bound : q < linked.code.size := by
      obtain ⟨origin, next, _⟩ := Assembler.linkAll_eq_ok linking
      rw [Assembler.next, origin, Assembler.origin_place placing, fresh] at next
      omega
    exact ⟨i, by rwa [Array.getElem?_append_left bound] at found, register⟩

theorem forTy_blind_to_undefined :
    ∃ guard, forTy {} (.packed .t0) .t3 (.objectWithShapeOrOther ⟨7#32⟩) = .ok guard ∧
      ∃ placed exits linked, ({} : Assembler).place guard = .ok (placed, exits) ∧
        placed.linkAll exits 100 = .ok linked ∧
        ∃ (trace : List Nat) (last : Nat) (firstEnd secondEnd : State),
          Run.Passes .none linked.code 0
            (State.zero.setTags.setGpr .t0 Packed.undefinedWord) trace last firstEnd ∧
          Run.Passes .none linked.code 0
            ((State.zero.setTags.setGpr .t0 Packed.undefinedWord).setByte
              Packed.undefinedWord 7#8) trace last secondEnd ∧
          secondEnd.gprs = firstEnd.gprs ∧
          ∀ q ∈ trace, ∃ i, linked.code[q]? = some i ∧ i.usesMemory = false := by
  let s : State := State.zero.setTags.setGpr .t0 Packed.undefinedWord
  have tags : s.TagsInPlace := ⟨rfl, rfl⟩
  have undefined : s.hasOther (.packed .t0) = true := rfl
  obtain ⟨guard, emitted, placements⟩ := forTy_blind_to_noncells .none {}
    (.objectWithShapeOrOther ⟨7#32⟩) rfl (by decide : Gpr.t3 ∉ (ValueRegs.packed .t0).gprs)
    (by decide) (show (s.setByte Packed.undefinedWord 7#8).gprs = s.gprs from rfl) rfl tags
    (.inr undefined)
  refine ⟨guard, emitted, ?_⟩
  cases emitted
  let body := notTy {} (.packed .t0) .t3 (.objectWithShapeOrOther ⟨7#32⟩)
  have placing : ({} : Assembler).place body =
      .ok ({ code := (Fragment.shift 0 body).toArray }, [3, 4]) := rfl
  have linking : Assembler.linkAll { code := (Fragment.shift 0 body).toArray } [3, 4] 100 =
      .ok { code := (Fragment.linkExits 100 (Fragment.shift 0 body)).toArray } := rfl
  refine ⟨_, _, _, placing, linking, ?_⟩
  obtain ⟨trace, last, firstEnd, secondEnd, run, alike, _, gprs, _, _, _, blind⟩ :=
    placements #[] rfl placing linking
  rw [Array.append_empty] at run alike
  exact ⟨trace, last, firstEnd, secondEnd, run, alike, gprs, fun q member => (blind q member).2⟩

end Guard

end InlineCache
