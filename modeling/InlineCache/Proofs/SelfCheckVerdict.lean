import InlineCache.Proofs.ForwardBranches
import InlineCache.Proofs.GuardVerdict
import InlineCache.Proofs.RegionContents

/-!
What self-checks decide. Every check tests facts about the state in a fixed order; on values, the
facts are the verdicts of the guards. Code that consists of checks aborts for the first fact that
does not hold, and otherwise gets to its end with the state as it was.
-/

namespace InlineCache

/-- Whether a guard that stands alone, with its exits linked past its end, is left by an exit. -/
def Guard.leaves (o : Options) (s : State) (g : Guard) : Bool :=
  let size := (g.code o).length
  let alone := (Fragment.linkExits (size + 1) (g.code o)).toArray
  match (Run.start .none alone (size + 1) 0 s).ending with
  | .error (.fellOffEnd position) => position == size + 1
  | _ => false

namespace SelfCheck

/-- The facts that a check tests, in order, with the reasons to abort if they do not hold. The
register `temp` is one that the guard of numbers may overwrite. -/
def facts (o : Options) (temp : Gpr) (s : State) : SelfCheck → List (AbortReason × Bool)
  | int32 register =>
      match o.representation with
      | .packed => [(.isNotInt32, (s.gpr register).toNat ≤ 2 ^ 32 - 1)]
      | .split => []
  | boxedInt32 regs => [(.isNotBoxedInt32, !(Guard.notInt32 regs).leaves o s)]
  | boxedNumber regs => [(.isNotBoxedNumber, !(Guard.notNumber regs temp).leaves o s)]
  | boxedDouble regs => [(.isNotBoxedDouble,
      !(Guard.notNumber regs temp).leaves o s && (Guard.notInt32 regs).leaves o s)]
  | cell regs => [(.isNotCell, !(Guard.notCell regs).leaves o s)]
  | tagsInPlace =>
      match o.representation, o.tagRegisters with
      | .packed, .reserved => [(.numberTagNotInPlace, s.gpr .numberTag = Packed.numberTag),
          (.tagMaskNotInPlace, s.gpr .tagMask = Packed.tagMask)]
      | _, _ => []
  | callFrameAligned => [(.callFrameMisaligned, (s.gpr .callFrame).toNat % 8 = 0)]
  | zero register => [(.isNotNull, s.gpr register = 0#64)]
  | argumentCountSane => [(.insaneArgumentCount,
      (s.memory.read32 (s.gpr .callFrame + 32#64)).toNat < 10000000)]
  | noException layout => [(.uncaughtExceptionAfterCall,
      match o.representation with
      | .packed => s.memory.read64 layout.exceptionSlot = 0#64
      | .split => s.memory.read32 layout.exceptionSlot = 0#32)]

def firstViolated (o : Options) (temp : Gpr) (s : State) (checks : List SelfCheck) :
    Option AbortReason :=
  ((checks.flatMap (facts o temp s)).find? fun fact => !fact.2).map Prod.fst

def emitAll (o : Options) (checks : List SelfCheck) : Emit Unit := checks.forM (emit o)

end SelfCheck

namespace Guard

variable {o : Options} {s t : State}

theorem leaves_eq {g : Guard} {verdict : Bool} (behaves : (g.code o).Behaves .none s verdict t) :
    g.leaves o s = verdict := by
  let size := (g.code o).length
  let alone := (Fragment.linkExits (size + 1) (g.code o)).toArray
  have stands : (g.code o).StandsAt alone 0 (size + 1) := by
    intro n i found
    rw [Nat.zero_add, i.shift_zero, List.getElem?_toArray, Fragment.linkExits,
      List.getElem?_map, found]
    rfl
  obtain ⟨trace, path, inside, _⟩ := behaves alone 0 (size + 1) stands
  have bound := (code_within o g).forward.trace_length_le stands (by omega) path inside
  have past : alone[if verdict then size + 1 else 0 + size]? = none := by
    apply Array.getElem?_eq_none
    rw [List.size_toArray, Fragment.length_linkExits]
    split
    next => exact Nat.le_succ size
    next => exact Nat.le_of_eq (Nat.zero_add size).symm
  obtain ⟨_, run⟩ := ((Ends.off past).after path).resume_eq (Nat.add_le_add_right bound 1)
    (size + 1) #[] #[]
  have ended : (Run.start .none alone (size + 1) 0 s).ending =
      .error (.fellOffEnd (if verdict then size + 1 else 0 + size)) := by
    rw [Run.start, run]
  unfold leaves
  simp only [alone, size] at ended
  simp only [ended]
  cases verdict with
  | true => simp
  | false => simp

end Guard

/-- Wherever the fragment stands, execution that enters it in the state `s` aborts for the first of
the facts that does not hold; if they all hold it gets through with the state as it was. Either
takes at most one step per instruction, and no call is made. -/
def Fragment.Verifies (v : Services) (f : Fragment) (s : State)
    (facts : List (AbortReason × Bool)) : Prop :=
  ∀ (code : Array Inst) (start exit : Nat), f.StandsAt code start exit →
    match facts.find? fun fact => !fact.2 with
    | some (reason, _) => ∃ n ≤ f.length, Ends v code start s n [] (.ok (.aborted reason)) s
    | none => ∃ trace, trace.length ≤ f.length ∧ Path v code start s trace [] (start + f.length) s

namespace Fragment.Verifies

variable {v : Services} {s : State} {f g : Fragment} {facts more : List (AbortReason × Bool)}

theorem empty (v : Services) (s : State) : Verifies v [] s [] := by
  intro code start exit _
  exact ⟨[], Nat.le_refl 0, .stay start s⟩

theorem andThen (first : f.Verifies v s facts) (second : g.Verifies v s more) :
    (f.andThen g).Verifies v s (facts ++ more) := by
  intro code start exit stands
  have early := first code start exit stands.fst_of_andThen
  have late := second code _ exit stands.snd_of_andThen
  rw [List.find?_append, length_andThen]
  cases violated : facts.find? fun fact => !fact.2 with
  | some fact =>
    rw [violated] at early
    obtain ⟨n, bound, aborts⟩ := early
    exact ⟨n, by omega, aborts⟩
  | none =>
    rw [violated] at early
    obtain ⟨trace, bound, path⟩ := early
    rw [Option.none_or]
    cases violated' : more.find? fun fact => !fact.2 with
    | some fact =>
      rw [violated'] at late
      obtain ⟨n, bound', aborts⟩ := late
      exact ⟨trace.length + n, by omega, aborts.after path⟩
    | none =>
      rw [violated'] at late
      obtain ⟨trace', bound', path'⟩ := late
      rw [← Nat.add_assoc]
      exact ⟨trace ++ trace', by rw [List.length_append]; omega, path.trans path'⟩

theorem abortUnless {o : Options} {reason : AbortReason} {test : Fragment} {room : Nat}
    {holds : Bool} (enabled : o.selfChecks = true) (within : test.Within room)
    (behaves : test.Behaves v s holds s) :
    (SelfCheck.abortUnless o reason test).Verifies v s [(reason, holds)] := by
  intro code start exit stands
  rw [SelfCheck.abortUnless, if_pos enabled, skipping_eq_andThen] at stands
  rw [SelfCheck.abortUnless, if_pos enabled, length_skipping, List.length_singleton]
  have tested := stands.fst_of_andThen.of_linkExits
  obtain ⟨trace, path, inside, _⟩ := behaves code start _ tested
  have bound := within.forward.trace_length_le tested (by omega) path inside
  cases holds with
  | true => exact ⟨trace, by omega, path⟩
  | false =>
    have fetched := stands.snd_of_andThen 0 _ rfl
    rw [length_linkExits] at fetched
    have aborts : Ends v code (start + test.length) s 1 [] (.ok (.aborted reason)) s :=
      .stop fetched rfl
    exact ⟨trace.length + 1, by omega, aborts.after path⟩

end Fragment.Verifies

namespace Guard

variable (o : Options) (s : State) (regs : ValueRegs)

theorem leaves_notInt32 : (notInt32 regs).leaves o s = !s.hasInt32 o regs :=
  leaves_eq (notInt32_behaves .none s o regs)

theorem leaves_notNumber (temp : Gpr) : (notNumber regs temp).leaves o s = !s.hasNumber o regs := by
  obtain ⟨_, _, behaves⟩ := notNumber_behaves .none s o regs temp
  exact leaves_eq behaves

theorem leaves_notCell : (notCell regs).leaves o s = !s.hasCell o regs :=
  leaves_eq (notCell_behaves .none s o regs)

theorem isCell_behaves (v : Services) :
    ((isCell regs).code o).Behaves v s (s.hasCell o regs) s := by
  cases regs with
  | packed value => exact .branch rfl
  | split tag payload => exact .branch rfl

theorem leaves_isCell : (isCell regs).leaves o s = s.hasCell o regs :=
  leaves_eq (isCell_behaves o s regs .none)

end Guard

namespace SelfCheck

variable (v : Services) (o : Options) (s : State)

namespace Evidence

def holds (s : State) : Evidence → Bool
  | any cond others => (cond :: others).any s.holds
  | butNot cond excluded => !s.holds excluded && s.holds cond

theorem branches_behave (conds : List Cond) :
    Fragment.Behaves v (conds.map fun cond => .branch cond none) s (conds.any s.holds) s := by
  induction conds with
  | nil => exact .empty v s
  | cons cond others ih =>
    have first : Fragment.Behaves v [.branch cond none] s (s.holds cond) s := .branch rfl
    have both := first.either ih
    rwa [Fragment.andThen, shift_branches] at both

theorem code_behaves (e : Evidence) : e.code.Behaves v s (e.holds s) s := by
  cases e with
  | any cond others => exact branches_behave v s (cond :: others)
  | butNot cond excluded => exact .branchPast excluded cond

end Evidence

variable {v o s} in
theorem abortUnless_behaves {test : Fragment} (reason : AbortReason)
    (passed : test.Behaves v s true s) : (abortUnless o reason test).Behaves v s false s := by
  unfold abortUnless
  split
  next => exact passed.skipping_of_leaves
  next => exact .empty v s

theorem testAll_behaves {tests : List (AbortReason × Evidence)}
    (hold : ∀ test ∈ tests, test.2.holds s = true) : (testAll o tests).Behaves v s false s := by
  induction tests with
  | nil => exact .empty v s
  | cons first rest ih =>
    rw [List.forall_mem_cons] at hold
    have passed := first.2.code_behaves v s
    rw [hold.1] at passed
    exact (abortUnless_behaves first.1 passed).andThen (ih hold.2)

theorem holds_aboveOrEqual_numberTag (value : Gpr) :
    s.holds (.compare64 .aboveOrEqual (.reg value) o.numberTag) = s.hasInt32 o (.packed value) := by
  rw [State.holds, Relation.holds, BitVec.ule_eq_not_ult]
  rfl

theorem holds_zero64 (x : Operand) :
    s.holds (.mask64 .zero x (.imm (BitVec.allOnes 64))) = decide (s.operand64 x = 0#64) := by
  change (s.operand64 x &&& BitVec.allOnes 64 == 0#64) = _
  rw [BitVec.and_allOnes]
  rfl

theorem holds_zero32 (x : Operand) :
    s.holds (.mask32 .zero x (.imm ((BitVec.allOnes 32).setWidth 64))) =
      decide (s.operand32 x = 0#32) := by
  change (s.operand32 x &&& BitVec.allOnes 32 == 0#32) = _
  rw [BitVec.and_allOnes]
  rfl

theorem holds_aligned (x : Operand) :
    s.holds (.mask64 .zero x (.imm CallFrame.alignmentMask)) =
      decide ((s.operand64 x).toNat % 8 = 0) := by
  have mask : CallFrame.alignmentMask.toNat = 2 ^ 3 - 1 := by decide
  have aligned : s.operand64 x &&& CallFrame.alignmentMask = 0#64 ↔
      (s.operand64 x).toNat % 8 = 0 := by
    rw [← BitVec.toNat_inj, BitVec.toNat_and, mask, Nat.and_two_pow_sub_one_eq_mod]
    rfl
  exact decide_eq_decide.mpr aligned

theorem tests_decide (temp : Gpr) (check : SelfCheck) :
    (check.tests o).map (fun test => (test.1, test.2.holds s)) = check.facts o temp s := by
  have single (reason : AbortReason) {cond : Cond} {holds : Bool} (verdict : s.holds cond = holds) :
      [(reason, (Evidence.any cond).holds s)] = [(reason, holds)] := by
    rw [Evidence.holds, List.any_cons, List.any_nil, Bool.or_false, verdict]
  cases check with
  | int32 register =>
    unfold tests facts
    cases o.representation with
    | packed => exact single _ rfl
    | split => rfl
  | boxedInt32 regs =>
    rw [facts, Guard.leaves_notInt32, Bool.not_not]
    cases regs with
    | packed value => exact single _ (holds_aboveOrEqual_numberTag o s value)
    | split tag payload => exact single _ rfl
  | boxedNumber regs =>
    rw [facts, Guard.leaves_notNumber, Bool.not_not]
    cases regs with
    | packed value => exact single _ rfl
    | split tag payload =>
      rw [tests, List.map_singleton, Evidence.holds, List.any_cons, List.any_cons, List.any_nil,
        Bool.or_false]
      rfl
  | boxedDouble regs =>
    rw [facts, Guard.leaves_notNumber, Guard.leaves_notInt32, Bool.not_not]
    cases regs with
    | packed value =>
      rw [tests, List.map_singleton, Evidence.holds, holds_aboveOrEqual_numberTag, Bool.and_comm]
      rfl
    | split tag payload =>
      apply single
      -- The tag of integers lies above the tags of doubles, so that nothing is excluded twice.
      change (s.low tag).ult Split.lowestTag =
        ((s.low tag == Split.int32Tag || (s.low tag).ult Split.lowestTag) &&
          !(s.low tag == Split.int32Tag))
      cases integer : s.low tag == Split.int32Tag with
      | true =>
        rw [beq_iff_eq.mp integer]
        rfl
      | false => rw [Bool.false_or, Bool.not_false, Bool.and_true]
  | cell regs =>
    rw [facts, Guard.leaves_notCell, Bool.not_not]
    cases regs with
    | packed value => exact single _ rfl
    | split tag payload => exact single _ rfl
  | tagsInPlace =>
    unfold tests facts
    cases o.representation with
    | packed =>
      cases o.tagRegisters with
      | reserved => exact congr (congrArg List.append (single _ rfl)) (single _ rfl)
      | absent => rfl
    | split => rfl
  | callFrameAligned => exact single _ (holds_aligned s (.reg .callFrame))
  | zero register => exact single _ (holds_zero64 s (.reg register))
  | argumentCountSane => exact single _ rfl
  | noException layout =>
    have clear64 := holds_zero64 s (.mem (.absolute layout.exceptionSlot))
    have clear32 := holds_zero32 s (.mem (.absolute layout.exceptionSlot))
    rw [State.operand64, State.address] at clear64
    rw [State.operand32, State.address] at clear32
    rw [tests, facts, ExceptionCheck.cond]
    generalize s.memory.read64 layout.exceptionSlot = word at clear64 ⊢
    generalize s.memory.read32 layout.exceptionSlot = half at clear32 ⊢
    cases o.representation with
    | packed => exact single _ clear64
    | split => exact single _ clear32

variable {o s}

theorem testAll_verifies (enabled : o.selfChecks = true) (tests : List (AbortReason × Evidence)) :
    (testAll o tests).Verifies v s (tests.map fun test => (test.1, test.2.holds s)) := by
  induction tests with
  | nil => exact .empty v s
  | cons first rest ih =>
    have here : (abortUnless o first.1 first.2.code).Verifies v s [(first.1, first.2.holds s)] :=
      .abortUnless enabled first.2.code_within (first.2.code_behaves v s)
    exact here.andThen ih

theorem room_tests_le (o : Options) (check : SelfCheck) : room (check.tests o) ≤ 4 := by
  fun_cases tests o check <;> simp [room, Evidence.code]

theorem room_append (early late : List (AbortReason × Evidence)) :
    room (early ++ late) = room early + room late := by
  induction early with
  | nil => rw [List.nil_append, room, Nat.zero_add]
  | cons test rest ih => rw [List.cons_append, room, room, ih, ← Nat.add_assoc]

theorem room_flatMap_tests_le (o : Options) (checks : List SelfCheck) :
    room (checks.flatMap (tests o)) ≤ 4 * checks.length := by
  induction checks with
  | nil => exact Nat.le_refl 0
  | cons check rest ih =>
    have first := room_tests_le o check
    rw [List.flatMap_cons, room_append, List.length_cons]
    omega

theorem testAll_of_disabled (disabled : o.selfChecks = false)
    (tests : List (AbortReason × Evidence)) : testAll o tests = [] := by
  induction tests with
  | nil => rfl
  | cons first rest ih =>
    rw [testAll, ih, abortUnless, disabled]
    rfl

theorem emitAll_eq (o : Options) (checks : List SelfCheck) :
    emitAll o checks = emitTests o (checks.flatMap (tests o)) := by
  induction checks with
  | nil => rfl
  | cons check rest ih =>
    simp only [emitAll, emitTests, List.forM_eq_forM] at ih
    simp only [emitAll, emitTests, List.forM_eq_forM, List.forM_cons, List.flatMap_cons,
      List.forM_append, ih]
    rfl

theorem emitAll_succeeds {a : Assembler} {checks : List SelfCheck}
    (space : a.next + 4 * checks.length < wordLimit) :
    ∃ b, (emitAll o checks).run a = .ok ((), b) ∧
      a.place (testAll o (checks.flatMap (tests o))) = .ok (b, []) := by
  have within := testAll_within o (checks.flatMap (tests o))
  have short := room_flatMap_tests_le o checks
  have length := within.length
  obtain ⟨b, exits, placed⟩ := Assembler.place_succeeds (a := a) (within.forward.fits (by omega))
  obtain rfl : exits = [] :=
    (Assembler.place_eq_ok placed).2.trans ((testAll_closed o _).exitsFrom_eq_nil a.next)
  have steps := emitTests_places o (checks.flatMap (tests o)) a
  rw [placed, ← emitAll_eq, StateT.run_bind] at steps
  obtain ⟨⟨_, c⟩, run, same⟩ := bind_eq_ok_iff.mp steps
  cases same
  exact ⟨b, run, placed⟩

/-- Code that is made of checks aborts for the first fact that does not hold, in the state that it
was entered in, or else gets to its end in that state. Without self-checks there is no code. -/
theorem emitted_aborts_at_first_violated (v : Services) (o : Options) (temp : Gpr) (s : State)
    (checks : List SelfCheck) {a : Assembler} (fresh : a.origin = 0)
    (room : a.next + 4 * checks.length < wordLimit) :
    (∀ regs, (Guard.isCell regs).leaves o s = !(Guard.notCell regs).leaves o s) ∧
    ∃ b, (emitAll o checks).run a = .ok ((), b) ∧ (o.selfChecks = false → b = a) ∧
      (o.selfChecks = true → ∀ rest : Array Inst,
        (∀ reason, firstViolated o temp s checks = some reason →
          ∀ limit, b.next - a.next ≤ limit → ∃ trace,
            Run.start v (b.code ++ rest) limit a.next s = ⟨.ok (.aborted reason), s, trace, #[]⟩) ∧
        (firstViolated o temp s checks = none →
          ∃ trace : List Nat, trace.length ≤ b.next - a.next ∧ ∀ limit fuel before made,
            Run.resume v (b.code ++ rest) limit (trace.length + fuel) a.next s before made =
              Run.resume v (b.code ++ rest) limit fuel b.next s
                (before ++ trace.toArray) made)) := by
  refine ⟨fun regs => by rw [Guard.leaves_isCell, Guard.leaves_notCell, Bool.not_not], ?_⟩
  obtain ⟨b, emitted, placed⟩ := @emitAll_succeeds o a checks room
  refine ⟨b, emitted, fun disabled => ?_, fun enabled rest => ?_⟩
  · obtain ⟨rfl, _⟩ := Assembler.place_eq_ok placed
    rw [testAll_of_disabled disabled]
    simp [Fragment.shift]
  · have stands := Fragment.standsAt_of_place fresh placed (rfl : b.linkAll [] 0 = .ok b) rest
    have verdict := @testAll_verifies v o s enabled _ _ _ _ stands
    have decided : (checks.flatMap (tests o)).map (fun test => (test.1, test.2.holds s)) =
        checks.flatMap (facts o temp s) := by
      rw [List.map_flatMap]
      simp only [tests_decide o s temp]
    rw [decided] at verdict
    have next := Assembler.next_place placed
    have size : b.next - a.next = (testAll o (checks.flatMap (tests o))).length := by omega
    rw [size]
    constructor
    · intro reason violated limit enough
      obtain ⟨fact, found, rfl⟩ := Option.map_eq_some_iff.mp violated
      rw [found] at verdict
      obtain ⟨n, bound, aborts⟩ := verdict
      obtain ⟨trace, run⟩ := aborts.resume_eq (Nat.le_trans bound enough) limit #[] #[]
      exact ⟨trace, run⟩
    · intro none
      rw [firstViolated, Option.map_eq_none_iff] at none
      rw [none] at verdict
      obtain ⟨trace, bound, path⟩ := verdict
      refine ⟨trace, bound, fun limit fuel before made => ?_⟩
      rw [path.resume_eq, next, Array.append_empty]

def misaligned : State :=
  (State.zero.setTags.setGpr .t0 0x1000000000000#64).setGpr .callFrame 4#64

theorem misaligned_frame_aborts_first :
    ∃ b trace, (emitAll {} [.tagsInPlace, .boxedDouble (.packed .t0), .callFrameAligned,
        .argumentCountSane]).run {} = .ok ((), b) ∧
      Run.start .none b.code 100 0 misaligned =
        ⟨.ok (.aborted .callFrameMisaligned), misaligned, trace, #[]⟩ := by
  obtain ⟨_, b, emitted, _, runs⟩ := emitted_aborts_at_first_violated .none {} .t3 misaligned
    [.tagsInPlace, .boxedDouble (.packed .t0), .callFrameAligned, .argumentCountSane]
    (rfl : ({} : Assembler).origin = 0) (by decide)
  obtain ⟨trace, run⟩ := (runs rfl #[]).1 .callFrameMisaligned rfl 100
    (by cases emitted; decide)
  rw [Array.append_empty] at run
  exact ⟨b, trace, emitted, run⟩

end SelfCheck

end InlineCache
