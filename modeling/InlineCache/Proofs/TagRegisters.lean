import InlineCache.Proofs.StepwiseEmission
import InlineCache.Proofs.ValueBits

/-!
Code with and without reserved tag registers. While the reserved registers hold the tag constants, a
branch that reads one of them can be given the constant instead. Code that never writes these
registers therefore runs as it does with all of them inlined; and whatever is generated, with
reserved registers or without, is the same once they are inlined.
-/

namespace InlineCache

def Gpr.reserved : List Gpr := [.numberTag, .tagMask]

def Operand.inlineTags : Operand → Operand
  | reg r => if r = .numberTag then imm Packed.numberTag
      else if r = .tagMask then imm Packed.tagMask else reg r
  | x => x

def Cond.inlineTags : Cond → Cond
  | compare64 relation lhs rhs => compare64 relation lhs.inlineTags rhs.inlineTags
  | compare32 relation lhs rhs => compare32 relation lhs.inlineTags rhs.inlineTags
  | mask64 test value mask => mask64 test value.inlineTags mask.inlineTags
  | mask32 test value mask => mask32 test value.inlineTags mask.inlineTags
  | cond => cond

namespace Inst

def inlineTags : Inst → Inst
  | branch cond target => branch cond.inlineTags target
  | i => i

def written? : Inst → Option Gpr
  | move dst _ => some dst
  | moveImm dst _ => some dst
  | load64 dst _ => some dst
  | load32 dst _ => some dst
  | load8 dst _ => some dst
  | and64 dst _ => some dst
  | xor64 dst _ => some dst
  | or32 dst _ => some dst
  | add32 dst _ _ => some dst
  | _ => none

def KeepsTags (i : Inst) : Prop := ∀ r, i.written? = some r → r ∉ Gpr.reserved

theorem inlineTags_uniform : Uniform inlineTags where
  shift := by
    intro i distance
    cases i with
    | branch cond target => cases target <;> rfl
    | _ => rfl
  linkOpen := by
    intro i target
    cases i with
    | branch cond old => cases old <;> rfl
    | _ => rfl

theorem isUnlinked_inlineTags (i : Inst) : i.inlineTags.isUnlinked = i.isUnlinked := by
  cases i with
  | branch cond target => cases target <;> rfl
  | _ => rfl

theorem retarget?_inlineTags (i : Inst) (target : Nat) :
    i.inlineTags.retarget? target = (i.retarget? target).map inlineTags := by
  cases i <;> rfl

theorem written?_shift (i : Inst) (distance : Nat) : (i.shift distance).written? = i.written? := by
  cases i with
  | branch cond target => cases target <;> rfl
  | _ => rfl

theorem written?_linkOpen (i : Inst) (target : Nat) :
    (i.linkOpen target).written? = i.written? := by
  cases i with
  | branch cond old => cases old <;> rfl
  | _ => rfl

end Inst

namespace Fragment

def writes (f : Fragment) : List Gpr := f.filterMap Inst.written?

@[simp]
theorem writes_andThen (f g : Fragment) : (f.andThen g).writes = f.writes ++ g.writes := by
  have moved : (shift f.length g).writes = g.writes := by
    simp only [writes, shift, List.filterMap_map, Function.comp_def, Inst.written?_shift]
  rw [andThen, writes, List.filterMap_append, ← writes, ← writes, moved]

@[simp]
theorem writes_skipping (f g : Fragment) : (f.skipping g).writes = f.writes ++ g.writes := by
  have linked (target : Nat) : (linkExits target f).writes = f.writes := by
    simp only [writes, linkExits, List.filterMap_map, Function.comp_def, Inst.written?_linkOpen]
  rw [skipping_eq_andThen, writes_andThen, linked]

end Fragment

/-- Hosts and the slow-path handler leave the tag constants in place. -/
structure Services.KeepTags (v : Services) : Prop where
  host : ∀ address function s, v.host? address = some function → s.TagsInPlace →
    (function s).TagsInPlace
  slowPath : ∀ handler call s, v.slowPath? = some handler → s.TagsInPlace →
    (handler call s).TagsInPlace

def Step.state? : Step → Option State
  | next _ s => some s
  | called _ _ s => some s
  | stop _ => none

section Execution

variable {v : Services} {s t : State} {i : Inst} {pc : Nat}

theorem State.TagsInPlace.setGpr (tags : s.TagsInPlace) {r : Gpr} (free : r ∉ Gpr.reserved)
    (w : Word) : (s.setGpr r w).TagsInPlace := by
  simp only [Gpr.reserved, List.mem_cons, List.not_mem_nil, or_false, not_or] at free
  constructor
  · rw [gpr_setGpr, if_neg (Ne.symm free.1)]
    exact tags.1
  · rw [gpr_setGpr, if_neg (Ne.symm free.2)]
    exact tags.2

/-- A step leaves the tag constants in place if its instruction and the services do. -/
theorem step_keepsTags (tags : s.TagsInPlace) (keeps : i.KeepsTags) (services : v.KeepTags)
    (goes : (step v pc s i).state? = some t) : t.TagsInPlace := by
  cases i with
  | call target =>
    rw [step] at goes
    split at goes
    next function installed =>
      cases goes
      exact services.host _ function s installed tags
    next => cases goes
  | callSlowPath call =>
    rw [step] at goes
    split at goes
    next handler installed =>
      cases goes
      exact services.slowPath handler call s installed tags
    next => cases goes
  | branch cond target =>
    cases target with
    | none => cases goes
    | some target =>
      cases goes
      exact tags
  | move dst _ | moveImm dst _ | load64 dst _ | load32 dst _ | load8 dst _ =>
    cases goes
    exact tags.setGpr (keeps dst rfl) _
  | and64 dst _ | xor64 dst _ | or32 dst _ | add32 dst _ _ =>
    cases goes
    exact tags.setGpr (keeps dst rfl) _
  | abort reason => cases goes
  | breakpoint => cases goes
  | ret => cases goes
  | _ =>
    cases goes
    exact tags

theorem State.operand64_inlineTags (tags : s.TagsInPlace) (x : Operand) :
    s.operand64 x.inlineTags = s.operand64 x := by
  cases x with
  | reg r =>
    rw [Operand.inlineTags]
    split
    next number => rw [number]; exact tags.1.symm
    next =>
      split
      next mask => rw [mask]; exact tags.2.symm
      next => rfl
  | _ => rfl

theorem State.operand32_inlineTags (tags : s.TagsInPlace) (x : Operand) :
    s.operand32 x.inlineTags = s.operand32 x := by
  cases x with
  | reg r =>
    rw [Operand.inlineTags]
    split
    next number => rw [number, operand32, operand32, low, tags.1]
    next =>
      split
      next mask => rw [mask, operand32, operand32, low, tags.2]
      next => rfl
  | _ => rfl

theorem State.holds_inlineTags (tags : s.TagsInPlace) (cond : Cond) :
    s.holds cond.inlineTags = s.holds cond := by
  cases cond with
  | compare64 _ lhs rhs | mask64 _ lhs rhs =>
    simp only [Cond.inlineTags, holds, operand64_inlineTags tags]
  | compare32 _ lhs rhs | mask32 _ lhs rhs =>
    simp only [Cond.inlineTags, holds, operand32_inlineTags tags]
  | _ => rfl

theorem step_inlineTags (tags : s.TagsInPlace) (i : Inst) :
    step v pc s i.inlineTags = step v pc s i := by
  cases i with
  | branch cond target =>
    cases target with
    | none => rfl
    | some target => rw [Inst.inlineTags, step, step, State.holds_inlineTags tags]
  | _ => rfl

/-- Code that keeps the constants in place runs as it does with the constants inlined. -/
theorem Run.resume_inlineTags {code : Array Inst} (keeps : ∀ i ∈ code, i.KeepsTags)
    (services : v.KeepTags) (limit fuel pc : Nat) {s : State} (tags : s.TagsInPlace)
    (trace : Array Nat) (calls : Array Call) :
    Run.resume v (code.map Inst.inlineTags) limit fuel pc s trace calls =
      Run.resume v code limit fuel pc s trace calls := by
  induction fuel generalizing pc s trace calls with
  | zero => rfl
  | succ fuel ih =>
    rw [Run.resume, Run.resume, Array.getElem?_map]
    cases fetched : code[pc]? with
    | none => rfl
    | some i =>
      have kept (t : State) (goes : (step v pc s i).state? = some t) : t.TagsInPlace :=
        step_keepsTags tags (keeps i (Array.mem_of_getElem? fetched)) services goes
      simp only [Option.map_some, step_inlineTags tags]
      cases stepped : step v pc s i with
      | next mid t => exact ih mid (kept t (by rw [stepped]; rfl)) _ _
      | called call mid t => exact ih mid (kept t (by rw [stepped]; rfl)) _ _
      | stop ending => rfl

end Execution

namespace Fragment

theorem exitsFrom_inlineTags (base : Nat) (f : Fragment) :
    exitsFrom base (f.map Inst.inlineTags) = exitsFrom base f := by
  induction f generalizing base with
  | nil => rfl
  | cons i rest ih => simp only [List.map_cons, exitsFrom, Inst.isUnlinked_inlineTags, ih]

theorem fits_inlineTags (start : Nat) (f : Fragment) :
    fits start (f.map Inst.inlineTags) = fits start f := by
  have from_base (base : Nat) :
      fitsFrom start base (f.map Inst.inlineTags) = fitsFrom start base f := by
    induction f generalizing base with
    | nil => rfl
    | cons i rest ih =>
      rw [List.map_cons]
      unfold fitsFrom
      rw [ih]
      cases i with
      | branch cond target => cases target <;> rfl
      | _ => rfl
  exact from_base start

end Fragment

namespace Assembler

variable {a b : Assembler} {f : Fragment} {exits positions : List Nat} {target : Nat}

def inlineTags (a : Assembler) : Assembler := { a with code := a.code.map Inst.inlineTags }

@[simp]
theorem next_inlineTags (a : Assembler) : a.inlineTags.next = a.next := by
  simp only [next, inlineTags, Array.size_map]

theorem place_inlineTags (a : Assembler) (f : Fragment) :
    a.inlineTags.place (f.map Inst.inlineTags) =
      (a.place f).map (Prod.map inlineTags id) := by
  have code : a.inlineTags.code ++ Fragment.shift a.next (f.map Inst.inlineTags) =
      (a.code ++ Fragment.shift a.next f).map Inst.inlineTags := by
    rw [← Fragment.map_shift Inst.inlineTags_uniform]
    apply Array.ext'
    simp [inlineTags]
  unfold place
  rw [next_inlineTags, Fragment.fits_inlineTags, Fragment.exitsFrom_inlineTags, code]
  split
  next => rfl
  next => rfl

theorem inst?_inlineTags (a : Assembler) (position : Nat) :
    a.inlineTags.inst? position = (a.inst? position).map Inst.inlineTags := by
  unfold inst?
  rw [show a.inlineTags.index? position = a.index? position from rfl]
  cases a.index? position with
  | none => rfl
  | some index => exact Array.getElem?_map

theorem link_inlineTags (a : Assembler) (position target : Nat) :
    a.inlineTags.link position target = (a.link position target).map inlineTags := by
  unfold link
  rw [inst?_inlineTags, show a.inlineTags.index? position = a.index? position from rfl]
  cases a.index? position with
  | none => rfl
  | some index =>
    cases a.inst? position with
    | none => rfl
    | some i =>
      simp only [Option.map_some, Option.bind_some, Inst.retarget?_inlineTags]
      cases i.retarget? target with
      | none => rfl
      | some linked =>
        simp only [Option.map_some, Except.map, inlineTags, Array.map_setIfInBounds]

theorem linkAll_inlineTags (a : Assembler) (positions : List Nat) (target : Nat) :
    a.inlineTags.linkAll positions target = (a.linkAll positions target).map inlineTags := by
  induction positions generalizing a with
  | nil => rfl
  | cons first rest ih =>
    rw [linkAll, linkAll, List.foldlM_cons, List.foldlM_cons, link_inlineTags]
    cases a.link first target with
    | error fault => rfl
    | ok b => exact ih b

theorem linkHere_inlineTags (a : Assembler) (positions : List Nat) :
    a.inlineTags.linkHere positions = (a.linkHere positions).map inlineTags := by
  rw [linkHere, linkHere, label, label, next_inlineTags]
  cases fitWord a.next with
  | error fault => rfl
  | ok target => exact linkAll_inlineTags a positions target

theorem mem_code_iff {i : Inst} : i ∈ a.code ↔ ∃ q, a.inst? q = some i := by
  constructor
  · intro member
    obtain ⟨index, found⟩ := Array.mem_iff_getElem?.mp member
    refine ⟨a.origin + index, ?_⟩
    rw [inst?_eq, if_pos (Nat.le_add_right _ _), Nat.add_sub_cancel_left]
    exact found
  · rintro ⟨q, found⟩
    rw [inst?_eq] at found
    split at found
    next => exact Array.mem_of_getElem? found
    next => cases found

def KeepsTags (a : Assembler) : Prop := ∀ i ∈ a.code, i.KeepsTags

namespace KeepsTags

theorem place (keeps : a.KeepsTags) (free : ∀ r ∈ f.writes, r ∉ Gpr.reserved)
    (placed : a.place f = .ok (b, exits)) : b.KeepsTags := by
  obtain ⟨rfl, _⟩ := place_eq_ok placed
  intro i member
  rcases Array.mem_append.mp member with old | new
  · exact keeps i old
  · obtain ⟨j, listed, rfl⟩ := List.mem_map.mp (List.mem_toArray.mp new)
    intro r written
    rw [Inst.written?_shift] at written
    exact free r (List.mem_filterMap.mpr ⟨j, listed, written⟩)

theorem linkAll (keeps : a.KeepsTags) (linked : a.linkAll positions target = .ok b) :
    b.KeepsTags := by
  intro i member
  obtain ⟨q, found⟩ := mem_code_iff.mp member
  have here := (linkAll_eq_ok linked).2.2 q
  split at here
  next =>
    obtain ⟨cond, old, _, now⟩ := here
    cases found.symm.trans now
    intro r written
    cases written
  next => exact keeps i (mem_code_iff.mpr ⟨q, here ▸ found⟩)

end KeepsTags

end Assembler

def Options.withTags (o : Options) (tags : TagRegisters) : Options :=
  { o with tagRegisters := tags }

@[simp]
theorem Options.inlineTags_numberTag (o : Options) :
    o.numberTag.inlineTags = .imm Packed.numberTag := by
  unfold numberTag
  split
  next => rfl
  next => rfl

@[simp]
theorem Options.inlineTags_tagMask (o : Options) :
    o.tagMask.inlineTags = .imm Packed.tagMask := by
  unfold tagMask
  split
  next => rfl
  next => rfl

section Generation

variable (o : Options) (first second : TagRegisters)

namespace Guard

theorem inlineTags_code (g : Guard) :
    (g.code (o.withTags first)).map Inst.inlineTags =
      (g.code (o.withTags second)).map Inst.inlineTags := by
  cases g with
  | notInt32 regs | notNumber regs _ | notCell regs | isCell regs =>
    cases regs with
    | packed value => simp [code, test, Test.code, Inst.inlineTags, Cond.inlineTags]
    | split tag payload => rfl
  | notBoolean regs temp => cases regs <;> rfl
  | _ => rfl

theorem inlineTags_cellTest (regs : ValueRegs) (test : Guard) :
    (cellTest (o.withTags first) regs test).map Inst.inlineTags =
      (cellTest (o.withTags second) regs test).map Inst.inlineTags := by
  rw [cellTest, cellTest, Fragment.map_andThen Inst.inlineTags_uniform,
    Fragment.map_andThen Inst.inlineTags_uniform, inlineTags_code o first second,
    inlineTags_code o first second test]

theorem inlineTags_notTy (regs : ValueRegs) (temp : Gpr) (t : Ty) :
    (notTy (o.withTags first) regs temp t).map Inst.inlineTags =
      (notTy (o.withTags second) regs temp t).map Inst.inlineTags := by
  cases t with
  | bottom | top | other => rfl
  | boolean | int32 | number => exact inlineTags_code o first second _
  | string | object | objectWithShape shape => exact inlineTags_cellTest o first second regs _
  | objectOrOther | objectWithShapeOrOther shape =>
    rw [notTy, notTy, Fragment.map_skipping Inst.inlineTags_uniform,
      Fragment.map_skipping Inst.inlineTags_uniform, inlineTags_code o first second,
      inlineTags_cellTest o first second]

def temp? : Guard → Option Gpr
  | notNumber _ temp => some temp
  | isOther _ temp => some temp
  | notOther _ temp => some temp
  | notBoolean _ temp => some temp
  | _ => none

theorem writes_code (g : Guard) {r : Gpr} (written : r ∈ (g.code o).writes) :
    g.temp? = some r := by
  cases g with
  | notInt32 regs | notCell regs | isCell regs => cases regs <;> cases written
  | notNumber regs temp | isOther regs temp | notOther regs temp | notBoolean regs temp =>
    cases regs <;>
      simp_all [code, test, Test.code, Guard.other, Fragment.writes, Inst.written?, temp?]
  | _ => cases written

theorem writes_cellTest (regs : ValueRegs) {test : Guard} (none : test.temp? = none) :
    (cellTest o regs test).writes = [] := by
  rw [cellTest, Fragment.writes_andThen, List.append_eq_nil_iff]
  constructor
  · rw [List.eq_nil_iff_forall_not_mem]
    intro r written
    cases writes_code o (notCell regs) written
  · rw [List.eq_nil_iff_forall_not_mem]
    intro r written
    cases none.symm.trans (writes_code o test written)

theorem writes_notTy (regs : ValueRegs) (temp : Gpr) (t : Ty) {r : Gpr}
    (written : r ∈ (notTy o regs temp t).writes) : r = temp := by
  have through (g : Guard) (only : g.temp? = some temp) (written : r ∈ (g.code o).writes) :
      r = temp := Option.some.inj ((writes_code o g written).symm.trans only)
  cases t with
  | bottom | top => cases written
  | boolean => exact through (notBoolean regs temp) rfl written
  | other => exact through (notOther regs temp) rfl written
  | int32 => cases writes_code o (notInt32 regs) written
  | number => exact through (notNumber regs temp) rfl written
  | string | object | objectWithShape shape =>
    rw [notTy, writes_cellTest o regs rfl] at written
    cases written
  | objectOrOther | objectWithShapeOrOther shape =>
    rw [notTy, Fragment.writes_skipping, writes_cellTest o regs rfl, List.append_nil] at written
    exact through (isOther regs temp) rfl written

end Guard

namespace SelfCheck

def Evidence.inlineTags : Evidence → Evidence
  | any cond others => any cond.inlineTags (others.map Cond.inlineTags)
  | butNot cond excluded => butNot cond.inlineTags excluded.inlineTags

theorem Evidence.map_inlineTags_code (e : Evidence) :
    e.code.map Inst.inlineTags = e.inlineTags.code := by
  cases e with
  | any cond others => simp [code, inlineTags, Inst.inlineTags]
  | butNot cond excluded => rfl

theorem map_inlineTags_abortUnless (reason : AbortReason) (f : Fragment) :
    (abortUnless o reason f).map Inst.inlineTags =
      abortUnless o reason (f.map Inst.inlineTags) := by
  unfold abortUnless
  split
  next => rw [Fragment.map_skipping Inst.inlineTags_uniform]; rfl
  next => rfl

theorem map_inlineTags_testAll (tests : List (AbortReason × Evidence)) :
    (testAll o tests).map Inst.inlineTags =
      testAll o (tests.map (Prod.map id Evidence.inlineTags)) := by
  induction tests with
  | nil => rfl
  | cons test rest ih =>
    rw [testAll, Fragment.map_andThen Inst.inlineTags_uniform, map_inlineTags_abortUnless,
      Evidence.map_inlineTags_code, ih]
    rfl

theorem testAll_withTags (tags : TagRegisters) (tests : List (AbortReason × Evidence)) :
    testAll (o.withTags tags) tests = testAll o tests := by
  induction tests with
  | nil => rfl
  | cons test rest ih =>
    rw [testAll, testAll, ih]
    rfl

theorem inlineTags_tests {c : SelfCheck} (about : c ≠ .tagsInPlace) :
    (c.tests (o.withTags first)).map (Prod.map id Evidence.inlineTags) =
      (c.tests (o.withTags second)).map (Prod.map id Evidence.inlineTags) := by
  cases c with
  | tagsInPlace => exact absurd rfl about
  | boxedInt32 regs | boxedNumber regs | boxedDouble regs | cell regs =>
    cases regs with
    | packed value => simp [tests, Guard.test, Evidence.inlineTags, Cond.inlineTags]
    | split tag payload => rfl
  | _ => rfl

theorem inlineTags_code {c : SelfCheck} (about : c ≠ .tagsInPlace) :
    (c.code (o.withTags first)).map Inst.inlineTags =
      (c.code (o.withTags second)).map Inst.inlineTags := by
  rw [code, code, map_inlineTags_testAll, map_inlineTags_testAll, testAll_withTags,
    testAll_withTags, inlineTags_tests o first second about]

theorem writes_testAll (tests : List (AbortReason × Evidence)) : (testAll o tests).writes = [] := by
  induction tests with
  | nil => rfl
  | cons test rest ih =>
    have evidence : test.2.code.writes = [] := by
      cases test.2 with
      | any cond others => simp [Evidence.code, Fragment.writes, Inst.written?]
      | butNot cond excluded => rfl
    rw [testAll, Fragment.writes_andThen, ih, List.append_nil, abortUnless]
    split
    next =>
      rw [Fragment.writes_skipping, evidence]
      rfl
    next => rfl

end SelfCheck

namespace ExceptionCheck

variable {o : Options} {l : RuntimeLayout} {f : Fragment} {r : Gpr}

theorem writes_hook (written : r ∈ (hook l).writes) : r ∈ Gpr.allocatable := by
  have pointed {i : Inst} {slot : Word} {access : Inst} (quiet : access.written? = none)
      (member : i ∈ [.moveImm .t0 slot, access]) (wrote : i.written? = some r) :
      r ∈ Gpr.allocatable := by
    rcases List.mem_cons.mp member with rfl | member
    · cases wrote
      decide
    · rw [List.mem_singleton.mp member, quiet] at wrote
      cases wrote
  obtain ⟨i, member, wrote⟩ := List.mem_filterMap.mp written
  simp only [hook, List.mem_append] at member
  rcases member with (((spilled | spilled) | called) | restored) | restored
  · obtain ⟨_, _, rfl⟩ := List.mem_map.mp spilled
    cases wrote
  · obtain ⟨_, _, access⟩ := List.mem_flatMap.mp spilled
    exact pointed rfl access wrote
  · simp only [callFuzz, List.mem_cons, List.not_mem_nil, or_false] at called
    rcases called with rfl | rfl | rfl
    · cases wrote
      decide
    · cases wrote
      decide
    · cases wrote
  · obtain ⟨_, _, access⟩ := List.mem_flatMap.mp restored
    exact pointed rfl access wrote
  · obtain ⟨_, listed, rfl⟩ := List.mem_map.mp restored
    cases wrote
    exact List.fst_mem_of_mem_zipIdx listed

theorem writes_fuzz (emitted : fuzz o l = .ok f) (written : r ∈ f.writes) : r ∉ Gpr.reserved := by
  have free : ∀ r ∈ Gpr.allocatable, r ∉ Gpr.reserved := by decide
  unfold fuzz at emitted
  split at emitted
  next =>
    obtain ⟨_, _, same⟩ := bind_eq_ok_iff.mp emitted
    cases same
    exact free r (writes_hook written)
  next =>
    cases emitted
    cases written

theorem writes_checked {branches : Fragment} (none : branches.writes = [])
    (emitted : (do return (← fuzz o l).andThen branches) = .ok f) (written : r ∈ f.writes) :
    r ∉ Gpr.reserved := by
  obtain ⟨before, hooked, same⟩ := bind_eq_ok_iff.mp emitted
  cases same
  rw [Fragment.writes_andThen, none, List.append_nil] at written
  exact writes_fuzz hooked written

end ExceptionCheck

namespace Piece

/-- Pieces whose code writes no reserved register. The check of these registers is none of them,
since there is nothing to check in code that does without. -/
def LeavesTags : Piece → Prop
  | guard _ temp _ => temp ∉ Gpr.reserved
  | test g => ∀ temp, g.temp? = some temp → temp ∉ Gpr.reserved
  | check c => c ≠ .tagsInPlace
  | _ => True

theorem inlineTags_code {p : Piece} (leaves : p.LeavesTags) :
    (p.code (o.withTags first)).map (List.map Inst.inlineTags) =
      (p.code (o.withTags second)).map (List.map Inst.inlineTags) := by
  cases p with
  | guard regs temp t =>
    have same := Guard.inlineTags_notTy o first second regs temp t
    by_cases fits : regs.representation = o.representation
    · have code (tags : TagRegisters) : Guard.forTy (o.withTags tags) regs temp t =
          .ok (Guard.notTy (o.withTags tags) regs temp t) := if_pos fits
      rw [Piece.code, Piece.code, code, code, Except.map, Except.map, same]
    · have code (tags : TagRegisters) : Guard.forTy (o.withTags tags) regs temp t =
          .error .representationMismatch := if_neg fits
      rw [Piece.code, Piece.code, code, code]
  | test g => exact congrArg Except.ok (Guard.inlineTags_code o first second g)
  | check c => exact congrArg Except.ok (SelfCheck.inlineTags_code o first second leaves)
  | header s dest =>
    rw [code, code, Header.store, Header.store, SelfCheck.testAll_withTags,
      SelfCheck.testAll_withTags]
    rfl
  | _ => rfl

variable {o} in
theorem writes_code {p : Piece} {f : Fragment} {r : Gpr} (leaves : p.LeavesTags)
    (emitted : p.code o = .ok f) (written : r ∈ f.writes) : r ∉ Gpr.reserved := by
  cases p with
  | guard regs temp t =>
    rw [code, Guard.forTy] at emitted
    split at emitted
    next =>
      cases emitted
      rw [Guard.writes_notTy o regs temp t written]
      exact leaves
    next => cases emitted
  | test g =>
    cases emitted
    exact leaves r (Guard.writes_code o g written)
  | purify _ =>
    cases emitted
    cases written
  | check c =>
    cases emitted
    rw [SelfCheck.code, SelfCheck.writes_testAll] at written
    cases written
  | exceptionCheck layout pending reach =>
    cases reach with
    | near => exact ExceptionCheck.writes_checked rfl emitted written
    | far => exact ExceptionCheck.writes_checked rfl emitted written
  | fixedExceptionCheck layout => exact ExceptionCheck.writes_checked rfl emitted written
  | fuzzHook layout => exact ExceptionCheck.writes_fuzz emitted written
  | header s dest =>
    cases emitted
    rw [Header.store] at written
    split at written
    next =>
      rw [Fragment.writes_andThen, SelfCheck.writes_testAll] at written
      cases written
    next => cases written

end Piece

end Generation

inductive Emission where
  | piece (p : Piece)
  | code (f : Fragment)
  | link (positions : List Nat) (target : Nat)
  | linkHere (positions : List Nat)

namespace Emission

def emit (o : Options) (a : Assembler) : Emission → Except Fault (Assembler × List Nat)
  | piece p => Prod.swap <$> (p.emit o).run a
  | code f => a.place f
  | link positions target => (a.linkAll positions target).map (·, [])
  | linkHere positions => (a.linkHere positions).map (·, [])

def emitAll (o : Options) :
    List Emission → Assembler → Except Fault (Assembler × List (List Nat))
  | [], a => .ok (a, [])
  | e :: rest, a => do
      let (b, exits) ← e.emit o a
      let (c, later) ← emitAll o rest b
      return (c, exits :: later)

def LeavesTags : Emission → Prop
  | piece p => p.LeavesTags
  | code f => ∀ r ∈ f.writes, r ∉ Gpr.reserved
  | link _ _ => True
  | linkHere _ => True

variable {o : Options} {a b : Assembler} {e : Emission} {exits : List Nat} {steps : List Emission}

/-- The same fault, or code that is the same once the constants are inlined. -/
inductive Alike {α : Type} :
    Except Fault (Assembler × α) → Except Fault (Assembler × α) → Prop where
  | error (fault : Fault) : Alike (.error fault) (.error fault)
  | ok {a b : Assembler} (inlined : a.inlineTags = b.inlineTags) (result : α) :
      Alike (.ok (a, result)) (.ok (b, result))

namespace Alike

variable {α β : Type}

theorem of_map_eq {x y : Except Fault (Assembler × α)}
    (same : x.map (Prod.map Assembler.inlineTags id) = y.map (Prod.map Assembler.inlineTags id)) :
    Alike x y := by
  cases x with
  | error fault =>
    cases y with
    | error _ =>
      cases same
      exact .error fault
    | ok _ => cases same
  | ok x =>
    cases y with
    | error _ => cases same
    | ok y =>
      obtain ⟨a, result⟩ := x
      obtain ⟨b, _⟩ := y
      obtain ⟨inlined, rfl⟩ := Prod.mk.inj (Except.ok.inj same)
      exact .ok inlined result

theorem bind {x y : Except Fault (Assembler × α)}
    {f g : Assembler × α → Except Fault (Assembler × β)} (alike : Alike x y)
    (later : ∀ a b result, a.inlineTags = b.inlineTags → Alike (f (a, result)) (g (b, result))) :
    Alike (x >>= f) (y >>= g) := by
  cases alike with
  | error fault => exact .error fault
  | ok inlined result => exact later _ _ result inlined

theorem place (same : a.inlineTags = b.inlineTags) {f g : Fragment}
    (inlined : f.map Inst.inlineTags = g.map Inst.inlineTags) :
    Alike (a.place f) (b.place g) := by
  apply of_map_eq
  rw [← Assembler.place_inlineTags, ← Assembler.place_inlineTags, same, inlined]

theorem linked {x y : Except Fault Assembler}
    (same : x.map Assembler.inlineTags = y.map Assembler.inlineTags) :
    Alike (x.map (·, ([] : List Nat))) (y.map (·, [])) := by
  have carried (z : Except Fault Assembler) :
      (z.map (·, ([] : List Nat))).map (Prod.map Assembler.inlineTags id) =
        (z.map Assembler.inlineTags).map (·, []) := by
    cases z <;> rfl
  apply of_map_eq
  rw [carried, carried, same]

end Alike

theorem emit_alike (first second : TagRegisters) (leaves : e.LeavesTags)
    (same : a.inlineTags = b.inlineTags) :
    Alike (e.emit (o.withTags first) a) (e.emit (o.withTags second) b) := by
  cases e with
  | piece p =>
    have inlined := Piece.inlineTags_code o first second leaves
    rw [emit, emit, Piece.swap_run_emit, Piece.swap_run_emit]
    cases early : p.code (o.withTags first) with
    | error fault =>
      rw [early] at inlined
      cases late : p.code (o.withTags second) with
      | error _ =>
        rw [late] at inlined
        cases inlined
        exact .error fault
      | ok _ =>
        rw [late] at inlined
        cases inlined
    | ok f =>
      rw [early] at inlined
      cases late : p.code (o.withTags second) with
      | error _ =>
        rw [late] at inlined
        cases inlined
      | ok g =>
        rw [late] at inlined
        exact .place same (Except.ok.inj inlined)
  | code f => exact .place same rfl
  | link positions target =>
    apply Alike.linked
    rw [← Assembler.linkAll_inlineTags, same, Assembler.linkAll_inlineTags]
  | linkHere positions =>
    apply Alike.linked
    rw [← Assembler.linkHere_inlineTags, same, Assembler.linkHere_inlineTags]

theorem emitAll_alike (first second : TagRegisters) (leaves : ∀ e ∈ steps, e.LeavesTags)
    (same : a.inlineTags = b.inlineTags) :
    Alike (emitAll (o.withTags first) steps a) (emitAll (o.withTags second) steps b) := by
  induction steps generalizing a b with
  | nil => exact .ok same []
  | cons e rest ih =>
    rw [List.forall_mem_cons] at leaves
    rw [emitAll, emitAll]
    apply (emit_alike first second leaves.1 same).bind
    intro c d exits inlined
    apply (ih leaves.2 inlined).bind
    intro c d later inlined
    exact .ok inlined (exits :: later)

theorem emit_keepsTags (leaves : e.LeavesTags) (keeps : a.KeepsTags)
    (emitted : e.emit o a = .ok (b, exits)) : b.KeepsTags := by
  have linked (x : Except Fault Assembler) (done : x.map (·, []) = .ok (b, exits)) : x = .ok b := by
    cases x with
    | error fault => cases done
    | ok c =>
      cases done
      rfl
  cases e with
  | piece p =>
    rw [emit, Piece.swap_run_emit] at emitted
    obtain ⟨f, code, placed⟩ := bind_eq_ok_iff.mp emitted
    exact keeps.place (fun r written => Piece.writes_code leaves code written) placed
  | code f => exact keeps.place leaves emitted
  | link positions target => exact keeps.linkAll (linked _ emitted)
  | linkHere positions =>
    obtain ⟨target, _, all⟩ := bind_eq_ok_iff.mp (linked _ emitted)
    exact keeps.linkAll all

theorem emitAll_keepsTags {exits : List (List Nat)}
    (leaves : ∀ e ∈ steps, e.LeavesTags) (keeps : a.KeepsTags)
    (emitted : emitAll o steps a = .ok (b, exits)) : b.KeepsTags := by
  induction steps generalizing a exits with
  | nil =>
    cases emitted
    exact keeps
  | cons e rest ih =>
    rw [List.forall_mem_cons] at leaves
    obtain ⟨⟨c, _⟩, head, after⟩ := bind_eq_ok_iff.mp emitted
    obtain ⟨⟨_, _⟩, tail, final⟩ := bind_eq_ok_iff.mp after
    cases final
    exact ih leaves.2 (emit_keepsTags leaves.1 keeps head) tail

/-- Code that was generated without reserved registers does what it does with them, as long as they
hold the constants. -/
theorem runs_without_reserved_registers (o : Options) (origin : Nat) (steps : List Emission)
    (leaves : ∀ e ∈ steps, e.LeavesTags) :
    (∀ fault, emitAll (o.withTags .reserved) steps { origin } = .error fault ↔
      emitAll (o.withTags .absent) steps { origin } = .error fault) ∧
    ∀ a exits, emitAll (o.withTags .reserved) steps { origin } = .ok (a, exits) →
      ∃ b, emitAll (o.withTags .absent) steps { origin } = .ok (b, exits) ∧
        b.code.size = a.code.size ∧
        ∀ m : Machine, m.state.TagsInPlace → m.services.KeepTags →
          ∀ entry, m.run b.code entry = m.run a.code entry := by
  have fresh : ({ origin } : Assembler).KeepsTags := fun i member => absurd member (by simp)
  have alike := @emitAll_alike o { origin } { origin } steps .reserved .absent leaves rfl
  constructor
  · intro fault
    generalize emitAll (o.withTags .reserved) steps { origin } = x at alike
    generalize emitAll (o.withTags .absent) steps { origin } = y at alike
    cases alike with
    | error _ => rfl
    | ok inlined result => simp
  · intro a exits reserved
    rw [reserved] at alike
    generalize absent : emitAll (o.withTags .absent) steps { origin } = y at alike
    cases alike with
    | @ok _ b inlined _ =>
      have code : a.code.map Inst.inlineTags = b.code.map Inst.inlineTags :=
        congrArg Assembler.code inlined
      refine ⟨b, rfl, ?_, fun m tags services entry => ?_⟩
      · rw [← Array.size_map (f := Inst.inlineTags), ← code, Array.size_map]
      · have run : Run.start m.services b.code m.stepLimit entry m.state =
            Run.start m.services a.code m.stepLimit entry m.state := by
          rw [Run.start, Run.start,
            ← Run.resume_inlineTags (emitAll_keepsTags leaves fresh absent) services _ _ _ tags,
            ← Run.resume_inlineTags (emitAll_keepsTags leaves fresh reserved) services _ _ _ tags,
            code]
        simp only [Machine.run, run]

def guardedCall : List Emission :=
  [.piece (.guard (.packed .t0) .t1 (.objectWithShapeOrOther ⟨7#32⟩)),
    .code [.moveImm .callTarget 64#64, .call .callTarget],
    .piece (.check (.boxedInt32 (.packed .t0))),
    .piece (.test (.notInt32 (.packed .t0))),
    .linkHere [3, 4],
    .link [9] 5,
    .code [.ret]]

def hosting : Machine :=
  { Machine.withTags with
    state := State.zero.setTags.setGpr .t0 Packed.nullWord
    services := Services.none.installHost 64#64 fun s => s.setGpr .t0 Packed.numberTag }

theorem guarded_call_without_reserved_registers :
    ∃ a b exits, emitAll (Options.withTags {} .reserved) guardedCall { origin := 0 } =
        .ok (a, exits) ∧
      emitAll (Options.withTags {} .absent) guardedCall { origin := 0 } = .ok (b, exits) ∧
      a.code ≠ b.code ∧ (hosting.run a.code 0).1.ending = .ok .returned ∧
      hosting.run b.code 0 = hosting.run a.code 0 := by
  have leaves : ∀ e ∈ guardedCall, e.LeavesTags := by
    simp [guardedCall, LeavesTags, Piece.LeavesTags, Guard.temp?, Fragment.writes, Inst.written?,
      Gpr.reserved, Gpr.t1, Gpr.callTarget, Gpr.numberTag, Gpr.tagMask]
  have services : hosting.services.KeepTags := by
    constructor
    · intro address function s installed tags
      change (if address = 64#64 then _ else none) = some function at installed
      split at installed
      next =>
        cases installed
        exact tags.setGpr (by decide) _
      next => cases installed
    · intro handler call s installed
      cases installed
  have differ :
      (emitAll (Options.withTags {} .reserved) guardedCall { origin := 0 }).toOption.map
          (·.1.code) ≠
        (emitAll (Options.withTags {} .absent) guardedCall { origin := 0 }).toOption.map
          (·.1.code) := by
    decide
  have returned : (emitAll (Options.withTags {} .reserved) guardedCall { origin := 0 }).map
      (fun r => (hosting.run r.1.code 0).1.ending) = .ok (.ok .returned) := rfl
  obtain ⟨a, exits, reserved⟩ : ∃ a exits,
      emitAll (Options.withTags {} .reserved) guardedCall { origin := 0 } = .ok (a, exits) :=
    ⟨_, _, rfl⟩
  obtain ⟨b, absent, _, runs⟩ :=
    (runs_without_reserved_registers {} 0 guardedCall leaves).2 a exits reserved
  rw [reserved] at returned
  rw [reserved, absent] at differ
  refine ⟨a, b, exits, reserved, absent, fun same => ?_, Except.ok.inj returned,
    runs hosting ⟨by decide, by decide⟩ services 0⟩
  exact differ (congrArg some same)

end Emission

end InlineCache
