import InlineCache.Draft
import InlineCache.Emit.Piece
import InlineCache.Proofs.Placement

/-!
Code that is generated step by step. Steps *place* a fragment if, from every assembler, they do what
placing the fragment at once does: the code, the branches handed back and the faults are the same.
An instruction and a branch place themselves; steps that follow each other place the fragments one
after the other; and branches that are linked behind what follows them skip it. So every piece of
code, generated branch by branch at raw positions, comes out as its fragment, wherever it begins.
-/

namespace InlineCache

namespace Assembler

variable {a : Assembler} {position target : Nat}

theorem link_middle (origin : Nat) (before after : List Inst) (cond : Cond) (old : Option Nat)
    (target : Nat) :
    link ⟨origin, (before ++ .branch cond old :: after).toArray⟩ (origin + before.length) target =
      .ok ⟨origin, (before ++ .branch cond (some target) :: after).toArray⟩ := by
  have found : (⟨origin, (before ++ .branch cond old :: after).toArray⟩ : Assembler).inst?
      (origin + before.length) = some (.branch cond old) := by
    rw [inst?_eq]
    simp
  have index : (⟨origin, (before ++ .branch cond old :: after).toArray⟩ : Assembler).index?
      (origin + before.length) = some before.length := by
    simp [index?]
  unfold link
  rw [found, index]
  simp [Inst.retarget?]

theorem linkAll_middle (origin target : Nat) (before : List Inst) (f : Fragment)
    (after : List Inst) :
    linkAll ⟨origin, (before ++ (f ++ after)).toArray⟩
        (Fragment.exitsFrom (origin + before.length) f) target =
      .ok ⟨origin, (before ++ (Fragment.linkExits target f ++ after)).toArray⟩ := by
  induction f generalizing before with
  | nil => rfl
  | cons i rest ih =>
    have later (i : Inst) := ih (before ++ [i])
    simp only [List.length_append, List.length_singleton, List.append_assoc, List.singleton_append,
      ← Nat.add_assoc] at later
    cases i with
    | branch cond destination =>
      cases destination with
      | none =>
        rw [Fragment.exitsFrom, Inst.isUnlinked, if_pos rfl, linkAll, List.foldlM_cons,
          List.cons_append, link_middle]
        exact later (.branch cond (some target))
      | some destination => exact later (.branch cond (some destination))
    | _ => exact later _

theorem linkHere_exits (a : Assembler) (f g : Fragment) :
    linkHere { a with
          code := a.code ++ Fragment.shift a.next f ++ Fragment.shift (a.next + f.length) g }
        (Fragment.exitsFrom a.next f) =
      if a.next + f.length + g.length < wordLimit
      then .ok { a with code := a.code ++ Fragment.shift a.next (f.skipping g) }
      else .error .overflow := by
  have behind : next { a with
      code := a.code ++ Fragment.shift a.next f ++ Fragment.shift (a.next + f.length) g } =
      a.next + f.length + g.length := by
    simp [next, ← Array.length_toList, Nat.add_assoc]
  have linked := linkAll_middle a.origin (a.next + f.length + g.length) a.code.toList
    (Fragment.shift a.next f) (Fragment.shift (a.next + f.length) g)
  rw [Fragment.exitsFrom_shift, ← Fragment.shift_skipping] at linked
  have before : a.code ++ Fragment.shift a.next f ++ Fragment.shift (a.next + f.length) g =
      (a.code.toList ++
        (Fragment.shift a.next f ++ Fragment.shift (a.next + f.length) g)).toArray := by
    simp [← Array.toList_inj]
  have after : a.code ++ Fragment.shift a.next (f.skipping g) =
      (a.code.toList ++ Fragment.shift a.next (f.skipping g)).toArray := by
    simp [← Array.toList_inj]
  rw [linkHere, label, behind, fitWord, before, after]
  split
  next => exact linked
  next => rfl

/-- A test, a body, and the exits of the test linked behind the body. -/
theorem place_skipping (a : Assembler) {f : Fragment} (exit : f.any Inst.isUnlinked = true)
    (g : Fragment) :
    a.place (f.skipping g) = do
      let (b, jumps) ← a.place f
      let (c, exits) ← b.place g
      return (← c.linkHere jumps, exits) := by
  unfold place
  rw [Fragment.fits_skipping exit]
  by_cases test : f.fits a.next = true
  · simp only [test, if_pos, Bool.true_and, bind, Except.bind, next_append, Fragment.length_shift]
    by_cases body : g.fits (a.next + f.length) = true
    · simp only [body, if_pos, Bool.true_and, linkHere_exits, decide_eq_true_eq,
        Fragment.exitsFrom_skipping]
      split
      next => rfl
      next => rfl
    · simp [body]
  · simp [test, bind, Except.bind]

end Assembler

namespace Emit

variable {e e' : Emit (List Nat)} {f g : Fragment}

theorem run_insts (f : Fragment) (a : Assembler) :
    (insts f).run a = .ok ((), { a with code := a.code ++ f }) := by
  induction f generalizing a with
  | nil => rfl
  | cons i rest ih =>
    calc
      (insts (i :: rest)).run a = (insts rest).run { a with code := a.code.push i } := rfl
      _ = .ok ((), { a with code := a.code.push i ++ rest }) := ih _
      _ = .ok ((), { a with code := a.code ++ (i :: rest) }) := by simp

theorem run_branch (cond : Cond) (a : Assembler) :
    (branch cond).run a =
      if a.next < wordLimit
      then .ok (a.next, { a with code := a.code.push (.branch cond none) })
      else .error .overflow := by
  have steps : (branch cond).run a = (do
      let (position, b) ← (liftM a.label : Emit Nat).run a
      return (position, { b with code := b.code.push (.branch cond none) })) := rfl
  rw [steps, Assembler.label, fitWord]
  split
  next => rfl
  next => rfl

theorem run_linkHere (jumps : List Nat) (a : Assembler) :
    (linkHere jumps).run a = do return ((), ← a.linkHere jumps) := by
  have steps : (linkHere jumps).run a = (do
      let (b, _) ← (liftM (a.linkHere jumps) : Emit Assembler).run a
      return ((), b)) := rfl
  rw [steps]
  cases a.linkHere jumps with
  | error fault => rfl
  | ok linked => rfl

/-- The steps do what placing the fragment does. -/
def Places (e : Emit (List Nat)) (f : Fragment) : Prop :=
  ∀ a : Assembler, e.run a = Prod.swap <$> a.place f

namespace Places

theorem nothing : Places (pure []) [] := by
  intro a
  rfl

theorem insts (straight : f.Straight) :
    Places (do
      Emit.insts f
      return []) f := by
  intro a
  rw [StateT.run_bind, run_insts, straight.place_eq]
  rfl

theorem branch (cond : Cond) : Places (do return [← Emit.branch cond]) [.branch cond none] := by
  intro a
  have fits : Fragment.fits a.next [.branch cond none] = decide (a.next < wordLimit) := by
    simp [Fragment.fits, Fragment.fitsFrom]
  rw [StateT.run_bind, run_branch, Assembler.place, fits]
  by_cases low : a.next < wordLimit
  · rw [if_pos low, if_pos (decide_eq_true low)]
    rfl
  · rw [if_neg low, if_neg (by simp [low])]
    rfl

theorem andThen (first : Places e f) (second : Places e' g) :
    Places (do
      let early ← e
      let late ← e'
      return early ++ late) (f.andThen g) := by
  intro a
  rw [StateT.run_bind, first a, Assembler.place_andThen]
  cases a.place f with
  | error fault => rfl
  | ok placed =>
    change (do
      let (late, c) ← e'.run placed.1
      return (placed.2 ++ late, c)) = Prod.swap <$> (do
      let (c, late) ← placed.1.place g
      return (c, placed.2 ++ late))
    rw [second placed.1]
    cases placed.1.place g with
    | error fault => rfl
    | ok whole => rfl

theorem skipping (test : Places e f) (exit : f.any Inst.isUnlinked = true) (body : Places e' g) :
    Places (do
      let jumps ← e
      let exits ← e'
      Emit.linkHere jumps
      return exits) (f.skipping g) := by
  intro a
  rw [StateT.run_bind, test a, Assembler.place_skipping a exit]
  cases a.place f with
  | error fault => rfl
  | ok placed =>
    change (do
      let (exits, c) ← e'.run placed.1
      let (_, c) ← (Emit.linkHere placed.2).run c
      return (exits, c)) = Prod.swap <$> (do
      let (c, exits) ← placed.1.place g
      return (← c.linkHere placed.2, exits))
    rw [body placed.1]
    cases placed.1.place g with
    | error fault => rfl
    | ok whole =>
      change (do
        let (_, c) ← (Emit.linkHere placed.2).run whole.1
        return (whole.2, c)) = Prod.swap <$> (do
        return (← whole.1.linkHere placed.2, whole.2))
      rw [run_linkHere]
      cases whole.1.linkHere placed.2 with
      | error fault => rfl
      | ok linked => rfl

end Places

end Emit

open Emit (Places)

namespace Guard

variable (o : Options)

theorem emit_places (g : Guard) : Places (do return [← g.emit o]) (g.code o) := by
  have parts : g.code o = (g.test o).setup.andThen [.branch (g.test o).cond none] := rfl
  have steps := (Places.insts (.of_all (g.test o).straight)).andThen (.branch (g.test o).cond)
  rw [parts]
  simpa [emit, Test.emit] using steps

theorem any_isUnlinked_code (g : Guard) : (g.code o).any Inst.isUnlinked = true := by
  simp [code, Test.code, Inst.isUnlinked]

theorem emitCellTest_places (regs : ValueRegs) (test : Guard) :
    Places (emitCellTest o regs test) (cellTest o regs test) := by
  have steps := ((notCell regs).emit_places o).andThen (test.emit_places o)
  rw [cellTest]
  simpa [emitCellTest] using steps

theorem emitOrOther_places (regs : ValueRegs) (temp : Gpr) (test : Guard) :
    Places (emitOrOther o regs temp test)
      (((isOther regs temp).code o).skipping (cellTest o regs test)) := by
  have steps := ((isOther regs temp).emit_places o).skipping (any_isUnlinked_code o _)
    (emitCellTest_places o regs test)
  simpa [emitOrOther] using steps

theorem emitTy_places {regs : ValueRegs} (temp : Gpr) (t : Ty)
    (matching : regs.representation = o.representation) :
    Places (emitTy o regs temp t) (notTy o regs temp t) := by
  unfold emitTy
  rw [if_neg (not_not_intro matching)]
  cases t with
  | bottom => exact .branch .always
  | top => exact .nothing
  | string => exact emitCellTest_places o regs _
  | object => exact emitCellTest_places o regs _
  | objectWithShape s => exact emitCellTest_places o regs _
  | objectOrOther => exact emitOrOther_places o regs temp _
  | objectWithShapeOrOther s => exact emitOrOther_places o regs temp _
  | _ => exact emit_places o _

theorem emitPurifyNaN_places (f : Fpr) :
    Places (do
      emitPurifyNaN f
      return []) (purifyNaN f) := by
  have steps := (Places.branch (.double .equal f f)).skipping rfl
    (Places.insts (.of_all rfl : Fragment.Straight [.moveDouble f pureNaN]))
  rw [purifyNaN]
  simpa [emitPurifyNaN, Emit.insts] using steps

end Guard

namespace SelfCheck

variable (o : Options)

theorem shift_branches (distance : Nat) (conds : List Cond) :
    Fragment.shift distance (conds.map fun cond => .branch cond none) =
      conds.map fun cond => .branch cond none := by
  rw [Fragment.shift, List.map_map]
  rfl

theorem mapM_branch_places (conds : List Cond) :
    Places (conds.mapM Emit.branch) (conds.map fun cond => .branch cond none) := by
  induction conds with
  | nil => exact .nothing
  | cons cond others ih =>
    have steps := (Places.branch cond).andThen ih
    rw [Fragment.andThen, shift_branches] at steps
    simpa using steps

theorem Evidence.emit_places (e : Evidence) : Places e.emit e.code := by
  cases e with
  | any cond others => exact mapM_branch_places (cond :: others)
  | butNot cond excluded =>
    have parts : (butNot cond excluded).code =
        Fragment.skipping [.branch excluded none] [.branch cond none] := rfl
    have steps := (Places.branch excluded).skipping rfl (.branch cond)
    rw [parts]
    simpa [emit] using steps

theorem Evidence.any_isUnlinked_code (e : Evidence) : e.code.any Inst.isUnlinked = true := by
  cases e with
  | any cond others => rfl
  | butNot cond excluded => rfl

theorem emitUnless_places (reason : AbortReason) (e : Evidence) :
    Places (do
      emitUnless o reason e.emit
      return []) (abortUnless o reason e.code) := by
  unfold emitUnless abortUnless
  split
  next =>
    have steps := e.emit_places.skipping e.any_isUnlinked_code
      (Places.insts (.of_all rfl : Fragment.Straight [.abort reason]))
    simpa [Emit.insts] using steps
  next => exact .nothing

theorem emitTests_places (tests : List (AbortReason × Evidence)) :
    Places (do
      emitTests o tests
      return []) (testAll o tests) := by
  induction tests with
  | nil => exact .nothing
  | cons first rest ih =>
    have steps := (emitUnless_places o first.1 first.2).andThen ih
    rw [testAll]
    simpa [emitTests] using steps

end SelfCheck

theorem Header.emit_places (o : Options) (s : Shape) (dest : Gpr) :
    Places (do
      Header.emit o s dest
      return []) (Header.store o s dest) := by
  unfold emit store
  split
  next =>
    have steps := (Places.insts (.of_all rfl : Fragment.Straight
      [.store64Imm s.header (.base dest Cell.shapeOffset)])).andThen
        (SelfCheck.emitTests_places o (tests s dest))
    simpa [Emit.insts] using steps
  next => exact .insts (.of_all rfl)

namespace ExceptionCheck

section Slots

variable {ρ : Type} {l : RuntimeLayout} {slot : Nat → Except Fault Word} {first : Nat}

theorem run_emitSlots_cons (numbered : ∀ i, slot i = l.spillSlot (first + i))
    (access : ρ → Word → Fragment) (r : ρ) (rest : List ρ) (k : Nat) (a : Assembler) :
    (emitSlots slot access k (r :: rest)).run a =
      if l.spillBuffer.toNat + 8 * (first + k) < wordLimit
      then (emitSlots slot access (k + 1) rest).run
        { a with code := a.code ++ access r (l.slotAddress (first + k)) }
      else .error .overflow := by
  have steps : (emitSlots slot access k (r :: rest)).run a = (do
      let (address, b) ← (liftM (slot k) : Emit Word).run a
      let (_, c) ← (Emit.insts (access r address)).run b
      (emitSlots slot access (k + 1) rest).run c) := rfl
  rw [steps, numbered, RuntimeLayout.spillSlot]
  split
  next =>
    change (do
      let (_, c) ← (Emit.insts (access r (l.slotAddress (first + k)))).run a
      (emitSlots slot access (k + 1) rest).run c) = _
    rw [Emit.run_insts]
    rfl
  next => rfl

def slots (l : RuntimeLayout) (access : ρ → Word → Fragment) (first : Nat) (regs : List ρ) :
    Fragment :=
  (regs.zipIdx first).flatMap fun (r, i) => access r (l.slotAddress i)

/-- The slots are all accessed unless the last of them lies too high. -/
theorem run_emitSlots (numbered : ∀ i, slot i = l.spillSlot (first + i))
    (access : ρ → Word → Fragment) {regs : List ρ} (some : regs ≠ []) (k : Nat) (a : Assembler) :
    (emitSlots slot access k regs).run a =
      if l.spillBuffer.toNat + 8 * (first + k + (regs.length - 1)) < wordLimit
      then .ok ((), { a with code := a.code ++ slots l access (first + k) regs })
      else .error .overflow := by
  unfold slots
  induction regs generalizing k a with
  | nil => exact absurd rfl some
  | cons r rest ih =>
    rw [run_emitSlots_cons numbered]
    cases rest with
    | nil =>
      simp only [List.zipIdx_cons, List.zipIdx_nil, List.flatMap_cons, List.flatMap_nil,
        List.append_nil, List.length_singleton, Nat.sub_self, Nat.add_zero]
      rfl
    | cons next rest =>
      have number : first + (k + 1) + ((next :: rest).length - 1) =
          first + k + ((r :: next :: rest).length - 1) := by
        simp only [List.length_cons, Nat.add_sub_cancel]
        omega
      rw [ih (List.cons_ne_nil next rest), number]
      by_cases room : l.spillBuffer.toNat +
          8 * (first + k + ((r :: next :: rest).length - 1)) < wordLimit
      · rw [if_pos room, if_pos (by omega), if_pos room]
        simp [← Nat.add_assoc, ← Array.toList_inj]
      · rw [if_neg room, if_neg room, ite_self]

theorem emitSlots_places (numbered : ∀ i, slot i = l.spillSlot (first + i))
    (access : ρ → Word → Fragment) {regs : List ρ} (some : regs ≠ [])
    (room : l.spillBuffer.toNat + 8 * (first + (regs.length - 1)) < wordLimit)
    (straight : (slots l access first regs).Straight) :
    Places (do
      emitSlots slot access 0 regs
      return []) (slots l access first regs) := by
  intro a
  rw [StateT.run_bind, run_emitSlots numbered access some, Nat.add_zero, if_pos room,
    straight.place_eq]
  rfl

end Slots

section Fuzz

variable {o : Options} {l : RuntimeLayout} {f : Fragment}

theorem gprSlot_eq (l : RuntimeLayout) (i : Nat) : l.gprSlot i = l.spillSlot (0 + i) := by
  rw [RuntimeLayout.gprSlot, Nat.zero_add]

theorem fprSlot_eq (l : RuntimeLayout) (i : Nat) :
    l.fprSlot i = l.spillSlot (Gpr.allocatable.length + i) := rfl

theorem emitFuzz_places (emitted : fuzz o l = .ok f) :
    Places (do
      emitFuzz o l
      return []) f := by
  unfold fuzz at emitted
  unfold emitFuzz
  split at emitted
  next enabled =>
    obtain ⟨_, slot, same⟩ := bind_eq_ok_iff.mp emitted
    cases same
    rw [RuntimeLayout.fprSlot, RuntimeLayout.spillSlot] at slot
    split at slot
    next room =>
      have low : l.spillBuffer.toNat + 8 * (0 + (Gpr.allocatable.length - 1)) < wordLimit := by
        omega
      have gprs access := emitSlots_places (gprSlot_eq l) access (by decide) low
      have fprs access := emitSlots_places (fprSlot_eq l) access (by decide) room
      have calls : (callFuzz l).Straight := .of_all rfl
      have steps : Places _ (hook l) :=
        (gprs (fun r slot => [.store64 r (.absolute slot)]) (.of_all rfl)).andThen
        ((fprs (fun r slot => [.moveImm .t0 slot, .storeDouble r (.base .t0 0#32)])
          (.of_all rfl)).andThen
        ((Places.insts calls).andThen
        ((fprs (fun r slot => [.moveImm .t0 slot, .loadDouble r (.base .t0 0#32)])
          (.of_all rfl)).andThen
        (gprs (fun r slot => [.load64 r (.absolute slot)]) (.of_all rfl)))))
      rw [if_pos enabled]
      simpa using steps
    next => cases slot
  next disabled =>
    cases emitted
    rw [if_neg disabled]
    exact .nothing

theorem run_emitFuzz_of_error {fault : Fault} (failed : fuzz o l = .error fault) (a : Assembler) :
    (emitFuzz o l).run a = .error fault := by
  unfold fuzz at failed
  unfold emitFuzz
  split at failed
  next enabled =>
    rw [RuntimeLayout.fprSlot, RuntimeLayout.spillSlot] at failed
    split at failed
    next room => cases failed
    next high =>
      cases failed
      rw [if_pos enabled, StateT.run_bind, run_emitSlots (gprSlot_eq l) _ (by decide)]
      split
      next =>
        change ((emitSlots l.fprSlot _ 0 Fpr.allocatable).run _ >>= _) = _
        rw [run_emitSlots (fprSlot_eq l) _ (by decide), Nat.add_zero, if_neg high]
        rfl
      next => rfl
  next => cases failed

end Fuzz

theorem checked_places (o : Options) (l : RuntimeLayout) {e : Emit (List Nat)} {f : Fragment}
    (branches : Places e f) (a : Assembler) :
    (do
      emitFuzz o l
      e : Emit (List Nat)).run a =
      fuzz o l >>= fun before => Prod.swap <$> a.place (before.andThen f) := by
  cases hooked : fuzz o l with
  | error fault =>
    rw [StateT.run_bind, run_emitFuzz_of_error hooked]
    rfl
  | ok before =>
    have steps := (emitFuzz_places hooked).andThen branches a
    change _ = Prod.swap <$> a.place (before.andThen f)
    simpa using steps

theorem emit_places (o : Options) (l : RuntimeLayout) (pending : Pending) (reach : Reach)
    (a : Assembler) :
    (do return [← emit o l pending reach] : Emit (List Nat)).run a =
      code o l pending reach >>= fun f => Prod.swap <$> a.place f := by
  cases reach with
  | near =>
    have steps := checked_places o l (.branch (cond o l pending)) a
    simpa [emit, code, branch] using steps
  | far =>
    have steps := checked_places o l
      ((Places.branch (cond o l pending.negate)).skipping rfl (.branch .alwaysPatchable)) a
    simpa [emit, code, branch] using steps

theorem emitFixed_places (o : Options) (l : RuntimeLayout) (a : Assembler) :
    (do return [← emitFixed o l] : Emit (List Nat)).run a =
      fixed o l >>= fun f => Prod.swap <$> a.place f := by
  have steps := checked_places o l (.branch (cond o l .some)) a
  simpa [emitFixed, fixed, branch] using steps

end ExceptionCheck

/-- Wherever it begins, generating a piece step by step does what placing its fragment does. -/
theorem Piece.run_emit (o : Options) (p : Piece) (a : Assembler) :
    (p.emit o).run a = p.code o >>= fun f => Prod.swap <$> a.place f := by
  cases p with
  | guard regs temp t =>
    rw [emit, code, Guard.forTy]
    split
    next matching => exact Guard.emitTy_places o temp t matching a
    next mixed =>
      unfold Guard.emitTy
      rw [if_pos mixed]
      rfl
  | test g => exact g.emit_places o a
  | purify f => exact Guard.emitPurifyNaN_places f a
  | check c => exact SelfCheck.emitTests_places o (c.tests o) a
  | exceptionCheck layout pending reach => exact ExceptionCheck.emit_places o layout pending reach a
  | fixedExceptionCheck layout => exact ExceptionCheck.emitFixed_places o layout a
  | fuzzHook layout =>
    rw [emit, code]
    cases hooked : ExceptionCheck.fuzz o layout with
    | error fault =>
      rw [StateT.run_bind, ExceptionCheck.run_emitFuzz_of_error hooked]
      rfl
    | ok f => exact ExceptionCheck.emitFuzz_places hooked a
  | header s dest => exact Header.emit_places o s dest a

theorem Piece.swap_run_emit (o : Options) (p : Piece) (a : Assembler) :
    Prod.swap <$> (p.emit o).run a = p.code o >>= a.place := by
  rw [run_emit]
  cases p.code o with
  | error fault => rfl
  | ok f =>
    change Prod.swap <$> Prod.swap <$> a.place f = a.place f
    cases a.place f with
    | error fault => rfl
    | ok placed => rfl

theorem Piece.run_emit_eq_ok_iff {o : Options} {p : Piece} {a b : Assembler} {exits : List Nat} :
    (p.emit o).run a = .ok (exits, b) ↔
      ∃ f, p.code o = .ok f ∧ a.place f = .ok (b, exits) := by
  rw [← bind_eq_ok_iff, ← swap_run_emit]
  cases (p.emit o).run a with
  | error fault => simp [Functor.map, Except.map]
  | ok answer => simp [Functor.map, Except.map, Prod.ext_iff, and_comm]

namespace Draft

def unpatched : Fragment :=
  .branch .alwaysPatchable none :: List.replicate (Patch.length - 1) .nop

theorem place_unpatched {a : Assembler} (low : a.next < wordLimit) :
    a.place unpatched = .ok ({ a with code := a.code ++ unpatched }, [a.next]) := by
  have fits : Fragment.fits a.next unpatched = true := by
    simp [unpatched, Fragment.fits, Fragment.fitsFrom, low, List.replicate, Patch.length]
  rw [Assembler.place, if_pos fits]
  rfl

theorem run_emitRegion (a : Assembler) :
    emitRegion.run a =
      if a.next + Patch.length < wordLimit
      then .ok (⟨a.next, ⟨a.next, Patch.length⟩, a.next, a.next + Patch.length⟩,
        { a with code := a.code ++ unpatched })
      else .error .overflow := by
  have steps : emitRegion.run a = (do
      let start ← a.label
      let (placeholder, b) ← (Emit.branch .alwaysPatchable).run a
      let stop ← fitWord (start + Patch.length)
      let (_, c) ← (Emit.insts (List.replicate (stop - b.next) .nop)).run b
      let done ← c.label
      return (⟨start, ⟨start, Patch.length⟩, placeholder, done⟩, c)) := by
    simp [emitRegion]
  have jump : ({ a with code := a.code.push (.branch .alwaysPatchable none) } : Assembler).next =
      a.next + 1 := by
    simp [Assembler.next, Nat.add_assoc]
  have padded : a.code.push (.branch .alwaysPatchable none) ++
      List.replicate (Patch.length - 1) Inst.nop = a.code ++ unpatched := by
    simp [unpatched]
  rw [steps, Emit.run_branch]
  by_cases room : a.next + Patch.length < wordLimit
  · have low : a.next < wordLimit := by omega
    have count : a.next + Patch.length - (a.next + 1) = Patch.length - 1 := by omega
    have behind : ({ a with code := a.code ++ unpatched } : Assembler).next =
        a.next + Patch.length := Assembler.next_append a unpatched
    simp only [Assembler.label, fitWord, low, room, if_pos, bind, Except.bind, jump, count,
      Emit.run_insts, padded, behind]
    rfl
  · rw [if_neg room]
    by_cases low : a.next < wordLimit
    · simp [Assembler.label, fitWord, low, room, bind, Except.bind]
    · simp [Assembler.label, fitWord, low, bind, Except.bind]

theorem run_emitReturn (call : SlowCall) (p : Patch) (a : Assembler) :
    (emitReturn call p).run a = (do
      let b ← a.linkHere [p.placeholder]
      let (c, _) ← b.place [.callSlowPath call, .branch .always none]
      return (b.next + 1, c)) := by
  rw [emitReturn, StateT.run_bind, Emit.run_linkHere]
  cases a.linkHere [p.placeholder] with
  | error fault => rfl
  | ok b =>
    have called : ({ b with code := b.code.push (.callSlowPath call) } : Assembler).next =
        b.next + 1 := by
      simp [Assembler.next, Nat.add_assoc]
    change (Emit.branch .always).run { b with code := b.code.push (.callSlowPath call) } = (do
      let (c, _) ← b.place [.callSlowPath call, .branch .always none]
      return (b.next + 1, c))
    rw [Emit.run_branch, called, Assembler.place]
    by_cases low : b.next + 1 < wordLimit
    · rw [if_pos low, if_pos (by simp [Fragment.fits, Fragment.fitsFrom, low])]
      rfl
    · rw [if_neg low, if_neg (by simp [Fragment.fits, Fragment.fitsFrom, low])]
      rfl

end Draft

end InlineCache
