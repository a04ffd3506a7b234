import InlineCache.Proofs.ForwardBranches
import InlineCache.Proofs.FuzzHook

/-!
What exception checks decide. A near check branches on the exception slot; a far check branches on
the opposite past a jump. Both leave in the same cases and in the same state, which is the state
that the fuzz hook ends in, or the state before the check if there is no hook.
-/

namespace InlineCache

namespace Fragment

theorem andThen_assoc (f g h : Fragment) : (f.andThen g).andThen h = f.andThen (g.andThen h) := by
  calc
    (f.andThen g).andThen h = (f ++ shift f.length g) ++ shift (f.length + g.length) h := by
      rw [andThen, length_andThen, andThen]
    _ = f ++ shift f.length (g.andThen h) := by
      rw [shift_andThen, List.append_assoc]

theorem calling_andThen (target : Gpr) (f g h : Fragment) :
    (calling target f g).andThen h = calling target f (g.andThen h) := by
  rw [calling, andThen_assoc, andThen_assoc, calling]

theorem Straight.forward {f : Fragment} {stop : Nat} (straight : f.Straight) : f.Forward stop := by
  refine .of_no_target fun i member => ?_
  have plain := straight i member
  cases i with
  | branch cond target => cases plain
  | _ => rfl

theorem standsAt_of_link {a placed : Assembler} {f : Fragment} {exit : Nat} (fresh : a.origin = 0)
    (placing : a.place f = .ok (placed, [exit])) (target : Nat) :
    ∃ linked, placed.link exit target = .ok linked ∧
      ∀ rest : Array Inst, f.StandsAt (linked.code ++ rest) a.next target := by
  obtain ⟨cond, found⟩ := Assembler.inst?_of_mem_exits placing List.mem_cons_self
  obtain ⟨linked, linking⟩ := @Assembler.link_succeeds placed exit target cond none found
  have all : placed.linkAll [exit] target = .ok linked := by
    rw [Assembler.linkAll, List.foldlM_cons, bind_eq_ok_iff]
    exact ⟨linked, linking, rfl⟩
  exact ⟨linked, linking, standsAt_of_place fresh placing all⟩

end Fragment

/-- Whether the exception slot holds anything, as far as the representation looks at it. -/
def State.exceptionPending (s : State) (o : Options) (l : RuntimeLayout) : Bool :=
  match o.representation with
  | .packed => s.memory.read64 l.exceptionSlot != 0#64
  | .split => s.memory.read32 l.exceptionSlot != 0#32

def Pending.leaves : Pending → Bool → Bool
  | some, present => present
  | none, present => !present

theorem Pending.leaves_negate (pending : Pending) (present : Bool) :
    pending.negate.leaves present = !pending.leaves present := by
  cases pending with
  | some => rfl
  | none => exact (Bool.not_not present).symm

theorem Pending.leaves_iff (pending : Pending) (present : Bool) :
    pending.leaves present = true ↔ (pending = .some ↔ present = true) := by
  cases pending with
  | some => simp [leaves]
  | none => simp [leaves]

namespace ExceptionCheck

def test (o : Options) (l : RuntimeLayout) (pending : Pending) : Reach → Fragment
  | .near => branch o l pending
  | .far => (branch o l pending.negate).skipping [.branch .alwaysPatchable none]

section Emission

variable {o : Options} {l : RuntimeLayout} {pending : Pending} {reach : Reach} {check : Fragment}

theorem code_eq_ok_iff :
    code o l pending reach = .ok check ↔
      (o.exceptionFuzzing = true → l.Addressable) ∧
        check = (hooked o l).andThen (test o l pending reach) := by
  have emitted : code o l pending reach =
      (fuzz o l >>= fun before => .ok (before.andThen (test o l pending reach))) := by
    cases reach <;> rfl
  rw [emitted, bind_eq_ok_iff]
  constructor
  · rintro ⟨before, hooking, same⟩
    obtain ⟨addressable, rfl⟩ := fuzz_eq_ok_iff.mp hooking
    exact ⟨addressable, (Except.ok.inj same).symm⟩
  · rintro ⟨addressable, rfl⟩
    exact ⟨hooked o l, fuzz_eq_ok_iff.mpr ⟨addressable, rfl⟩, rfl⟩

theorem fixed_eq (o : Options) (l : RuntimeLayout) : fixed o l = code o l .some .near := rfl

theorem hooked_straight (o : Options) (l : RuntimeLayout) : (hooked o l).Straight := by
  unfold hooked
  split
  next => exact hook_straight l
  next => simp [Fragment.Straight]

theorem test_forward (o : Options) (l : RuntimeLayout) (pending : Pending) (reach : Reach) :
    (test o l pending reach).Forward (test o l pending reach).length := by
  have single (pending : Pending) : (branch o l pending).Forward (branch o l pending).length :=
    .of_no_target (by simp [branch, Inst.target?])
  cases reach with
  | near => exact single pending
  | far => exact (single pending.negate).skipping (.of_no_target (by simp [Inst.target?]))

theorem exitsFrom_test (o : Options) (l : RuntimeLayout) (pending : Pending) (reach : Reach)
    (base : Nat) : ∃ exit, Fragment.exitsFrom base (test o l pending reach) = [exit] := by
  cases reach with
  | near => exact ⟨base, rfl⟩
  | far => exact ⟨base + 1, rfl⟩

theorem check_forward (o : Options) (l : RuntimeLayout) (pending : Pending) (reach : Reach) :
    ((hooked o l).andThen (test o l pending reach)).Forward
      ((hooked o l).andThen (test o l pending reach)).length := by
  rw [Fragment.length_andThen]
  exact (hooked_straight o l).forward.andThen (test_forward o l pending reach)

theorem exitsFrom_check (o : Options) (l : RuntimeLayout) (pending : Pending) (reach : Reach)
    (base : Nat) :
    ∃ exit, Fragment.exitsFrom base ((hooked o l).andThen (test o l pending reach)) = [exit] := by
  rw [Fragment.andThen, Fragment.exitsFrom_append, (hooked_straight o l).closed.exitsFrom_eq_nil,
    Fragment.exitsFrom_shift, List.nil_append]
  exact exitsFrom_test o l pending reach _

end Emission

section Execution

variable (v : Services) (s : State) (o : Options) (l : RuntimeLayout) (pending : Pending)

theorem holds_mask64 (test : MaskTest) (x : Operand) :
    s.holds (.mask64 test x (.imm (BitVec.allOnes 64))) = test.holds (s.operand64 x) := by
  change test.holds (s.operand64 x &&& BitVec.allOnes 64) = _
  rw [BitVec.and_allOnes]

theorem holds_mask32 (test : MaskTest) (x : Operand) :
    s.holds (.mask32 test x (.imm ((BitVec.allOnes 32).setWidth 64))) =
      test.holds (s.operand32 x) := by
  change test.holds (s.operand32 x &&& BitVec.allOnes 32) = _
  rw [BitVec.and_allOnes]

theorem holds_cond : s.holds (cond o l pending) = pending.leaves (s.exceptionPending o l) := by
  unfold cond State.exceptionPending
  cases o.representation with
  | packed =>
    cases pending with
    | some => exact holds_mask64 s .nonZero _
    | none => exact (holds_mask64 s .zero _).trans (Bool.not_not _).symm
  | split =>
    cases pending with
    | some => exact holds_mask32 s .nonZero _
    | none => exact (holds_mask32 s .zero _).trans (Bool.not_not _).symm

theorem branch_behaves :
    (branch o l pending).Behaves v s (pending.leaves (s.exceptionPending o l)) s :=
  .branch (holds_cond s o l pending)

theorem test_behaves (reach : Reach) :
    (test o l pending reach).Behaves v s (pending.leaves (s.exceptionPending o l)) s := by
  cases reach with
  | near => exact branch_behaves v s o l pending
  | far =>
    have skips := branch_behaves v s o l pending.negate
    rw [Pending.leaves_negate] at skips
    cases verdict : pending.leaves (s.exceptionPending o l) with
    | true =>
      rw [verdict] at skips
      exact skips.skipping (.branch rfl)
    | false =>
      rw [verdict] at skips
      exact skips.skipping_of_leaves

/-- The run of a check from `pc` to `last`, with a call of the fuzz operation in the state `seen` if
there is a hook, and without a call if there is none. -/
def Runs (code : Array Inst) (pc : Nat) (seen : State) (trace : List Nat) (last : Nat)
    (final : State) : Prop :=
  if o.exceptionFuzzing then Run.CallsOnce v code pc s l.fuzzEntry seen trace last final
  else Run.Passes v code pc s trace last final

variable {v o l}

theorem hooked_runs {host : State → State}
    (installed : o.exceptionFuzzing = true → v.host? l.fuzzEntry = some host) :
    ∃ seen final : State, (o.exceptionFuzzing = false → final = s) ∧
      (o.exceptionFuzzing = true → final.memory = (host seen).memory) ∧
      ∀ {f : Fragment} {leaves : Bool} {code : Array Inst} {start exit : Nat},
        f.Behaves v final leaves final → ((hooked o l).andThen f).StandsAt code start exit →
        ∃ trace, Runs v s o l code start seen trace
            (if leaves then exit else start + ((hooked o l).andThen f).length) final ∧
          ∀ q ∈ trace, start ≤ q ∧ q < start + ((hooked o l).andThen f).length := by
  cases enabled : o.exceptionFuzzing with
  | false =>
    have nothing : hooked o l = [] := by
      rw [hooked, enabled]
      rfl
    refine ⟨s, s, fun _ => rfl, fun on => (Bool.false_ne_true on).elim, ?_⟩
    intro f leaves code start exit tested stands
    rw [nothing] at stands ⊢
    obtain ⟨trace, path, within, _⟩ :=
      (Fragment.Behaves.empty v s).andThen tested code start exit stands
    refine ⟨trace, ?_, within⟩
    rw [Runs, enabled]
    exact path.passes
  | true =>
    have hooks : hooked o l = hook l := by
      rw [hooked, enabled]
      rfl
    obtain ⟨seen, enters, _, target, _⟩ := enter_behaves v l s
    obtain ⟨final, leave, _, _, memory⟩ := leave_behaves v l (host seen)
    have found : v.host? (seen.gpr .callTarget) = some host := by
      rw [target]
      exact installed enabled
    refine ⟨seen, final, fun off => (Bool.false_ne_true off.symm).elim, fun _ => memory, ?_⟩
    intro f leaves code start exit tested stands
    rw [hooks, hook_eq, Fragment.calling_andThen] at stands ⊢
    obtain ⟨trace, run, within⟩ := enters.callsOnce found (leave.andThen tested) stands
    refine ⟨trace, ?_, within⟩
    rw [Runs, enabled, if_pos rfl, ← target]
    exact run

/-- Near and far checks for the same thing, and the fixed check for a pending exception, can be
placed wherever there is room, and have one exit to be linked. Wherever that leads to, each of them
goes there if the exception slot is as it is waited for after the hook, and else goes on behind its
end. All end in the same state, which is the state before if there is no hook. -/
theorem checks_agree {host : State → State}
    (installed : o.exceptionFuzzing = true → v.host? l.fuzzEntry = some host)
    (addressable : o.exceptionFuzzing = true → l.Addressable) :
    ∃ seen final : State, (o.exceptionFuzzing = false → final = s) ∧
      (o.exceptionFuzzing = true → final.memory = (host seen).memory) ∧
      (∀ reach, ∃ check, code o l pending reach = .ok check) ∧ (∃ check, fixed o l = .ok check) ∧
      ∀ check, (∃ reach, code o l pending reach = .ok check) ∨
          (pending = .some ∧ fixed o l = .ok check) →
        (∀ a : Assembler, a.next + check.length < wordLimit →
          ∃ placed exits, a.place check = .ok (placed, exits)) ∧
        ∀ {a placed : Assembler} {exits : List Nat}, a.origin = 0 →
          a.place check = .ok (placed, exits) →
          ∃ exit, exits = [exit] ∧ ∀ target, target ≠ placed.next →
            ∃ linked, placed.link exit target = .ok linked ∧ ∀ rest : Array Inst,
              ∃ trace last, Runs v s o l (linked.code ++ rest) a.next seen trace last final ∧
                (∀ q ∈ trace, a.next ≤ q ∧ q < placed.next) ∧
                (last = target ↔ (pending = .some ↔ final.exceptionPending o l = true)) ∧
                (last = placed.next ↔ ¬ (pending = .some ↔ final.exceptionPending o l = true)) := by
  obtain ⟨seen, final, off, on, runs⟩ := hooked_runs s installed
  have emits (pending : Pending) (reach : Reach) : ∃ check, code o l pending reach = .ok check :=
    ⟨_, code_eq_ok_iff.mpr ⟨addressable, rfl⟩⟩
  refine ⟨seen, final, off, on, emits pending, emits .some .near, fun check emitted => ?_⟩
  obtain ⟨reach, rfl⟩ : ∃ reach, check = (hooked o l).andThen (test o l pending reach) := by
    rcases emitted with ⟨reach, emitted⟩ | ⟨rfl, emitted⟩
    · exact ⟨reach, (code_eq_ok_iff.mp emitted).2⟩
    · rw [fixed_eq] at emitted
      exact ⟨.near, (code_eq_ok_iff.mp emitted).2⟩
  refine ⟨fun a room => ?_, fun {a placed exits} fresh placing => ?_⟩
  · exact Assembler.place_succeeds ((check_forward o l pending reach).fits room)
  · obtain ⟨exit, only⟩ := exitsFrom_check o l pending reach a.next
    obtain rfl : exits = [exit] := (Assembler.place_eq_ok placing).2.trans only
    refine ⟨exit, rfl, fun target elsewhere => ?_⟩
    obtain ⟨linked, linking, stands⟩ := Fragment.standsAt_of_link fresh placing target
    refine ⟨linked, linking, fun rest => ?_⟩
    obtain ⟨trace, run, within⟩ := runs (test_behaves v final o l pending reach) (stands rest)
    rw [← Assembler.next_place placing] at run within
    refine ⟨trace, _, run, within, ?_, ?_⟩
    · rw [← pending.leaves_iff]
      cases pending.leaves (final.exceptionPending o l) with
      | true => simp
      | false => simpa using elsewhere.symm
    · rw [← pending.leaves_iff]
      cases pending.leaves (final.exceptionPending o l) with
      | true => simpa using elsewhere
      | false => simp

theorem checks_agree_on_raised :
    let v := Services.none.installHost 0x5000#64 clobber
    let o : Options := { representation := .split, exceptionFuzzing := true }
    ∃ final : State, ∀ reach, ∃ check placed exit linked seen trace,
      code o topmost .some reach = .ok check ∧
      ({} : Assembler).place check = .ok (placed, [exit]) ∧
      placed.link exit 1000 = .ok linked ∧
      Run.CallsOnce v linked.code 0 .zero 0x5000#64 seen trace 1000 final := by
  intro v o
  obtain ⟨seen, final, _, on, emits, _, checks⟩ :=
    @checks_agree v .zero o topmost .some clobber (fun _ => rfl) (fun _ => by decide)
  have raised : final.exceptionPending o topmost = true := by
    have first : (clobber seen).memory.byte topmost.exceptionSlot = 11#8 :=
      (Memory.byte_setByte _ _ _ _).trans (if_pos rfl)
    change (final.memory.read32 topmost.exceptionSlot != 0#32) = true
    rw [on rfl, bne_iff_ne, Memory.read32, Memory.read, first]
    generalize Memory.read _ _ 3 = rest
    bv_omega
  refine ⟨final, fun reach => ?_⟩
  obtain ⟨check, emitted⟩ := emits reach
  obtain ⟨places, links⟩ := checks check (.inl ⟨reach, emitted⟩)
  have short : ({} : Assembler).next + check.length < 1000 := by
    rw [(code_eq_ok_iff.mp emitted).2]
    cases reach with
    | near => decide
    | far => decide
  obtain ⟨placed, exits, placing⟩ := places {} (Nat.lt_trans short (by decide))
  obtain ⟨exit, rfl, follow⟩ := links rfl placing
  have elsewhere : 1000 ≠ placed.next := by
    rw [Assembler.next_place placing]
    exact Nat.ne_of_gt short
  obtain ⟨linked, linking, runs⟩ := follow 1000 elsewhere
  obtain ⟨trace, last, run, _, leaves, _⟩ := runs #[]
  obtain rfl := leaves.mpr ⟨fun _ => raised, fun _ => rfl⟩
  rw [Array.append_empty] at run
  exact ⟨check, placed, exit, linked, seen, trace, emitted, placing, linking, run⟩

end Execution

end ExceptionCheck

end InlineCache
