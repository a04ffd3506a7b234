import InlineCache.Proofs.ExceptionVerdict
import InlineCache.Proofs.RegionRoom
import InlineCache.Proofs.SelfCheckVerdict

/-!
Code that can be generated anywhere. Whatever generates code puts it behind the code that is there
and leaves that alone. Its branches lead forward and no further than its end, but for a fixed number
that are handed back for others to link. Elsewhere the same code is generated, moved.
-/

namespace InlineCache

namespace Fragment

theorem length_exitsFrom (base : Nat) (f : Fragment) :
    (exitsFrom base f).length = f.countP Inst.isUnlinked := by
  induction f generalizing base with
  | nil => rfl
  | cons i rest ih =>
    rw [exitsFrom, List.countP_cons]
    split
    next exit => rw [List.length_cons, ih]
    next linked => exact ih (base + 1)

theorem exitsFrom_add (base distance : Nat) (f : Fragment) :
    exitsFrom (base + distance) f = (exitsFrom base f).map (· + distance) := by
  induction f generalizing base with
  | nil => rfl
  | cons i rest ih =>
    have tail := ih (base + 1)
    rw [Nat.add_right_comm] at tail
    simp only [exitsFrom, tail]
    split
    next exit => rfl
    next linked => rfl

theorem fitsFrom_of_le {f : Fragment} {start start' base base' : Nat} (fits : fitsFrom start base f)
    (earlier : start' ≤ start) (before : base' ≤ base) : fitsFrom start' base' f := by
  induction f generalizing base base' with
  | nil => rfl
  | cons i rest ih =>
    cases i with
    | branch cond target =>
      cases target with
      | none =>
        simp only [fitsFrom, Bool.and_eq_true, decide_eq_true_eq] at fits ⊢
        exact ⟨by omega, ih fits.2 (Nat.succ_le_succ before)⟩
      | some target =>
        simp only [fitsFrom, Bool.and_eq_true, decide_eq_true_eq] at fits ⊢
        exact ⟨⟨by omega, by omega⟩, ih fits.2 (Nat.succ_le_succ before)⟩
    | _ => exact ih fits (Nat.succ_le_succ before)

theorem countP_shift (distance : Nat) (f : Fragment) :
    (shift distance f).countP Inst.isUnlinked = f.countP Inst.isUnlinked := by
  have kept : Inst.isUnlinked ∘ Inst.shift distance = Inst.isUnlinked := by
    funext i
    exact i.isUnlinked_shift distance
  rw [shift, List.countP_map, kept]

/-- A fragment that branches forward and has so many exits. -/
structure Leaving (f : Fragment) (exits : Nat) : Prop where
  forward : f.Forward f.length
  exits : f.countP Inst.isUnlinked = exits

namespace Leaving

variable {f g : Fragment} {m n : Nat}

theorem of_closed (forward : f.Forward f.length) (closed : f.Closed) : f.Leaving 0 where
  forward := forward
  exits := by
    rw [List.countP_eq_zero]
    intro i member
    rw [closed i member]
    exact Bool.false_ne_true

theorem of_straight (straight : f.Straight) : f.Leaving 0 :=
  .of_closed straight.forward straight.closed

theorem andThen (first : f.Leaving m) (second : g.Leaving n) : (f.andThen g).Leaving (m + n) where
  forward := by
    rw [length_andThen]
    exact (first.forward.mono (Nat.le_add_right _ _)).andThen second.forward
  exits := by
    rw [Fragment.andThen, List.countP_append, countP_shift, first.exits, second.exits]

theorem skipping (test : f.Leaving m) (body : g.Leaving n) : (f.skipping g).Leaving n where
  forward := test.forward.skipping body.forward
  exits := by
    have linked : (linkExits (f.length + g.length) f).countP Inst.isUnlinked = 0 := by
      rw [List.countP_eq_zero]
      intro i member
      obtain ⟨j, _, rfl⟩ := List.mem_map.mp member
      rw [Inst.isUnlinked_linkOpen]
      exact Bool.false_ne_true
    rw [Fragment.skipping, List.countP_append, linked, countP_shift, body.exits, Nat.zero_add]

end Leaving

end Fragment

namespace Guard

theorem code_leaving (o : Options) (g : Guard) : (g.code o).Leaving 1 where
  forward := (code_within o g).forward
  exits := by
    have setup := Fragment.Leaving.of_straight (.of_all (g.test o).straight)
    rw [code, Test.code, List.countP_append, setup.exits]
    rfl

theorem cellTest_leaving (o : Options) (regs : ValueRegs) (test : Guard) :
    (cellTest o regs test).Leaving 2 :=
  (code_leaving o _).andThen (code_leaving o test)

theorem purifyNaN_leaving (f : Fpr) : (purifyNaN f).Leaving 0 := by
  have test : Fragment.Leaving [.branch (.double .equal f f) none] 1 :=
    ⟨.of_no_target (by simp [Inst.target?]), rfl⟩
  exact test.skipping (.of_straight (by simp [Fragment.Straight, Inst.isBranch]))

end Guard

def Ty.guardExits : Ty → Nat
  | .top => 0
  | .bottom | .boolean | .other | .int32 | .number => 1
  | .string | .object | .objectOrOther | .objectWithShape _ | .objectWithShapeOrOther _ => 2

theorem Guard.notTy_leaving (o : Options) (regs : ValueRegs) (temp : Gpr) (t : Ty) :
    (notTy o regs temp t).Leaving t.guardExits := by
  cases t with
  | top => exact .of_straight (by simp [notTy, Fragment.Straight])
  | bottom => exact ⟨.of_no_target (by simp [notTy, Inst.target?]), rfl⟩
  | boolean => exact code_leaving o (notBoolean regs temp)
  | other => exact code_leaving o (notOther regs temp)
  | int32 => exact code_leaving o (notInt32 regs)
  | number => exact code_leaving o (notNumber regs temp)
  | string | object | objectWithShape s => exact cellTest_leaving o regs _
  | objectOrOther | objectWithShapeOrOther s =>
    exact (code_leaving o _).skipping (cellTest_leaving o regs _)

theorem ExceptionCheck.test_leaving (o : Options) (l : RuntimeLayout) (pending : Pending)
    (reach : Reach) : (test o l pending reach).Leaving 1 where
  forward := test_forward o l pending reach
  exits := by
    obtain ⟨exit, single⟩ := exitsFrom_test o l pending reach 0
    rw [← Fragment.length_exitsFrom 0, single, List.length_singleton]

theorem Draft.unpatched_leaving : unpatched.Leaving 1 where
  forward := .of_no_target (by simp [unpatched, Inst.target?])
  exits := by decide

theorem Draft.emitPatch_succeeds {d : Draft} {site : Nat} {s : Site}
    (found : d.sites[site]? = some s) (room : d.assembler.next + Patch.length < wordLimit) :
    ∃ after p, d.emitPatch site = .ok (after, p) := by
  have generated := run_emitRegion d.assembler
  rw [if_pos room] at generated
  simp only [emitPatch, bind_eq_ok_iff]
  exact ⟨_, _, (_, _), emit_eq_ok_iff.mpr ⟨_, generated, rfl⟩, _,
    updateSite_eq_ok_iff.mpr ⟨s, found, rfl⟩, rfl⟩

namespace Assembler

/-- One assembler comes of another by putting code behind it, which also stands `alone` at position
zero. The branches that lack a target are the old ones and then those handed back; the new branches
that have one lead forward, and not past the end. -/
structure Extends (before alone after : Assembler) (handed : List Nat) : Prop where
  origin : after.origin = before.origin
  code : after.code = before.code ++ alone.code.map (Inst.shift before.next)
  unlinked : after.unlinked = before.unlinked ++ handed
  forward : ∀ q cond target, before.next ≤ q →
    after.inst? q = some (.branch cond (some target)) → q < target ∧ target ≤ after.next

variable {a b alone : Assembler} {f : Fragment} {exits exits₀ : List Nat}

theorem code_place_alone (placed : ({} : Assembler).place f = .ok (alone, exits₀)) :
    alone.code = f.toArray := by
  have start : ({} : Assembler).next = 0 := rfl
  have still : Fragment.shift 0 f = f :=
    (List.map_congr_left fun i _ => i.shift_zero).trans f.map_id
  rw [(place_eq_ok placed).1, start, still]
  exact Array.empty_append

theorem place_alone_succeeds (placed : a.place f = .ok (b, exits)) :
    ∃ alone exits₀, ({} : Assembler).place f = .ok (alone, exits₀) := by
  apply place_succeeds
  unfold place at placed
  split at placed
  next fits => exact Fragment.fitsFrom_of_le fits (Nat.zero_le _) (Nat.zero_le _)
  next tooFar => cases placed

theorem unlinked_place (placed : a.place f = .ok (b, exits)) :
    b.unlinked = a.unlinked ++ exits := by
  obtain ⟨rfl, rfl⟩ := place_eq_ok placed
  rw [unlinked, Array.toList_append, Fragment.exitsFrom_append, Fragment.exitsFrom_shift,
    Array.length_toList]
  rfl

theorem extends_of_place (placed : a.place f = .ok (b, exits))
    (bare : ({} : Assembler).place f = .ok (alone, exits₀)) (forward : f.Forward f.length) :
    a.Extends alone b exits where
  origin := origin_place placed
  code := by
    rw [code_place_alone bare, (place_eq_ok placed).1, List.map_toArray]
    rfl
  unlinked := unlinked_place placed
  forward := by
    intro q cond target new found
    obtain ⟨n, rfl⟩ := Nat.exists_eq_add_of_le new
    rw [inst?_place_new placed, Option.map_eq_some_iff] at found
    obtain ⟨i, listed, moved⟩ := found
    cases i with
    | branch cond' old =>
      cases old with
      | none => cases moved
      | some old =>
        cases moved
        have bounds := forward n _ _ listed
        rw [next_place placed]
        omega
    | _ => cases moved

theorem exits_of_place (placed : a.place f = .ok (b, exits))
    (bare : ({} : Assembler).place f = .ok (alone, exits₀)) :
    exits = exits₀.map (· + a.next) := by
  rw [(place_eq_ok placed).2, (place_eq_ok bare).2, ← Fragment.exitsFrom_add]
  congr 1
  exact (Nat.zero_add a.next).symm

end Assembler

namespace Piece

def exits : Piece → Nat
  | guard _ _ t => t.guardExits
  | test _ => 1
  | purify _ => 0
  | check _ => 0
  | exceptionCheck _ _ _ => 1
  | fixedExceptionCheck _ => 1
  | fuzzHook _ => 0
  | header _ _ => 0

theorem code_leaving {o : Options} {p : Piece} {f : Fragment} (generated : p.code o = .ok f) :
    f.Leaving p.exits := by
  have checked {l : RuntimeLayout} {pending : Pending} {reach : Reach} {f : Fragment}
      (emitted : ExceptionCheck.code o l pending reach = .ok f) : f.Leaving 1 := by
    obtain ⟨_, rfl⟩ := ExceptionCheck.code_eq_ok_iff.mp emitted
    have hooked := Fragment.Leaving.of_straight (ExceptionCheck.hooked_straight o l)
    have whole := hooked.andThen (ExceptionCheck.test_leaving o l pending reach)
    rwa [Nat.zero_add] at whole
  cases p with
  | guard regs temp t =>
    rw [code, Guard.forTy] at generated
    split at generated
    next =>
      cases generated
      exact Guard.notTy_leaving o regs temp t
    next => cases generated
  | test g =>
    cases generated
    exact Guard.code_leaving o g
  | purify f =>
    cases generated
    exact Guard.purifyNaN_leaving f
  | check c =>
    cases generated
    exact .of_closed (SelfCheck.testAll_within o (c.tests o)).forward
      (SelfCheck.testAll_closed o (c.tests o))
  | exceptionCheck layout pending reach => exact checked generated
  | fixedExceptionCheck layout =>
    rw [code, ExceptionCheck.fixed_eq] at generated
    exact checked generated
  | fuzzHook layout =>
    obtain ⟨_, rfl⟩ := ExceptionCheck.fuzz_eq_ok_iff.mp generated
    exact .of_straight (ExceptionCheck.hooked_straight o layout)
  | header shape dest =>
    cases generated
    exact .of_closed (Header.store_within o shape dest).forward (Header.store_closed o shape dest)

theorem place_moved {o : Options} {p : Piece} {f : Fragment} {a b : Assembler} {exits : List Nat}
    (generated : p.code o = .ok f) (placed : a.place f = .ok (b, exits)) :
    ∃ alone exits₀, ({} : Assembler).place f = .ok (alone, exits₀) ∧ a.Extends alone b exits ∧
      exits.length = p.exits ∧ exits = exits₀.map (· + a.next) := by
  obtain ⟨alone, exits₀, bare⟩ := Assembler.place_alone_succeeds placed
  have leaving := code_leaving generated
  refine ⟨alone, exits₀, bare, Assembler.extends_of_place placed bare leaving.forward, ?_,
    Assembler.exits_of_place placed bare⟩
  rw [(Assembler.place_eq_ok placed).2, Fragment.length_exitsFrom, leaving.exits]

end Piece

/-- What generates code: a piece is generated as it is, a patchable region for a site. -/
inductive Emitter where
  | piece (p : Piece)
  | region (site : Nat)
deriving DecidableEq, Repr

def Patch.shift (distance : Nat) (p : Patch) : Patch where
  entry := p.entry + distance
  region := { p.region with start := p.region.start + distance }
  placeholder := p.placeholder + distance
  done := p.done + distance

theorem Draft.emitPatch_moved {d after : Draft} {site : Nat} {p : Patch}
    (patched : d.emitPatch site = .ok (after, p)) :
    ∃ alone p₀, { d with assembler := {} }.emitPatch site = .ok (alone, p₀) ∧
      d.assembler.Extends alone.assembler after.assembler [p.placeholder] ∧
      p = p₀.shift d.assembler.next := by
  obtain ⟨s, exits, found, rfl, _, placed, _⟩ := emitPatch_eq_ok patched
  have room : ({} : Assembler).next + Patch.length < wordLimit := by decide
  obtain ⟨alone, p₀, fresh⟩ := @emitPatch_succeeds { d with assembler := {} } site s found room
  obtain ⟨_, exits₀, _, rfl, _, bare, _⟩ := emitPatch_eq_ok fresh
  obtain rfl : exits = [d.assembler.next] := (Assembler.place_eq_ok placed).2
  refine ⟨alone, _, fresh, Assembler.extends_of_place placed bare unpatched_leaving.forward, ?_⟩
  simp [Patch.shift, Assembler.next, Nat.add_comm]

inductive Handed where
  | exits (positions : List Nat)
  | patch (p : Patch)
deriving DecidableEq, Repr

namespace Handed

def branches : Handed → List Nat
  | exits positions => positions
  | patch p => [p.placeholder]

def shift (distance : Nat) : Handed → Handed
  | exits positions => exits (positions.map (· + distance))
  | patch p => patch (p.shift distance)

end Handed

namespace Emitter

def emit (d : Draft) : Emitter → Except Fault (Draft × Handed)
  | piece p => do
      let (d, exits) ← d.emit (p.emit d.options)
      return (d, .exits exits)
  | region site => do
      let (d, p) ← d.emitPatch site
      return (d, .patch p)

def exits : Emitter → Nat
  | piece p => p.exits
  | region _ => 1

variable {d after : Draft} {handed : Handed}

theorem emit_piece_eq_ok_iff {p : Piece} :
    (piece p).emit d = .ok (after, handed) ↔
      ∃ f b exits, p.code d.options = .ok f ∧ d.assembler.place f = .ok (b, exits) ∧
        after = { d with assembler := b } ∧ handed = .exits exits := by
  simp only [emit, bind_eq_ok_iff, pure, Except.pure, Except.ok.injEq, Prod.mk.injEq]
  constructor
  · intro emitted
    obtain ⟨⟨_, exits⟩, generated, same, answer⟩ := emitted
    obtain ⟨b, run, rfl⟩ := Draft.emit_eq_ok_iff.mp generated
    obtain ⟨f, code, placed⟩ := Piece.run_emit_eq_ok_iff.mp run
    exact ⟨f, b, exits, code, placed, same.symm, answer.symm⟩
  · intro parts
    obtain ⟨f, b, exits, code, placed, same, answer⟩ := parts
    have run := Piece.run_emit_eq_ok_iff.mpr ⟨f, code, placed⟩
    exact ⟨_, Draft.emit_eq_ok_iff.mpr ⟨b, run, rfl⟩, same.symm, answer.symm⟩

theorem emit_region_eq_ok_iff {site : Nat} :
    (region site).emit d = .ok (after, handed) ↔
      ∃ p, d.emitPatch site = .ok (after, p) ∧ handed = .patch p := by
  simp only [emit, bind_eq_ok_iff, pure, Except.pure, Except.ok.injEq, Prod.mk.injEq]
  constructor
  · rintro ⟨⟨_, p⟩, emitted, rfl, rfl⟩
    exact ⟨p, emitted, rfl⟩
  · rintro ⟨p, emitted, rfl⟩
    exact ⟨_, emitted, rfl, rfl⟩

/-- Every emitter puts its code behind what is there, and changes nothing of that. The branches left
without a target are the ones before and those handed back, as many as the emitter has exits; the
new branches that have one lead forward, to the end of the new code at most. Code and positions are
those that come of generating at position zero, moved. What can be generated there can be generated
wherever there is room. -/
theorem emit_alike_everywhere (d : Draft) (e : Emitter) :
    (∀ after handed, e.emit d = .ok (after, handed) →
      ∃ alone handed₀, e.emit { d with assembler := {} } = .ok (alone, handed₀) ∧
        d.assembler.Extends alone.assembler after.assembler handed.branches ∧
        handed.branches.length = e.exits ∧ handed = handed₀.shift d.assembler.next) ∧
    ∀ alone handed₀, e.emit { d with assembler := {} } = .ok (alone, handed₀) →
      d.assembler.next + alone.assembler.code.size < wordLimit →
      ∃ after handed, e.emit d = .ok (after, handed) := by
  cases e with
  | piece p =>
    refine ⟨fun after handed emitted => ?_, fun alone handed₀ emitted room => ?_⟩
    · obtain ⟨f, b, exits, generated, placed, rfl, rfl⟩ := emit_piece_eq_ok_iff.mp emitted
      obtain ⟨alone, exits₀, bare, extended, count, moved⟩ := Piece.place_moved generated placed
      exact ⟨{ d with assembler := alone }, .exits exits₀,
        emit_piece_eq_ok_iff.mpr ⟨f, alone, exits₀, generated, bare, rfl, rfl⟩, extended, count,
        congrArg Handed.exits moved⟩
    · obtain ⟨f, b, exits₀, generated, bare, rfl, rfl⟩ := emit_piece_eq_ok_iff.mp emitted
      change d.assembler.next + b.code.size < wordLimit at room
      rw [Assembler.code_place_alone bare, List.size_toArray] at room
      obtain ⟨b, exits, placed⟩ :=
        Assembler.place_succeeds ((Piece.code_leaving generated).forward.fits room)
      exact ⟨_, _, emit_piece_eq_ok_iff.mpr ⟨f, b, exits, generated, placed, rfl, rfl⟩⟩
  | region site =>
    refine ⟨fun after handed emitted => ?_, fun alone handed₀ emitted room => ?_⟩
    · obtain ⟨p, patched, rfl⟩ := emit_region_eq_ok_iff.mp emitted
      obtain ⟨alone, p₀, bare, extended, moved⟩ := Draft.emitPatch_moved patched
      exact ⟨alone, .patch p₀, emit_region_eq_ok_iff.mpr ⟨p₀, bare, rfl⟩, extended, rfl,
        congrArg Handed.patch moved⟩
    · obtain ⟨p₀, patched, rfl⟩ := emit_region_eq_ok_iff.mp emitted
      obtain ⟨s, exits₀, found, _, _, bare, _⟩ := Draft.emitPatch_eq_ok patched
      rw [Assembler.code_place_alone bare] at room
      obtain ⟨after, p, emitted⟩ := @Draft.emitPatch_succeeds d site s found room
      exact ⟨after, _, emit_region_eq_ok_iff.mpr ⟨p, emitted, rfl⟩⟩

/-- The guard of objects, null and undefined, behind a branch without a target in code that starts
at position 18. Of its own branches the first skips the other two, which are handed back. -/
theorem emit_guard_at_origin :
    let d : Draft :=
      { options := {}, assembler := { origin := 18, code := #[.branch .always none] } }
    ∃ after, (piece (.guard (.packed .t0) .t1 .objectOrOther)).emit d =
        .ok (after, .exits [22, 23]) ∧
      after.assembler.code[0]? = some (.branch .always none) ∧
      after.assembler.code[3]?.bind Inst.target? = some 24 ∧
      after.assembler.unlinked = [18, 22, 23] := by
  intro d
  obtain ⟨moved, everywhere⟩ :=
    emit_alike_everywhere d (piece (.guard (.packed .t0) .t1 .objectOrOther))
  obtain ⟨after, handed, emitted⟩ := everywhere _ _ rfl (by decide)
  obtain ⟨alone, handed₀, bare, extended, _, same⟩ := moved after handed emitted
  cases bare
  subst same
  have first : d.assembler.code.size = 1 := rfl
  refine ⟨after, emitted, ?_, ?_, extended.unlinked⟩
  · rw [extended.code, Array.getElem?_append_left (by omega)]
    rfl
  · rw [extended.code, Array.getElem?_append_right (by omega), Array.getElem?_map]
    rfl

end Emitter

end InlineCache
