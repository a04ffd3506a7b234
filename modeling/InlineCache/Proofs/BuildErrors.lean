import InlineCache.Proofs.LinkOrder
import InlineCache.Proofs.LinkedLayout
import InlineCache.Proofs.RegionRoom
import Mathlib.Order.Bounds.Basic

/-!
When building a unit fails. A unit cannot be finished while a branch of its own lacks a target or a
region lacks its slow path; the error names the first of these. Once it is finished, linking fails
only for want of a stack map, and the error names the first site that has regions and no stack map.
-/

namespace InlineCache

namespace Assembler

variable {a b : Assembler} {f : Fragment} {exits positions : List Nat} {q target : Nat}
  {cond : Cond}

theorem mem_unlinked : q ∈ a.unlinked ↔ ∃ cond, a.inst? q = some (.branch cond none) := by
  rw [unlinked, Fragment.mem_exitsFrom]
  constructor
  · rintro ⟨n, i, found, unlinked, rfl⟩
    rw [inst?_eq, if_pos (Nat.le_add_right _ _), Nat.add_sub_cancel_left, ← Array.getElem?_toList]
    cases i with
    | branch cond destination =>
      cases destination with
      | none => exact ⟨cond, found⟩
      | some destination => cases unlinked
    | _ => cases unlinked
  · rintro ⟨cond, found⟩
    have reached := (bounds_of_inst? found).1
    rw [inst?_eq, if_pos reached, ← Array.getElem?_toList] at found
    exact ⟨q - a.origin, _, found, rfl, by omega⟩

theorem open_of_place (placed : a.place f = .ok (b, exits))
    (found : b.inst? q = some (.branch cond none)) :
    a.inst? q = some (.branch cond none) ∨ a.next ≤ q ∧ q < b.next ∧ q ∈ exits := by
  by_cases old : q < a.next
  · rw [inst?_place_old placed old] at found
    exact .inl found
  · obtain ⟨n, rfl⟩ : ∃ n, q = a.next + n := ⟨q - a.next, by omega⟩
    have bounds := bounds_of_inst? found
    rw [inst?_place_new placed, Option.map_eq_some_iff] at found
    obtain ⟨i, listed, shifted⟩ := found
    refine .inr ⟨by omega, bounds.2, ?_⟩
    rw [(place_eq_ok placed).2, Fragment.mem_exitsFrom]
    refine ⟨n, i, listed, ?_, rfl⟩
    rw [← Inst.isUnlinked_shift a.next, shifted]
    rfl

theorem open_of_linkAll (linked : a.linkAll positions target = .ok b)
    (found : b.inst? q = some (.branch cond none)) : a.inst? q = some (.branch cond none) := by
  have here := (linkAll_eq_ok linked).2.2 q
  split at here
  next =>
    obtain ⟨_, _, _, now⟩ := here
    cases now.symm.trans found
  next => rwa [← here]

end Assembler

namespace Site.LiesIn

variable {read : Nat → Option Inst} {s : Site} {q : Nat} {cond : Cond}

theorem open_of_pending {p : Patch} (lies : s.LiesIn read)
    (listed : p ∈ s.patches.drop s.exits.length) :
    read p.placeholder = some (.branch .alwaysPatchable none) := by
  obtain ⟨i, found⟩ := List.mem_iff_getElem?.mp listed
  rw [List.getElem?_drop] at found
  have patch := lies.patches _ p found
  rw [patch.placeholder, patch.jump, List.getElem?_eq_none (Nat.le_add_right _ _), Option.map_none]

/-- A branch without a target in a block of a site starts a region that has no slow path, or leaves
a slow path. -/
theorem pending_of_open {b : Region} (lies : s.LiesIn read) (member : b ∈ s.blocks)
    (covered : b.Covers q) (lacking : read q = some (.branch cond none)) :
    (∃ p ∈ s.patches.drop s.exits.length, q = p.placeholder) ∨ q ∈ s.exits := by
  rcases List.mem_append.mp member with region | path
  · obtain ⟨p, listed, rfl⟩ := List.mem_map.mp region
    obtain ⟨i, found⟩ := List.mem_iff_getElem?.mp listed
    have patch := lies.patches i p found
    rcases Nat.eq_or_lt_of_le covered.1 with first | later
    · refine .inl ⟨p, ?_, by rw [patch.placeholder, first]⟩
      have jump := patch.jump
      rw [first, lacking] at jump
      have pathless : s.exits[i]? = none := by
        cases paired : s.exits[i]? with
        | none => rfl
        | some exit => simp [paired] at jump
      have bound := List.getElem?_eq_none_iff.mp pathless
      apply List.mem_of_getElem? (i := i - s.exits.length)
      rw [List.getElem?_drop, Nat.add_sub_cancel' bound, found]
    · cases lacking.symm.trans (patch.nops q later covered.2)
  · obtain ⟨exit, listed, rfl⟩ := List.mem_map.mp path
    obtain ⟨positive, call, _⟩ := lies.exits exit listed
    rcases (covers_slowPathOf_iff positive).mp covered with rfl | rfl
    · cases lacking.symm.trans call
    · exact .inr listed

end Site.LiesIn

namespace Draft

variable {d after : Draft} {jumps : List Nat} {id : Nat} {s : Site}

/-- Every branch without a target was handed out or belongs to a site, and positions do not run out
before the end of a region. -/
structure Accounted (d : Draft) (jumps : List Nat) : Prop where
  opened : ∀ q cond, d.assembler.inst? q = some (.branch cond none) →
    q ∈ jumps ∨ ∃ b ∈ d.sites.flatMap Site.blocks, b.Covers q
  fits : ∀ s ∈ d.sites, ∀ p ∈ s.patches, p.region.stop < wordLimit

namespace Accounted

theorem place {f : Fragment} {a : Assembler} {exits : List Nat} (accounted : d.Accounted jumps)
    (placed : d.assembler.place f = .ok (a, exits)) :
    Accounted { d with assembler := a } (jumps ++ exits) where
  opened := by
    intro q cond found
    rcases Assembler.open_of_place placed found with old | ⟨_, _, new⟩
    · rcases accounted.opened q cond old with known | covered
      · exact .inl (List.mem_append_left _ known)
      · exact .inr covered
    · exact .inl (List.mem_append_right _ new)
  fits := accounted.fits

theorem link {positions : List Nat} {target : Nat} {a : Assembler} (accounted : d.Accounted jumps)
    (linked : d.assembler.linkAll positions target = .ok a) :
    Accounted { d with assembler := a } jumps where
  opened := fun q cond found => accounted.opened q cond (Assembler.open_of_linkAll linked found)
  fits := accounted.fits

theorem addSite (accounted : d.Accounted jumps) (unpatched : s.patches = []) :
    Accounted { d with sites := d.sites ++ [s] } jumps where
  opened := by
    intro q cond found
    rcases accounted.opened q cond found with known | ⟨b, member, covered⟩
    · exact .inl known
    · refine .inr ⟨b, ?_, covered⟩
      rw [List.flatMap_append]
      exact List.mem_append_left _ member
  fits := by
    intro t member p listed
    rcases List.mem_append.mp member with old | new
    · exact accounted.fits t old p listed
    · rw [List.mem_singleton.mp new, unpatched] at listed
      cases listed

theorem grow {grown : Site} {b : Region} (accounted : d.Accounted jumps)
    (found : d.sites[id]? = some s) (more : grown.blocks.Perm (b :: s.blocks))
    (sites : after.sites = d.sites.set id grown)
    (opened : ∀ q cond, after.assembler.inst? q = some (.branch cond none) →
      d.assembler.inst? q = some (.branch cond none) ∨ b.Covers q)
    (patches : ∀ p ∈ grown.patches, p ∈ s.patches ∨ p.region.stop < wordLimit) :
    after.Accounted jumps where
  opened := by
    intro q cond here
    have blocks := blocks_set_perm found more
    rw [sites]
    rcases opened q cond here with old | new
    · rcases accounted.opened q cond old with known | ⟨c, member, covered⟩
      · exact .inl known
      · exact .inr ⟨c, blocks.mem_iff.mpr (List.mem_cons_of_mem b member), covered⟩
    · exact .inr ⟨b, blocks.mem_iff.mpr List.mem_cons_self, new⟩
  fits := by
    intro t member p listed
    rw [sites] at member
    rcases List.mem_or_eq_of_mem_set member with old | rfl
    · exact accounted.fits t old p listed
    · rcases patches p listed with old | new
      · exact accounted.fits s (List.mem_of_getElem? found) p old
      · exact new

theorem emitPatch {p : Patch} (accounted : d.Accounted jumps)
    (emitted : d.emitPatch id = .ok (after, p)) : after.Accounted jumps := by
  obtain ⟨s, exits, found, rfl, fits, placed, sites⟩ := emitPatch_eq_ok emitted
  apply accounted.grow found (s.blocks_addPatch _) sites
  · intro q cond here
    rcases Assembler.open_of_place placed here with old | ⟨low, high, _⟩
    · exact .inl old
    · rw [Assembler.next_place placed] at high
      exact .inr ⟨low, high⟩
  · intro p listed
    rcases List.mem_append.mp listed with old | new
    · exact .inl old
    · rw [List.mem_singleton.mp new]
      exact .inr fits

theorem emitSlowPath {call : SlowCall} {p : Patch} (accounted : d.Accounted jumps)
    (emitted : d.emitSlowPath id call p = .ok after) : after.Accounted jumps := by
  obtain ⟨s, a, b, exits, found, _, linked, placed, rfl⟩ := emitSlowPath_eq_ok_iff.mp emitted
  apply accounted.grow found (s.blocks_addExit _) rfl
  · intro q cond here
    rcases Assembler.open_of_place placed here with old | ⟨low, high, _⟩
    · exact .inl (Assembler.open_of_linkAll linked old)
    · rw [Assembler.next_place placed] at high
      exact .inr ⟨low, high⟩
  · exact fun p listed => .inl listed

theorem emitSlowPath_all {call : SlowCall} {pending : List Patch} (accounted : d.Accounted jumps)
    (emitted : pending.foldlM (fun d p => d.emitSlowPath id call p) d = .ok after) :
    after.Accounted jumps := by
  induction pending generalizing d with
  | nil =>
    cases emitted
    exact accounted
  | cons p pending ih =>
    rw [List.foldlM_cons, bind_eq_ok_iff] at emitted
    obtain ⟨mid, first, others⟩ := emitted
    exact ih (accounted.emitSlowPath first) others

end Accounted

theorem Generated.accounted {o : Options} {origin : Nat} (generated : Generated o origin d jumps) :
    d.Accounted jumps := by
  induction generated with
  | empty =>
    refine ⟨fun q cond found => ?_, by simp⟩
    have bounds := Assembler.bounds_of_inst? found
    simp only [Assembler.next, Array.size_empty] at bounds
    omega
  | place _ placed ih => exact ih.place placed
  | link _ known linked ih => exact ih.link linked
  | addSite _ added ih =>
    unfold Draft.addSite at added
    split at added
    next unset => cases added
    next known =>
      cases added
      exact ih.addSite rfl
  | emitPatch _ emitted ih => exact ih.emitPatch emitted
  | emitSlowPaths _ emitted ih =>
    obtain ⟨s, found, _, _, all⟩ := emitSlowPaths_eq_ok_iff.mp emitted
    exact ih.emitSlowPath_all all

/-- What keeps a unit from being finished: a branch that was handed out and has no target, or the
placeholder of a region that has no slow path. -/
def Unfinished (d : Draft) (jumps : List Nat) (q : Nat) : Prop :=
  (q ∈ jumps ∧ ∃ cond, d.assembler.inst? q = some (.branch cond none)) ∨
    ∃ s ∈ d.sites, ∃ p ∈ s.patches.drop s.exits.length, q = p.placeholder

theorem unfinished_iff {o : Options} {origin q : Nat} (generated : Generated o origin d jumps) :
    d.Unfinished jumps q ↔ q ∈ d.assembler.unlinked ∧ q ∉ d.exits := by
  have laid := generated.laid
  rw [Assembler.mem_unlinked]
  constructor
  · rintro (⟨known, lacking⟩ | ⟨s, member, p, listed, rfl⟩)
    · refine ⟨lacking, fun exit => ?_⟩
      obtain ⟨s, member, leaves⟩ := List.mem_flatMap.mp exit
      have positive := ((laid.layout.each s member).exits q leaves).1
      exact (laid.free q known).2 _ (List.mem_flatMap.mpr ⟨s, member,
        Site.slowPathOf_mem_blocks leaves⟩) ((Site.covers_slowPathOf_iff positive).mpr (.inr rfl))
    · have jump := (laid.layout.each s member).open_of_pending listed
      refine ⟨⟨_, jump⟩, fun exit => ?_⟩
      obtain ⟨t, member', leaves⟩ := List.mem_flatMap.mp exit
      have other := ((laid.layout.each t member').exits _ leaves).2.2
      cases jump.symm.trans other
  · rintro ⟨⟨cond, lacking⟩, outside⟩
    rcases generated.accounted.opened q cond lacking with known | ⟨b, block, covered⟩
    · exact .inl ⟨known, cond, lacking⟩
    · obtain ⟨s, member, block⟩ := List.mem_flatMap.mp block
      rcases (laid.layout.each s member).pending_of_open block covered lacking with pending | exit
      · exact .inr ⟨s, member, pending⟩
      · exact absurd (List.mem_flatMap.mpr ⟨s, member, exit⟩) outside

theorem find?_unlinked_eq_some_iff {q : Nat} :
    (d.assembler.unlinked.find? fun position => !d.exits.contains position) = some q ↔
      IsLeast { q | q ∈ d.assembler.unlinked ∧ q ∉ d.exits } q := by
  have sorted : d.assembler.unlinked.Pairwise (· < ·) := Fragment.pairwise_exitsFrom _ _
  have least {q : Nat}
      (found : (d.assembler.unlinked.find? fun position => !d.exits.contains position) = some q) :
      IsLeast { q | q ∈ d.assembler.unlinked ∧ q ∉ d.exits } q := by
    refine ⟨⟨List.mem_of_find?_eq_some found, by simpa using List.find?_some found⟩, ?_⟩
    obtain ⟨_, early, late, split, passed⟩ := List.find?_eq_some_iff_append.mp found
    rintro other ⟨member, outside⟩
    rw [split] at member sorted
    rcases List.mem_append.mp member with before | behind
    · exact absurd (passed other before) (by simpa using outside)
    · rcases List.mem_cons.mp behind with rfl | behind
      · exact Nat.le_refl _
      · have tail := (List.pairwise_append.mp sorted).2.1
        exact Nat.le_of_lt ((List.pairwise_cons.mp tail).1 other behind)
  constructor
  · exact least
  · intro first
    cases found : d.assembler.unlinked.find? fun position => !d.exits.contains position with
    | none => exact absurd (List.find?_eq_none.mp found q first.1.1) (by simpa using first.1.2)
    | some other => rw [(least found).unique first]

theorem finish_eq_error_iff {q : Nat} :
    d.finish = .error (.unlinkedJump q) ↔
      IsLeast { q | q ∈ d.assembler.unlinked ∧ q ∉ d.exits } q := by
  rw [← find?_unlinked_eq_some_iff, finish]
  cases d.assembler.unlinked.find? fun position => !d.exits.contains position with
  | none => simp
  | some position => simp

theorem finish_eq_ok_iff {u : Finished} :
    d.finish = .ok u ↔ (∀ q, ¬ (q ∈ d.assembler.unlinked ∧ q ∉ d.exits)) ∧
      u = ⟨d.options, d.assembler.code, d.sites⟩ := by
  have all : (d.assembler.unlinked.find? fun position => !d.exits.contains position) = none ↔
      ∀ q, ¬ (q ∈ d.assembler.unlinked ∧ q ∉ d.exits) := by
    simp [List.find?_eq_none]
  rw [← all, finish]
  cases d.assembler.unlinked.find? fun position => !d.exits.contains position with
  | none => simp [eq_comm]
  | some position => simp

end Draft

structure Ready (code : Array Inst) (sites : List Site) : Prop where
  layout : LaidOut (fun q => code[q]?) sites
  complete : ∀ s ∈ sites, s.patches.length = s.exits.length
  fits : ∀ s ∈ sites, ∀ p ∈ s.patches, p.region.stop < wordLimit

def Site.lacksMap (maps : StackMaps) (s : Site) : Bool :=
  !s.patches.isEmpty && (maps s.stackMap).isNone

section Linking

variable {o : Options} {maps : StackMaps} {shapes : ShapeModel} {snapshot : Snapshot}
  {access : Access} {code after : Array Inst} {report : List Outcome} {s : Site}

theorem Draft.Generated.ready {d : Draft} {jumps : List Nat} {u : Finished}
    (generated : Draft.Generated o 0 d jumps) (finished : d.finish = .ok u) :
    Ready u.code u.sites := by
  obtain ⟨none, rfl⟩ := Draft.finish_eq_ok_iff.mp finished
  have laid := generated.laid
  have layout := laid.layout
  simp only [funext (Assembler.inst?_of_origin_zero laid.origin)] at layout
  refine ⟨layout, fun s member => ?_, generated.accounted.fits⟩
  apply Nat.le_antisymm _ (layout.each s member).balanced
  rw [← List.drop_eq_nil_iff, List.eq_nil_iff_forall_not_mem]
  intro p pending
  exact none _ ((Draft.unfinished_iff generated).mp (.inr ⟨s, member, p, pending, rfl⟩))

theorem Site.LiesIn.leads (lies : s.LiesIn fun q => code[q]?)
    (complete : s.patches.length = s.exits.length) {p : Patch} (listed : p ∈ s.patches) :
    p.region.length = Patch.length ∧ p.region.Covers p.placeholder ∧ p.region.stop ≤ code.size ∧
      ∃ slowPath, code[p.placeholder]? = some (.branch .alwaysPatchable (some slowPath)) := by
  obtain ⟨i, found⟩ := List.mem_iff_getElem?.mp listed
  have patch := lies.patches i p found
  obtain ⟨bound, _⟩ := List.getElem?_eq_some_iff.mp found
  have paired : s.exits[i]? = some s.exits[i] := List.getElem?_eq_getElem (complete ▸ bound)
  have jump := patch.jump
  rw [paired] at jump
  refine ⟨patch.length, ?_, ?_, s.exits[i] - 1, ?_⟩
  · rw [patch.placeholder]
    exact patch.covers_start
  · obtain ⟨positive, emitted⟩ := lies.emitted (region_mem_blocks found)
    have last : p.region.Covers (p.region.stop - 1) := by
      unfold Region.Covers Region.stop
      omega
    obtain ⟨_, instruction⟩ := emitted _ last
    obtain ⟨low, _⟩ := Array.getElem?_eq_some_iff.mp instruction
    omega
  · rw [patch.placeholder]
    exact jump

end Linking

namespace LinkStep

def failure? : LinkStep → Option BuildError
  | fail e => some e
  | _ => none

/-- Steps apart from each other, all of which can be taken by themselves unless they give up: the
first one to give up decides. -/
theorem runAll_of_apart {o : Options} {shapes : ShapeModel} {code : Array Inst}
    {steps : List LinkStep} (apart : steps.Pairwise Apart)
    (each : ∀ step ∈ steps, step.failure? = none →
      ∃ after own, step.run o shapes code = .ok (after, own)) :
    match steps.findSome? failure? with
    | some e => runAll o shapes steps code = .error (.error e)
    | none => ∃ after report, runAll o shapes steps code = .ok (after, report) := by
  induction steps generalizing code with
  | nil => exact ⟨code, [], rfl⟩
  | cons step rest ih =>
    rw [List.pairwise_cons] at apart
    rw [List.forall_mem_cons] at each
    cases possible : step.failure? with
    | some e =>
      rw [List.findSome?_cons_of_isSome (by rw [possible]; rfl), possible]
      cases step with
      | fail e' =>
        cases possible
        rfl
      | exit p position => cases possible
      | region snapshot access site i p => cases possible
    | none =>
      rw [List.findSome?_cons_of_isNone (by rw [possible]; rfl)]
      obtain ⟨mid, own, here⟩ := each.1 possible
      have rewritten := run_rewritten here
      have later := @ih mid apart.2 fun next taken can => by
        obtain ⟨after, report, alone⟩ := each.2 next taken can
        obtain ⟨final, again, _⟩ := run_transfer alone rewritten.size fun q touched =>
          rewritten.frame (List.forall_mem_singleton.mpr fun back =>
            apart.1 next taken q back touched)
        exact ⟨final, report, again⟩
      split
      next e failed =>
        rw [failed] at later
        simp only [runAll, here, bind, Except.bind, later]
      next none =>
        rw [none] at later
        obtain ⟨after, more, others⟩ := later
        exact ⟨after, _, runAll_cons_eq_ok_iff.mpr ⟨mid, own, more, here, others, rfl⟩⟩

end LinkStep

theorem Site.failures_steps {maps : StackMaps} {s : Site}
    (balanced : s.patches.length = s.exits.length) (index : Nat) :
    (s.steps maps index).filterMap LinkStep.failure? =
      ((Option.guard (lacksMap maps) s).map fun s => .missingStackMap s.stackMap).toList := by
  have exits : (s.returns.map fun pair => LinkStep.exit pair.1 pair.2).filterMap
      LinkStep.failure? = [] := by
    simp [LinkStep.failure?]
  rw [steps, if_neg (not_not_intro balanced), List.filterMap_append, exits, List.nil_append,
    Option.guard, lacksMap]
  cases maps s.stackMap with
  | some snapshot => simp [LinkStep.failure?]
  | none => cases s.patches.isEmpty <;> rfl

namespace Ready

variable {maps : StackMaps} {shapes : ShapeModel} {u : Finished}

theorem failure_plan (ready : Ready u.code u.sites) (maps : StackMaps) :
    (u.plan maps).findSome? LinkStep.failure? =
      (u.sites.find? (Site.lacksMap maps)).map fun s => .missingStackMap s.stackMap := by
  have each : ∀ x ∈ u.sites.zipIdx, (x.1.steps maps x.2).filterMap LinkStep.failure? =
      ((fun s => ((Option.guard (Site.lacksMap maps) s).map fun s =>
        BuildError.missingStackMap s.stackMap).toList) ∘ Prod.fst) x := by
    intro x listed
    exact Site.failures_steps (ready.complete x.1 (List.fst_mem_of_mem_zipIdx listed)) x.2
  rw [← List.head?_filterMap, Finished.plan, List.filterMap_flatMap, List.flatMap_def,
    List.map_congr_left each, ← List.map_map, List.zipIdx_map_fst, ← List.flatMap_def,
    ← List.filterMap_eq_flatMap_toList, List.head?_filterMap, ← List.findSome?_guard,
    List.map_findSome?]
  rfl

theorem step_succeeds (ready : Ready u.code u.sites) (reachable : shapes.Reachable)
    (matching : ∀ id snapshot, maps id = some snapshot →
      snapshot.base.representation = u.options.representation) {step : LinkStep}
    (taken : step ∈ u.plan maps) (possible : step.failure? = none) :
    ∃ after own, step.run u.options shapes u.code = .ok (after, own) := by
  obtain ⟨j, s, placed, own⟩ := Finished.mem_plan_iff.mp taken
  have member := List.mem_of_getElem? placed
  have lies := ready.layout.each s member
  cases step with
  | exit p position =>
    have leaves := (List.of_mem_zip (Site.exit_mem_steps_iff.mp own).2).2
    obtain ⟨after, linked⟩ := Site.linkExit_succeeds (lies.exits position leaves).2.2
    exact ⟨after, [], LinkStep.run_exit_eq_ok_iff.mpr ⟨linked, rfl⟩⟩
  | region snapshot access site i p =>
    obtain ⟨balanced, known, rfl, rfl, found⟩ := Site.region_mem_steps_iff.mp own
    have listed := List.mem_of_getElem? found
    obtain ⟨length, _, inside, slowPath, jump⟩ := lies.leads balanced listed
    obtain ⟨after, resolution, linked⟩ := Patch.link_succeeds reachable (matching _ _ known) length
      (ready.fits s member p listed) (by rw [jump]; rfl) inside s.access
    exact ⟨after, _, LinkStep.run_region_eq_ok_iff.mpr ⟨resolution, linked, rfl⟩⟩
  | fail e => cases possible

theorem link (ready : Ready u.code u.sites) (reachable : shapes.Reachable)
    (matching : ∀ id snapshot, maps id = some snapshot →
      snapshot.base.representation = u.options.representation) :
    match u.sites.find? (Site.lacksMap maps) with
    | some s => u.link maps shapes = .error (.error (.missingStackMap s.stackMap))
    | none => ∃ l, u.link maps shapes = .ok l := by
  have apart : (u.plan maps).Pairwise LinkStep.Apart := ready.layout.separate.steps_apart
  have run := LinkStep.runAll_of_apart apart fun step taken possible =>
    ready.step_succeeds reachable matching taken possible
  rw [ready.failure_plan] at run
  rw [Finished.link_eq]
  cases lacking : u.sites.find? (Site.lacksMap maps) with
  | some s =>
    rw [lacking] at run
    rw [show LinkStep.runAll u.options shapes (u.plan maps) u.code = _ from run]
    rfl
  | none =>
    rw [lacking] at run
    obtain ⟨after, report, linked⟩ := run
    exact ⟨⟨after, report⟩, by rw [linked]; rfl⟩

end Ready

namespace Draft.Generated

/-- Units that start at position zero fail to build for two reasons only. They cannot be finished
exactly while something is unfinished, and the error names the first such position. A finished unit
can be linked unless some site lacks its stack map, and the error names that of the first such site;
no shape, slot or transition that the model knows or does not know makes linking fail. -/
theorem build_errors_exact {o : Options} {d : Draft} {jumps : List Nat}
    (generated : Generated o 0 d jumps) :
    (∀ q, d.finish = .error (.unlinkedJump q) ↔ IsLeast { q | d.Unfinished jumps q } q) ∧
    (∀ u, d.finish = .ok u ↔
      (∀ q, ¬ d.Unfinished jumps q) ∧ u = ⟨d.options, d.assembler.code, d.sites⟩) ∧
    ∀ u maps shapes, d.finish = .ok u →
      (∀ id snapshot, maps id = some snapshot →
        snapshot.base.representation = u.options.representation) → shapes.Reachable →
      (∀ s, u.sites.find? (Site.lacksMap maps) = some s →
        u.link maps shapes = .error (.error (.missingStackMap s.stackMap))) ∧
      (u.sites.find? (Site.lacksMap maps) = none → ∃ l, u.link maps shapes = .ok l) := by
  refine ⟨fun q => ?_, fun u => ?_, fun u maps shapes finished matching reachable => ?_⟩
  · simp only [unfinished_iff generated]
    exact finish_eq_error_iff
  · simp only [unfinished_iff generated]
    exact finish_eq_ok_iff
  · have linked := (generated.ready finished).link reachable matching
    constructor
    · intro s lacking
      rw [lacking] at linked
      exact linked
    · intro none
      rw [none] at linked
      exact linked

theorem build_errors_of_one_site :
    ∃ early d u, Generated {} 0 early [] ∧ early.finish = .error (.unlinkedJump 0) ∧
      Generated {} 0 d [] ∧ d.finish = .ok u ∧
      u.link (fun _ => none) .empty = .error (.error (.missingStackMap ⟨3#32⟩)) ∧
      ∃ l, u.link (fun _ => some ⟨.packed .t0, .t3, none, some (.packed .t1), some ⟨1#32⟩⟩)
        ⟨fun id => some ⟨id, 0#8, 0x11#8, 0#8⟩, fun _ _ => some 0x0FFFFFFD#32, fun _ _ => none⟩ =
          .ok l := by
  have created : Generated {} 0 _ [] :=
    @Generated.addSite _ _ _ _ _ _ ⟨3#32⟩ ⟨1#32⟩ (.read ⟨0#32⟩) .empty rfl
  have region : Generated {} 0 _ [] := @Generated.emitPatch _ _ _ _ _ 0 _ created rfl
  have path : Generated {} 0 _ [] := @Generated.emitSlowPaths _ _ _ _ _ 0 _ region rfl
  have unfinished := (build_errors_exact region).1
  obtain ⟨_, _, links⟩ := build_errors_exact path
  have nothing := links _ (fun _ => none) .empty rfl nofun ⟨nofun, nofun⟩
  have everything := links _
    (fun _ => some ⟨.packed .t0, .t3, none, some (.packed .t1), some ⟨1#32⟩⟩)
    ⟨fun id => some ⟨id, 0#8, 0x11#8, 0#8⟩, fun _ _ => some 0x0FFFFFFD#32, fun _ _ => none⟩ rfl
    (by intro _ _ found; cases found; rfl)
    ⟨by intro _ _ _ found; cases found; decide, nofun⟩
  refine ⟨_, _, _, region, (unfinished 0).mpr ⟨?_, ?_⟩, path, rfl, nothing.1 _ rfl,
    everything.2 rfl⟩
  · exact .inr ⟨_, List.mem_cons_self, _, List.mem_cons_self, rfl⟩
  · exact fun q _ => Nat.zero_le q

end Draft.Generated

end InlineCache
