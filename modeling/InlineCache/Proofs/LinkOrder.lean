import Mathlib.Data.Fin.Rev
import Mathlib.Data.List.FinRange
import Mathlib.Data.List.Pairwise
import InlineCache.Proofs.LinkRun

/-!
The order in which sites are linked. Linking a site reads and writes at its exits, at its
placeholders and in its regions; of the rest of the code it reads the size alone. Sites that touch
different code are therefore linked in a unit as each would be by itself, and in any order with the
same result.
-/

namespace InlineCache

namespace LinkStep

section Transfer

variable {o : Options} {shapes : ShapeModel} {code after other : Array Inst}
  {step : LinkStep} {steps : List LinkStep} {own report : List Outcome}

theorem linkExit_transfer {p : Patch} {position : Nat}
    (linked : Site.linkExit code p position = .ok after)
    (same : other[position]? = code[position]?) :
    ∃ final, Site.linkExit other p position = .ok final ∧
      ∀ q : Nat, other[q]? = code[q]? → final[q]? = after[q]? := by
  obtain ⟨cond, old, found, changed⟩ := Site.linkExit_eq_ok linked
  have here : other[position]? = some (.branch cond old) := same.trans found
  obtain ⟨final, again⟩ := @Site.linkExit_succeeds _ p _ _ _ here
  obtain ⟨cond', old', found', changed'⟩ := Site.linkExit_eq_ok again
  cases here.symm.trans found'
  refine ⟨final, again, fun q agreed => ?_⟩
  rw [changed, changed', agreed]

theorem link_transfer {snapshot : Snapshot} {access : Access} {p : Patch} {resolution : Resolution}
    (linked : p.link o shapes snapshot access code = .ok (after, resolution))
    (size : other.size = code.size) (same : other[p.placeholder]? = code[p.placeholder]?) :
    ∃ final, p.link o shapes snapshot access other = .ok (final, resolution) ∧
      ∀ q : Nat, other[q]? = code[q]? → final[q]? = after[q]? := by
  obtain ⟨slowPath, leads, outcome⟩ := Patch.link_eq_ok_iff.mp linked
  have leads' : (other[p.placeholder]?).bind Inst.target? = some slowPath := by rw [same, leads]
  rcases outcome with ⟨reason, resolved, slow, rfl⟩ | ⟨contents, resolved, installed⟩
  · refine ⟨other, Patch.link_eq_ok_iff.mpr ⟨slowPath, leads', ?_⟩, fun _ agreed => agreed⟩
    exact .inl ⟨reason, resolved, slow, rfl⟩
  · obtain ⟨fits, inside, _⟩ := Patch.install_eq_ok_iff.mp installed
    obtain ⟨final, again⟩ := @Patch.install_succeeds contents other _ fits (size ▸ inside)
    have length := Patch.size_specialize resolved
    refine ⟨final, Patch.link_eq_ok_iff.mpr ⟨slowPath, leads', ?_⟩, ?_⟩
    · exact .inr ⟨contents, resolved, again⟩
    intro q agreed
    rw [Patch.install_eq_ok again length, Patch.install_eq_ok installed length, agreed]

/-- What a step does depends on the instructions that it touches and on the size of the code. -/
theorem run_transfer (linked : step.run o shapes code = .ok (after, own))
    (size : other.size = code.size) (same : ∀ q, step.Touches q → other[q]? = code[q]?) :
    ∃ final, step.run o shapes other = .ok (final, own) ∧
      ∀ q : Nat, other[q]? = code[q]? → final[q]? = after[q]? := by
  cases step with
  | exit p position =>
    obtain ⟨exited, rfl⟩ := run_exit_eq_ok_iff.mp linked
    obtain ⟨final, again, agree⟩ := linkExit_transfer exited (same position rfl)
    exact ⟨final, run_exit_eq_ok_iff.mpr ⟨again, rfl⟩, agree⟩
  | region snapshot access site i p =>
    obtain ⟨resolution, filled, rfl⟩ := run_region_eq_ok_iff.mp linked
    obtain ⟨final, again, agree⟩ := link_transfer filled size (same p.placeholder (.inl rfl))
    exact ⟨final, run_region_eq_ok_iff.mpr ⟨resolution, again, rfl⟩, agree⟩
  | fail e => cases linked

theorem runAll_transfer (linked : runAll o shapes steps code = .ok (after, report))
    (size : other.size = code.size)
    (same : ∀ step ∈ steps, ∀ q, step.Touches q → other[q]? = code[q]?) :
    ∃ final, runAll o shapes steps other = .ok (final, report) ∧
      ∀ q : Nat, other[q]? = code[q]? → final[q]? = after[q]? := by
  induction steps generalizing code other report with
  | nil =>
    cases linked
    exact ⟨other, rfl, fun _ agreed => agreed⟩
  | cons step rest ih =>
    obtain ⟨mid, own, more, first, others, rfl⟩ := runAll_cons_eq_ok_iff.mp linked
    rw [List.forall_mem_cons] at same
    obtain ⟨mid', first', agree⟩ := run_transfer first size same.1
    have sizes : mid'.size = mid.size :=
      calc mid'.size = other.size := (run_rewritten first').size
        _ = code.size := size
        _ = mid.size := (run_rewritten first).size.symm
    obtain ⟨final, others', agree'⟩ := ih others sizes fun next taken q touched =>
      agree q (same.2 next taken q touched)
    exact ⟨final, runAll_cons_eq_ok_iff.mpr ⟨mid', own, more, first', others', rfl⟩,
      fun q agreed => agree' q (agree q agreed)⟩

end Transfer

section Alone

variable {o : Options} {shapes : ShapeModel} {code after other : Array Inst}
  {steps : List LinkStep} {report : List Outcome}

def AllApart (steps others : List LinkStep) : Prop :=
  ∀ step ∈ steps, ∀ other ∈ others, step.Apart other

theorem AllApart.symm {others : List LinkStep} (apart : AllApart steps others) :
    AllApart others steps :=
  fun other taken step taken' => (apart step taken' other taken).symm

def soloReport (o : Options) (shapes : ShapeModel) (code : Array Inst) (steps : List LinkStep) :
    List Outcome :=
  match runAll o shapes steps code with
  | .ok (_, report) => report
  | .error _ => []

/-- The steps have the effect that they would have by themselves. -/
def LinkedAlone (o : Options) (shapes : ShapeModel) (code after : Array Inst)
    (steps : List LinkStep) : Prop :=
  ∃ alone, runAll o shapes steps code = .ok (alone, soloReport o shapes code steps) ∧
    ∀ step ∈ steps, ∀ q, step.Touches q → after[q]? = alone[q]?

theorem runAll_eq_soloReport (linked : runAll o shapes steps code = .ok (after, report)) :
    report = soloReport o shapes code steps := by
  rw [soloReport, linked]

theorem LinkedAlone.congr (alone : LinkedAlone o shapes code after steps)
    (size : other.size = code.size)
    (same : ∀ step ∈ steps, ∀ q, step.Touches q → other[q]? = code[q]?) :
    LinkedAlone o shapes other after steps ∧
      soloReport o shapes other steps = soloReport o shapes code steps := by
  obtain ⟨final, done, agree⟩ := alone
  obtain ⟨final', again, agree'⟩ := runAll_transfer done size same
  have reports := runAll_eq_soloReport again
  refine ⟨⟨final', reports ▸ again, fun step taken q touched => ?_⟩, reports.symm⟩
  rw [agree step taken q touched, agree' q (same step taken q touched)]

/-- Sequences of steps apart from each other are taken as each is by itself. -/
theorem runAll_flatten_eq_ok_iff {groups : List (List LinkStep)}
    (apart : groups.Pairwise AllApart) :
    runAll o shapes groups.flatten code = .ok (after, report) ↔
      after.size = code.size ∧
      (∀ q : Nat, (∀ steps ∈ groups, ∀ step ∈ steps, ¬ step.Touches q) → after[q]? = code[q]?) ∧
      report = groups.flatMap (soloReport o shapes code) ∧
      ∀ steps ∈ groups, LinkedAlone o shapes code after steps := by
  induction groups generalizing code report with
  | nil =>
    constructor
    · intro linked
      cases linked
      exact ⟨rfl, fun _ _ => rfl, rfl, by simp⟩
    · rintro ⟨_, frame, rfl, _⟩
      have same : code = after := Array.ext_getElem? fun q => (frame q (by simp)).symm
      rw [same]
      rfl
  | cons steps rest ih =>
    rw [List.pairwise_cons] at apart
    -- The steps of the other groups find the same instructions before and after the first group.
    have kept {mid : Array Inst} {own : List Outcome}
        (first : runAll o shapes steps code = .ok (mid, own)) (others : List LinkStep)
        (listed : others ∈ rest) :
        ∀ other ∈ others, ∀ q, other.Touches q → mid[q]? = code[q]? :=
      fun other taken q touched => (runAll_rewritten first).frame fun step before back =>
        apart.1 others listed step before other taken q back touched
    rw [List.flatten_cons, runAll_append_eq_ok_iff, List.flatMap_cons]
    constructor
    · rintro ⟨mid, own, more, first, others, rfl⟩
      obtain ⟨size, frame, rfl, each⟩ := (ih apart.2).mp others
      have sizes := (runAll_rewritten first).size
      have alone (others : List LinkStep) (listed : others ∈ rest) :=
        (each others listed).congr sizes.symm fun other taken q touched =>
          (kept first others listed other taken q touched).symm
      refine ⟨size.trans sizes, fun q outside => ?_, ?_, List.forall_mem_cons.mpr ⟨?_, ?_⟩⟩
      · rw [List.forall_mem_cons] at outside
        rw [frame q outside.2, (runAll_rewritten first).frame outside.1]
      · rw [runAll_eq_soloReport first, List.flatMap_def, List.flatMap_def,
          List.map_congr_left fun others listed => (alone others listed).2.symm]
      · refine ⟨mid, runAll_eq_soloReport first ▸ first, fun step taken q touched => ?_⟩
        exact frame q fun others listed other => fun later back =>
          apart.1 others listed step taken other later q touched back
      · exact fun others listed => (alone others listed).1
    · rintro ⟨size, frame, rfl, each⟩
      rw [List.forall_mem_cons] at each
      obtain ⟨⟨mid, first, agree⟩, each⟩ := each
      have rewritten := runAll_rewritten first
      have alone (others : List LinkStep) (listed : others ∈ rest) :=
        (each others listed).congr rewritten.size (kept first others listed)
      refine ⟨mid, _, rest.flatMap (soloReport o shapes mid), first,
        (ih apart.2).mpr ⟨size.trans rewritten.size.symm, fun q outside => ?_, rfl,
          fun others listed => (alone others listed).1⟩, ?_⟩
      · by_cases touched : ∃ step ∈ steps, step.Touches q
        · obtain ⟨step, taken, touched⟩ := touched
          exact agree step taken q touched
        · have untouched : ∀ step ∈ steps, ¬ step.Touches q :=
            fun step taken back => touched ⟨step, taken, back⟩
          rw [frame q (List.forall_mem_cons.mpr ⟨untouched, outside⟩), rewritten.frame untouched]
      · rw [List.flatMap_def, List.flatMap_def,
          List.map_congr_left fun others listed => (alone others listed).2]

end Alone

end LinkStep

section Numbers

variable {o : Options} {shapes : ShapeModel} {code after : Array Inst} {steps : List LinkStep}

def Outcome.renumber (site : Nat) (r : Outcome) : Outcome := { r with site }

namespace LinkStep

def renumber (number : Nat) : LinkStep → LinkStep
  | region snapshot access _ i p => region snapshot access number i p
  | step => step

theorem touches_renumber {number q : Nat} {step : LinkStep} :
    (step.renumber number).Touches q ↔ step.Touches q := by
  cases step <;> rfl

theorem runAll_renumber (number : Nat) (steps : List LinkStep) (code : Array Inst) :
    runAll o shapes (steps.map (renumber number)) code =
      (fun x => (x.1, x.2.map (Outcome.renumber number))) <$> runAll o shapes steps code := by
  induction steps generalizing code with
  | nil => rfl
  | cons step rest ih =>
    have here : (step.renumber number).run o shapes code =
        (fun x => (x.1, x.2.map (Outcome.renumber number))) <$> step.run o shapes code := by
      cases step with
      | exit p position => simp [renumber, run]
      | region snapshot access site i p => simp [renumber, run, Outcome.renumber]
      | fail e => rfl
    simp [runAll, here, ih]

theorem soloReport_renumber (number : Nat) (steps : List LinkStep) :
    soloReport o shapes code (steps.map (renumber number)) =
      (soloReport o shapes code steps).map (Outcome.renumber number) := by
  rw [soloReport, soloReport, runAll_renumber]
  cases runAll o shapes steps code <;> rfl

theorem LinkedAlone.renumber (alone : LinkedAlone o shapes code after steps) (number : Nat) :
    LinkedAlone o shapes code after (steps.map (LinkStep.renumber number)) := by
  obtain ⟨final, done, agree⟩ := alone
  refine ⟨final, ?_, fun step taken q touched => ?_⟩
  · rw [runAll_renumber, done, soloReport_renumber]
    rfl
  · obtain ⟨earlier, listed, rfl⟩ := List.mem_map.mp taken
    exact agree earlier listed q (touches_renumber.mp touched)

theorem AllApart.renumber {others : List LinkStep} (apart : AllApart steps others) (n m : Nat) :
    AllApart (steps.map (LinkStep.renumber n)) (others.map (LinkStep.renumber m)) := by
  intro step taken other taken' q touched back
  obtain ⟨step, listed, rfl⟩ := List.mem_map.mp taken
  obtain ⟨other, listed', rfl⟩ := List.mem_map.mp taken'
  exact apart step listed other listed' q (touches_renumber.mp touched) (touches_renumber.mp back)

end LinkStep

theorem Site.Linkable.steps_renumber {maps : StackMaps} {s : Site} (linkable : s.Linkable maps)
    (index number : Nat) :
    (s.steps maps index).map (LinkStep.renumber number) = s.steps maps number := by
  rw [linkable.steps_eq, linkable.steps_eq, List.map_append, List.map_map]
  cases maps s.stackMap with
  | none => rfl
  | some snapshot =>
    rw [List.map_map]
    rfl

end Numbers

theorem Outcome.filter_site {n : Nat} {outcomes : Fin n → List Outcome}
    (own : ∀ j, ∀ r ∈ outcomes j, r.site = j.val) (i : Fin n) :
    ((List.finRange n).flatMap outcomes).filter (fun r => r.site == i.val) = outcomes i := by
  have foreign (j : Fin n) (differ : j ≠ i) :
      (outcomes j).filter (fun r => r.site == i.val) = [] := by
    rw [List.filter_eq_nil_iff]
    intro r listed
    rw [own j r listed, beq_iff_eq]
    exact fun same => differ (Fin.ext same)
  have domestic : (outcomes i).filter (fun r => r.site == i.val) = outcomes i := by
    rw [List.filter_eq_self]
    intro r listed
    rw [own i r listed, beq_self_eq_true]
  obtain ⟨early, late, split⟩ := List.append_of_mem (List.mem_finRange i)
  have distinct := List.nodup_finRange n
  rw [split, List.nodup_middle, List.nodup_cons, List.mem_append, not_or] at distinct
  rw [split, List.flatMap_append, List.flatMap_cons, List.filter_append, List.filter_append,
    domestic, List.filter_flatMap, List.filter_flatMap]
  have before : early.flatMap (fun j => (outcomes j).filter fun r => r.site == i.val) = [] :=
    List.flatMap_eq_nil_iff.mpr fun j listed => foreign j fun same => distinct.1.1 (same ▸ listed)
  have behind : late.flatMap (fun j => (outcomes j).filter fun r => r.site == i.val) = [] :=
    List.flatMap_eq_nil_iff.mpr fun j listed => foreign j fun same => distinct.1.2 (same ▸ listed)
  rw [before, behind, List.append_nil, List.nil_append]

namespace Finished

/-- Regions are apart from each other and start with their placeholders, and the exits are different
and lie outside of the regions. -/
structure Separate (u : Finished) : Prop where
  nonempty : ∀ r ∈ u.regions, 0 < r.length
  apart : u.regions.Pairwise Region.Apart
  placeholders : ∀ s ∈ u.sites, ∀ p ∈ s.patches, p.placeholder = p.region.start
  distinct : u.exits.Nodup
  outside : ∀ exit ∈ u.exits, ∀ r ∈ u.regions, ¬ r.Covers exit

namespace Separate

variable {u : Finished} {maps : StackMaps} {s : Site} {step : LinkStep} {index q : Nat}

theorem covers_of_touched {p : Patch} (separate : u.Separate) (member : s ∈ u.sites)
    (listed : p ∈ s.patches) (touched : q = p.placeholder ∨ p.region.Covers q) :
    p.region.Covers q := by
  rcases touched with rfl | covered
  · have positive := separate.nonempty p.region
      (List.mem_flatMap.mpr ⟨s, member, List.mem_map_of_mem listed⟩)
    rw [separate.placeholders s member p listed]
    exact ⟨Nat.le_refl _, Nat.lt_add_of_pos_right positive⟩
  · exact covered

theorem covers_of_touches (separate : u.Separate) (member : s ∈ u.sites)
    (taken : step ∈ s.steps maps index) (touched : step.Touches q) :
    q ∈ s.exits ∨ ∃ r ∈ s.patches.map Patch.region, r.Covers q := by
  cases step with
  | exit p position =>
    cases touched
    exact .inl (List.of_mem_zip (Site.exit_mem_steps_iff.mp taken).2).2
  | region snapshot access site i p =>
    have listed := List.mem_of_getElem? (Site.region_mem_steps_iff.mp taken).2.2.2.2
    exact .inr ⟨p.region, List.mem_map_of_mem listed,
      separate.covers_of_touched member listed touched⟩
  | fail e => cases touched

theorem site_apart (separate : u.Separate) (member : s ∈ u.sites) :
    (s.steps maps index).Pairwise LinkStep.Apart := by
  have regions := (List.pairwise_flatMap.mp separate.apart).1 s member
  have exits := (List.nodup_flatMap.mp separate.distinct).1 s member
  rw [Site.steps]
  split
  next => exact List.pairwise_singleton _ _
  next balanced =>
    rw [List.pairwise_append]
    refine ⟨?_, ?_, ?_⟩
    · rw [← Site.map_snd_returns (Decidable.not_not.mp balanced)] at exits
      apply List.pairwise_map.mpr ((List.pairwise_map.mp exits).imp _)
      intro first second differ q here there
      exact differ (here.symm.trans there)
    · cases maps s.stackMap with
      | none => cases s.patches.isEmpty <;> simp
      | some snapshot =>
        rw [← List.zipIdx_map_fst 0 s.patches, List.map_map, List.pairwise_map] at regions
        apply List.pairwise_map.mpr (regions.imp_of_mem _)
        intro first second listed listed' apart q here there
        exact apart.not_covers
          (separate.covers_of_touched member (List.fst_mem_of_mem_zipIdx listed) here)
          (separate.covers_of_touched member (List.fst_mem_of_mem_zipIdx listed') there)
    · intro first taken second taken' q here there
      obtain ⟨⟨_, exit⟩, zipped, rfl⟩ := List.mem_map.mp taken
      cases here
      have recorded : exit ∈ u.exits :=
        List.mem_flatMap.mpr ⟨s, member, (List.of_mem_zip zipped).2⟩
      cases known : maps s.stackMap with
      | none =>
        rw [known] at taken'
        cases none : s.patches.isEmpty with
        | true => simp [none] at taken'
        | false =>
          simp only [none, Bool.false_eq_true, if_false, List.mem_singleton] at taken'
          cases taken'
          exact there
      | some snapshot =>
        rw [known] at taken'
        obtain ⟨⟨p, i⟩, listed, rfl⟩ := List.mem_map.mp taken'
        have patch := List.fst_mem_of_mem_zipIdx listed
        exact separate.outside exit recorded p.region
          (List.mem_flatMap.mpr ⟨s, member, List.mem_map_of_mem patch⟩)
          (separate.covers_of_touched member patch there)

theorem steps_apart (separate : u.Separate) : (u.plan maps).Pairwise LinkStep.Apart := by
  have regions := (List.pairwise_flatMap.mp separate.apart).2
  have exits := (List.nodup_flatMap.mp separate.distinct).2
  have both := regions.and exits
  rw [← List.zipIdx_map_fst 0 u.sites, List.pairwise_map] at both
  refine List.pairwise_flatMap.mpr ⟨fun x listed => ?_, both.imp_of_mem ?_⟩
  · exact separate.site_apart (List.fst_mem_of_mem_zipIdx listed)
  · rintro ⟨s, j⟩ ⟨t, k⟩ listed listed' ⟨apart, distinct⟩ step taken other taken' q here there
    have first := List.fst_mem_of_mem_zipIdx listed
    have second := List.fst_mem_of_mem_zipIdx listed'
    rcases separate.covers_of_touches first taken here with exit | ⟨r, region, covered⟩
    · rcases separate.covers_of_touches second taken' there with again | ⟨r, region, covered⟩
      · exact distinct exit again
      · exact separate.outside q (List.mem_flatMap.mpr ⟨s, first, exit⟩) r
          (List.mem_flatMap.mpr ⟨t, second, region⟩) covered
    · rcases separate.covers_of_touches second taken' there with again | ⟨r', region', covered'⟩
      · exact separate.outside q (List.mem_flatMap.mpr ⟨t, second, again⟩) r
          (List.mem_flatMap.mpr ⟨s, first, region⟩) covered
      · exact (apart r region r' region').not_covers covered covered'

end Separate

/-- A unit with its sites in another order: the one given by `σ` comes in each place. -/
def reorder (u : Finished) (σ : Equiv.Perm (Fin u.sites.length)) : Finished :=
  { u with sites := List.ofFn fun k => u.sites[σ k] }

def siteSteps (maps : StackMaps) (u : Finished) (k : Fin u.sites.length) : List LinkStep :=
  u.sites[k].steps maps k

theorem plan_eq_flatten (u : Finished) (maps : StackMaps) :
    u.plan maps = ((List.finRange u.sites.length).map (u.siteSteps maps)).flatten := by
  rw [plan, List.flatMap_def]
  congr 1
  apply List.ext_getElem
  · simp
  · intro k place place'
    simp [siteSteps]

theorem plan_reorder {u : Finished} {maps : StackMaps} (linkable : ∀ s ∈ u.sites, s.Linkable maps)
    (σ : Equiv.Perm (Fin u.sites.length)) :
    (u.reorder σ).plan maps = ((List.finRange u.sites.length).map fun k =>
      (u.siteSteps maps (σ k)).map (LinkStep.renumber k)).flatten := by
  rw [plan, List.flatMap_def]
  congr 1
  apply List.ext_getElem
  · simp [reorder]
  · intro k place place'
    simp [reorder, siteSteps, (linkable _ (List.getElem_mem _)).steps_renumber]

theorem Separate.siteSteps_apart {u : Finished} (separate : u.Separate) (maps : StackMaps)
    {i j : Fin u.sites.length} (differ : i ≠ j) :
    LinkStep.AllApart (u.siteSteps maps i) (u.siteSteps maps j) := by
  have steps : (u.plan maps).Pairwise LinkStep.Apart := separate.steps_apart
  rw [plan_eq_flatten, List.pairwise_flatten, List.pairwise_map] at steps
  have across : (List.finRange u.sites.length).Pairwise fun i j =>
      LinkStep.AllApart (u.siteSteps maps i) (u.siteSteps maps j) := steps.2
  have symmetric : Std.Symm fun i j : Fin u.sites.length =>
      LinkStep.AllApart (u.siteSteps maps i) (u.siteSteps maps j) := ⟨fun _ _ => .symm⟩
  exact across.forall (List.mem_finRange i) (List.mem_finRange j) differ

theorem site_of_linkedAlone {u : Finished} {maps : StackMaps} {shapes : ShapeModel}
    {after : Array Inst} (linkable : ∀ s ∈ u.sites, s.Linkable maps) {k : Fin u.sites.length}
    (alone : LinkStep.LinkedAlone u.options shapes u.code after (u.siteSteps maps k)) :
    ∀ r ∈ LinkStep.soloReport u.options shapes u.code (u.siteSteps maps k), r.site = k.val := by
  intro r listed
  obtain ⟨_, done, _⟩ := alone
  have subject : r.subject ∈ _ := List.mem_map_of_mem listed
  have own : (u.siteSteps maps k).filterMap LinkStep.subject? =
      Patch.subjects k u.sites[k].patches :=
    (linkable _ (List.getElem_mem _)).filterMap_subject? k
  rw [(LinkStep.runAll_rewritten done).listed, own, Patch.subjects, List.mem_map] at subject
  obtain ⟨_, _, same⟩ := subject
  exact (congrArg Prod.fst same).symm

/-- The order of the sites does not matter: the code is the same, and each site reports what it
reported in its old place. -/
theorem link_reorder {u : Finished} {l : Linked} {maps : StackMaps} {shapes : ShapeModel}
    (separate : u.Separate) (linked : u.link maps shapes = .ok l)
    (σ : Equiv.Perm (Fin u.sites.length)) :
    (u.reorder σ).link maps shapes = .ok
      ⟨l.code, (List.finRange u.sites.length).flatMap fun k =>
        (l.report.filter fun r => r.site == (σ k).val).map (Outcome.renumber k)⟩ := by
  have linkable := linkable linked
  have apart : ((List.finRange u.sites.length).map (u.siteSteps maps)).Pairwise LinkStep.AllApart :=
    List.pairwise_map.mpr ((List.nodup_finRange _).imp (separate.siteSteps_apart maps))
  have reordered : ((List.finRange u.sites.length).map fun k =>
      (u.siteSteps maps (σ k)).map (LinkStep.renumber k)).Pairwise LinkStep.AllApart := by
    apply List.pairwise_map.mpr ((List.nodup_finRange _).imp _)
    intro i j differ
    exact (separate.siteSteps_apart maps (σ.injective.ne differ)).renumber i j
  rw [link_eq_ok_iff, plan_eq_flatten, LinkStep.runAll_flatten_eq_ok_iff apart] at linked
  obtain ⟨size, frame, report, each⟩ := linked
  rw [List.flatMap_map] at report
  have alone (k : Fin u.sites.length) := each _ (List.mem_map_of_mem (List.mem_finRange k))
  rw [link_eq_ok_iff, plan_reorder linkable]
  apply (LinkStep.runAll_flatten_eq_ok_iff reordered).mpr
  refine ⟨size, fun q outside => frame q ?_, ?_, ?_⟩
  · intro steps listed step taken touched
    obtain ⟨k, _, rfl⟩ := List.mem_map.mp listed
    have moved := outside _ (List.mem_map_of_mem (List.mem_finRange (σ.symm k)))
    rw [σ.apply_symm_apply] at moved
    exact moved _ (List.mem_map_of_mem taken) (LinkStep.touches_renumber.mpr touched)
  · rw [List.flatMap_map]
    apply congrArg fun grouped => (List.finRange u.sites.length).flatMap grouped
    funext k
    rw [LinkStep.soloReport_renumber, report,
      Outcome.filter_site (fun k => site_of_linkedAlone linkable (alone k)) (σ k)]
    rfl
  · intro steps listed
    obtain ⟨k, _, rfl⟩ := List.mem_map.mp listed
    exact (alone (σ k)).renumber k

def adjacent : Finished where
  options := {}
  code := #[.branch .alwaysPatchable (some 7), .nop, .nop,
    .branch .alwaysPatchable (some 9), .nop, .nop, .ret,
    .callSlowPath ⟨.read, ⟨0#32⟩, ⟨0#32⟩⟩, .branch .always none,
    .callSlowPath ⟨.has, ⟨1#32⟩, ⟨0#32⟩⟩, .branch .always none]
  sites := [⟨⟨0#32⟩, ⟨0#32⟩, .read ⟨0#32⟩, [⟨0, ⟨0, 3⟩, 0, 3⟩], [8]⟩,
    ⟨⟨1#32⟩, ⟨0#32⟩, .has ⟨0#32⟩, [⟨3, ⟨3, 3⟩, 3, 6⟩], [10]⟩]

theorem link_adjacent_reversed :
    ∃ l, adjacent.link (fun _ => some ⟨.packed .t0, .t3, none, some (.packed .t1), some ⟨1#32⟩⟩)
        ⟨fun id => some ⟨id, 0#8, 0x11#8, 0#8⟩, fun _ _ => some 2#32, fun _ _ => none⟩ = .ok l ∧
      (adjacent.reorder Fin.revPerm).link
          (fun _ => some ⟨.packed .t0, .t3, none, some (.packed .t1), some ⟨1#32⟩⟩)
          ⟨fun id => some ⟨id, 0#8, 0x11#8, 0#8⟩, fun _ _ => some 2#32, fun _ _ => none⟩ =
        .ok ⟨l.code, [⟨0, 0, ⟨3, 3⟩, .present ⟨1#32⟩⟩, ⟨1, 0, ⟨0, 3⟩, .load ⟨1#32⟩ 2#32⟩]⟩ := by
  have separate : adjacent.Separate := by
    constructor
    · decide
    · decide
    · decide
    · decide
    · decide
  exact ⟨_, rfl, link_reorder separate rfl Fin.revPerm⟩

end Finished

end InlineCache
