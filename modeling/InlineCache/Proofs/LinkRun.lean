import InlineCache.Proofs.RegionContents

/-!
What a run of the linker does, for units of any contents: regions may overlap each other and the
exits, and an exit may be recorded twice. Linking is a sequence of steps, each of which gives an
exit its target, links a region, or gives up. The loops of the linker are shown to take these steps;
everything else is said of one step and follows for sequences of them.
-/

namespace InlineCache

def OpenAt (code : Array Inst) (index : Nat) : Prop :=
  ∃ i, code[index]? = some i ∧ i.isUnlinked = true

/-- The outcome filled the region that the index lies in. -/
def Outcome.Overwrites (r : Outcome) (index : Nat) : Prop :=
  r.resolution.isSpecialized = true ∧ r.region.Covers index

def Outcome.subject (r : Outcome) : Nat × Nat × Region := (r.site, r.patch, r.region)

def Patch.subjects (site : Nat) (patches : List Patch) : List (Nat × Nat × Region) :=
  patches.zipIdx.map fun (p, i) => (site, i, p.region)

def Site.returns (s : Site) : List (Patch × Nat) := s.patches.zip s.exits

inductive LinkStep where
  | exit (p : Patch) (position : Nat)
  | region (snapshot : Snapshot) (access : Access) (site index : Nat) (p : Patch)
  | fail (e : BuildError)

namespace LinkStep

def run (o : Options) (shapes : ShapeModel) (code : Array Inst) :
    LinkStep → Except Failure (Array Inst × List Outcome)
  | exit p position => do
      let code ← Site.linkExit code p position
      return (code, [])
  | region snapshot access site index p => do
      let (code, resolution) ← p.link o shapes snapshot access code
      return (code, [⟨site, index, p.region, resolution⟩])
  | fail e => throw (.error e)

def runAll (o : Options) (shapes : ShapeModel) :
    List LinkStep → Array Inst → Except Failure (Array Inst × List Outcome)
  | [], code => return (code, [])
  | step :: rest, code => do
      let (code, report) ← step.run o shapes code
      let (code, more) ← runAll o shapes rest code
      return (code, report ++ more)

def return? : LinkStep → Option (Patch × Nat)
  | exit p position => some (p, position)
  | _ => none

def subject? : LinkStep → Option (Nat × Nat × Region)
  | region _ _ site index p => some (site, index, p.region)
  | _ => none

/-- The indices of the code that a step depends on. -/
def Touches : LinkStep → Nat → Prop
  | exit _ position, q => q = position
  | region _ _ _ _ p, q => q = p.placeholder ∨ p.region.Covers q
  | fail _, _ => False

def Apart (step other : LinkStep) : Prop := ∀ q, step.Touches q → ¬ other.Touches q

theorem Apart.symm {step other : LinkStep} (apart : step.Apart other) : other.Apart step :=
  fun q touched back => apart q back touched

end LinkStep

def Site.steps (maps : StackMaps) (index : Nat) (s : Site) : List LinkStep :=
  if s.patches.length ≠ s.exits.length then
    [.fail (.unbalancedExits index s.patches.length s.exits.length)]
  else s.returns.map (fun pair => .exit pair.1 pair.2) ++
    match maps s.stackMap with
    | some snapshot =>
        s.patches.zipIdx.map fun pair => .region snapshot s.access index pair.2 pair.1
    | none => if s.patches.isEmpty then [] else [.fail (.missingStackMap s.stackMap)]

def Finished.plan (maps : StackMaps) (u : Finished) : List LinkStep :=
  u.sites.zipIdx.flatMap fun (s, j) => s.steps maps j

section Loops

variable (o : Options) (maps : StackMaps) (shapes : ShapeModel)

namespace LinkStep

theorem runAll_append (early late : List LinkStep) (code : Array Inst) :
    runAll o shapes (early ++ late) code = do
      let (mid, report) ← runAll o shapes early code
      let (after, more) ← runAll o shapes late mid
      return (after, report ++ more) := by
  induction early generalizing code with
  | nil => simp [runAll]
  | cons step rest ih => simp [runAll, ih]

end LinkStep

theorem Site.runAll_returns (returns : List (Patch × Nat)) (code : Array Inst) :
    LinkStep.runAll o shapes (returns.map fun pair => .exit pair.1 pair.2) code = do
      let after ← (returns.foldlM (fun code (p, exit) => linkExit code p exit) code :
        Except BuildError (Array Inst))
      return (after, []) := by
  induction returns generalizing code with
  | nil => rfl
  | cons pair rest ih =>
    rw [List.map_cons, LinkStep.runAll, List.foldlM_cons]
    simp only [LinkStep.run, ih]
    cases linkExit code pair.1 pair.2 with
    | error e => rfl
    | ok mid =>
      simp
      rfl

theorem Site.linkPatches_eq_runAll (snapshot : Snapshot) (access : Access) (site first : Nat)
    (patches : List Patch) (code : Array Inst) :
    linkPatches o shapes snapshot access site first patches code =
      LinkStep.runAll o shapes
        ((patches.zipIdx first).map fun pair => .region snapshot access site pair.2 pair.1)
        code := by
  induction patches generalizing first code with
  | nil => rfl
  | cons p rest ih =>
    rw [linkPatches, List.zipIdx_cons, List.map_cons, LinkStep.runAll]
    simp only [LinkStep.run, ih]
    cases p.link o shapes snapshot access code <;> rfl

theorem Site.link_eq_runAll (index : Nat) (s : Site) (code : Array Inst) :
    s.link o maps shapes index code = LinkStep.runAll o shapes (s.steps maps index) code := by
  rw [link, steps]
  split
  next => rfl
  next =>
    rw [LinkStep.runAll_append, runAll_returns, returns]
    cases (s.patches.zip s.exits).foldlM (fun code (p, exit) => linkExit code p exit) code with
    | error e => rfl
    | ok mid =>
      cases known : maps s.stackMap with
      | none =>
        cases s.patches with
        | nil => rfl
        | cons p rest => rfl
      | some snapshot =>
        have regions := linkPatches_eq_runAll o shapes snapshot s.access index 0 s.patches mid
        cases none : s.patches with
        | nil => rfl
        | cons p rest =>
          rw [none] at regions
          change linkPatches o shapes snapshot s.access index 0 (p :: rest) mid =
            (fun x => (x.1, [] ++ x.2)) <$> LinkStep.runAll o shapes _ mid
          rw [regions]
          simp

theorem Finished.linkSites_eq_runAll (first : Nat) (sites : List Site) (code : Array Inst) :
    linkSites o maps shapes first sites code = LinkStep.runAll o shapes
      ((sites.zipIdx first).flatMap fun (s, j) => s.steps maps j) code := by
  induction sites generalizing first code with
  | nil => rfl
  | cons s rest ih =>
    rw [linkSites, List.zipIdx_cons, List.flatMap_cons, LinkStep.runAll_append]
    simp only [Site.link_eq_runAll, ih]

end Loops

theorem Finished.link_eq (u : Finished) (maps : StackMaps) (shapes : ShapeModel) :
    u.link maps shapes =
      (fun x => ⟨x.1, x.2⟩) <$> LinkStep.runAll u.options shapes (u.plan maps) u.code := by
  rw [link, linkSites_eq_runAll, plan]
  simp

theorem Finished.link_eq_ok_iff {u : Finished} {maps : StackMaps} {shapes : ShapeModel}
    {l : Linked} :
    u.link maps shapes = .ok l ↔
      LinkStep.runAll u.options shapes (u.plan maps) u.code = .ok (l.code, l.report) := by
  rw [link_eq]
  cases LinkStep.runAll u.options shapes (u.plan maps) u.code with
  | error e => exact iff_of_false nofun nofun
  | ok x =>
    constructor
    · rintro ⟨rfl⟩
      rfl
    · rintro ⟨rfl⟩
      rfl

def lastDone? (returns : List (Patch × Nat)) (index : Nat) : Option Nat :=
  ((returns.filter fun pair => pair.2 == index).getLast?).map fun pair => pair.1.done

/-- The instruction at an index is as it was, or is a branch that got the target given. -/
def RedirectedAt (code after : Array Inst) (index : Nat) : Option Nat → Prop
  | none => after[index]? = code[index]?
  | some target => ∃ cond old, code[index]? = some (.branch cond old) ∧
      after[index]? = some (.branch cond (some target))

/-- What linking does to code, given the steps that it takes and what it reports. Of several exits
at one index the last one decides. -/
structure Rewritten (code after : Array Inst) (steps : List LinkStep) (report : List Outcome) :
    Prop where
  size : after.size = code.size
  listed : report.map Outcome.subject = steps.filterMap LinkStep.subject?
  redirected : ∀ index, (∀ r ∈ report, ¬ r.Overwrites index) →
    RedirectedAt code after index (lastDone? (steps.filterMap LinkStep.return?) index)
  closed : ∀ index, (∃ r ∈ report, r.Overwrites index) → ¬ OpenAt after index

section Stages

variable {code mid after : Array Inst} {index : Nat}

theorem OpenAt.congr (same : after[index]? = code[index]?) :
    OpenAt after index ↔ OpenAt code index := by
  unfold OpenAt
  rw [same]

theorem lastDone?_append (early late : List (Patch × Nat)) (index : Nat) :
    lastDone? (early ++ late) index = (lastDone? late index).or (lastDone? early index) := by
  unfold lastDone?
  rw [List.filter_append, List.getLast?_append, Option.map_or]

theorem lastDone?_eq_none_iff {returns : List (Patch × Nat)} :
    lastDone? returns index = none ↔ index ∉ returns.map Prod.snd := by
  rw [lastDone?, Option.map_eq_none_iff, List.getLast?_eq_none_iff, List.filter_eq_nil_iff,
    List.mem_map, not_exists]
  apply forall_congr'
  intro pair
  rw [not_and, beq_iff_eq]

namespace RedirectedAt

theorem trans {first second : Option Nat} (before : RedirectedAt code mid index first)
    (behind : RedirectedAt mid after index second) :
    RedirectedAt code after index (second.or first) := by
  cases second with
  | none =>
    cases first with
    | none => exact Eq.trans behind before
    | some target =>
      obtain ⟨cond, old, found, changed⟩ := before
      exact ⟨cond, old, found, Eq.trans behind changed⟩
  | some target =>
    obtain ⟨cond, old, found, changed⟩ := behind
    cases first with
    | none => exact ⟨cond, old, Eq.trans (Eq.symm before) found, changed⟩
    | some earlier =>
      obtain ⟨cond', old', found', changed'⟩ := before
      cases changed'.symm.trans found
      exact ⟨cond, old', found', changed⟩

theorem openAt_iff {target : Option Nat} (redirected : RedirectedAt code after index target) :
    OpenAt after index ↔ OpenAt code index ∧ target = none := by
  cases target with
  | none => simp [OpenAt.congr redirected]
  | some target =>
    obtain ⟨cond, old, _, changed⟩ := redirected
    simp [OpenAt, changed, Inst.isUnlinked]

end RedirectedAt

namespace Rewritten

theorem refl (code : Array Inst) : Rewritten code code [] [] where
  size := rfl
  listed := rfl
  redirected := fun _ _ => rfl
  closed := by simp

theorem trans {early late : List LinkStep} {report more : List Outcome}
    (first : Rewritten code mid early report) (second : Rewritten mid after late more) :
    Rewritten code after (early ++ late) (report ++ more) where
  size := second.size.trans first.size
  listed := by rw [List.map_append, first.listed, second.listed, List.filterMap_append]
  redirected := by
    intro index outside
    rw [List.forall_mem_append] at outside
    rw [List.filterMap_append, lastDone?_append]
    exact (first.redirected index outside.1).trans (second.redirected index outside.2)
  closed := by
    rintro index ⟨r, member, written⟩
    by_cases later : ∃ r ∈ more, r.Overwrites index
    · exact second.closed index later
    · have before : ¬ OpenAt mid index := by
        rcases List.mem_append.mp member with early | late
        · exact first.closed index ⟨r, early, written⟩
        · exact absurd ⟨r, late, written⟩ later
      have kept := second.redirected index fun r member written => later ⟨r, member, written⟩
      rw [kept.openAt_iff]
      exact fun still => before still.1

theorem openAt_iff {steps : List LinkStep} {report : List Outcome}
    (rewritten : Rewritten code after steps report) :
    OpenAt after index ↔ OpenAt code index ∧
      index ∉ (steps.filterMap LinkStep.return?).map Prod.snd ∧
        ∀ r ∈ report, ¬ r.Overwrites index := by
  by_cases filled : ∃ r ∈ report, r.Overwrites index
  · obtain ⟨r, member, written⟩ := filled
    constructor
    · exact fun still => absurd still (rewritten.closed index ⟨r, member, written⟩)
    · exact fun kept => absurd written (kept.2.2 r member)
  · have outside : ∀ r ∈ report, ¬ r.Overwrites index :=
      fun r member written => filled ⟨r, member, written⟩
    rw [(rewritten.redirected index outside).openAt_iff, lastDone?_eq_none_iff]
    exact ⟨fun kept => ⟨kept.1, kept.2, outside⟩, fun kept => ⟨kept.1, kept.2.1⟩⟩

theorem frame {steps : List LinkStep} {report : List Outcome}
    (rewritten : Rewritten code after steps report)
    (untouched : ∀ step ∈ steps, ¬ step.Touches index) : after[index]? = code[index]? := by
  have outside : ∀ r ∈ report, ¬ r.Overwrites index := by
    intro r member written
    have listed : r.subject ∈ report.map Outcome.subject := List.mem_map_of_mem member
    rw [rewritten.listed, List.mem_filterMap] at listed
    obtain ⟨step, taken, same⟩ := listed
    cases step with
    | region snapshot access site i p =>
      have region : p.region = r.region := congrArg (·.2.2) (Option.some.inj same)
      exact untouched _ taken (.inr (region ▸ written.2))
    | exit p position => cases same
    | fail e => cases same
  have none : lastDone? (steps.filterMap LinkStep.return?) index = none := by
    rw [lastDone?_eq_none_iff]
    intro exit
    obtain ⟨pair, listed, rfl⟩ := List.mem_map.mp exit
    obtain ⟨step, taken, same⟩ := List.mem_filterMap.mp listed
    cases step with
    | exit p position =>
      cases same
      exact untouched _ taken rfl
    | region snapshot access site i p => cases same
    | fail e => cases same
  have here := rewritten.redirected index outside
  rw [none] at here
  exact here

end Rewritten

variable {o : Options} {shapes : ShapeModel} {snapshot : Snapshot} {access : Access}
  {report own : List Outcome} {p : Patch}

theorem Site.size_linkExit {exit : Nat} (linked : linkExit code p exit = .ok after) :
    after.size = code.size := by
  unfold linkExit at linked
  split at linked
  next =>
    cases linked
    exact Array.size_setIfInBounds
  next => cases linked

namespace Patch

variable {resolution : Resolution} {contents : Array Inst}

theorem size_install {r : Region} (installed : install code r contents = .ok after)
    (size : contents.size = r.length) : after.size = code.size := by
  obtain ⟨_, inside, rfl⟩ := install_eq_ok_iff.mp installed
  simp only [Array.size_append, Array.size_extract, size]
  unfold Region.stop at inside ⊢
  omega

theorem size_link (linked : p.link o shapes snapshot access code = .ok (after, resolution)) :
    after.size = code.size := by
  obtain ⟨slowPath, _, ⟨_, _, _, rfl⟩ | ⟨contents, resolved, installed⟩⟩ := link_eq_ok_iff.mp linked
  · rfl
  · exact size_install installed (size_specialize resolved)

theorem not_openAt_specialize {slowPath : Nat}
    (resolved : p.specialize o shapes snapshot access slowPath =
      .ok (.ok (resolution, contents))) : ¬ OpenAt contents index := by
  obtain ⟨shape, rest, _, _, _, _, built⟩ := specialize_eq_ok resolved
  rintro ⟨i, found, unlinked⟩
  rw [← Array.getElem?_toList, built] at found
  obtain ⟨j, _, rfl⟩ := List.mem_map.mp (List.mem_of_getElem? found)
  rw [Inst.isUnlinked_linkOpen] at unlinked
  cases unlinked

end Patch

namespace LinkStep

variable {step : LinkStep} {steps early late : List LinkStep}

theorem run_exit_eq_ok_iff {position : Nat} :
    (exit p position).run o shapes code = .ok (after, own) ↔
      Site.linkExit code p position = .ok after ∧ own = [] := by
  simp only [run, bind_eq_ok_iff, liftError_eq_ok_iff, pure, Except.pure, Except.ok.injEq,
    Prod.mk.injEq]
  constructor
  · rintro ⟨mid, linked, rfl, rfl⟩
    exact ⟨linked, rfl⟩
  · rintro ⟨linked, rfl⟩
    exact ⟨after, linked, rfl, rfl⟩

theorem run_region_eq_ok_iff {site i : Nat} :
    (region snapshot access site i p).run o shapes code = .ok (after, own) ↔
      ∃ resolution, p.link o shapes snapshot access code = .ok (after, resolution) ∧
        own = [⟨site, i, p.region, resolution⟩] := by
  simp only [run, bind_eq_ok_iff, Prod.exists, pure, Except.pure, Except.ok.injEq, Prod.mk.injEq]
  constructor
  · rintro ⟨mid, resolution, linked, rfl, rfl⟩
    exact ⟨resolution, linked, rfl⟩
  · rintro ⟨resolution, linked, rfl⟩
    exact ⟨after, resolution, linked, rfl, rfl⟩

theorem runAll_append_eq_ok_iff :
    runAll o shapes (early ++ late) code = .ok (after, report) ↔
      ∃ mid own more, runAll o shapes early code = .ok (mid, own) ∧
        runAll o shapes late mid = .ok (after, more) ∧ report = own ++ more := by
  simp only [runAll_append, bind_eq_ok_iff, Prod.exists, pure, Except.pure, Except.ok.injEq,
    Prod.mk.injEq]
  constructor
  · rintro ⟨mid, own, first, last, more, others, rfl, rfl⟩
    exact ⟨mid, own, more, first, others, rfl⟩
  · rintro ⟨mid, own, more, first, others, rfl⟩
    exact ⟨mid, own, first, after, more, others, rfl, rfl⟩

theorem runAll_cons_eq_ok_iff :
    runAll o shapes (step :: steps) code = .ok (after, report) ↔
      ∃ mid own more, step.run o shapes code = .ok (mid, own) ∧
        runAll o shapes steps mid = .ok (after, more) ∧ report = own ++ more := by
  simp only [runAll, bind_eq_ok_iff, Prod.exists, pure, Except.pure, Except.ok.injEq,
    Prod.mk.injEq]
  constructor
  · rintro ⟨mid, own, first, last, more, others, rfl, rfl⟩
    exact ⟨mid, own, more, first, others, rfl⟩
  · rintro ⟨mid, own, more, first, others, rfl⟩
    exact ⟨mid, own, first, after, more, others, rfl, rfl⟩

theorem exit_rewritten {position : Nat}
    (linked : Site.linkExit code p position = .ok after) :
    Rewritten code after [exit p position] [] where
  size := Site.size_linkExit linked
  listed := rfl
  redirected := by
    intro index _
    obtain ⟨cond, old, found, changed⟩ := Site.linkExit_eq_ok linked
    have here := changed index
    by_cases same : index = position
    · subst same
      rw [if_pos rfl] at here
      simpa [return?, lastDone?, RedirectedAt, found] using here
    · rw [if_neg same] at here
      simpa [return?, lastDone?, RedirectedAt, Ne.symm same] using here
  closed := by simp

theorem region_rewritten {resolution : Resolution} (site i : Nat)
    (linked : p.link o shapes snapshot access code = .ok (after, resolution)) :
    Rewritten code after [region snapshot access site i p] [⟨site, i, p.region, resolution⟩] where
  size := Patch.size_link linked
  listed := rfl
  redirected := by
    intro index outside
    rw [List.forall_mem_singleton] at outside
    change after[index]? = code[index]?
    obtain ⟨_, slowPath, _, ⟨_, rfl⟩ | ⟨contents, fast, _, changed⟩⟩ := Patch.link_eq_ok linked
    · rfl
    · have away : ¬ p.region.Covers index := fun covered => outside ⟨fast, covered⟩
      rw [changed, if_neg away]
  closed := by
    intro index overwritten
    obtain ⟨r, member, fast, covered⟩ := overwritten
    cases List.mem_singleton.mp member
    obtain ⟨_, slowPath, _, ⟨slow, _⟩ | ⟨contents, _, resolved, changed⟩⟩ :=
      Patch.link_eq_ok linked
    · cases slow.symm.trans fast
    · have here : after[index]? = contents[index - p.region.start]? := by
        rw [changed, if_pos covered]
      rintro ⟨i, found, unlinked⟩
      exact Patch.not_openAt_specialize resolved ⟨i, here ▸ found, unlinked⟩

theorem run_rewritten (linked : step.run o shapes code = .ok (after, own)) :
    Rewritten code after [step] own := by
  cases step with
  | exit p position =>
    obtain ⟨exited, rfl⟩ := run_exit_eq_ok_iff.mp linked
    exact exit_rewritten exited
  | region snapshot access site i p =>
    obtain ⟨resolution, filled, rfl⟩ := run_region_eq_ok_iff.mp linked
    exact region_rewritten site i filled
  | fail e => cases linked

theorem runAll_rewritten (linked : runAll o shapes steps code = .ok (after, report)) :
    Rewritten code after steps report := by
  induction steps generalizing code report with
  | nil =>
    cases linked
    exact .refl _
  | cons step rest ih =>
    obtain ⟨mid, own, more, first, others, rfl⟩ := runAll_cons_eq_ok_iff.mp linked
    exact (run_rewritten first).trans (ih others)

/-- A step apart from all others finds the code it depends on as it was at the start, and what it
makes of it stays. -/
theorem run_of_mem (linked : runAll o shapes steps code = .ok (after, report))
    (apart : steps.Pairwise Apart) (member : step ∈ steps) :
    ∃ mid done own, step.run o shapes mid = .ok (done, own) ∧ (∀ r ∈ own, r ∈ report) ∧
      ∀ q, step.Touches q → mid[q]? = code[q]? ∧ after[q]? = done[q]? := by
  obtain ⟨early, late, rfl⟩ := List.append_of_mem member
  obtain ⟨mid, before, rest, first, others, rfl⟩ := runAll_append_eq_ok_iff.mp linked
  obtain ⟨done, own, behind, here, last, rfl⟩ := runAll_cons_eq_ok_iff.mp others
  obtain ⟨_, following, preceding⟩ := List.pairwise_append.mp apart
  refine ⟨mid, done, own, here, ?_, fun q touched => ⟨?_, ?_⟩⟩
  · intro r listed
    exact List.mem_append_right _ (List.mem_append_left _ listed)
  · exact (runAll_rewritten first).frame fun other taken back =>
      preceding other taken step List.mem_cons_self q back touched
  · exact (runAll_rewritten last).frame fun other taken =>
      (List.pairwise_cons.mp following).1 other taken q touched

/-- An outcome in the report comes from the step that linked the region. -/
theorem run_of_outcome {before behind : List Outcome} {r : Outcome}
    (linked : runAll o shapes steps code = .ok (after, before ++ r :: behind)) :
    ∃ snapshot access p late mid done, region snapshot access r.site r.patch p ∈ steps ∧
      p.region = r.region ∧ p.link o shapes snapshot access mid = .ok (done, r.resolution) ∧
      runAll o shapes late done = .ok (after, behind) := by
  induction steps generalizing code before with
  | nil =>
    obtain ⟨_, none⟩ := Prod.mk.inj (Except.ok.inj linked)
    simp at none
  | cons step rest ih =>
    obtain ⟨mid, own, more, first, others, report⟩ := runAll_cons_eq_ok_iff.mp linked
    have later (front : List Outcome) (split : more = front ++ r :: behind) :
        ∃ snapshot access p late mid done,
          region snapshot access r.site r.patch p ∈ step :: rest ∧ p.region = r.region ∧
          p.link o shapes snapshot access mid = .ok (done, r.resolution) ∧
          runAll o shapes late done = .ok (after, behind) := by
      subst split
      obtain ⟨snapshot, access, p, late, mid, done, taken, found⟩ := ih others
      exact ⟨snapshot, access, p, late, mid, done, List.mem_cons_of_mem _ taken, found⟩
    cases step with
    | exit p position =>
      obtain ⟨_, rfl⟩ := run_exit_eq_ok_iff.mp first
      exact later before report.symm
    | region snapshot access site i p =>
      obtain ⟨resolution, filled, rfl⟩ := run_region_eq_ok_iff.mp first
      cases before with
      | nil =>
        cases report
        exact ⟨snapshot, access, p, rest, code, mid, List.mem_cons_self, rfl, filled, others⟩
      | cons earlier before =>
        cases report
        exact later before rfl
    | fail e => cases first

theorem not_fail_of_runAll (linked : runAll o shapes steps code = .ok (after, report))
    (e : BuildError) : fail e ∉ steps := by
  intro member
  obtain ⟨early, late, rfl⟩ := List.append_of_mem member
  obtain ⟨mid, _, _, _, others, _⟩ := runAll_append_eq_ok_iff.mp linked
  obtain ⟨_, _, _, failed, _⟩ := runAll_cons_eq_ok_iff.mp others
  cases failed

end LinkStep

end Stages

structure Site.Linkable (maps : StackMaps) (s : Site) : Prop where
  balanced : s.patches.length = s.exits.length
  mapped : s.patches ≠ [] → ∃ snapshot, maps s.stackMap = some snapshot

namespace Site

variable {maps : StackMaps} {s : Site} {index : Nat} {snapshot : Snapshot}

theorem linkable_of_steps (never : ∀ e, .fail e ∉ s.steps maps index) : s.Linkable maps := by
  by_cases balanced : s.patches.length = s.exits.length
  · refine ⟨balanced, fun some => ?_⟩
    cases known : maps s.stackMap with
    | some snapshot => exact ⟨snapshot, rfl⟩
    | none =>
      have failing : .fail (.missingStackMap s.stackMap) ∈ s.steps maps index := by
        simp [steps, balanced, known, some]
      exact absurd failing (never _)
  · have failing : .fail (.unbalancedExits index s.patches.length s.exits.length) ∈
        s.steps maps index := by
      simp [steps, balanced]
    exact absurd failing (never _)

theorem map_snd_returns (balanced : s.patches.length = s.exits.length) :
    s.returns.map Prod.snd = s.exits :=
  List.map_snd_zip (Nat.le_of_eq balanced.symm)

theorem exists_return {i exit : Nat} (balanced : s.patches.length = s.exits.length)
    (found : s.exits[i]? = some exit) : ∃ p, s.patches[i]? = some p ∧ (p, exit) ∈ s.returns := by
  have bound : i < s.patches.length := by
    rw [balanced]
    exact (List.getElem?_eq_some_iff.mp found).1
  have paired : s.patches[i]? = some s.patches[i] := List.getElem?_eq_getElem bound
  exact ⟨_, paired, List.mem_of_getElem? (List.getElem?_zip_eq_some.mpr ⟨paired, found⟩)⟩

theorem exit_mem_steps_iff {p : Patch} {exit : Nat} :
    .exit p exit ∈ s.steps maps index ↔
      s.patches.length = s.exits.length ∧ (p, exit) ∈ s.returns := by
  by_cases balanced : s.patches.length = s.exits.length
  · rw [steps, if_neg (not_not_intro balanced)]
    cases maps s.stackMap with
    | none => cases s.patches.isEmpty <;> simp [balanced]
    | some snapshot => simp [balanced]
  · simp [steps, balanced]

theorem region_mem_steps_iff {access : Access} {site i : Nat} {p : Patch} :
    .region snapshot access site i p ∈ s.steps maps index ↔
      s.patches.length = s.exits.length ∧ maps s.stackMap = some snapshot ∧ access = s.access ∧
        site = index ∧ s.patches[i]? = some p := by
  by_cases balanced : s.patches.length = s.exits.length
  · rw [steps, if_neg (not_not_intro balanced)]
    cases maps s.stackMap with
    | none => cases s.patches.isEmpty <;> simp
    | some known =>
      simp [balanced, List.mem_zipIdx_iff_getElem?]
      grind
  · simp [steps, balanced]

namespace Linkable

theorem steps_eq (linkable : s.Linkable maps) (index : Nat) :
    s.steps maps index = s.returns.map (fun pair => .exit pair.1 pair.2) ++
      match maps s.stackMap with
      | some snapshot =>
          s.patches.zipIdx.map fun pair => .region snapshot s.access index pair.2 pair.1
      | none => [] := by
  rw [steps, if_neg (not_not_intro linkable.balanced)]
  cases known : maps s.stackMap with
  | some snapshot => rfl
  | none =>
    by_cases none : s.patches = []
    · simp [none]
    · obtain ⟨snapshot, found⟩ := linkable.mapped none
      cases known.symm.trans found

theorem filterMap_return? (linkable : s.Linkable maps) (index : Nat) :
    (s.steps maps index).filterMap LinkStep.return? = s.returns := by
  have exits : (s.returns.map fun pair => LinkStep.exit pair.1 pair.2).filterMap LinkStep.return? =
      s.returns := by
    rw [List.filterMap_map]
    exact List.filterMap_some
  rw [linkable.steps_eq, List.filterMap_append, exits]
  cases maps s.stackMap with
  | none => exact List.append_nil _
  | some snapshot => simp [LinkStep.return?]

theorem filterMap_subject? (linkable : s.Linkable maps) (index : Nat) :
    (s.steps maps index).filterMap LinkStep.subject? = Patch.subjects index s.patches := by
  have exits : (s.returns.map fun pair => LinkStep.exit pair.1 pair.2).filterMap LinkStep.subject? =
      [] := by
    simp [LinkStep.subject?]
  rw [linkable.steps_eq, List.filterMap_append, exits, List.nil_append]
  cases known : maps s.stackMap with
  | none =>
    by_cases none : s.patches = []
    · simp [none, Patch.subjects]
    · obtain ⟨snapshot, found⟩ := linkable.mapped none
      cases known.symm.trans found
  | some snapshot =>
    rw [List.filterMap_map, Patch.subjects, ← List.filterMap_eq_map]
    rfl

end Linkable

end Site

namespace Finished

variable {u : Finished} {maps : StackMaps} {shapes : ShapeModel} {l : Linked}

theorem mem_plan_iff {step : LinkStep} :
    step ∈ u.plan maps ↔ ∃ (j : Nat) (s : Site), u.sites[j]? = some s ∧ step ∈ s.steps maps j := by
  simp only [plan, List.mem_flatMap, Prod.exists, List.mem_zipIdx_iff_getElem?]
  exact exists_comm

theorem linkable (linked : u.link maps shapes = .ok l) : ∀ s ∈ u.sites, s.Linkable maps := by
  intro s member
  obtain ⟨j, found⟩ := List.mem_iff_getElem?.mp member
  apply Site.linkable_of_steps
  intro e failing
  have planned : .fail e ∈ u.plan maps := mem_plan_iff.mpr ⟨j, s, found, failing⟩
  exact LinkStep.not_fail_of_runAll (link_eq_ok_iff.mp linked) e planned

theorem link_rewritten (linked : u.link maps shapes = .ok l) :
    Rewritten u.code l.code (u.plan maps) l.report :=
  LinkStep.runAll_rewritten (link_eq_ok_iff.mp linked)

theorem returns_plan (linkable : ∀ s ∈ u.sites, s.Linkable maps) :
    (u.plan maps).filterMap LinkStep.return? = u.sites.flatMap Site.returns := by
  have each : ∀ x ∈ u.sites.zipIdx, (x.1.steps maps x.2).filterMap LinkStep.return? =
      (Site.returns ∘ Prod.fst) x := fun x listed =>
    (linkable x.1 (List.fst_mem_of_mem_zipIdx listed)).filterMap_return? x.2
  rw [plan, List.filterMap_flatMap, List.flatMap_def, List.map_congr_left each, ← List.map_map,
    List.zipIdx_map_fst, List.flatMap_def]

theorem subjects_plan (linkable : ∀ s ∈ u.sites, s.Linkable maps) :
    (u.plan maps).filterMap LinkStep.subject? =
      u.sites.zipIdx.flatMap fun (s, j) => Patch.subjects j s.patches := by
  have each : ∀ x ∈ u.sites.zipIdx, (x.1.steps maps x.2).filterMap LinkStep.subject? =
      Patch.subjects x.2 x.1.patches := fun x listed =>
    (linkable x.1 (List.fst_mem_of_mem_zipIdx listed)).filterMap_subject? x.2
  rw [plan, List.filterMap_flatMap, List.flatMap_def, List.map_congr_left each, List.flatMap_def]

theorem exits_plan (linkable : ∀ s ∈ u.sites, s.Linkable maps) :
    ((u.plan maps).filterMap LinkStep.return?).map Prod.snd = u.exits := by
  have each : ∀ s ∈ u.sites, s.returns.map Prod.snd = s.exits := fun s listed =>
    Site.map_snd_returns (linkable s listed).balanced
  rw [returns_plan linkable, List.map_flatMap, exits, List.flatMap_def, List.map_congr_left each,
    List.flatMap_def]

end Finished

end InlineCache
