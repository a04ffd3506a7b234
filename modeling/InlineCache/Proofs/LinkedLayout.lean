import InlineCache.Proofs.LinkOrder

/-!
The code of a linked unit, instruction by instruction. In a unit that is laid out, sites do not get
in each other's way when they are linked: every exit leads behind its own region, every region is
left to its own slow path or filled for it, and all other code stays as it was generated.
-/

namespace InlineCache

/-- A region and its slow path after linking. The slow path starts before the given exit and returns
behind the region. The region still jumps to it, or holds the specialisation that leaves for it. -/
structure Patch.LinkedIn (o : Options) (maps : StackMaps) (shapes : ShapeModel) (s : Site)
    (code : Array Inst) (exit : Nat) (resolution : Resolution) (p : Patch) : Prop where
  positive : 0 < exit
  call : code[exit - 1]? = some (.callSlowPath s.slowCall)
  jump : code[exit]? = some (.branch .always (some p.done))
  region : (resolution.isSpecialized = false ∧
      code[p.region.start]? = some (.branch .alwaysPatchable (some (exit - 1)))) ∨
    ∃ snapshot contents, maps s.stackMap = some snapshot ∧
      p.specialize o shapes snapshot s.access (exit - 1) = .ok (.ok (resolution, contents)) ∧
      ∀ q, p.region.Covers q → code[q]? = contents[q - p.region.start]?

def Site.LinkedIn (o : Options) (maps : StackMaps) (shapes : ShapeModel) (code : Array Inst)
    (report : List Outcome) (index : Nat) (s : Site) : Prop :=
  ∀ (i : Nat) (p : Patch), s.patches[i]? = some p → ∃ exit resolution, s.exits[i]? = some exit ∧
    ⟨index, i, p.region, resolution⟩ ∈ report ∧ p.LinkedIn o maps shapes s code exit resolution

instance : Std.Symm Region.Apart := ⟨fun _ _ => Region.Apart.symm⟩

theorem Site.covers_exit (exit : Nat) : (slowPathOf exit).Covers exit := by
  unfold Region.Covers Region.stop slowPathOf
  simp only
  omega

namespace LaidOut

variable {read : Nat → Option Inst} {sites : List Site} {s : Site} {p : Patch} {exit q : Nat}

theorem region_mem (found : p ∈ s.patches) (member : s ∈ sites) :
    p.region ∈ sites.flatMap Site.blocks :=
  List.mem_flatMap.mpr ⟨s, member, List.mem_append_left _ (List.mem_map_of_mem found)⟩

theorem slowPath_mem (found : exit ∈ sites.flatMap Site.exits) :
    Site.slowPathOf exit ∈ sites.flatMap Site.blocks := by
  obtain ⟨s, member, leaves⟩ := List.mem_flatMap.mp found
  exact List.mem_flatMap.mpr ⟨s, member, Site.slowPathOf_mem_blocks leaves⟩

theorem exit_pos (laid : LaidOut read sites) (leaves : exit ∈ sites.flatMap Site.exits) :
    0 < exit := by
  obtain ⟨s, member, own⟩ := List.mem_flatMap.mp leaves
  exact ((laid.each s member).exits exit own).1

theorem region_length (laid : LaidOut read sites) (member : s ∈ sites) (found : p ∈ s.patches) :
    p.region.length = Patch.length := by
  obtain ⟨i, listed⟩ := List.mem_iff_getElem?.mp found
  exact ((laid.each s member).patches i p listed).length

/-- No region reaches into a slow path. -/
theorem region_apart (laid : LaidOut read sites) (member : s ∈ sites) (found : p ∈ s.patches)
    (leaves : exit ∈ sites.flatMap Site.exits) : p.region.Apart (Site.slowPathOf exit) := by
  apply laid.apart.forall (region_mem found member) (slowPath_mem leaves)
  intro same
  have length := laid.region_length member found
  rw [same] at length
  cases length

theorem separate {u : Finished} (laid : LaidOut read u.sites) : u.Separate := by
  obtain ⟨within, across⟩ := List.pairwise_flatMap.mp laid.apart
  refine ⟨?_, ?_, ?_, ?_, ?_⟩
  · intro r listed
    obtain ⟨s, member, region⟩ := List.mem_flatMap.mp listed
    obtain ⟨p, found, rfl⟩ := List.mem_map.mp region
    rw [laid.region_length member found]
    decide
  · refine List.pairwise_flatMap.mpr ⟨fun s member => ?_, across.imp ?_⟩
    · exact (List.pairwise_append.mp (within s member)).1
    · intro s t apart r region r' region'
      exact apart r (List.mem_append_left _ region) r' (List.mem_append_left _ region')
  · intro s member p found
    obtain ⟨i, listed⟩ := List.mem_iff_getElem?.mp found
    exact ((laid.each s member).patches i p listed).placeholder
  · refine List.nodup_flatMap.mpr ⟨fun s member => ?_, across.imp ?_⟩
    · have paths := (List.pairwise_append.mp (within s member)).2.1
      apply (List.pairwise_map.mp paths).imp
      rintro exit _ apart rfl
      exact apart.not_covers (Site.covers_exit exit) (Site.covers_exit exit)
    · intro s t apart exit leaves leaves'
      exact (apart _ (Site.slowPathOf_mem_blocks leaves) _
        (Site.slowPathOf_mem_blocks leaves')).not_covers (Site.covers_exit exit)
          (Site.covers_exit exit)
  · intro exit leaves r listed covered
    obtain ⟨s, member, region⟩ := List.mem_flatMap.mp listed
    obtain ⟨p, found, rfl⟩ := List.mem_map.mp region
    exact (laid.region_apart member found leaves).not_covers covered (Site.covers_exit exit)

theorem covers_of_plan {u : Finished} (laid : LaidOut read u.sites) {maps : StackMaps}
    {step : LinkStep} (taken : step ∈ u.plan maps) (touched : step.Touches q) :
    q ∈ u.exits ∨ ∃ s ∈ u.sites, ∃ p ∈ s.patches, p.region.Covers q := by
  obtain ⟨j, s, listed, own⟩ := Finished.mem_plan_iff.mp taken
  have member := List.mem_of_getElem? listed
  rcases laid.separate.covers_of_touches member own touched with exit | ⟨r, region, covered⟩
  · exact .inl (List.mem_flatMap.mpr ⟨s, member, exit⟩)
  · obtain ⟨p, found, rfl⟩ := List.mem_map.mp region
    exact .inr ⟨s, member, p, found, covered⟩

theorem call_untouched {u : Finished} (laid : LaidOut read u.sites) (maps : StackMaps)
    (leaves : exit ∈ u.exits) : ∀ step ∈ u.plan maps, ¬ step.Touches (exit - 1) := by
  have call : (Site.slowPathOf exit).Covers (exit - 1) :=
    (Site.covers_slowPathOf_iff (laid.exit_pos leaves)).mpr (.inl rfl)
  intro step taken touched
  rcases laid.covers_of_plan taken touched with other | ⟨s, member, p, found, covered⟩
  · have apart : (Site.slowPathOf exit).Apart (Site.slowPathOf (exit - 1)) := by
      apply laid.apart.forall (slowPath_mem leaves) (slowPath_mem other)
      have positive := laid.exit_pos other
      simp only [Site.slowPathOf, ne_eq, Region.mk.injEq, and_true]
      omega
    exact apart.not_covers call (Site.covers_exit (exit - 1))
  · exact (laid.region_apart member found leaves).not_covers covered call

end LaidOut

structure Finished.LinksTo (u : Finished) (maps : StackMaps) (shapes : ShapeModel) (l : Linked) :
    Prop where
  frame : ∀ q, (∀ b ∈ u.sites.flatMap Site.blocks, ¬ b.Covers q) → l.code[q]? = u.code[q]?
  sites : ∀ (j : Nat) (s : Site), u.sites[j]? = some s →
    s.LinkedIn u.options maps shapes l.code l.report j

namespace Finished

variable {u : Finished} {maps : StackMaps} {shapes : ShapeModel} {l : Linked} {s : Site} {p : Patch}
  {i j exit : Nat}

theorem link_slowPath (laid : LaidOut (fun q => u.code[q]?) u.sites)
    (linked : u.link maps shapes = .ok l) (placed : u.sites[j]? = some s)
    (found : s.patches[i]? = some p) (paired : s.exits[i]? = some exit) :
    l.code[exit - 1]? = some (.callSlowPath s.slowCall) ∧
      l.code[exit]? = some (.branch .always (some p.done)) := by
  have member := List.mem_of_getElem? placed
  have leaves := List.mem_of_getElem? paired
  obtain ⟨_, call, jump⟩ := (laid.each s member).exits exit leaves
  constructor
  · rw [(link_rewritten linked).frame
      (laid.call_untouched maps (List.mem_flatMap.mpr ⟨s, member, leaves⟩))]
    exact call
  · have zipped : (p, exit) ∈ s.returns :=
      List.mem_of_getElem? (List.getElem?_zip_eq_some.mpr ⟨found, paired⟩)
    have taken : .exit p exit ∈ u.plan maps := mem_plan_iff.mpr ⟨j, s, placed,
      Site.exit_mem_steps_iff.mpr ⟨(linkable linked s member).balanced, zipped⟩⟩
    obtain ⟨mid, done, own, exited, _, kept⟩ :=
      LinkStep.run_of_mem (link_eq_ok_iff.mp linked) laid.separate.steps_apart taken
    obtain ⟨cond, old, was, changed⟩ :=
      Site.linkExit_eq_ok (LinkStep.run_exit_eq_ok_iff.mp exited).1
    obtain ⟨before, behind⟩ := kept exit rfl
    cases was.symm.trans (before.trans jump)
    rw [behind, changed, if_pos rfl]

theorem link_region (laid : LaidOut (fun q => u.code[q]?) u.sites)
    (linked : u.link maps shapes = .ok l) (placed : u.sites[j]? = some s)
    (found : s.patches[i]? = some p) (paired : s.exits[i]? = some exit) :
    ∃ resolution, ⟨j, i, p.region, resolution⟩ ∈ l.report ∧
      ((resolution.isSpecialized = false ∧
          l.code[p.region.start]? = some (.branch .alwaysPatchable (some (exit - 1)))) ∨
        ∃ snapshot contents, maps s.stackMap = some snapshot ∧
          p.specialize u.options shapes snapshot s.access (exit - 1) =
            .ok (.ok (resolution, contents)) ∧
          ∀ q, p.region.Covers q → l.code[q]? = contents[q - p.region.start]?) := by
  have member := List.mem_of_getElem? placed
  have patch := (laid.each s member).patches i p found
  have jump := patch.jump
  rw [paired] at jump
  have linkable := linkable linked s member
  obtain ⟨snapshot, known⟩ := linkable.mapped (List.ne_nil_of_mem (List.mem_of_getElem? found))
  have taken : .region snapshot s.access j i p ∈ u.plan maps := mem_plan_iff.mpr ⟨j, s, placed,
    Site.region_mem_steps_iff.mpr ⟨linkable.balanced, known, rfl, rfl, found⟩⟩
  obtain ⟨mid, done, own, step, listed, kept⟩ :=
    LinkStep.run_of_mem (link_eq_ok_iff.mp linked) laid.separate.steps_apart taken
  obtain ⟨resolution, filled, rfl⟩ := LinkStep.run_region_eq_ok_iff.mp step
  have start := kept p.region.start (.inr patch.covers_start)
  refine ⟨resolution, listed _ List.mem_cons_self, ?_⟩
  obtain ⟨cond, slowPath, leads, outcome⟩ := Patch.link_eq_ok filled
  rw [patch.placeholder, start.1] at leads
  cases leads.symm.trans jump
  rcases outcome with ⟨slow, rfl⟩ | ⟨contents, _, resolved, changed⟩
  · exact .inl ⟨slow, by rw [start.2, start.1]; exact jump⟩
  · refine .inr ⟨snapshot, contents, known, resolved, fun q covered => ?_⟩
    rw [(kept q (.inr covered)).2, changed, if_pos covered]

theorem linksTo (laid : LaidOut (fun q => u.code[q]?) u.sites)
    (linked : u.link maps shapes = .ok l) : u.LinksTo maps shapes l where
  frame := by
    intro q outside
    apply (link_rewritten linked).frame
    intro step taken touched
    rcases laid.covers_of_plan taken touched with exit | ⟨s, member, p, found, covered⟩
    · exact outside _ (LaidOut.slowPath_mem exit) (Site.covers_exit q)
    · exact outside _ (LaidOut.region_mem found member) covered
  sites := by
    intro j s placed i p found
    have member := List.mem_of_getElem? placed
    have bound := (List.getElem?_eq_some_iff.mp found).1
    rw [(linkable linked s member).balanced] at bound
    have paired : s.exits[i]? = some s.exits[i] := List.getElem?_eq_getElem bound
    obtain ⟨call, jump⟩ := link_slowPath laid linked placed found paired
    obtain ⟨resolution, listed, region⟩ := link_region laid linked placed found paired
    exact ⟨_, resolution, paired, listed,
      ((laid.each s member).exits _ (List.mem_of_getElem? paired)).1, call, jump, region⟩

end Finished

end InlineCache
