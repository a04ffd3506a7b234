import InlineCache.Proofs.LinkRun

/-!
What linking changes. Whatever the unit, linking keeps the length of the code, overwrites the
regions that it reports as specialised, and redirects the recorded exits; where several exits are
recorded at one index, the last one decides.
-/

namespace InlineCache

theorem lastDone?_eq_some_of_count {returns : List (Patch × Nat)} {p : Patch} {index : Nat}
    (member : (p, index) ∈ returns) (alone : (returns.map Prod.snd).count index = 1) :
    lastDone? returns index = some p.done := by
  have size : (returns.filter fun pair => pair.2 == index).length = 1 := by
    rw [← List.countP_eq_length_filter, ← alone, List.count, List.countP_map]
    rfl
  obtain ⟨pair, only⟩ := List.length_eq_one_iff.mp size
  have listed : (p, index) ∈ returns.filter fun pair => pair.2 == index := by
    rw [List.mem_filter]
    exact ⟨member, beq_self_eq_true index⟩
  rw [only, List.mem_singleton] at listed
  rw [lastDone?, only, ← listed]
  rfl

/-- Linking changes what it reports and the recorded exits. The code keeps its length; there is one
outcome per patch, by site and then by patch; instructions outside of the specialised regions are
the same, but that a branch at a recorded exit gets a target. If one exit alone is recorded there,
that target is the end of the region which the exit belongs to. -/
theorem Finished.link_changes_only_reported {u : Finished} {l : Linked} {maps : StackMaps}
    {shapes : ShapeModel} (linked : u.link maps shapes = .ok l) :
    l.code.size = u.code.size ∧
    l.report.map Outcome.subject =
      (u.sites.zipIdx.flatMap fun (s, j) => s.patches.zipIdx.map fun (p, i) => (j, i, p.region)) ∧
    ∀ index, (∀ r ∈ l.report, ¬ r.Overwrites index) →
      (index ∉ u.exits → l.code[index]? = u.code[index]?) ∧
      (index ∈ u.exits → ∃ cond old target, u.code[index]? = some (.branch cond old) ∧
        l.code[index]? = some (.branch cond (some target))) ∧
      (u.exits.count index = 1 → ∀ s ∈ u.sites, ∀ i : Nat, s.exits[i]? = some index →
        ∃ p : Patch, s.patches[i]? = some p ∧
          (l.code[index]?).bind Inst.target? = some p.done) := by
  have rewritten := link_rewritten linked
  have linkable := linkable linked
  have exits := exits_plan linkable
  have listed := rewritten.listed.trans (subjects_plan linkable)
  refine ⟨rewritten.size, listed, fun index outside => ?_⟩
  have here := rewritten.redirected index outside
  refine ⟨fun other => ?_, fun exit => ?_, fun alone s member i found => ?_⟩
  · have none := lastDone?_eq_none_iff.mpr (exits ▸ other)
    rw [none] at here
    exact here
  · obtain ⟨target, last⟩ := Option.ne_none_iff_exists'.mp
      fun none => lastDone?_eq_none_iff.mp none (exits ▸ exit)
    rw [last] at here
    obtain ⟨cond, old, was, now⟩ := here
    exact ⟨cond, old, target, was, now⟩
  · obtain ⟨p, paired, zipped⟩ := Site.exists_return (linkable s member).balanced found
    have known : (p, index) ∈ (u.plan maps).filterMap LinkStep.return? := by
      rw [returns_plan linkable]
      exact List.mem_flatMap.mpr ⟨s, member, zipped⟩
    rw [lastDone?_eq_some_of_count known (exits ▸ alone)] at here
    obtain ⟨cond, old, _, now⟩ := here
    exact ⟨p, paired, by rw [now]; rfl⟩

def Finished.overlapping : Finished where
  options := {}
  code := #[.branch .alwaysPatchable (some 4), .nop, .nop, .ret,
    .callSlowPath ⟨.read, ⟨0#32⟩, ⟨0#32⟩⟩, .branch .always none, .branch .always none]
  sites := [⟨⟨0#32⟩, ⟨0#32⟩, .read ⟨0#32⟩, [⟨0, ⟨0, 3⟩, 0, 3⟩], [5]⟩,
    ⟨⟨1#32⟩, ⟨0#32⟩, .has ⟨0#32⟩, [⟨0, ⟨2, 4⟩, 0, 9⟩], [6]⟩]

/-- The first region is filled and the second, for which no shape was seen, is not: the exit in it
changes for the first region's sake only. -/
theorem Finished.link_overlapping :
    ∃ l, overlapping.link (fun id => some ⟨.packed .t0, .t3, none, some (.packed .t1),
        if id = ⟨0#32⟩ then some ⟨1#32⟩ else none⟩)
        ⟨fun id => some ⟨id, 0#8, 0x11#8, 0#8⟩, fun _ _ => some 2#32, fun _ _ => none⟩ = .ok l ∧
      l.report = [⟨0, 0, ⟨0, 3⟩, .load ⟨1#32⟩ 2#32⟩, ⟨1, 0, ⟨2, 4⟩, .slowPath .noShape⟩] ∧
      l.code.size = 7 ∧ l.code[3]? = some .ret ∧ (l.code[5]?).bind Inst.target? = some 3 := by
  obtain ⟨l, linked, report⟩ : ∃ l, overlapping.link (fun id => some ⟨.packed .t0, .t3, none,
        some (.packed .t1), if id = ⟨0#32⟩ then some ⟨1#32⟩ else none⟩)
        ⟨fun id => some ⟨id, 0#8, 0x11#8, 0#8⟩, fun _ _ => some 2#32, fun _ _ => none⟩ = .ok l ∧
      l.report = [⟨0, 0, ⟨0, 3⟩, .load ⟨1#32⟩ 2#32⟩, ⟨1, 0, ⟨2, 4⟩, .slowPath .noShape⟩] :=
    ⟨_, rfl, rfl⟩
  obtain ⟨size, _, changes⟩ := link_changes_only_reported linked
  have outside (index : Nat) (late : 3 ≤ index) : ∀ r ∈ l.report, ¬ r.Overwrites index := by
    rw [report]
    intro r member written
    rcases List.mem_cons.mp member with rfl | other
    · exact Nat.not_lt.mpr late written.2.2
    · rw [List.mem_singleton.mp other] at written
      cases written.1
  obtain ⟨p, paired, target⟩ := (changes 5 (outside 5 (by decide))).2.2 (by decide) _
    List.mem_cons_self 0 rfl
  cases paired
  exact ⟨l, linked, report, size, (changes 3 (outside 3 (by decide))).1 (by decide), target⟩

end InlineCache
