import InlineCache.Proofs.LinkRun

/-!
Which branches of a linked unit have a target. Linking gives a target to the recorded exits and
fills regions with linked code; it never takes a target away. A unit is finished if its open
branches stand at recorded positions, while linking looks for the recorded positions as indices
of the code. The two agree if the unit was generated from position zero on, and only then is every
branch sure to get a target.
-/

namespace InlineCache

theorem Linked.unresolved_eq_zero_iff (l : Linked) :
    l.unresolved = 0 ↔ ∀ index, ¬ OpenAt l.code index := by
  unfold unresolved OpenAt
  rw [Array.countP_eq_zero]
  constructor
  · rintro none index ⟨i, found, unlinked⟩
    exact none i (Array.mem_of_getElem? found) unlinked
  · intro none i member unlinked
    obtain ⟨index, found⟩ := Array.mem_iff_getElem?.mp member
    exact none index ⟨i, found, unlinked⟩

theorem Draft.finish_eq_ok {d : Draft} {u : Finished} (finished : d.finish = .ok u) :
    u = ⟨d.options, d.assembler.code, d.sites⟩ ∧
      ∀ index, OpenAt u.code index → d.assembler.origin + index ∈ d.exits := by
  unfold finish at finished
  split at finished
  next => cases finished
  next none =>
    cases finished
    refine ⟨rfl, ?_⟩
    rintro index ⟨i, found, unlinked⟩
    have member : d.assembler.origin + index ∈ d.assembler.unlinked :=
      Fragment.mem_exitsFrom.mpr ⟨index, i, by simpa using found, unlinked, rfl⟩
    simpa using List.find?_eq_none.mp none _ member

/-- Every branch of a linked unit has a target exactly if linking reached each branch that was open
in the finished unit: as an exit, or by filling the region around it. It does so for all units that
were generated from position zero on. -/
theorem Finished.link_resolves_iff_reached {d : Draft} {u : Finished} {l : Linked}
    {maps : StackMaps} {shapes : ShapeModel} (finished : d.finish = .ok u)
    (linked : u.link maps shapes = .ok l) :
    (l.unresolved = 0 ↔
      ∀ index, OpenAt u.code index → index ∈ d.exits ∨ ∃ r ∈ l.report, r.Overwrites index) ∧
    (d.assembler.origin = 0 → l.unresolved = 0) := by
  obtain ⟨rfl, recorded⟩ := Draft.finish_eq_ok finished
  have exits : _ = d.exits := exits_plan (linkable linked)
  have condition : l.unresolved = 0 ↔ ∀ index, OpenAt d.assembler.code index →
      index ∈ d.exits ∨ ∃ r ∈ l.report, r.Overwrites index := by
    rw [Linked.unresolved_eq_zero_iff]
    refine forall_congr' fun index => ?_
    rw [(link_rewritten linked).openAt_iff, exits]
    constructor
    · intro closed lacking
      by_cases exit : index ∈ d.exits
      · exact .inl exit
      · by_cases filled : ∃ r ∈ l.report, r.Overwrites index
        · exact .inr filled
        · exact absurd ⟨lacking, exit, fun r member written => filled ⟨r, member, written⟩⟩ closed
    · rintro reached ⟨lacking, exit, outside⟩
      rcases reached lacking with recorded | ⟨r, member, written⟩
      · exact exit recorded
      · exact outside r member written
  refine ⟨condition, fun fresh => condition.mpr fun index lacking => ?_⟩
  have position := recorded index lacking
  rw [fresh, Nat.zero_add] at position
  exact .inl position

def Draft.jumpsBehindSite (origin : Nat) : Draft where
  options := {}
  assembler := ⟨origin, (.branch .alwaysPatchable (some (origin + 16)) :: (List.replicate 15 .nop ++
    [.callSlowPath ⟨.read, ⟨0#32⟩, ⟨0#32⟩⟩, .branch .always none] ++
    .branch .always (some (origin + 36)) :: (List.replicate 16 .nop ++
      [.branch .always (some (origin + 36))]))).toArray⟩
  sites := [⟨⟨0#32⟩, ⟨0#32⟩, .read ⟨0#32⟩, [⟨origin, ⟨origin, 16⟩, origin, origin + 16⟩],
    [origin + 17]⟩]

theorem Finished.link_resolves_from_zero :
    ∃ u l, (Draft.jumpsBehindSite 0).finish = .ok u ∧
      u.link (fun _ => some ⟨.packed .t0, .t1, none, some (.packed .t2), none⟩) .empty = .ok l ∧
      (Draft.jumpsBehindSite 0).exits = [17] ∧ l.unresolved = 0 := by
  refine ⟨_, _, rfl, rfl, rfl, ?_⟩
  exact (@link_resolves_iff_reached (Draft.jumpsBehindSite 0) _ _
    (fun _ => some ⟨.packed .t0, .t1, none, some (.packed .t2), none⟩) .empty rfl rfl).2 rfl

/-- The exit is recorded at position 35. Linking takes that for the index of the last jump, and the
exit stays without a target. -/
theorem Finished.link_leaves_exit_open :
    Draft.Generated {} 18 (Draft.jumpsBehindSite 18) [36, 53] ∧
      ∃ u l, (Draft.jumpsBehindSite 18).finish = .ok u ∧
        u.link (fun _ => some ⟨.packed .t0, .t1, none, some (.packed .t2), none⟩) .empty = .ok l ∧
        (Draft.jumpsBehindSite 18).exits = [35] ∧ l.unresolved = 1 := by
  have created : Draft.Generated {} 18 _ [] :=
    @Draft.Generated.addSite _ _ _ _ _ _ ⟨0#32⟩ ⟨0#32⟩ (.read ⟨0#32⟩) .empty rfl
  have region : Draft.Generated {} 18 _ [] := @Draft.Generated.emitPatch _ _ _ _ _ 0 _ created rfl
  have path : Draft.Generated {} 18 _ [] := @Draft.Generated.emitSlowPaths _ _ _ _ _ 0 _ region rfl
  have placed : Draft.Generated {} 18 _ [36, 53] := @Draft.Generated.place _ _ _ _
    (.branch .always none :: (List.replicate 16 .nop ++ [.branch .always none])) _ _ path rfl
  have linked : Draft.Generated {} 18 (Draft.jumpsBehindSite 18) [36, 53] :=
    @Draft.Generated.link _ _ _ _ [36, 53] 54 _ placed (fun _ member => member) rfl
  exact ⟨linked, _, _, rfl, rfl, rfl, rfl⟩

end InlineCache
