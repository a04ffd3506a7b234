import Mathlib.Data.List.Nodup
import InlineCache.Proofs.Transparency

/-!
Linked sites, one region at a time. The report has one outcome for each region, and each region has
a slow path of its own. A region that was left alone, or whose test the object fails, comes to that
slow path with nothing changed and from there, through the runtime, behind the region; a region
whose test the object passes does the access and gets there without a call.
-/

namespace InlineCache

namespace Resolution

def shape? : Resolution → Option ShapeId
  | load shape _ => some shape
  | store shape _ => some shape
  | transition source _ _ => some source
  | present shape => some shape
  | slowPath _ => none

/-- Whether a region does the access itself: it was specialised, and the object passes its test. -/
def accepts (o : Options) (base : ValueRegs) (s : State) (r : Resolution) : Bool :=
  r.shape?.any fun shape => s.passes o base (.objectWithShape shape)

end Resolution

section Report

variable {u : Finished} {maps : StackMaps} {shapes : ShapeModel} {l : Linked}

def Outcome.key (r : Outcome) : Nat × Nat := (r.site, r.patch)

theorem Patch.keys_subjects (site : Nat) (patches : List Patch) :
    (subjects site patches).map (fun subject => (subject.1, subject.2.1)) =
      (List.range patches.length).map fun i => (site, i) := by
  rw [subjects, List.map_map, List.range_eq_range', ← List.zipIdx_map_snd 0 patches, List.map_map]
  rfl

theorem Finished.nodup_keys (linked : u.link maps shapes = .ok l) :
    (l.report.map Outcome.key).Nodup := by
  have listed := (link_rewritten linked).listed.trans (subjects_plan (linkable linked))
  have keys : l.report.map Outcome.key =
      u.sites.zipIdx.flatMap fun x => (List.range x.1.patches.length).map fun i => (x.2, i) := by
    have mapped := congrArg (List.map fun subject => (subject.1, subject.2.1)) listed
    rw [List.map_map, List.map_flatMap] at mapped
    simp only [Patch.keys_subjects] at mapped
    exact mapped
  rw [keys, List.nodup_flatMap]
  constructor
  · intro x _
    apply List.Nodup.map _ List.nodup_range
    intro i k same
    exact (Prod.mk.inj same).2
  · have indices : (u.sites.zipIdx.map Prod.snd).Nodup := by
      rw [List.zipIdx_map_snd]
      exact List.nodup_range'
    apply (List.pairwise_map.mp indices).imp
    intro x y differ key early late
    obtain ⟨_, _, rfl⟩ := List.mem_map.mp early
    obtain ⟨_, _, same⟩ := List.mem_map.mp late
    exact differ (Prod.mk.inj same).1.symm

theorem Finished.patch_of_outcome (links : u.LinksTo maps shapes l)
    (linked : u.link maps shapes = .ok l) {r : Outcome} (reported : r ∈ l.report) :
    ∃ site p exit snapshot, u.sites[r.site]? = some site ∧ site.patches[r.patch]? = some p ∧
      p.region = r.region ∧ maps site.stackMap = some snapshot ∧
      p.LinkedIn u.options maps shapes site l.code exit r.resolution := by
  have linkable := linkable linked
  have subject : r.subject ∈ l.report.map Outcome.subject := List.mem_map_of_mem reported
  rw [(link_rewritten linked).listed, subjects_plan linkable, List.mem_flatMap] at subject
  obtain ⟨⟨site, j⟩, listed, own⟩ := subject
  obtain ⟨⟨p, i⟩, patch, same⟩ := List.mem_map.mp own
  have placed := List.mem_zipIdx_iff_getElem?.mp listed
  have found := List.mem_zipIdx_iff_getElem?.mp patch
  obtain ⟨exit, resolution, _, reported', region⟩ := links.sites j site placed i p found
  obtain ⟨snapshot, known⟩ := (linkable site (List.mem_of_getElem? placed)).mapped
    (List.ne_nil_of_mem (List.mem_of_getElem? found))
  obtain ⟨site_eq, rest⟩ := Prod.mk.inj same
  obtain ⟨patch_eq, region_eq⟩ := Prod.mk.inj rest
  have key : Outcome.key ⟨j, i, p.region, resolution⟩ = r.key := Prod.ext site_eq patch_eq
  obtain rfl := List.inj_on_of_nodup_map (nodup_keys linked) reported' reported key
  exact ⟨site, p, exit, snapshot, placed, found, rfl, known, region⟩

end Report

section Region

variable {v : Services} {s : State} {o : Options} {maps : StackMaps} {shapes : ShapeModel}
  {site : Site} {p : Patch} {code : Array Inst} {exit : Nat} {resolution : Resolution}
  {snapshot : Snapshot} {shape : ShapeId} {access : Access} {rest : Fragment}

theorem Access.shape?_of_specialize
    (resolved : access.specialize o shapes snapshot shape = .ok (.ok (resolution, rest))) :
    resolution.shape? = some shape := by
  rcases specialize_eq_ok resolved with ⟨_, _, rfl, _⟩ | ⟨_, _, rfl, _⟩ | ⟨_, _, _, _, _, rfl, _⟩ |
    ⟨_, rfl, _⟩
  · rfl
  · rfl
  · rfl
  · rfl

theorem Slot.load_completes (v : Services) (s : State) {object : Gpr} {slot : Half}
    {regs : ValueRegs} {f : Fragment} (loaded : load object slot regs = .ok f) :
    ∃ t, f.Behaves v s false t := by
  have both (first second : Gpr) (here there : Mem) :
      ∃ t, Fragment.Behaves v [.load32 first here, .load32 second there] s false t := by
    have early : Fragment.Behaves v [.load32 first here] s false _ := .plain rfl fun _ => rfl
    have late (s : State) : Fragment.Behaves v [.load32 second there] s false _ :=
      .plain rfl fun _ => rfl
    exact ⟨_, early.andThen (late _)⟩
  obtain ⟨low, _, rest⟩ := bind_eq_ok_iff.mp loaded
  cases regs with
  | packed dst =>
    cases rest
    exact ⟨_, .plain rfl fun _ => rfl⟩
  | split tag payload =>
    simp only at rest
    split at rest
    next =>
      cases rest
      exact both _ _ _ _
    next =>
      cases rest
      exact both _ _ _ _

theorem Access.specialize_completes (v : Services) (s : State)
    (resolved : access.specialize o shapes snapshot shape = .ok (.ok (resolution, rest))) :
    ∃ t, rest.Behaves v s false t := by
  rcases specialize_eq_ok resolved with ⟨_, _, _, _, loaded⟩ | ⟨_, _, _, _, stored⟩ |
    ⟨_, _, _, _, _, _, _, _, stored, rfl⟩ | ⟨result, _, _, rfl⟩
  · exact Slot.load_completes v s loaded
  · exact ⟨_, Slot.store_behaves v s stored⟩
  · exact ⟨_, (Slot.store_behaves v s stored).andThen (Header.store_behaves _ _ _ _ _)⟩
  · exact ⟨_, Slot.setTrue_behaves v s result⟩

namespace Patch.LinkedIn

theorem specialized (linked : p.LinkedIn o maps shapes site code exit resolution)
    (known : maps site.stackMap = some snapshot) (tests : resolution.shape? = some shape) :
    ∃ rest, site.access.specialize o shapes snapshot shape = .ok (.ok (resolution, rest)) ∧
      (body o snapshot.base shape rest p.region.length).length = p.region.length ∧
      (body o snapshot.base shape rest p.region.length).StandsAt code p.region.start
        (exit - 1) := by
  rcases linked.region with ⟨slow, _⟩ | ⟨_, contents, recorded, resolved, filled⟩
  · cases resolution with
    | slowPath reason => cases tests
    | _ => cases slow
  · cases known.symm.trans recorded
    obtain ⟨_, rest, _, _, resolving, length, stands⟩ := standsAt_of_filled resolved filled
    cases tests.symm.trans (Access.shape?_of_specialize resolving)
    exact ⟨rest, resolving, length, stands⟩

theorem leaves (linked : p.LinkedIn o maps shapes site code exit resolution)
    (start : p.region.Covers p.region.start) (known : maps site.stackMap = some snapshot)
    (rejected : resolution.accepts o snapshot.base s = false) :
    ∃ trace, Path v code p.region.start s trace [] (exit - 1) s ∧
      ∀ q ∈ trace, p.region.Covers q := by
  cases tests : resolution.shape? with
  | none =>
    rcases linked.region with ⟨_, jump⟩ | ⟨_, _, _, resolved, filled⟩
    · exact ⟨[p.region.start], .branch jump, by simpa using start⟩
    · obtain ⟨_, _, _, _, resolving, _⟩ := standsAt_of_filled resolved filled
      cases tests.symm.trans (Access.shape?_of_specialize resolving)
  | some shape =>
    obtain ⟨rest, _, length, stands⟩ := linked.specialized known tests
    rw [Resolution.accepts, tests, Option.any_some] at rejected
    obtain ⟨trace, path, within, _⟩ := body_leaves rest p.region.length rejected _ _ _ stands
    rw [length] at within
    exact ⟨trace, path, within⟩

theorem completes (linked : p.LinkedIn o maps shapes site code exit resolution)
    (known : maps site.stackMap = some snapshot) (tests : resolution.shape? = some shape) :
    ∃ rest, site.access.specialize o shapes snapshot shape = .ok (.ok (resolution, rest)) ∧
      ∀ v s t, s.passes o snapshot.base (.objectWithShape shape) = true →
        rest.Behaves v s false t →
          ∃ trace, Path v code p.region.start s trace [] p.region.stop t ∧
            ∀ q ∈ trace, p.region.Covers q := by
  obtain ⟨rest, resolving, length, stands⟩ := linked.specialized known tests
  refine ⟨rest, resolving, fun v s t accepted done => ?_⟩
  obtain ⟨trace, path, within, _⟩ := body_completes done p.region.length accepted _ _ _ stands
  rw [length] at path within
  exact ⟨trace, path, within⟩

end Patch.LinkedIn

end Region

theorem Draft.Generated.linksTo {o : Options} {d : Draft} {jumps : List Nat} {u : Finished}
    {maps : StackMaps} {shapes : ShapeModel} {l : Linked} (generated : Generated o 0 d jumps)
    (finished : d.finish = .ok u) (linked : u.link maps shapes = .ok l) :
    LaidOut (fun q => u.code[q]?) u.sites ∧ u.LinksTo maps shapes l := by
  obtain ⟨rfl, _⟩ := finish_eq_ok finished
  have laid : LaidOut (fun q => d.assembler.code[q]?) d.sites :=
    generated.laid.layout.congr fun _ _ q _ =>
      (Assembler.inst?_of_origin_zero generated.laid.origin q).symm
  exact ⟨laid, Finished.linksTo laid linked⟩

/-- How runs get through a region and its slow path, which starts at `call`. -/
structure Patch.Served (o : Options) (code : Array Inst) (site : Site) (base : ValueRegs)
    (resolution : Resolution) (call : Nat) (p : Patch) : Prop where
  slowPath : code[call]? =
    some (.callSlowPath ⟨site.access.op, site.stackMap, site.callSite⟩)
  missed : ∀ (v : Services) (s : State), resolution.accepts o base s = false →
    ∃ trace, Run.Passes v code p.region.start s trace call s ∧
      ∀ q ∈ trace, p.region.Covers q ∧ ∀ c, code[q]? ≠ some (.callSlowPath c)
  returned : ∀ (v : Services) (s : State) (handler : SlowCall → State → State),
    v.slowPath? = some handler → ∀ limit fuel before made,
      Run.resume v code limit (2 + fuel) call s before made =
        Run.resume v code limit fuel p.done (handler site.slowCall s)
          (before ++ #[call, call + 1]) (made ++ #[.slow site.slowCall])
  hit : ∀ (v : Services) (s : State), resolution.accepts o base s = true →
    ∃ trace t, Run.Passes v code p.region.start s trace p.done t ∧
      ∀ q ∈ trace, p.region.Covers q ∧ ∀ c, code[q]? ≠ some (.callSlowPath c)

theorem Patch.LinkedIn.served {o : Options} {maps : StackMaps} {shapes : ShapeModel} {site : Site}
    {code : Array Inst} {exit : Nat} {resolution : Resolution} {snapshot : Snapshot} {p : Patch}
    (linked : p.LinkedIn o maps shapes site code exit resolution)
    (start : p.region.Covers p.region.start) (done : p.done = p.region.stop)
    (known : maps site.stackMap = some snapshot) :
    p.Served o code site snapshot.base resolution (exit - 1) where
  slowPath := linked.call
  missed := by
    intro v s rejected
    obtain ⟨trace, path, within⟩ := linked.leaves (v := v) start known rejected
    exact ⟨trace, path.passes, fun q member => ⟨within q member, path.ne_callSlowPath member⟩⟩
  returned := by
    intro v s handler installed limit fuel before made
    rw [Nat.sub_add_cancel linked.positive]
    exact (linked.slowPath installed s).resume_eq limit fuel before made
  hit := by
    intro v s accepted
    obtain ⟨shape, tests, passed⟩ := (Option.any_eq_true _ _).mp accepted
    obtain ⟨rest, resolving, runs⟩ := linked.completes known tests
    obtain ⟨t, completed⟩ := Access.specialize_completes v s resolving
    obtain ⟨trace, path, within⟩ := runs v s t passed completed
    rw [done]
    exact ⟨trace, t, path.passes, fun q member => ⟨within q member, path.ne_callSlowPath member⟩⟩

namespace Finished

/-- Each region of a linked unit has one outcome in the report and a slow path of its own, the one
that it was generated with, by way of which runs get through it. -/
theorem linked_region_served {o : Options} {d : Draft} {jumps : List Nat} {u : Finished}
    {maps : StackMaps} {shapes : ShapeModel} {l : Linked}
    (generated : Draft.Generated o 0 d jumps) (finished : d.finish = .ok u)
    (linked : u.link maps shapes = .ok l) {j i : Nat} {site : Site} {p : Patch}
    (placed : u.sites[j]? = some site) (found : site.patches[i]? = some p) :
    ∃ resolution snapshot call,
      (∀ r, (r ∈ l.report ∧ r.site = j ∧ r.patch = i) ↔ r = ⟨j, i, p.region, resolution⟩) ∧
      maps site.stackMap = some snapshot ∧ site.exits[i]? = some (call + 1) ∧
      u.code[p.placeholder]? = some (.branch .alwaysPatchable (some call)) ∧
      p.Served u.options l.code site snapshot.base resolution call := by
  obtain ⟨laid, links⟩ := generated.linksTo finished linked
  have member := List.mem_of_getElem? placed
  have lies := (laid.each site member).patches i p found
  obtain ⟨exit, resolution, paired, reported, region⟩ := links.sites j site placed i p found
  obtain ⟨snapshot, known⟩ := (linkable linked site member).mapped
    (List.ne_nil_of_mem (List.mem_of_getElem? found))
  refine ⟨resolution, snapshot, exit - 1, fun r => ⟨?_, ?_⟩, known, ?_, ?_,
    region.served lies.covers_start lies.done known⟩
  · rintro ⟨listed, rfl, rfl⟩
    exact List.inj_on_of_nodup_map (nodup_keys linked) listed reported rfl
  · rintro rfl
    exact ⟨reported, rfl, rfl⟩
  · rw [Nat.sub_add_cancel region.positive, paired]
  · have jump := lies.jump
    rw [paired] at jump
    rw [lies.placeholder]
    exact jump

namespace TwoReads

def unit : Finished where
  options := {}
  code := (.branch .alwaysPatchable (some 32) :: (List.replicate 15 .nop ++
    .branch .alwaysPatchable (some 34) :: (List.replicate 15 .nop ++
      [.callSlowPath ⟨.read, ⟨0#32⟩, ⟨0#32⟩⟩, .branch .always none,
        .callSlowPath ⟨.read, ⟨0#32⟩, ⟨0#32⟩⟩, .branch .always none]))).toArray
  sites := [⟨⟨0#32⟩, ⟨0#32⟩, .read ⟨0#32⟩, [⟨0, ⟨0, 16⟩, 0, 16⟩, ⟨16, ⟨16, 16⟩, 16, 32⟩], [33, 35]⟩]

theorem generated : Draft.Generated {} 0 ⟨{}, ⟨0, unit.code⟩, unit.sites⟩ [] := by
  have created : Draft.Generated {} 0 _ [] :=
    @Draft.Generated.addSite _ _ _ _ _ _ ⟨0#32⟩ ⟨0#32⟩ (.read ⟨0#32⟩) .empty rfl
  have first : Draft.Generated {} 0 _ [] := @Draft.Generated.emitPatch _ _ _ _ _ 0 _ created rfl
  have second : Draft.Generated {} 0 _ [] := @Draft.Generated.emitPatch _ _ _ _ _ 0 _ first rfl
  exact @Draft.Generated.emitSlowPaths _ _ _ _ _ 0 _ second rfl

end TwoReads

open OneRead in
theorem second_region_served :
    ∃ l, TwoReads.unit.link (fun _ => some snapshot) shapes = .ok l ∧
      (∃ trace, Run.Passes services l.code 16 State.zero trace 34 State.zero) ∧
      (∀ limit fuel before made, Run.resume services l.code limit (2 + fuel) 34 State.zero before
        made = Run.resume services l.code limit fuel 32
          ((Resolution.load ⟨1#32⟩ 2#32).effect shapes snapshot State.zero)
          (before ++ #[34, 35]) (made ++ #[.slow ⟨.read, ⟨0#32⟩, ⟨0#32⟩⟩])) ∧
      ∃ trace t, Run.Passes services l.code 16 OneRead.start trace 32 t := by
  obtain ⟨l, linked, report⟩ : ∃ l, TwoReads.unit.link (fun _ => some snapshot) shapes = .ok l ∧
      ⟨0, 1, ⟨16, 16⟩, .load ⟨1#32⟩ 2#32⟩ ∈ l.report := ⟨_, rfl, .tail _ (.head _)⟩
  obtain ⟨resolution, base, call, outcome, known, exit, _, served⟩ :=
    @linked_region_served _ _ _ _ _ _ _ TwoReads.generated rfl linked 0 1 _ _ rfl rfl
  cases (outcome _).mp ⟨report, rfl, rfl⟩
  cases known
  cases exit
  have absent : State.zero.passes {} snapshot.base (.objectWithShape ⟨1#32⟩) = false := by decide
  obtain ⟨trace, reached, _⟩ := served.missed services State.zero absent
  obtain ⟨trace', t, done, _⟩ := served.hit services OneRead.start start_passes
  exact ⟨l, linked, ⟨trace, reached⟩, served.returned services State.zero _ rfl, trace', t, done⟩

end Finished

end InlineCache
