import InlineCache.Proofs.LinkTargets
import InlineCache.Proofs.LinkedLayout
import InlineCache.Proofs.SiteAccess

/-!
Patched code against code that always takes the slow path. Both go through the same instructions,
except that one may do an access in place where the other calls the runtime. If the runtime does the
same on objects of the shape that was seen, the two end alike: the code is the same between regions,
and a region that is entered at its start is left for its slow path or for its end.
-/

namespace InlineCache

section InStep

variable {v : Services} {code other : Array Inst} {Enterable : Nat → Prop}
  {Matches : List Call → List Call → Prop}

/-- One round of two codes that keep in step: the same instruction, or two stretches that lead to
the same position and state. -/
def InStep (v : Services) (code other : Array Inst) (Enterable : Nat → Prop)
    (Matches : List Call → List Call → Prop) (pc : Nat) (s : State) : Prop :=
  (other[pc]? = code[pc]? ∧
    ∀ i mid, code[pc]? = some i → (step v pc s i).position? = some mid → Enterable mid) ∨
  ∃ trace further calls made mid t, trace ≠ [] ∧ further ≠ [] ∧
    Path v code pc s trace calls mid t ∧ Path v other pc s further made mid t ∧
    Matches calls made ∧ Enterable mid

theorem Ends.transfer (none : Matches [] [])
    (append : ∀ {a b c d}, Matches a b → Matches c d → Matches (a ++ c) (b ++ d))
    (alike : ∀ call, Matches [call] [call])
    (round : ∀ pc s, Enterable pc → InStep v code other Enterable Matches pc s)
    {pc n : Nat} {s final : State} {calls : List Call} {ending : Except Trap Exit}
    (enters : Enterable pc) (whole : Ends v code pc s n calls ending final) :
    ∃ m made, Ends v other pc s m made ending final ∧ Matches calls made := by
  -- The induction is on the length of the given run, of which every round takes a part.
  induction n using Nat.strongRecOn generalizing pc s calls with
  | ind n ih =>
    rcases round pc s enters with ⟨same, leads⟩ |
      ⟨trace, further, early, made, mid, t, taken, _, path, onward, matching, reached⟩
    · cases whole with
      | off outside => exact ⟨1, [], .off (same.trans outside), none⟩
      | stop fetched stepped => exact ⟨1, [], .stop (same.trans fetched) stepped, none⟩
      | next fetched stepped rest =>
        have reached := leads _ _ fetched (by rw [stepped]; rfl)
        obtain ⟨m, made, follows, matching⟩ := ih _ (Nat.lt_succ_self _) reached rest
        exact ⟨m + 1, made, .next (same.trans fetched) stepped follows, matching⟩
      | @called _ _ _ _ _ _ _ _ call _ fetched stepped rest =>
        have reached := leads _ _ fetched (by rw [stepped]; rfl)
        obtain ⟨m, made, follows, matching⟩ := ih _ (Nat.lt_succ_self _) reached rest
        exact ⟨m + 1, call :: made, .called (same.trans fetched) stepped follows,
          append (alike call) matching⟩
    · obtain ⟨late, left, count, rfl, rest⟩ := Ends.of_path path whole
      have shorter : left < n := by
        have positive := List.length_pos_iff.mpr taken
        omega
      obtain ⟨m, more, follows, matching'⟩ := ih left shorter reached rest
      exact ⟨_, _, Ends.after onward follows, append matching matching'⟩

theorem InStep.symm {pc : Nat} {s : State} (round : InStep v code other Enterable Matches pc s) :
    InStep v other code Enterable (fun a b => Matches b a) pc s := by
  rcases round with ⟨same, leads⟩ |
    ⟨trace, further, calls, made, mid, t, taken, taken', path, onward, matching, reached⟩
  · exact .inl ⟨same.symm, fun i mid fetched => leads i mid (same.symm.trans fetched)⟩
  · exact .inr ⟨further, trace, made, calls, mid, t, taken', taken, onward, path, matching, reached⟩

end InStep

def Call.isHost : Call → Bool
  | host _ => true
  | slow _ => false

/-- The same calls of host functions, and of the slow paths no more than the other has. -/
structure Spares (calls others : List Call) : Prop where
  sublist : calls.Sublist others
  hosts : calls.filter Call.isHost = others.filter Call.isHost

theorem Spares.refl (calls : List Call) : Spares calls calls := ⟨.refl calls, rfl⟩

theorem Spares.append {a b c d : List Call} (first : Spares a b) (second : Spares c d) :
    Spares (a ++ c) (b ++ d) where
  sublist := first.sublist.append second.sublist
  hosts := by rw [List.filter_append, List.filter_append, first.hosts, second.hosts]

theorem Spares.slow (call : SlowCall) : Spares [] [.slow call] := ⟨List.nil_sublist _, rfl⟩

namespace Finished

/-- Execution may come to a position unless it lies behind the start of a region, in that region. -/
def Enterable (u : Finished) (position : Nat) : Prop :=
  ∀ r ∈ u.regions, ¬ (r.start < position ∧ position < r.stop)

section Positions

variable {u : Finished} {r : Region} {q : Nat}

theorem region_mem_blocks (member : r ∈ u.regions) : r ∈ u.sites.flatMap Site.blocks := by
  obtain ⟨s, listed, region⟩ := List.mem_flatMap.mp member
  exact List.mem_flatMap.mpr ⟨s, listed, List.mem_append_left _ region⟩

theorem enterable_of_outside (outside : ∀ r ∈ u.regions, ¬ r.Covers q) : u.Enterable q :=
  fun r member inside => outside r member ⟨Nat.le_of_lt inside.1, inside.2⟩

theorem enterable_succ (outside : ∀ r ∈ u.regions, ¬ r.Covers q) : u.Enterable (q + 1) := by
  intro r member inside
  exact outside r member ⟨by omega, by omega⟩

theorem length_of_mem_regions (laid : LaidOut (fun q => u.code[q]?) u.sites)
    (member : r ∈ u.regions) : r.length = Patch.length := by
  obtain ⟨s, listed, region⟩ := List.mem_flatMap.mp member
  obtain ⟨p, patch, rfl⟩ := List.mem_map.mp region
  obtain ⟨i, found⟩ := List.mem_iff_getElem?.mp patch
  exact ((laid.each s listed).patches i p found).length

theorem enterable_stop (laid : LaidOut (fun q => u.code[q]?) u.sites) (member : r ∈ u.regions) :
    u.Enterable r.stop := by
  intro other listed inside
  have length := length_of_mem_regions laid member
  by_cases same : r = other
  · subst same
    omega
  · have apart := laid.apart.forall (region_mem_blocks member) (region_mem_blocks listed) same
    unfold Region.Apart at apart
    unfold Region.stop Patch.length at *
    omega

theorem slowPath_outside (laid : LaidOut (fun q => u.code[q]?) u.sites) {s : Site} {exit : Nat}
    (listed : s ∈ u.sites) (leaves : exit ∈ s.exits) (covered : (Site.slowPathOf exit).Covers q) :
    ∀ r ∈ u.regions, ¬ r.Covers q := by
  intro r member
  have differs : Site.slowPathOf exit ≠ r := by
    intro same
    have length := length_of_mem_regions laid member
    rw [← same] at length
    cases length
  have path : Site.slowPathOf exit ∈ u.sites.flatMap Site.blocks :=
    List.mem_flatMap.mpr ⟨s, listed, Site.slowPathOf_mem_blocks leaves⟩
  exact (laid.apart.forall path (region_mem_blocks member) differs).not_covers covered

end Positions

end Finished

section Rounds

variable {v : Services} {u : Finished} {maps : StackMaps} {shapes blind : ShapeModel}
  {o : Options} {fast slow : Linked} {site : Site} {p : Patch} {exit : Nat}
  {resolution : Resolution} {code : Array Inst} {handler : SlowCall → State → State}

theorem Patch.LinkedIn.slowPath (linked : p.LinkedIn o maps shapes site code exit resolution)
    (installed : v.slowPath? = some handler) (s : State) :
    Path v code (exit - 1) s [exit - 1, exit] [.slow site.slowCall] p.done
      (handler site.slowCall s) := by
  have positive := linked.positive
  have called : step v (exit - 1) s (.callSlowPath site.slowCall) =
      .called (.slow site.slowCall) exit (handler site.slowCall s) := by
    simp only [step, installed]
    rw [Nat.sub_add_cancel positive]
  exact .called linked.call called (.branch linked.jump)

theorem Patch.standsAt_of_filled {snapshot : Snapshot} {access : Access} {slowPath : Nat}
    {contents : Array Inst}
    (resolved : p.specialize o shapes snapshot access slowPath = .ok (.ok (resolution, contents)))
    (filled : ∀ q, p.region.Covers q → code[q]? = contents[q - p.region.start]?) :
    ∃ shape rest, snapshot.shape? = some shape ∧ shapes.shape? shape ≠ none ∧
      access.specialize o shapes snapshot shape = .ok (.ok (resolution, rest)) ∧
      (body o snapshot.base shape rest p.region.length).length = p.region.length ∧
      (body o snapshot.base shape rest p.region.length).StandsAt code p.region.start slowPath := by
  obtain ⟨shape, rest, seen, valid, resolving, length, built⟩ := specialize_eq_ok resolved
  refine ⟨shape, rest, seen, valid, resolving, length, fun n i found => ?_⟩
  have bound := (List.getElem?_eq_some_iff.mp found).1
  rw [filled _ ⟨by omega, by unfold Region.stop; omega⟩, Nat.add_sub_cancel_left,
    ← Array.getElem?_toList, built, Fragment.linkExits, Fragment.shift, List.getElem?_map,
    List.getElem?_map, found]
  rfl

/-- A region that was specialised and the same region left to its slow path come to the end of the
region together, if the runtime does what the region does. -/
theorem Patch.LinkedIn.inStep {other : Array Inst} {resolution' : Resolution} {snapshot : Snapshot}
    {contents : Array Inst} {Enterable : Nat → Prop}
    (fast : p.LinkedIn o maps shapes site code exit resolution)
    (slow : p.LinkedIn o maps blind site other exit resolution')
    (jump : other[p.region.start]? = some (.branch .alwaysPatchable (some (exit - 1))))
    (resolved : p.specialize o shapes snapshot site.access (exit - 1) =
      .ok (.ok (resolution, contents)))
    (filled : ∀ q, p.region.Covers q → code[q]? = contents[q - p.region.start]?)
    (start : p.region.Covers p.region.start) (done : p.done = p.region.stop)
    (proper : ∀ regs, snapshot.result? = some regs → regs.Proper)
    (agrees : ∀ shape, snapshot.shape? = some shape → ∃ handler, v.slowPath? = some handler ∧
      ∀ s : State, s.passes o snapshot.base (.objectWithShape shape) = true →
        handler site.slowCall s = resolution.effect shapes snapshot s)
    (reached : Enterable p.done) (s : State) :
    InStep v code other Enterable Spares p.region.start s := by
  obtain ⟨shape, rest, seen, _, resolving, length, stands⟩ := standsAt_of_filled resolved filled
  obtain ⟨handler, installed, same⟩ := agrees shape seen
  obtain ⟨trace, path, _⟩ :=
    body_behaves (v := v) (s := s) resolving proper p.region.length _ _ _ stands
  have around : Path v other p.region.start s [p.region.start, exit - 1, exit]
      [.slow site.slowCall] p.done (handler site.slowCall s) :=
    (Path.branch jump).trans (slow.slowPath installed s)
  cases verdict : s.passes o snapshot.base (.objectWithShape shape) with
  -- Both call the runtime, one from within the region and the other from its start.
  | false =>
    rw [verdict] at path
    exact .inr ⟨_, _, _, _, _, _, by simp, by simp, path.trans (fast.slowPath installed s), around,
      .refl _, reached⟩
  -- One does in place what the other calls the runtime for.
  | true =>
    rw [verdict, length] at path
    refine .inr ⟨trace, _, _, _, _, _, ?_, by simp, ?_, around, .slow _, reached⟩
    · rintro rfl
      have stayed := path.eq_of_nil.1
      have beyond := start.2
      unfold Region.stop at beyond
      simp only [Bool.not_true, Bool.false_eq_true, if_false] at stayed
      omega
    · rw [same s verdict, done]
      exact path

end Rounds

/-- On objects of the shape that a region was specialised for, the runtime does what the region
does. -/
def Services.Agrees (v : Services) (u : Finished) (maps : StackMaps) (shapes : ShapeModel)
    (r : Outcome) : Prop :=
  ∀ site snapshot shape, u.sites[r.site]? = some site → maps site.stackMap = some snapshot →
    snapshot.shape? = some shape → ∃ handler, v.slowPath? = some handler ∧
      ∀ s : State, s.passes u.options snapshot.base (.objectWithShape shape) = true →
        handler site.slowCall s = r.resolution.effect shapes snapshot s

theorem Patch.LinkedIn.jump_of_unknown {o : Options} {maps : StackMaps} {blind : ShapeModel}
    {site : Site} {code : Array Inst} {exit : Nat} {resolution : Resolution} {p : Patch}
    (linked : p.LinkedIn o maps blind site code exit resolution)
    (unknown : ∀ id, blind.shape? id = none) :
    code[p.region.start]? = some (.branch .alwaysPatchable (some (exit - 1))) := by
  rcases linked.region with ⟨_, jump⟩ | ⟨snapshot, contents, _, resolved, _⟩
  · exact jump
  · obtain ⟨shape, _, _, valid, _⟩ := specialize_eq_ok resolved
    exact absurd (unknown shape) valid

namespace Finished

section Rounds

variable {v : Services} {u : Finished} {maps : StackMaps} {shapes blind : ShapeModel}
  {fast slow : Linked} {pc : Nat}

theorem inStep_region (laid : LaidOut (fun q => u.code[q]?) u.sites)
    (toFast : u.LinksTo maps shapes fast) (toSlow : u.LinksTo maps blind slow)
    (unknown : ∀ id, blind.shape? id = none)
    (proper : ∀ id snapshot regs, maps id = some snapshot → snapshot.result? = some regs →
      regs.Proper)
    (agrees : ∀ r ∈ fast.report, r.resolution.isSpecialized = true → v.Agrees u maps shapes r)
    (enters : u.Enterable pc) {r : Region} (member : r ∈ u.regions) (covered : r.Covers pc)
    (s : State) : InStep v fast.code slow.code u.Enterable Spares pc s := by
  obtain ⟨site, listed, region⟩ := List.mem_flatMap.mp member
  obtain ⟨p, patch, rfl⟩ := List.mem_map.mp region
  obtain ⟨j, placed⟩ := List.mem_iff_getElem?.mp listed
  obtain ⟨i, found⟩ := List.mem_iff_getElem?.mp patch
  have lies := (laid.each site listed).patches i p found
  obtain rfl : p.region.start = pc := by
    have inside := enters _ member
    unfold Region.Covers at covered
    omega
  obtain ⟨exit, resolution, paired, reported, quick⟩ := toFast.sites j site placed i p found
  obtain ⟨exit', resolution', paired', _, around⟩ := toSlow.sites j site placed i p found
  cases paired.symm.trans paired'
  have jump := around.jump_of_unknown unknown
  have leaves := List.mem_of_getElem? paired
  rcases quick.region with ⟨_, same⟩ | ⟨snapshot, contents, known, resolved, filled⟩
  · refine .inl ⟨jump.trans same.symm, fun i mid fetched goes => ?_⟩
    cases same.symm.trans fetched
    cases goes
    exact enterable_of_outside
      (slowPath_outside laid listed leaves
        ((Site.covers_slowPathOf_iff quick.positive).mpr (.inl rfl)))
  · have special : resolution.isSpecialized = true := by
      obtain ⟨_, _, _, _, resolving, _⟩ := Patch.specialize_eq_ok resolved
      exact (Access.specialize_closed resolving).1
    have reached : u.Enterable p.done := by
      rw [lies.done]
      exact enterable_stop laid member
    exact quick.inStep around jump resolved filled lies.covers_start lies.done
      (fun regs => proper _ snapshot regs known)
      (fun shape => agrees _ reported special site snapshot shape placed known) reached s

theorem inStep_slowPath (laid : LaidOut (fun q => u.code[q]?) u.sites)
    (toFast : u.LinksTo maps shapes fast) (toSlow : u.LinksTo maps blind slow) {site : Site}
    {exit : Nat} (listed : site ∈ u.sites) (leaves : exit ∈ site.exits)
    (covered : (Site.slowPathOf exit).Covers pc) (s : State) :
    InStep v fast.code slow.code u.Enterable Spares pc s := by
  obtain ⟨j, placed⟩ := List.mem_iff_getElem?.mp listed
  obtain ⟨i, paired⟩ := List.mem_iff_getElem?.mp leaves
  have balanced := (laid.each site listed).balanced
  obtain ⟨p, found⟩ : ∃ p, site.patches[i]? = some p := by
    have bound := (List.getElem?_eq_some_iff.mp paired).1
    exact ⟨_, List.getElem?_eq_getElem (by omega)⟩
  have lies := (laid.each site listed).patches i p found
  obtain ⟨exit', _, paired', _, quick⟩ := toFast.sites j site placed i p found
  cases paired.symm.trans paired'
  obtain ⟨exit', _, paired', _, around⟩ := toSlow.sites j site placed i p found
  cases paired.symm.trans paired'
  rcases (Site.covers_slowPathOf_iff quick.positive).mp covered with rfl | rfl
  · refine .inl ⟨around.call.trans quick.call.symm, fun i mid fetched goes => ?_⟩
    cases quick.call.symm.trans fetched
    rcases step_position goes with rfl | ⟨cond, branch, _⟩
    · exact enterable_succ (slowPath_outside laid listed leaves covered)
    · cases branch
  · refine .inl ⟨around.jump.trans quick.jump.symm, fun i mid fetched goes => ?_⟩
    cases quick.jump.symm.trans fetched
    cases goes
    show u.Enterable p.done
    rw [lies.done]
    exact enterable_stop laid (List.mem_flatMap.mpr
      ⟨site, listed, List.mem_map_of_mem (List.mem_of_getElem? found)⟩)

theorem inStep_outside (toFast : u.LinksTo maps shapes fast) (toSlow : u.LinksTo maps blind slow)
    (entries : ∀ q cond target, u.code[q]? = some (.branch cond (some target)) →
      (∀ r ∈ u.regions, ¬ r.Covers q) → u.Enterable target)
    (outside : ∀ b ∈ u.sites.flatMap Site.blocks, ¬ b.Covers pc) (s : State) :
    InStep v fast.code slow.code u.Enterable Spares pc s := by
  have same := toFast.frame pc outside
  have plain : ∀ r ∈ u.regions, ¬ r.Covers pc := fun r member =>
    outside r (region_mem_blocks member)
  refine .inl ⟨(toSlow.frame pc outside).trans same.symm, fun i mid fetched goes => ?_⟩
  rcases step_position goes with rfl | ⟨cond, rfl, _⟩
  · exact enterable_succ plain
  · exact entries pc cond mid (same.symm.trans fetched) plain

theorem inStep (laid : LaidOut (fun q => u.code[q]?) u.sites)
    (toFast : u.LinksTo maps shapes fast) (toSlow : u.LinksTo maps blind slow)
    (unknown : ∀ id, blind.shape? id = none)
    (proper : ∀ id snapshot regs, maps id = some snapshot → snapshot.result? = some regs →
      regs.Proper)
    (agrees : ∀ r ∈ fast.report, r.resolution.isSpecialized = true → v.Agrees u maps shapes r)
    (entries : ∀ q cond target, u.code[q]? = some (.branch cond (some target)) →
      (∀ r ∈ u.regions, ¬ r.Covers q) → u.Enterable target)
    (enters : u.Enterable pc) (s : State) :
    InStep v fast.code slow.code u.Enterable Spares pc s := by
  by_cases inRegion : ∃ r ∈ u.regions, r.Covers pc
  · obtain ⟨r, member, covered⟩ := inRegion
    exact inStep_region laid toFast toSlow unknown proper agrees enters member covered s
  · by_cases inPath : ∃ site ∈ u.sites, ∃ exit ∈ site.exits, (Site.slowPathOf exit).Covers pc
    · obtain ⟨site, listed, exit, leaves, covered⟩ := inPath
      exact inStep_slowPath laid toFast toSlow listed leaves covered s
    · refine inStep_outside toFast toSlow entries (fun b member covered => ?_) s
      obtain ⟨site, listed, block⟩ := List.mem_flatMap.mp member
      rcases List.mem_append.mp block with region | path
      · exact inRegion ⟨b, List.mem_flatMap.mpr ⟨site, listed, region⟩, covered⟩
      · obtain ⟨exit, leaves, rfl⟩ := List.mem_map.mp path
        exact inPath ⟨site, listed, exit, leaves, covered⟩

end Rounds

/-- A generated unit, linked against what is known of shapes, ends its runs as it does if every site
is left to the runtime: in the same way and state, after the same calls of host functions, and with
no other slow-path calls. It is enough that the runtime does the access of a specialised site on the
objects that pass the test of the site, and that regions are entered at their start only. -/
theorem patched_runs_end_as_slow_runs {o : Options} {d : Draft} {jumps : List Nat} {u : Finished}
    {maps : StackMaps} {shapes blind : ShapeModel} {fast slow : Linked} {v : Services}
    (generated : Draft.Generated o 0 d jumps) (finished : d.finish = .ok u)
    (entries : ∀ q cond target, u.code[q]? = some (.branch cond (some target)) →
      (∀ r ∈ u.regions, ¬ r.Covers q) → u.Enterable target)
    (proper : ∀ id snapshot regs, maps id = some snapshot → snapshot.result? = some regs →
      regs.Proper)
    (toFast : u.link maps shapes = .ok fast) (unknown : ∀ id, blind.shape? id = none)
    (toSlow : u.link maps blind = .ok slow)
    (agrees : ∀ r ∈ fast.report, r.resolution.isSpecialized = true → v.Agrees u maps shapes r)
    {entry : Nat} (enters : u.Enterable entry) (s : State) (ending : Except Trap Exit)
    (final : State) :
    (∀ calls, Run.Completes v fast.code entry s ending final calls →
      ∃ others, Run.Completes v slow.code entry s ending final others ∧ Spares calls others) ∧
    (∀ others, Run.Completes v slow.code entry s ending final others →
      ∃ calls, Run.Completes v fast.code entry s ending final calls ∧ Spares calls others) := by
  obtain ⟨rfl, _⟩ := Draft.finish_eq_ok finished
  have origin := generated.laid.origin
  have laid : LaidOut (fun q => d.assembler.code[q]?) d.sites :=
    generated.laid.layout.congr fun _ _ q _ => (Assembler.inst?_of_origin_zero origin q).symm
  have fastLinks := linksTo laid toFast
  have slowLinks := linksTo laid toSlow
  have round := fun pc s here =>
    @inStep v _ _ _ _ _ _ pc laid fastLinks slowLinks unknown proper agrees entries here s
  simp only [Run.completes_iff_ends]
  constructor
  · rintro calls ⟨n, whole⟩
    obtain ⟨m, others, follows, spares⟩ := whole.transfer (.refl []) Spares.append
      (fun call => .refl [call]) round enters
    exact ⟨others, ⟨m, follows⟩, spares⟩
  · rintro others ⟨n, whole⟩
    obtain ⟨m, calls, follows, spares⟩ := whole.transfer (.refl [])
      (fun first second => first.append second) (fun call => .refl [call])
      (fun pc s here => (round pc s here).symm) enters
    exact ⟨calls, ⟨m, follows⟩, spares⟩

namespace OneRead

def snapshot : Snapshot := ⟨.packed .t0, .t3, none, some (.packed .t1), some ⟨1#32⟩⟩

def shapes : ShapeModel where
  shape? := fun id => if id = ⟨1#32⟩ then some ⟨⟨1#32⟩, 0#8, 0x11#8, 0#8⟩ else none
  slot? := fun _ _ => some 2#32
  transition? := fun _ _ => none

def services : Services :=
  Services.none.installSlowPath fun _ s => (Resolution.load ⟨1#32⟩ 2#32).effect shapes snapshot s

def unit : Finished where
  options := {}
  code := (.branch .alwaysPatchable (some 17) :: (List.replicate 15 .nop ++
    [.ret, .callSlowPath ⟨.read, ⟨0#32⟩, ⟨0#32⟩⟩, .branch .always none])).toArray
  sites := [⟨⟨0#32⟩, ⟨0#32⟩, .read ⟨0#32⟩, [⟨0, ⟨0, 16⟩, 0, 16⟩], [18]⟩]

def start : State :=
  ((State.zero.setTags.setGpr .t0 0x1000#64).write64 0x1020#64 7#64).writeHeader 0x1000#64
    ⟨⟨1#32⟩, 0#8, 0x11#8, 0#8⟩

theorem start_passes :
    start.passes unit.options snapshot.base (.objectWithShape ⟨1#32⟩) = true :=
  State.passes_writeHeader ⟨⟨1#32⟩, 0#8, 0x11#8, 0#8⟩ rfl rfl

theorem generated : Draft.Generated {} 0 ⟨{}, ⟨0, unit.code⟩, unit.sites⟩ [] := by
  have created : Draft.Generated {} 0 _ [] :=
    @Draft.Generated.addSite _ _ _ _ _ _ ⟨0#32⟩ ⟨0#32⟩ (.read ⟨0#32⟩) .empty rfl
  have region : Draft.Generated {} 0 _ [] := @Draft.Generated.emitPatch _ _ _ _ _ 0 _ created rfl
  have returns : Draft.Generated {} 0 _ [] := @Draft.Generated.place _ _ _ _ [.ret] _ _ region rfl
  exact @Draft.Generated.emitSlowPaths _ _ _ _ _ 0 _ returns rfl

theorem entries (q : Nat) (cond : Cond) (target : Nat)
    (found : unit.code[q]? = some (.branch cond (some target)))
    (outside : ∀ r ∈ unit.regions, ¬ r.Covers q) : unit.Enterable target := by
  have table : ∀ n < 19, ((unit.code[n]?).bind Inst.target?).isSome = true → n = 0 := by decide
  have bound : q < 19 := (Array.getElem?_eq_some_iff.mp found).1
  obtain rfl := table q bound (by rw [found]; rfl)
  exact absurd (by decide) (outside ⟨0, 16⟩ (by decide))

end OneRead

open OneRead in
theorem patched_read_ends_as_slow_read :
    ∃ fast slow, unit.link (fun _ => some snapshot) shapes = .ok fast ∧
      fast.report = [⟨0, 0, ⟨0, 16⟩, .load ⟨1#32⟩ 2#32⟩] ∧
      unit.link (fun _ => some snapshot) .empty = .ok slow ∧
      OneRead.start.passes unit.options snapshot.base (.objectWithShape ⟨1#32⟩) = true ∧
      ∃ calls, Run.Completes services fast.code 0 OneRead.start (.ok .returned)
          ((Resolution.load ⟨1#32⟩ 2#32).effect shapes snapshot OneRead.start) calls ∧
        Spares calls [.slow ⟨.read, ⟨0#32⟩, ⟨0#32⟩⟩] := by
  obtain ⟨fast, toFast, report⟩ : ∃ fast, unit.link (fun _ => some snapshot) shapes = .ok fast ∧
      fast.report = [⟨0, 0, ⟨0, 16⟩, .load ⟨1#32⟩ 2#32⟩] := ⟨_, rfl, rfl⟩
  obtain ⟨slow, toSlow, jump, call, exit, returns⟩ :
      ∃ slow, unit.link (fun _ => some snapshot) .empty = .ok slow ∧
        slow.code[0]? = some (.branch .alwaysPatchable (some 17)) ∧
        slow.code[17]? = some (.callSlowPath ⟨.read, ⟨0#32⟩, ⟨0#32⟩⟩) ∧
        slow.code[18]? = some (.branch .always (some 16)) ∧ slow.code[16]? = some .ret :=
    ⟨_, rfl, rfl, rfl, rfl, rfl⟩
  have run : Ends services slow.code 0 OneRead.start 4 [.slow ⟨.read, ⟨0#32⟩, ⟨0#32⟩⟩]
      (.ok .returned) ((Resolution.load ⟨1#32⟩ 2#32).effect shapes snapshot OneRead.start) :=
    .next jump rfl (.called call rfl (.next exit rfl (.stop returns rfl)))
  have agrees : ∀ r ∈ fast.report, r.resolution.isSpecialized = true →
      services.Agrees unit (fun _ => some snapshot) shapes r := by
    intro r member _ site _ _ _ known _
    rw [report, List.mem_singleton] at member
    subst member
    cases known
    exact ⟨_, rfl, fun _ _ => rfl⟩
  refine ⟨fast, slow, toFast, report, toSlow, start_passes, ?_⟩
  refine (patched_runs_end_as_slow_runs OneRead.generated rfl entries ?_ toFast (fun _ => rfl)
    toSlow agrees ?_ _ _ _).2 _ (Run.completes_iff_ends.mpr ⟨4, run⟩)
  · intro _ _ regs known result
    cases known
    cases result
    trivial
  · exact fun r _ inside => absurd inside.1 (Nat.not_lt_zero _)

end Finished

end InlineCache
