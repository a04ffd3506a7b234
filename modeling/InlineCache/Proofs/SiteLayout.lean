import InlineCache.Proofs.StepwiseEmission

/-!
The layout of units. The regions and the slow paths of all sites are separate stretches of code,
whatever order they were generated in, and the `i`-th region of a site leads to its `i`-th slow
path. The layout is a statement about the instruction at each position, so that it can be read off
a draft and off the finished code alike; it survives every change outside of these stretches.
-/

namespace InlineCache

namespace Region

def Covers (r : Region) (position : Nat) : Prop := r.start ≤ position ∧ position < r.stop

instance (r : Region) (position : Nat) : Decidable (r.Covers position) :=
  inferInstanceAs (Decidable (_ ∧ _))

def Apart (r other : Region) : Prop := r.stop ≤ other.start ∨ other.stop ≤ r.start

instance (r other : Region) : Decidable (r.Apart other) := inferInstanceAs (Decidable (_ ∨ _))

theorem Apart.symm {r other : Region} (apart : r.Apart other) : other.Apart r := Or.symm apart

theorem Apart.not_covers {r other : Region} {position : Nat} (apart : r.Apart other)
    (covered : r.Covers position) : ¬ other.Covers position := by
  intro both
  unfold Apart at apart
  unfold Covers at covered both
  omega

end Region

/-- The slow path that a jump leaves: the call and the jump itself. -/
def Site.slowPathOf (exit : Nat) : Region := ⟨exit - 1, 2⟩

def Site.blocks (s : Site) : List Region :=
  s.patches.map Patch.region ++ s.exits.map Site.slowPathOf

def Finished.regions (u : Finished) : List Region :=
  u.sites.flatMap fun s => s.patches.map Patch.region

def Finished.exits (u : Finished) : List Nat := u.sites.flatMap Site.exits

/-- A region that was generated and not yet patched, in code of which the instruction at each
position is known. Its first instruction jumps to `slowPath`. -/
structure Patch.LiesIn (read : Nat → Option Inst) (slowPath : Option Nat) (p : Patch) : Prop where
  entry : p.entry = p.region.start
  placeholder : p.placeholder = p.region.start
  length : p.region.length = Patch.length
  done : p.done = p.region.stop
  jump : read p.region.start = some (.branch .alwaysPatchable slowPath)
  nops : ∀ q, p.region.start < q → q < p.region.stop → read q = some .nop

/-- A site whose first regions lead to its slow paths, one each; the others lead nowhere yet. -/
structure Site.LiesIn (read : Nat → Option Inst) (s : Site) : Prop where
  balanced : s.exits.length ≤ s.patches.length
  patches : ∀ (i : Nat) (p : Patch), s.patches[i]? = some p →
    p.LiesIn read ((s.exits[i]?).map (· - 1))
  exits : ∀ exit ∈ s.exits, 0 < exit ∧ read (exit - 1) = some (.callSlowPath s.slowCall) ∧
    read exit = some (.branch .always none)

structure LaidOut (read : Nat → Option Inst) (sites : List Site) : Prop where
  each : ∀ s ∈ sites, s.LiesIn read
  apart : (sites.flatMap Site.blocks).Pairwise Region.Apart

section Frame

variable {read changed : Nat → Option Inst} {s : Site} {sites : List Site} {b : Region}

namespace Site

theorem region_mem_blocks {i : Nat} {p : Patch} (found : s.patches[i]? = some p) :
    p.region ∈ s.blocks :=
  List.mem_append_left _ (List.mem_map_of_mem (List.mem_of_getElem? found))

theorem slowPathOf_mem_blocks {exit : Nat} (member : exit ∈ s.exits) :
    slowPathOf exit ∈ s.blocks :=
  List.mem_append_right _ (List.mem_map_of_mem member)

theorem covers_slowPathOf_iff {exit q : Nat} (positive : 0 < exit) :
    (slowPathOf exit).Covers q ↔ q = exit - 1 ∨ q = exit := by
  unfold Region.Covers Region.stop slowPathOf
  simp only
  omega

theorem LiesIn.emitted (lies : s.LiesIn read) (member : b ∈ s.blocks) :
    0 < b.length ∧ ∀ q, b.Covers q → ∃ i, read q = some i := by
  rcases List.mem_append.mp member with region | path
  · obtain ⟨p, listed, rfl⟩ := List.mem_map.mp region
    obtain ⟨i, found⟩ := List.mem_iff_getElem?.mp listed
    have patch := lies.patches i p found
    refine ⟨by simp [patch.length, Patch.length], fun q covered => ?_⟩
    rcases Nat.eq_or_lt_of_le covered.1 with first | later
    · exact ⟨_, first ▸ patch.jump⟩
    · exact ⟨_, patch.nops q later covered.2⟩
  · obtain ⟨exit, listed, rfl⟩ := List.mem_map.mp path
    obtain ⟨positive, call, jump⟩ := lies.exits exit listed
    refine ⟨by simp [slowPathOf], fun q covered => ?_⟩
    rcases (covers_slowPathOf_iff positive).mp covered with rfl | rfl
    · exact ⟨_, call⟩
    · exact ⟨_, jump⟩

end Site

theorem Patch.LiesIn.covers_start {slowPath : Option Nat} {p : Patch}
    (lies : p.LiesIn read slowPath) : p.region.Covers p.region.start := by
  have size := lies.length
  exact ⟨Nat.le_refl _, by simp [Region.stop, size, Patch.length]⟩

theorem Patch.LiesIn.lead {slowPath target : Option Nat} {p : Patch} (lies : p.LiesIn read slowPath)
    (jump : changed p.region.start = some (.branch .alwaysPatchable target))
    (same : ∀ q, q ≠ p.region.start → p.region.Covers q → changed q = read q) :
    p.LiesIn changed target where
  entry := lies.entry
  placeholder := lies.placeholder
  length := lies.length
  done := lies.done
  jump := jump
  nops := fun q after before => by
    rw [same q (Nat.ne_of_gt after) ⟨Nat.le_of_lt after, before⟩, lies.nops q after before]

theorem Patch.LiesIn.congr {slowPath : Option Nat} {p : Patch} (lies : p.LiesIn read slowPath)
    (same : ∀ q, p.region.Covers q → changed q = read q) : p.LiesIn changed slowPath :=
  lies.lead (by rw [same _ lies.covers_start, lies.jump]) fun q _ => same q

theorem Site.LiesIn.exits_congr (lies : s.LiesIn read)
    (same : ∀ exit ∈ s.exits, ∀ q, (slowPathOf exit).Covers q → changed q = read q) :
    ∀ exit ∈ s.exits, 0 < exit ∧ changed (exit - 1) = some (.callSlowPath s.slowCall) ∧
      changed exit = some (.branch .always none) := by
  intro exit member
  obtain ⟨positive, call, jump⟩ := lies.exits exit member
  have covers := fun q => (@covers_slowPathOf_iff exit q positive).mpr
  rw [same exit member _ (covers _ (.inl rfl)), same exit member _ (covers _ (.inr rfl))]
  exact ⟨positive, call, jump⟩

theorem Site.LiesIn.congr (lies : s.LiesIn read)
    (same : ∀ b ∈ s.blocks, ∀ q, b.Covers q → changed q = read q) : s.LiesIn changed where
  balanced := lies.balanced
  patches := fun i p found => (lies.patches i p found).congr (same _ (region_mem_blocks found))
  exits := lies.exits_congr fun _ member => same _ (slowPathOf_mem_blocks member)

theorem Site.LiesIn.addPatch {p : Patch} (lies : s.LiesIn read)
    (same : ∀ b ∈ s.blocks, ∀ q, b.Covers q → changed q = read q)
    (added : p.LiesIn changed none) :
    Site.LiesIn changed { s with patches := s.patches ++ [p] } where
  balanced := by
    have balanced := lies.balanced
    simp only [List.length_append, List.length_singleton]
    omega
  patches := by
    intro i q found
    simp only [List.getElem?_append] at found
    split at found
    next old => exact (lies.congr same).patches i q found
    next new =>
      have none_yet : s.exits[i]? = none :=
        List.getElem?_eq_none (Nat.le_trans lies.balanced (Nat.le_of_not_lt new))
      obtain ⟨_, rfl⟩ := List.getElem?_eq_some_iff.mp found
      rw [List.getElem_singleton, none_yet]
      exact added
  exits := (lies.congr same).exits

theorem Site.LiesIn.addExit {p : Patch} {exit : Nat} (lies : s.LiesIn read)
    (pending : s.patches[s.exits.length]? = some p) (led : p.LiesIn changed (some (exit - 1)))
    (regions : ∀ j q, s.patches[j]? = some q → s.exits.length ≠ j →
      ∀ r, q.region.Covers r → changed r = read r)
    (paths : ∀ e ∈ s.exits, ∀ r, (slowPathOf e).Covers r → changed r = read r)
    (positive : 0 < exit) (call : changed (exit - 1) = some (.callSlowPath s.slowCall))
    (jump : changed exit = some (.branch .always none)) :
    Site.LiesIn changed { s with exits := s.exits ++ [exit] } where
  balanced := by
    obtain ⟨bound, _⟩ := List.getElem?_eq_some_iff.mp pending
    simp only [List.length_append, List.length_singleton]
    omega
  patches := by
    intro i q found
    by_cases here : s.exits.length = i
    · subst here
      cases pending.symm.trans found
      simpa using led
    · have kept : (s.exits ++ [exit])[i]? = s.exits[i]? := by
        rcases Nat.lt_or_gt_of_ne here with after | before
        · rw [List.getElem?_append_right (Nat.le_of_lt after),
            List.getElem?_eq_none (Nat.le_of_lt after)]
          exact List.getElem?_eq_none (by simp only [List.length_singleton]; omega)
        · rw [List.getElem?_append_left before]
      rw [kept]
      exact (lies.patches i q found).congr (regions i q found here)
  exits := by
    intro e member
    rcases List.mem_append.mp member with old | new
    · exact lies.exits_congr paths e old
    · obtain rfl := List.mem_singleton.mp new
      exact ⟨positive, call, jump⟩

theorem Site.blocks_addPatch (s : Site) (p : Patch) :
    (Site.blocks { s with patches := s.patches ++ [p] }).Perm (p.region :: s.blocks) := by
  simp only [blocks, List.map_append, List.map_cons, List.map_nil, List.append_assoc,
    List.singleton_append]
  exact List.perm_middle

theorem Site.blocks_addExit (s : Site) (exit : Nat) :
    (Site.blocks { s with exits := s.exits ++ [exit] }).Perm (slowPathOf exit :: s.blocks) := by
  simp only [blocks, List.map_append, List.map_cons, List.map_nil, ← List.append_assoc]
  exact List.perm_append_singleton _ _

namespace LaidOut

theorem congr (laid : LaidOut read sites)
    (same : ∀ b ∈ sites.flatMap Site.blocks, ∀ q, b.Covers q → changed q = read q) :
    LaidOut changed sites where
  each := fun s member =>
    (laid.each s member).congr fun b listed => same b (List.mem_flatMap.mpr ⟨s, member, listed⟩)
  apart := laid.apart

theorem emitted (laid : LaidOut read sites) (member : b ∈ sites.flatMap Site.blocks) :
    0 < b.length ∧ ∀ q, b.Covers q → ∃ i, read q = some i := by
  obtain ⟨s, listed, block⟩ := List.mem_flatMap.mp member
  exact (laid.each s listed).emitted block

theorem apart_of_ne (laid : LaidOut read sites) {i j : Nat} {other : Site} {c : Region}
    (found : sites[i]? = some s) (found' : sites[j]? = some other) (differ : i ≠ j)
    (member : b ∈ s.blocks) (member' : c ∈ other.blocks) : b.Apart c := by
  have across := (List.pairwise_flatMap.mp laid.apart).2
  rw [List.pairwise_iff_getElem] at across
  obtain ⟨low, rfl⟩ := List.getElem?_eq_some_iff.mp found
  obtain ⟨low', rfl⟩ := List.getElem?_eq_some_iff.mp found'
  rcases Nat.lt_or_gt_of_ne differ with before | behind
  · exact across i j low low' before b member c member'
  · exact (across j i low' low behind c member' b member).symm

theorem apart_of_site (laid : LaidOut read sites) {i : Nat} {p : Patch} (listed : s ∈ sites)
    (found : s.patches[i]? = some p) :
    (∀ j q, s.patches[j]? = some q → i ≠ j → p.region.Apart q.region) ∧
      ∀ exit ∈ s.exits, p.region.Apart (Site.slowPathOf exit) := by
  have within := (List.pairwise_flatMap.mp laid.apart).1 s listed
  obtain ⟨regions, _, mixed⟩ := List.pairwise_append.mp within
  refine ⟨fun j q found' differ => ?_, fun exit member => ?_⟩
  · rw [List.pairwise_map, List.pairwise_iff_getElem] at regions
    obtain ⟨low, rfl⟩ := List.getElem?_eq_some_iff.mp found
    obtain ⟨low', rfl⟩ := List.getElem?_eq_some_iff.mp found'
    rcases Nat.lt_or_gt_of_ne differ with before | behind
    · exact regions i j low low' before
    · exact (regions j i low' low behind).symm
  · exact mixed _ (List.mem_map_of_mem (List.mem_of_getElem? found)) _ (List.mem_map_of_mem member)

end LaidOut

theorem blocks_set_perm {id : Nat} {grown : Site} (found : sites[id]? = some s)
    (more : grown.blocks.Perm (b :: s.blocks)) :
    ((sites.set id grown).flatMap Site.blocks).Perm (b :: sites.flatMap Site.blocks) := by
  induction sites generalizing id with
  | nil => simp at found
  | cons first rest ih =>
    cases id with
    | zero =>
      obtain rfl : first = s := by simpa using found
      simp only [List.set_cons_zero, List.flatMap_cons]
      exact more.append_right _
    | succ id =>
      simp only [List.set_cons_succ, List.flatMap_cons]
      exact ((ih (by simpa using found)).append_left _).trans List.perm_middle

/-- One site gets a new block, in code that is otherwise changed within that site only. -/
theorem LaidOut.set {id : Nat} {grown : Site} (laid : LaidOut read sites)
    (found : sites[id]? = some s) (more : grown.blocks.Perm (b :: s.blocks))
    (fresh : ∀ other ∈ sites.flatMap Site.blocks, b.Apart other) (lies : grown.LiesIn changed)
    (same : ∀ j other, j ≠ id → sites[j]? = some other →
      ∀ c ∈ other.blocks, ∀ q, c.Covers q → changed q = read q) :
    LaidOut changed (sites.set id grown) where
  each := by
    intro other member
    obtain ⟨j, listed⟩ := List.mem_iff_getElem?.mp member
    by_cases here : id = j
    · subst here
      rw [List.getElem?_set_self (List.getElem?_eq_some_iff.mp found).1] at listed
      cases listed
      exact lies
    · rw [List.getElem?_set_ne here] at listed
      exact (laid.each other (List.mem_of_getElem? listed)).congr
        (same j other (Ne.symm here) listed)
  apart := by
    rw [(blocks_set_perm found more).pairwise_iff Region.Apart.symm, List.pairwise_cons]
    exact ⟨fresh, laid.apart⟩

end Frame

namespace Draft

variable {d after : Draft} {id : Nat} {p : Patch}

theorem site_eq_ok_iff {s : Site} : d.site id = .ok s ↔ d.sites[id]? = some s := by
  unfold site
  cases d.sites[id]? with
  | none => simp
  | some s => simp

theorem updateSite_eq_ok_iff {change : Site → Site} :
    d.updateSite id change = .ok after ↔
      ∃ s, d.sites[id]? = some s ∧ after = { d with sites := d.sites.set id (change s) } := by
  simp only [updateSite, bind_eq_ok_iff, site_eq_ok_iff, pure, Except.pure, Except.ok.injEq,
    @eq_comm _ after]

theorem emit_eq_ok_iff {α : Type} {steps : Emit α} {answer : α} :
    d.emit steps = .ok (after, answer) ↔
      ∃ b, steps.run d.assembler = .ok (answer, b) ∧ after = { d with assembler := b } := by
  unfold emit
  rw [bind_eq_ok_iff]
  constructor
  · intro emitted
    obtain ⟨⟨_, b⟩, run, same⟩ := emitted
    cases same
    exact ⟨b, run, rfl⟩
  · intro ran
    obtain ⟨b, run, rfl⟩ := ran
    exact ⟨(answer, b), run, rfl⟩

theorem emitPatch_eq_ok (emitted : d.emitPatch id = .ok (after, p)) :
    ∃ s exits, d.sites[id]? = some s ∧
      p = ⟨d.assembler.next, ⟨d.assembler.next, Patch.length⟩, d.assembler.next,
        d.assembler.next + Patch.length⟩ ∧
      d.assembler.next + Patch.length < wordLimit ∧
      d.assembler.place unpatched = .ok (after.assembler, exits) ∧
      after.sites = d.sites.set id { s with patches := s.patches ++ [p] } := by
  obtain ⟨⟨mid, patch⟩, generated, rest⟩ := bind_eq_ok_iff.mp emitted
  obtain ⟨final, added, same⟩ := bind_eq_ok_iff.mp rest
  cases same
  obtain ⟨b, run, rfl⟩ := emit_eq_ok_iff.mp generated
  obtain ⟨s, found, rfl⟩ := updateSite_eq_ok_iff.mp added
  rw [run_emitRegion] at run
  split at run
  next room =>
    cases run
    exact ⟨s, _, found, rfl, room, place_unpatched (by omega), rfl⟩
  next => cases run

theorem emitSlowPath_eq_ok_iff {call : SlowCall} :
    d.emitSlowPath id call p = .ok after ↔
      ∃ s a b exits, d.sites[id]? = some s ∧ d.assembler.next < wordLimit ∧
        d.assembler.linkAll [p.placeholder] d.assembler.next = .ok a ∧
        a.place [.callSlowPath call, .branch .always none] = .ok (b, exits) ∧
        after = { d with
          assembler := b
          sites := d.sites.set id { s with exits := s.exits ++ [a.next + 1] } } := by
  simp only [emitSlowPath, emit, run_emitReturn, Assembler.linkHere, Assembler.label, addExit,
    bind_eq_ok_iff, fitWord_eq_ok_iff, updateSite_eq_ok_iff]
  constructor
  · intro emitted
    obtain ⟨⟨_, _⟩, ⟨⟨_, _⟩, ⟨a, ⟨_, ⟨low, same⟩, linked⟩, ⟨b, exits⟩, placed, answer⟩, rest⟩, s,
      found, final⟩ := emitted
    cases same
    cases answer
    cases rest
    exact ⟨s, a, b, exits, found, low, linked, placed, final⟩
  · intro parts
    obtain ⟨s, a, b, exits, found, low, linked, placed, final⟩ := parts
    exact ⟨_, ⟨_, ⟨a, ⟨_, ⟨low, rfl⟩, linked⟩, _, placed, rfl⟩, rfl⟩, s, found, final⟩

theorem emitSlowPaths_eq_ok_iff {count : Nat} :
    d.emitSlowPaths id = .ok (after, count) ↔
      ∃ s, d.sites[id]? = some s ∧ s.exits.length ≤ s.patches.length ∧
        count = s.patches.length - s.exits.length ∧
        (s.patches.drop s.exits.length).foldlM (fun d p => d.emitSlowPath id s.slowCall p) d =
          .ok after := by
  simp only [emitSlowPaths, bind_eq_ok_iff, liftFault_eq_ok_iff, site_eq_ok_iff]
  constructor
  · rintro ⟨s, found, rest⟩
    split at rest
    next unbalanced => simp [throw, throwThe, MonadExceptOf.throw, bind, Except.bind] at rest
    next balanced =>
      obtain ⟨final, emitted, same⟩ := bind_eq_ok_iff.mp rest
      cases same
      exact ⟨s, found, by omega, by simp, liftFault_eq_ok_iff.mp emitted⟩
  · rintro ⟨s, found, balanced, rfl, emitted⟩
    refine ⟨s, found, ?_⟩
    rw [if_neg (by omega), bind_eq_ok_iff]
    exact ⟨after, liftFault_eq_ok_iff.mpr emitted, by simp [pure, Except.pure]⟩

theorem liesIn_of_place {a b : Assembler} {exits : List Nat}
    (placed : a.place unpatched = .ok (b, exits)) :
    Patch.LiesIn b.inst? none
      ⟨a.next, ⟨a.next, Patch.length⟩, a.next, a.next + Patch.length⟩ where
  entry := rfl
  placeholder := rfl
  length := rfl
  done := rfl
  jump := Assembler.inst?_place_new placed 0
  nops := by
    intro q after before
    obtain ⟨n, rfl⟩ : ∃ n, q = a.next + (n + 1) := ⟨q - a.next - 1, by simp only at after; omega⟩
    have short : n < Patch.length - 1 := by
      simp only [Region.stop] at before
      omega
    rw [Assembler.inst?_place_new placed, unpatched, List.getElem?_cons_succ,
      List.getElem?_replicate, if_pos short]
    rfl

structure Laid (d : Draft) (origin : Nat) (jumps : List Nat) : Prop where
  origin : d.assembler.origin = origin
  layout : LaidOut d.assembler.inst? d.sites
  free : ∀ j ∈ jumps, j < d.assembler.next ∧ ∀ b ∈ d.sites.flatMap Site.blocks, ¬ b.Covers j

namespace Laid

variable {origin : Nat} {jumps : List Nat} {s : Site}

theorem stop_le_next (laid : d.Laid origin jumps) {b : Region}
    (member : b ∈ d.sites.flatMap Site.blocks) : b.stop ≤ d.assembler.next := by
  obtain ⟨positive, emitted⟩ := laid.layout.emitted member
  have last : b.Covers (b.stop - 1) := by
    unfold Region.Covers Region.stop
    omega
  obtain ⟨i, found⟩ := emitted _ last
  have low := (Assembler.bounds_of_inst? found).2
  omega

theorem lt_next (laid : d.Laid origin jumps) {b : Region} (member : b ∈ d.sites.flatMap Site.blocks)
    {q : Nat} (covered : b.Covers q) : q < d.assembler.next :=
  Nat.lt_of_lt_of_le covered.2 (laid.stop_le_next member)

theorem place {f : Fragment} {a : Assembler} {exits : List Nat} (laid : d.Laid origin jumps)
    (placed : d.assembler.place f = .ok (a, exits)) :
    Laid { d with assembler := a } origin (jumps ++ exits) where
  origin := (Assembler.origin_place placed).trans laid.origin
  layout := laid.layout.congr fun b member q covered =>
    Assembler.inst?_place_old placed (laid.lt_next member covered)
  free := by
    intro j member
    have grown : a.next = d.assembler.next + f.length := Assembler.next_place placed
    rcases List.mem_append.mp member with old | new
    · obtain ⟨low, outside⟩ := laid.free j old
      exact ⟨by simp only [grown]; omega, outside⟩
    · rw [(Assembler.place_eq_ok placed).2, Fragment.mem_exitsFrom] at new
      obtain ⟨n, i, found, _, rfl⟩ := new
      obtain ⟨bound, _⟩ := List.getElem?_eq_some_iff.mp found
      refine ⟨by simp only [grown]; omega, fun b listed covered => ?_⟩
      have low := laid.lt_next listed covered
      omega

theorem link {positions : List Nat} {target : Nat} {a : Assembler} (laid : d.Laid origin jumps)
    (known : ∀ q ∈ positions, q ∈ jumps) (linked : d.assembler.linkAll positions target = .ok a) :
    Laid { d with assembler := a } origin jumps := by
  obtain ⟨start, size, others⟩ := Assembler.linkAll_eq_ok linked
  refine ⟨start.trans laid.origin, laid.layout.congr fun b member q covered => ?_,
    fun j member => ?_⟩
  · have here := others q
    rwa [if_neg fun listed => (laid.free q (known q listed)).2 b member covered] at here
  · rw [size]
    exact laid.free j member

theorem addSite (laid : d.Laid origin jumps) (unpatched : s.patches = [])
    (pathless : s.exits = []) : Laid { d with sites := d.sites ++ [s] } origin jumps := by
  have blocks : (d.sites ++ [s]).flatMap Site.blocks = d.sites.flatMap Site.blocks := by
    simp [Site.blocks, unpatched, pathless]
  refine ⟨laid.origin, ⟨fun t member => ?_, ?_⟩, fun j member => ?_⟩
  · rcases List.mem_append.mp member with old | new
    · exact laid.layout.each t old
    · obtain rfl := List.mem_singleton.mp new
      exact ⟨by simp [pathless], by simp [unpatched], by simp [pathless]⟩
  · rw [blocks]
    exact laid.layout.apart
  · rw [blocks]
    exact laid.free j member

theorem grow {grown : Site} {b : Region} (laid : d.Laid origin jumps)
    (found : d.sites[id]? = some s) (more : grown.blocks.Perm (b :: s.blocks))
    (fresh : b.start = d.assembler.next)
    (start : after.assembler.origin = d.assembler.origin)
    (further : d.assembler.next ≤ after.assembler.next)
    (sites : after.sites = d.sites.set id grown) (lies : grown.LiesIn after.assembler.inst?)
    (same : ∀ j other, j ≠ id → d.sites[j]? = some other → ∀ c ∈ other.blocks, ∀ q, c.Covers q →
      after.assembler.inst? q = d.assembler.inst? q) : after.Laid origin jumps := by
  refine ⟨start.trans laid.origin, ?_, fun j member => ?_⟩
  · rw [sites]
    refine laid.layout.set found more (fun other listed => ?_) lies same
    have low := laid.stop_le_next listed
    unfold Region.Apart
    omega
  · obtain ⟨low, outside⟩ := laid.free j member
    refine ⟨Nat.lt_of_lt_of_le low further, fun c listed covered => ?_⟩
    rw [sites, (blocks_set_perm found more).mem_iff] at listed
    rcases List.mem_cons.mp listed with rfl | old
    · have high := covered.1
      omega
    · exact outside c old covered

theorem emitPatch (laid : d.Laid origin jumps) (emitted : d.emitPatch id = .ok (after, p)) :
    after.Laid origin jumps := by
  obtain ⟨s, exits, found, rfl, _, placed, sites⟩ := emitPatch_eq_ok emitted
  have listed := List.mem_of_getElem? found
  have old : ∀ t ∈ d.sites, ∀ b ∈ t.blocks, ∀ q, b.Covers q →
      after.assembler.inst? q = d.assembler.inst? q := fun t member b block q covered =>
    Assembler.inst?_place_old placed
      (laid.lt_next (List.mem_flatMap.mpr ⟨t, member, block⟩) covered)
  have lies := (laid.layout.each s listed).addPatch (old s listed) (liesIn_of_place placed)
  refine laid.grow found (s.blocks_addPatch _) rfl (Assembler.origin_place placed) ?_ sites lies ?_
  · rw [Assembler.next_place placed]
    omega
  · exact fun j other _ found' => old other (List.mem_of_getElem? found')

theorem emitSlowPath (laid : d.Laid origin jumps) (found : d.sites[id]? = some s)
    (pending : s.patches[s.exits.length]? = some p)
    (emitted : d.emitSlowPath id s.slowCall p = .ok after) :
    after.Laid origin jumps ∧ after.assembler.next = d.assembler.next + 2 ∧
      after.sites = d.sites.set id { s with exits := s.exits ++ [d.assembler.next + 1] } := by
  obtain ⟨s', a, b, exits, found', _, linked, placed, rfl⟩ := emitSlowPath_eq_ok_iff.mp emitted
  cases found.symm.trans found'
  have listed := List.mem_of_getElem? found
  have lies := laid.layout.each s listed
  have patch := lies.patches _ p pending
  obtain ⟨start, size, others⟩ := Assembler.linkAll_eq_ok linked
  have after_next : b.next = d.assembler.next + 2 := by
    rw [Assembler.next_place placed, size]
    rfl
  have old : ∀ q, q < d.assembler.next → b.inst? q = a.inst? q := fun q low =>
    Assembler.inst?_place_old placed (by omega)
  have kept : ∀ q, q ≠ p.region.start → q < d.assembler.next →
      b.inst? q = d.assembler.inst? q := by
    intro q differs low
    have here := others q
    rw [if_neg (by simpa [patch.placeholder] using differs)] at here
    rw [old q low, here]
  have kept_apart : ∀ t ∈ d.sites, ∀ c ∈ t.blocks, p.region.Apart c → ∀ q, c.Covers q →
      b.inst? q = d.assembler.inst? q := by
    intro t member c block apart q covered
    refine kept q (fun same => ?_) (laid.lt_next (List.mem_flatMap.mpr ⟨t, member, block⟩) covered)
    exact apart.not_covers patch.covers_start (same ▸ covered)
  have own : p.region ∈ d.sites.flatMap Site.blocks :=
    List.mem_flatMap.mpr ⟨s, listed, Site.region_mem_blocks pending⟩
  have jump : b.inst? p.region.start = some (.branch .alwaysPatchable (some d.assembler.next)) := by
    have here := others p.region.start
    rw [if_pos (by simp [patch.placeholder])] at here
    obtain ⟨cond, target, was, now⟩ := here
    cases patch.jump.symm.trans was
    rw [old _ (laid.lt_next own patch.covers_start), now]
  have led : p.LiesIn b.inst? (some (a.next + 1 - 1)) := by
    rw [size, Nat.add_sub_cancel]
    exact patch.lead jump fun q differs covered => kept q differs (laid.lt_next own covered)
  obtain ⟨regions, paths⟩ := laid.layout.apart_of_site listed pending
  have grown := lies.addExit pending led
    (fun j q found' differs => kept_apart s listed _ (Site.region_mem_blocks found')
      (regions j q found' differs))
    (fun e member => kept_apart s listed _ (Site.slowPathOf_mem_blocks member) (paths e member))
    (Nat.succ_pos _) (Assembler.inst?_place_new placed 0) (Assembler.inst?_place_new placed 1)
  refine ⟨laid.grow found (s.blocks_addExit _) (by simp [Site.slowPathOf, size])
    ((Assembler.origin_place placed).trans start) (by simp [after_next]) rfl grown ?_, after_next,
    by rw [size]⟩
  intro j other differs found' c block
  exact kept_apart other (List.mem_of_getElem? found') c block
    (laid.layout.apart_of_ne found found' differs.symm (Site.region_mem_blocks pending) block)

theorem emitSlowPath_succeeds (laid : d.Laid origin jumps) (found : d.sites[id]? = some s)
    (pending : s.patches[s.exits.length]? = some p) (room : d.assembler.next + 2 ≤ wordLimit) :
    ∃ after, d.emitSlowPath id s.slowCall p = .ok after := by
  have patch := (laid.layout.each s (List.mem_of_getElem? found)).patches _ p pending
  obtain ⟨a, linked⟩ := @Assembler.link_succeeds _ _ d.assembler.next _ _ patch.jump
  have linked_one : d.assembler.linkAll [p.placeholder] d.assembler.next = .ok a := by
    rw [patch.placeholder]
    simp [Assembler.linkAll, linked]
  have size := (Assembler.linkAll_eq_ok linked_one).2.1
  have fits : Fragment.fits a.next [.callSlowPath s.slowCall, .branch .always none] = true := by
    simp only [Fragment.fits, Fragment.fitsFrom, Bool.true_and, Bool.and_true, decide_eq_true_eq]
    omega
  obtain ⟨b, exits, placed⟩ := Assembler.place_succeeds fits
  exact ⟨_, emitSlowPath_eq_ok_iff.mpr ⟨s, a, b, exits, found, by omega, linked_one, placed, rfl⟩⟩

theorem first_pending {pending : List Patch} (rest : s.patches.drop s.exits.length = p :: pending) :
    s.patches[s.exits.length]? = some p ∧ s.patches.drop (s.exits.length + 1) = pending := by
  constructor
  · rw [← List.head?_drop, rest, List.head?_cons]
  · rw [← List.tail_drop, rest, List.tail_cons]

theorem emitSlowPath_all {pending : List Patch} (laid : d.Laid origin jumps)
    (found : d.sites[id]? = some s) (rest : s.patches.drop s.exits.length = pending)
    (emitted : pending.foldlM (fun d p => d.emitSlowPath id s.slowCall p) d = .ok after) :
    after.Laid origin jumps ∧ ∃ exits, exits.length = pending.length ∧
      after.sites = d.sites.set id { s with exits := s.exits ++ exits } := by
  induction pending generalizing d s with
  | nil =>
    cases emitted
    refine ⟨laid, [], rfl, ?_⟩
    obtain ⟨bound, rfl⟩ := List.getElem?_eq_some_iff.mp found
    simp only [List.append_nil]
    exact (List.set_getElem_self bound).symm
  | cons p pending ih =>
    rw [List.foldlM_cons, bind_eq_ok_iff] at emitted
    obtain ⟨mid, first, others⟩ := emitted
    obtain ⟨head, tail⟩ := first_pending rest
    obtain ⟨laid', _, sites⟩ := laid.emitSlowPath found head first
    have bound := (List.getElem?_eq_some_iff.mp found).1
    obtain ⟨final, exits, count, same⟩ :=
      @ih mid { s with exits := s.exits ++ [d.assembler.next + 1] } laid'
        (by rw [sites, List.getElem?_set_self bound]) (by simpa using tail) others
    refine ⟨final, (d.assembler.next + 1) :: exits, by simp [count], ?_⟩
    rw [same, sites, List.set_set]
    simp

theorem emitSlowPath_all_succeeds {pending : List Patch} (laid : d.Laid origin jumps)
    (found : d.sites[id]? = some s) (rest : s.patches.drop s.exits.length = pending)
    (room : d.assembler.next + 2 * pending.length ≤ wordLimit) :
    ∃ after, pending.foldlM (fun d p => d.emitSlowPath id s.slowCall p) d = .ok after := by
  induction pending generalizing d s with
  | nil => exact ⟨d, rfl⟩
  | cons p pending ih =>
    rw [List.length_cons] at room
    obtain ⟨head, tail⟩ := first_pending rest
    obtain ⟨mid, first⟩ := laid.emitSlowPath_succeeds found head (by omega)
    obtain ⟨laid', next, sites⟩ := laid.emitSlowPath found head first
    have bound := (List.getElem?_eq_some_iff.mp found).1
    obtain ⟨after, others⟩ :=
      @ih mid { s with exits := s.exits ++ [d.assembler.next + 1] } laid'
        (by rw [sites, List.getElem?_set_self bound]) (by simpa using tail) (by omega)
    exact ⟨after, by rw [List.foldlM_cons, bind_eq_ok_iff]; exact ⟨mid, first, others⟩⟩

end Laid

/-- Drafts that come of generating code for a unit, with the jumps that this code has handed out.
Apart from regions and slow paths, any code can be placed, and its jumps can be linked anywhere. -/
inductive Generated (o : Options) (origin : Nat) : Draft → List Nat → Prop where
  | empty : Generated o origin { options := o, assembler := { origin } } []
  | place {d : Draft} {jumps : List Nat} {f : Fragment} {a : Assembler} {exits : List Nat}
      (before : Generated o origin d jumps) (placed : d.assembler.place f = .ok (a, exits)) :
      Generated o origin { d with assembler := a } (jumps ++ exits)
  | link {d : Draft} {jumps positions : List Nat} {target : Nat} {a : Assembler}
      (before : Generated o origin d jumps) (known : ∀ q ∈ positions, q ∈ jumps)
      (linked : d.assembler.linkAll positions target = .ok a) :
      Generated o origin { d with assembler := a } jumps
  | addSite {d after : Draft} {jumps : List Nat} {id : Nat} {stackMap : StackMapId}
      {callSite : CallSite} {access : Access} (before : Generated o origin d jumps)
      (added : d.addSite { stackMap, callSite, access } = .ok (after, id)) :
      Generated o origin after jumps
  | emitPatch {d after : Draft} {jumps : List Nat} {id : Nat} {p : Patch}
      (before : Generated o origin d jumps) (emitted : d.emitPatch id = .ok (after, p)) :
      Generated o origin after jumps
  | emitSlowPaths {d after : Draft} {jumps : List Nat} {id count : Nat}
      (before : Generated o origin d jumps) (emitted : d.emitSlowPaths id = .ok (after, count)) :
      Generated o origin after jumps

namespace Generated

variable {o : Options} {origin : Nat} {jumps : List Nat}

theorem laid (generated : Generated o origin d jumps) : d.Laid origin jumps := by
  induction generated with
  | empty => exact ⟨rfl, ⟨by simp, by simp⟩, by simp⟩
  | place _ placed ih => exact ih.place placed
  | link _ known linked ih => exact ih.link known linked
  | addSite _ added ih =>
    unfold Draft.addSite at added
    split at added
    next unset => cases added
    next known =>
      cases added
      exact ih.addSite rfl rfl
  | emitPatch _ emitted ih => exact ih.emitPatch emitted
  | emitSlowPaths _ emitted ih =>
    obtain ⟨s, found, _, _, all⟩ := emitSlowPaths_eq_ok_iff.mp emitted
    exact (ih.emitSlowPath_all found rfl all).1

/-- However its code was generated, a unit is laid out, and as long as positions fit a word a site
gets exactly the slow paths that it lacks: none of its regions is without one afterwards, and there
is nothing left to generate. -/
theorem laidOut_and_slow_paths_complete (generated : Generated o origin d jumps) :
    LaidOut d.assembler.inst? d.sites ∧
      ∀ id s, d.sites[id]? = some s →
        d.assembler.next + 2 * (s.patches.length - s.exits.length) ≤ wordLimit →
        ∃ after exits, d.emitSlowPaths id = .ok (after, s.patches.length - s.exits.length) ∧
          after.sites = d.sites.set id { s with exits := s.exits ++ exits } ∧
          (s.exits ++ exits).length = s.patches.length ∧
          after.emitSlowPaths id = .ok (after, 0) := by
  have laid := generated.laid
  refine ⟨laid.layout, fun id s found room => ?_⟩
  have balanced := (laid.layout.each s (List.mem_of_getElem? found)).balanced
  obtain ⟨after, all⟩ := laid.emitSlowPath_all_succeeds found rfl (by simpa using room)
  obtain ⟨_, exits, count, sites⟩ := laid.emitSlowPath_all found rfl all
  have complete : (s.exits ++ exits).length = s.patches.length := by
    rw [List.length_append, count, List.length_drop]
    omega
  refine ⟨after, exits, emitSlowPaths_eq_ok_iff.mpr ⟨s, found, balanced, rfl, all⟩, sites, complete,
    emitSlowPaths_eq_ok_iff.mpr ⟨{ s with exits := s.exits ++ exits }, ?_, ?_, ?_, ?_⟩⟩
  · rw [sites, List.getElem?_set_self (List.getElem?_eq_some_iff.mp found).1]
  · exact Nat.le_of_eq complete
  · simp only [complete, Nat.sub_self]
  · rw [List.drop_eq_nil_of_le (Nat.le_of_eq complete.symm)]
    rfl

theorem second_slow_path_follows :
    ∃ d s, Generated {} 7 d [] ∧ d.sites[0]? = some s ∧ s.patches.length = 2 ∧ s.exits = [24] ∧
      LaidOut d.assembler.inst? d.sites ∧ ∃ after, d.emitSlowPaths 0 = .ok (after, 1) := by
  have created : Generated {} 7 _ [] :=
    @Generated.addSite _ _ _ _ _ _ ⟨3#32⟩ ⟨1#32⟩ (.read ⟨0#32⟩) .empty rfl
  have first : Generated {} 7 _ [] := @Generated.emitPatch _ _ _ _ _ 0 _ created rfl
  have path : Generated {} 7 _ [] := @Generated.emitSlowPaths _ _ _ _ _ 0 _ first rfl
  have second : Generated {} 7 _ [] := @Generated.emitPatch _ _ _ _ _ 0 _ path rfl
  obtain ⟨layout, complete⟩ := laidOut_and_slow_paths_complete second
  obtain ⟨after, _, emitted, _⟩ := complete 0 _ rfl (by decide)
  exact ⟨_, _, second, rfl, rfl, rfl, layout, after, emitted⟩

end Generated

end Draft

end InlineCache
