import InlineCache.Linked
import InlineCache.Proofs.SiteLayout

/-!
The contents of patched regions. A region that is specialised holds the test of the shape, the
access and nops, all placed at its start, with the exits of the test linked to the slow path.
Nothing but the region changes, and no branch in it lacks a target.
-/

namespace InlineCache

theorem SelfCheck.abortUnless_closed (o : Options) (reason : AbortReason) (test : Fragment) :
    (SelfCheck.abortUnless o reason test).Closed := by
  unfold abortUnless
  split
  next => exact .skipping test (by simp [Fragment.Closed, Inst.isUnlinked])
  next => simp [Fragment.Closed]

theorem SelfCheck.testAll_closed (o : Options) (tests : List (AbortReason × Evidence)) :
    (testAll o tests).Closed := by
  induction tests with
  | nil => simp [testAll, Fragment.Closed]
  | cons first rest ih => exact (abortUnless_closed o first.1 first.2.code).andThen ih

theorem Header.store_closed (o : Options) (s : Shape) (dest : Gpr) :
    (Header.store o s dest).Closed := by
  unfold store
  split
  next =>
    exact .andThen (by simp [Fragment.Closed, Inst.isUnlinked])
      (SelfCheck.testAll_closed o (tests s dest))
  next => simp [halves, Fragment.Closed, Inst.isUnlinked]

namespace Slot

variable {object : Gpr} {slot : Half} {regs : ValueRegs} {f : Fragment}

theorem load_closed (loaded : load object slot regs = .ok f) : f.Closed := by
  obtain ⟨low, _, rest⟩ := bind_eq_ok_iff.mp loaded
  cases regs with
  | packed dst =>
    cases rest
    simp [Fragment.Closed, Inst.isUnlinked]
  | split tag payload =>
    simp only at rest
    split at rest <;> cases rest <;> simp [Fragment.Closed, Inst.isUnlinked]

theorem store_closed (stored : store object slot regs = .ok f) : f.Closed := by
  obtain ⟨low, _, rest⟩ := bind_eq_ok_iff.mp stored
  cases regs <;> cases rest <;> simp [Fragment.Closed, Inst.isUnlinked]

end Slot

theorem Assembler.toList_guarded {start target : Nat} {guard rest : Fragment}
    {placed linked whole : Assembler} {exits more : List Nat}
    (placing : ({ origin := start } : Assembler).place guard = .ok (placed, exits))
    (linking : placed.linkAll exits target = .ok linked)
    (following : linked.place rest = .ok (whole, more)) (closed : rest.Closed) :
    whole.code.toList = Fragment.linkExits target (Fragment.shift start (guard.andThen rest)) := by
  have next : linked.next = start + guard.length := by
    rw [(linkAll_eq_ok linking).2.1, next_place placing]
    rfl
  have tested : linked.code.toList = Fragment.linkExits target (Fragment.shift start guard) := by
    have alone := linkAll_middle start target [] (Fragment.shift start guard) []
    obtain ⟨rfl, rfl⟩ := place_eq_ok placing
    simp only [List.append_nil, List.nil_append, List.length_nil, Nat.add_zero,
      Fragment.exitsFrom_shift] at alone
    have same := linking.symm.trans (by simpa [Assembler.next] using alone)
    rw [Except.ok.inj same]
  calc whole.code.toList
    _ = linked.code.toList ++ Fragment.shift linked.next rest := by
      rw [(place_eq_ok following).1, Array.toList_append]
    _ = Fragment.linkExits target (Fragment.shift start guard) ++
        Fragment.linkExits target (Fragment.shift (start + guard.length) rest) := by
      rw [tested, next, (closed.shift _).linkExits_eq]
    _ = Fragment.linkExits target (Fragment.shift start (guard.andThen rest)) := by
      rw [Fragment.shift_andThen]
      exact List.map_append.symm

section Resolution

variable {o : Options} {shapes : ShapeModel} {snapshot : Snapshot} {shape : ShapeId}
  {access : Access} {resolution : Resolution} {rest : Fragment}

/-- The ways to resolve an access, each with its code. -/
theorem Access.specialize_eq_ok
    (resolved : access.specialize o shapes snapshot shape = .ok (.ok (resolution, rest))) :
    (∃ slot result, resolution = .load shape slot ∧ snapshot.result? = some result ∧
      Slot.load snapshot.base.payload slot result = .ok rest) ∨
    (∃ slot value, resolution = .store shape slot ∧ snapshot.value? = some value ∧
      Slot.store snapshot.base.payload slot value = .ok rest) ∨
    (∃ target slot header value write, resolution = .transition shape target slot ∧
      shapes.shape? target = some header ∧ snapshot.value? = some value ∧
      Slot.store snapshot.base.payload slot value = .ok write ∧
      rest = write.andThen (Header.store o header snapshot.base.payload)) ∨
    ∃ result, resolution = .present shape ∧ snapshot.result? = some result ∧
      rest = Slot.setTrue result := by
  unfold specialize at resolved
  cases access with
  | read key =>
    simp only at resolved
    split at resolved
    next => cases resolved
    next => cases resolved
    next slot result known registers =>
      obtain ⟨f, loaded, same⟩ := bind_eq_ok_iff.mp resolved
      cases same
      exact .inl ⟨slot, result, rfl, registers, loaded⟩
  | write key mode kind =>
    cases kind with
    | replace =>
      simp only at resolved
      split at resolved
      next => cases resolved
      next => cases resolved
      next slot value known registers =>
        obtain ⟨f, stored, same⟩ := bind_eq_ok_iff.mp resolved
        cases same
        exact .inr (.inl ⟨slot, value, rfl, registers, stored⟩)
    | define =>
      simp only at resolved
      split at resolved
      next => cases resolved
      next target slot known =>
        split at resolved
        next => cases resolved
        next => cases resolved
        next header value valid registers =>
          obtain ⟨f, stored, same⟩ := bind_eq_ok_iff.mp resolved
          cases same
          exact .inr (.inr (.inl
            ⟨target, slot, header, value, f, rfl, valid, registers, stored, rfl⟩))
  | has key =>
    simp only at resolved
    split at resolved
    next => cases resolved
    next => cases resolved
    next slot result known registers =>
      cases resolved
      exact .inr (.inr (.inr ⟨result, rfl, registers, rfl⟩))

theorem Access.specialize_closed
    (resolved : access.specialize o shapes snapshot shape = .ok (.ok (resolution, rest))) :
    resolution.isSpecialized = true ∧ rest.Closed := by
  rcases specialize_eq_ok resolved with
    ⟨slot, result, rfl, _, loaded⟩ | ⟨slot, value, rfl, _, stored⟩ |
    ⟨target, slot, header, value, write, rfl, _, _, stored, rfl⟩ | ⟨result, rfl, _, rfl⟩
  · exact ⟨rfl, Slot.load_closed loaded⟩
  · exact ⟨rfl, Slot.store_closed stored⟩
  · exact ⟨rfl, (Slot.store_closed stored).andThen (Header.store_closed _ _ _)⟩
  · refine ⟨rfl, ?_⟩
    cases result <;> simp [Slot.setTrue, Fragment.Closed, Inst.isUnlinked]

end Resolution

namespace Patch

/-- What a region of the given length holds once it is patched: the test of the shape, the access
and nops. The exits are those of the test. -/
def body (o : Options) (base : ValueRegs) (shape : ShapeId) (access : Fragment) (length : Nat) :
    Fragment :=
  let tested := (Guard.cellTest o base (.shape .notEqual base.payload shape)).andThen access
  tested.andThen (List.replicate (length - tested.length) .nop)

variable {o : Options} {shapes : ShapeModel} {snapshot : Snapshot} {access : Access} {p : Patch}
  {slowPath : Nat} {resolution : Resolution} {contents code after : Array Inst}

theorem specialize_eq_ok
    (resolved : p.specialize o shapes snapshot access slowPath = .ok (.ok (resolution, contents))) :
    ∃ shape rest, snapshot.shape? = some shape ∧ shapes.shape? shape ≠ none ∧
      access.specialize o shapes snapshot shape = .ok (.ok (resolution, rest)) ∧
      (body o snapshot.base shape rest p.region.length).length = p.region.length ∧
      contents.toList = Fragment.linkExits slowPath
        (Fragment.shift p.region.start (body o snapshot.base shape rest p.region.length)) := by
  unfold specialize at resolved
  split at resolved
  next => cases resolved
  next shape seen =>
    split at resolved
    next => cases resolved
    next valid =>
      simp only [bind_eq_ok_iff, liftFault_eq_ok_iff] at resolved
      obtain ⟨guard, guarding, ⟨placed, exits⟩, placing, linked, linking, answer, resolving,
        rest⟩ := resolved
      split at rest
      next => cases rest
      next resolution' f =>
        simp only [bind_eq_ok_iff, liftFault_eq_ok_iff] at rest
        obtain ⟨⟨whole, none_left⟩, following, rest⟩ := rest
        split at rest
        next => cases rest
        next room =>
          cases rest
          have closed := (Access.specialize_closed resolving).2
          have built := Assembler.toList_guarded placing linking following closed
          obtain rfl : Guard.cellTest o snapshot.base
              (.shape .notEqual snapshot.base.payload shape) = guard := by
            unfold Guard.forTy at guarding
            split at guarding
            next => cases guarding; rfl
            next => cases guarding
          have size := congrArg List.length built
          simp only [Fragment.linkExits, Array.length_toList, List.length_map,
            Fragment.length_shift] at size
          refine ⟨shape, f, seen, by simpa using valid, resolving, ?_, ?_⟩
          · simp only [body, Fragment.length_andThen, List.length_replicate] at size room ⊢
            omega
          · rw [Array.toList_append, built]
            simp [body, Fragment.andThen, Fragment.linkExits, Fragment.shift, size, Inst.shift,
              Inst.linkOpen]

theorem size_specialize
    (resolved : p.specialize o shapes snapshot access slowPath = .ok (.ok (resolution, contents))) :
    contents.size = p.region.length := by
  obtain ⟨shape, rest, _, _, _, size, built⟩ := specialize_eq_ok resolved
  rw [← Array.length_toList, built, Fragment.length_linkExits, Fragment.length_shift, size]

theorem install_eq_ok_iff {r : Region} :
    install code r contents = .ok after ↔ r.stop < wordLimit ∧ r.stop ≤ code.size ∧
      after = code.extract 0 r.start ++ contents ++ code.extract r.stop code.size := by
  simp only [install, bind_eq_ok_iff, fitWord_eq_ok_iff]
  constructor
  · rintro ⟨stop, ⟨fits, rfl⟩, rest⟩
    split at rest
    next => cases rest
    next inside =>
      cases rest
      exact ⟨fits, Nat.le_of_not_lt inside, rfl⟩
  · rintro ⟨fits, inside, rfl⟩
    exact ⟨r.stop, ⟨fits, rfl⟩, by rw [if_neg (Nat.not_lt.mpr inside)]; rfl⟩

theorem install_succeeds {r : Region} (fits : r.stop < wordLimit) (inside : r.stop ≤ code.size) :
    ∃ after, install code r contents = .ok after :=
  ⟨_, install_eq_ok_iff.mpr ⟨fits, inside, rfl⟩⟩

theorem install_eq_ok {r : Region} (installed : install code r contents = .ok after)
    (size : contents.size = r.length) (q : Nat) :
    after[q]? = if r.Covers q then contents[q - r.start]? else code[q]? := by
  obtain ⟨_, inside, rfl⟩ := install_eq_ok_iff.mp installed
  unfold Region.stop at inside
  have before : (code.extract 0 r.start).size = r.start := by
    rw [Array.size_extract]
    omega
  rw [Array.getElem?_append, Array.getElem?_append, Array.size_append, before, size]
  have covers : r.Covers q ↔ r.start ≤ q ∧ q < r.start + r.length := Iff.rfl
  simp only [covers, Region.stop]
  by_cases early : q < r.start
  · rw [if_pos (by omega), if_pos early, if_neg (by omega), Array.getElem?_extract,
      if_pos (by omega), Nat.zero_add]
  · by_cases late : q < r.start + r.length
    · rw [if_pos late, if_neg early, if_pos (by omega)]
    · rw [if_neg late, if_neg (by omega), Array.getElem?_extract]
      split
      next => congr 1; omega
      next beyond => rw [Array.getElem?_eq_none (by omega)]

theorem link_eq_ok_iff :
    p.link o shapes snapshot access code = .ok (after, resolution) ↔
      ∃ slowPath, (code[p.placeholder]?).bind Inst.target? = some slowPath ∧
        ((∃ reason, p.specialize o shapes snapshot access slowPath = .ok (.error reason) ∧
            resolution = .slowPath reason ∧ after = code) ∨
          ∃ contents, p.specialize o shapes snapshot access slowPath =
              .ok (.ok (resolution, contents)) ∧ install code p.region contents = .ok after) := by
  unfold link
  cases leads : (code[p.placeholder]?).bind Inst.target? with
  | none => simp [throw, throwThe, MonadExceptOf.throw]
  | some slowPath =>
    simp only [Option.some.injEq, exists_eq_left', bind_eq_ok_iff]
    constructor
    · rintro ⟨answer, resolved, rest⟩
      cases answer with
      | error reason =>
        cases rest
        exact .inl ⟨reason, resolved, rfl, rfl⟩
      | ok result =>
        obtain ⟨filled, installed, same⟩ := bind_eq_ok_iff.mp rest
        cases same
        exact .inr ⟨_, resolved, liftFault_eq_ok_iff.mp installed⟩
    · rintro (⟨reason, resolved, rfl, rfl⟩ | ⟨contents, resolved, installed⟩)
      · exact ⟨_, resolved, rfl⟩
      · exact ⟨_, resolved, bind_eq_ok_iff.mpr ⟨after, liftFault_eq_ok_iff.mpr installed, rfl⟩⟩

/-- A region that is linked stays as it is, or is filled with what its specialisation says. -/
theorem link_eq_ok (linked : p.link o shapes snapshot access code = .ok (after, resolution)) :
    ∃ cond slowPath, code[p.placeholder]? = some (.branch cond (some slowPath)) ∧
      ((resolution.isSpecialized = false ∧ after = code) ∨
        ∃ contents, resolution.isSpecialized = true ∧
          p.specialize o shapes snapshot access slowPath = .ok (.ok (resolution, contents)) ∧
          ∀ q, after[q]? =
            if p.region.Covers q then contents[q - p.region.start]? else code[q]?) := by
  obtain ⟨slowPath, leads, outcome⟩ := link_eq_ok_iff.mp linked
  obtain ⟨i, found, target⟩ := Option.bind_eq_some_iff.mp leads
  obtain ⟨cond, rfl⟩ : ∃ cond, i = .branch cond (some slowPath) := by
    cases i with
    | branch cond destination => exact ⟨cond, by rw [← target]; rfl⟩
    | _ => cases target
  refine ⟨cond, slowPath, found, ?_⟩
  rcases outcome with ⟨reason, _, rfl, rfl⟩ | ⟨contents, resolved, installed⟩
  · exact .inl ⟨rfl, rfl⟩
  · obtain ⟨shape, rest, _, _, resolving, _⟩ := specialize_eq_ok resolved
    exact .inr ⟨contents, (Access.specialize_closed resolving).1, resolved,
      install_eq_ok installed (size_specialize resolved)⟩

end Patch

namespace Site

theorem linkExit_eq_ok {code after : Array Inst} {p : Patch} {exit : Nat}
    (linked : linkExit code p exit = .ok after) :
    ∃ cond old, code[exit]? = some (.branch cond old) ∧
      ∀ q, after[q]? = if q = exit then some (.branch cond (some p.done)) else code[q]? := by
  unfold linkExit at linked
  split at linked
  next i retargeted =>
    cases linked
    obtain ⟨old, found, changed⟩ := Option.bind_eq_some_iff.mp retargeted
    obtain ⟨bound, _⟩ := Array.getElem?_eq_some_iff.mp found
    cases old with
    | branch cond destination =>
      cases changed
      refine ⟨cond, destination, found, fun q => ?_⟩
      rw [Array.getElem?_setIfInBounds]
      by_cases same : q = exit
      · rw [if_pos same, if_pos same.symm, if_pos (same ▸ bound)]
      · rw [if_neg same, if_neg (Ne.symm same)]
    | _ => cases changed
  next => cases linked

theorem linkExit_succeeds {code : Array Inst} {p : Patch} {exit : Nat} {cond : Cond}
    {old : Option Nat} (found : code[exit]? = some (.branch cond old)) :
    ∃ after, linkExit code p exit = .ok after := by
  unfold linkExit
  rw [found]
  exact ⟨_, rfl⟩

end Site

end InlineCache
