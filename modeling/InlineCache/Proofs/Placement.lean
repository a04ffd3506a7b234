import InlineCache.Code.Assembler
import InlineCache.Proofs.Execution

/-!
Fragments in their place. `Assembler.place` and `Assembler.linkAll` are described by the instruction
at each position. A fragment `StandsAt` a position of some code if its instructions are found there
with all exits linked to one target, and `Behaves` says what execution makes of it wherever it
stands. Fragments that are put together behave as their parts do one after the other.
-/

namespace InlineCache

theorem Inst.isUnlinked_linkOpen (target : Nat) (i : Inst) :
    (i.linkOpen target).isUnlinked = false := by
  cases i with
  | branch cond destination => cases destination <;> rfl
  | _ => rfl

theorem Inst.linkOpen_of_linked {i : Inst} (linked : i.isUnlinked = false) (target : Nat) :
    i.linkOpen target = i := by
  cases i with
  | branch cond destination =>
    cases destination with
    | none => cases linked
    | some destination => rfl
  | _ => rfl

theorem Inst.shift_linkOpen (distance target : Nat) (i : Inst) :
    (i.linkOpen target).shift distance = (i.shift distance).linkOpen (target + distance) := by
  cases i with
  | branch cond destination => cases destination <;> rfl
  | _ => rfl

/-- A change of instructions that commutes with moving and linking them. -/
structure Inst.Uniform (change : Inst → Inst) : Prop where
  shift : ∀ i distance, change (i.shift distance) = (change i).shift distance
  linkOpen : ∀ i target, change (i.linkOpen target) = (change i).linkOpen target

namespace Fragment

theorem mem_exitsFrom {position base : Nat} {f : Fragment} :
    position ∈ exitsFrom base f ↔
      ∃ n i, f[n]? = some i ∧ i.isUnlinked = true ∧ position = base + n := by
  induction f generalizing base with
  | nil => simp [exitsFrom]
  | cons first rest ih =>
    constructor
    · intro member
      simp only [exitsFrom] at member
      split at member
      next exit =>
        rcases List.mem_cons.mp member with here | later
        · exact ⟨0, first, by simp, exit, by simpa using here⟩
        · obtain ⟨n, i, found, unlinked, same⟩ := ih.mp later
          exact ⟨n + 1, i, by simpa using found, unlinked, by omega⟩
      next linked =>
        obtain ⟨n, i, found, unlinked, same⟩ := ih.mp member
        exact ⟨n + 1, i, by simpa using found, unlinked, by omega⟩
    · rintro ⟨n, i, found, unlinked, same⟩
      simp only [exitsFrom]
      cases n with
      | zero =>
        simp only [List.getElem?_cons_zero, Option.some.injEq] at found
        subst found
        simp [unlinked, same]
      | succ n =>
        have later : position ∈ exitsFrom (base + 1) rest :=
          ih.mpr ⟨n, i, by simpa using found, unlinked, by omega⟩
        split
        next exit => exact List.mem_cons_of_mem _ later
        next linked => exact later

theorem pairwise_exitsFrom (base : Nat) (f : Fragment) :
    (exitsFrom base f).Pairwise (· < ·) := by
  induction f generalizing base with
  | nil => exact .nil
  | cons i rest ih =>
    rw [exitsFrom]
    split
    next =>
      rw [List.pairwise_cons]
      refine ⟨fun q member => ?_, ih (base + 1)⟩
      obtain ⟨n, _, _, _, rfl⟩ := mem_exitsFrom.mp member
      omega
    next => exact ih (base + 1)

def Closed (f : Fragment) : Prop := ∀ i ∈ f, i.isUnlinked = false

theorem Closed.exitsFrom_eq_nil {f : Fragment} (closed : f.Closed) (base : Nat) :
    exitsFrom base f = [] := by
  rw [List.eq_nil_iff_forall_not_mem]
  intro q member
  obtain ⟨n, i, found, unlinked, _⟩ := mem_exitsFrom.mp member
  rw [closed i (List.mem_of_getElem? found)] at unlinked
  cases unlinked

theorem Closed.shift {f : Fragment} (closed : f.Closed) (distance : Nat) :
    (Fragment.shift distance f).Closed := by
  intro i member
  obtain ⟨j, listed, rfl⟩ := List.mem_map.mp member
  rw [Inst.isUnlinked_shift, closed j listed]

theorem Closed.andThen {f g : Fragment} (first : f.Closed) (second : g.Closed) :
    (f.andThen g).Closed := by
  intro i member
  rcases List.mem_append.mp member with early | late
  · exact first i early
  · exact second.shift _ i late

theorem Closed.linkExits (target : Nat) (f : Fragment) :
    (Fragment.linkExits target f).Closed := by
  intro i member
  obtain ⟨j, _, rfl⟩ := List.mem_map.mp member
  exact Inst.isUnlinked_linkOpen target j

theorem Closed.linkExits_eq {f : Fragment} (closed : f.Closed) (target : Nat) :
    Fragment.linkExits target f = f :=
  (List.map_congr_left fun i listed => Inst.linkOpen_of_linked (closed i listed) target).trans
    f.map_id

theorem Closed.skipping (f : Fragment) {g : Fragment} (body : g.Closed) :
    (f.skipping g).Closed := by
  rw [skipping_eq_andThen]
  exact (Closed.linkExits _ f).andThen body

theorem shift_andThen (distance : Nat) (f g : Fragment) :
    shift distance (f.andThen g) = shift distance f ++ shift (distance + f.length) g := by
  rw [Nat.add_comm, ← shift_shift]
  exact List.map_append

theorem shift_linkExits (distance target : Nat) (f : Fragment) :
    shift distance (linkExits target f) = linkExits (target + distance) (shift distance f) := by
  simp only [shift, linkExits, List.map_map]
  apply List.map_congr_left
  intro i _
  exact i.shift_linkOpen distance target

theorem shift_skipping (distance : Nat) (f g : Fragment) :
    shift distance (f.skipping g) =
      linkExits (distance + f.length + g.length) (shift distance f) ++
        shift (distance + f.length) g := by
  have target : f.length + g.length + distance = distance + f.length + g.length := by omega
  rw [skipping_eq_andThen, shift_andThen, length_linkExits, shift_linkExits, target]

theorem exitsFrom_skipping (base : Nat) (f g : Fragment) :
    exitsFrom base (f.skipping g) = exitsFrom (base + f.length) g := by
  rw [skipping, exitsFrom_append, (Closed.linkExits _ f).exitsFrom_eq_nil, length_linkExits,
    exitsFrom_shift, List.nil_append]

theorem fitsFrom_append (start base : Nat) (f g : Fragment) :
    fitsFrom start base (f ++ g) =
      (fitsFrom start base f && fitsFrom start (base + f.length) g) := by
  induction f generalizing base with
  | nil => rfl
  | cons i rest ih =>
    have behind : base + 1 + rest.length = base + (rest.length + 1) := by omega
    simp only [List.cons_append, List.length_cons, fitsFrom, ih, behind, Bool.and_assoc]

theorem fitsFrom_shift (start base distance : Nat) (f : Fragment) :
    fitsFrom start base (shift distance f) = fitsFrom (start + distance) base f := by
  induction f generalizing base with
  | nil => rfl
  | cons i rest ih =>
    have later := ih (base + 1)
    cases i with
    | branch cond target =>
      cases target with
      | none => exact congrArg (decide (base < wordLimit) && ·) later
      | some target =>
        have lead : start + (target + distance) = start + distance + target := by omega
        rw [shift] at later
        simp only [shift, List.map_cons, Inst.shift, fitsFrom, lead, later]
    | _ => exact later

theorem fits_andThen (start : Nat) (f g : Fragment) :
    (f.andThen g).fits start = (f.fits start && g.fits (start + f.length)) := by
  rw [fits, andThen, fitsFrom_append, fitsFrom_shift, fits, fits]

theorem fitsFrom_linkExits (start base target : Nat) (f : Fragment) :
    fitsFrom start base (linkExits target f) = (fitsFrom start base f &&
      (!f.any Inst.isUnlinked || decide (start + target < wordLimit))) := by
  induction f generalizing base with
  | nil => rfl
  | cons i rest ih =>
    have later := ih (base + 1)
    rw [linkExits] at later
    cases i with
    | branch cond destination =>
      simp only [linkExits, List.map_cons, List.any_cons]
      cases destination with
      | none =>
        simp only [Inst.linkOpen, Inst.isUnlinked, fitsFrom, later]
        grind
      | some destination =>
        simp only [Inst.linkOpen, Inst.isUnlinked, fitsFrom, later, Bool.false_or, Bool.and_assoc]
    | _ => exact later

theorem fits_skipping {f : Fragment} (exit : f.any Inst.isUnlinked = true) (start : Nat)
    (g : Fragment) :
    (f.skipping g).fits start = (f.fits start && g.fits (start + f.length) &&
      decide (start + f.length + g.length < wordLimit)) := by
  rw [skipping_eq_andThen, fits_andThen, length_linkExits, fits, fitsFrom_linkExits, exit,
    ← Nat.add_assoc]
  simp only [fits, Bool.not_true, Bool.false_or]
  grind

section Straight

variable {f g : Fragment}

def Straight (f : Fragment) : Prop := ∀ i ∈ f, i.isBranch = false

theorem Straight.of_all (plain : f.all (fun i => !i.isBranch) = true) : f.Straight := by
  intro i member
  simpa using List.all_eq_true.mp plain i member

theorem Straight.shift_eq (straight : f.Straight) (distance : Nat) : shift distance f = f := by
  have kept : ∀ i ∈ f, i.shift distance = i := by
    intro i member
    have plain := straight i member
    cases i with
    | branch cond target => cases plain
    | _ => rfl
  calc
    shift distance f = f.map id := List.map_congr_left kept
    _ = f := List.map_id f

theorem Straight.andThen_eq (straight : g.Straight) (f : Fragment) : f.andThen g = f ++ g := by
  rw [andThen, straight.shift_eq]

theorem Straight.closed (straight : f.Straight) : f.Closed := by
  intro i member
  have plain := straight i member
  cases i with
  | branch cond target => cases plain
  | _ => rfl

theorem Straight.fits (straight : f.Straight) (start base : Nat) :
    fitsFrom start base f = true := by
  induction f generalizing base with
  | nil => rfl
  | cons i rest ih =>
    rw [Straight, List.forall_mem_cons] at straight
    have later := ih straight.2 (base + 1)
    cases i with
    | branch cond target => cases straight.1
    | _ => exact later

end Straight

section Uniform

variable {change : Inst → Inst}

theorem map_shift (uniform : Inst.Uniform change) (distance : Nat) (f : Fragment) :
    (shift distance f).map change = shift distance (f.map change) := by
  simp only [shift, List.map_map]
  apply List.map_congr_left
  intro i _
  exact uniform.shift i distance

theorem map_linkExits (uniform : Inst.Uniform change) (target : Nat) (f : Fragment) :
    (linkExits target f).map change = linkExits target (f.map change) := by
  simp only [linkExits, List.map_map]
  apply List.map_congr_left
  intro i _
  exact uniform.linkOpen i target

theorem map_andThen (uniform : Inst.Uniform change) (f g : Fragment) :
    (f.andThen g).map change = Fragment.andThen (f.map change) (g.map change) := by
  rw [andThen, andThen, List.map_append, map_shift uniform, List.length_map]

theorem map_skipping (uniform : Inst.Uniform change) (f g : Fragment) :
    (f.skipping g).map change = Fragment.skipping (f.map change) (g.map change) := by
  rw [skipping_eq_andThen, skipping_eq_andThen, map_andThen uniform, map_linkExits uniform,
    List.length_map, List.length_map]

end Uniform

end Fragment

namespace Assembler

variable {a b : Assembler} {f : Fragment} {exits positions : List Nat} {position target : Nat}

theorem inst?_eq (a : Assembler) (position : Nat) :
    a.inst? position =
      if a.origin ≤ position then a.code[position - a.origin]? else none := by
  unfold inst? index?
  split
  next reached => rfl
  next early => rfl

theorem inst?_of_origin_zero (fresh : a.origin = 0) (position : Nat) :
    a.inst? position = a.code[position]? := by
  rw [inst?_eq, fresh]
  simp

theorem bounds_of_inst? {i : Inst} (found : a.inst? position = some i) :
    a.origin ≤ position ∧ position < a.next := by
  rw [inst?_eq] at found
  split at found
  next reached =>
    obtain ⟨bound, _⟩ := Array.getElem?_eq_some_iff.mp found
    unfold next
    omega
  next early => cases found

theorem place_eq_ok (placed : a.place f = .ok (b, exits)) :
    b = { a with code := a.code ++ (Fragment.shift a.next f).toArray } ∧
      exits = Fragment.exitsFrom a.next f := by
  unfold place at placed
  split at placed
  next fits =>
    cases placed
    refine ⟨?_, rfl⟩
    congr 1
    apply Array.ext'
    simp
  next tooFar => cases placed

theorem place_succeeds (room : f.fits a.next = true) : ∃ b exits, a.place f = .ok (b, exits) := by
  unfold place
  rw [if_pos room]
  exact ⟨_, _, rfl⟩

theorem next_append (a : Assembler) (f : Fragment) :
    ({ a with code := a.code ++ f } : Assembler).next = a.next + f.length := by
  simp [next, ← Array.length_toList, Nat.add_assoc]

theorem next_place (placed : a.place f = .ok (b, exits)) : b.next = a.next + f.length := by
  obtain ⟨rfl, _⟩ := place_eq_ok placed
  simp only [next, Array.size_append, List.size_toArray, Fragment.length_shift]
  omega

theorem origin_place (placed : a.place f = .ok (b, exits)) : b.origin = a.origin := by
  obtain ⟨rfl, _⟩ := place_eq_ok placed
  rfl

theorem place_andThen (a : Assembler) (f g : Fragment) :
    a.place (f.andThen g) = do
      let (b, early) ← a.place f
      let (c, late) ← b.place g
      return (c, early ++ late) := by
  unfold place
  rw [Fragment.fits_andThen]
  by_cases first : f.fits a.next = true
  · simp only [first, if_pos, Bool.true_and, bind, Except.bind, next_append,
      Fragment.length_shift]
    split
    next second =>
      rw [Fragment.shift_andThen, Fragment.andThen, Fragment.exitsFrom_append,
        Fragment.exitsFrom_shift]
      simp [pure, Except.pure, ← Array.toList_inj]
    next => rfl
  · simp [first, bind, Except.bind]

theorem inst?_place_old (placed : a.place f = .ok (b, exits)) (old : position < a.next) :
    b.inst? position = a.inst? position := by
  obtain ⟨rfl, _⟩ := place_eq_ok placed
  simp only [inst?_eq]
  split
  next reached =>
    unfold next at old
    rw [Array.getElem?_append_left (by omega)]
  next early => rfl

theorem inst?_place_new (placed : a.place f = .ok (b, exits)) (n : Nat) :
    b.inst? (a.next + n) = (f[n]?).map (Inst.shift a.next) := by
  obtain ⟨rfl, _⟩ := place_eq_ok placed
  have reached : a.origin ≤ a.next + n := by
    unfold next
    omega
  have index : a.next + n - a.origin = a.code.size + n := by
    unfold next
    omega
  rw [inst?_eq, if_pos reached]
  simp only [index]
  rw [Array.getElem?_append_right (by omega), Nat.add_sub_cancel_left]
  simp [Fragment.shift]

theorem inst?_of_mem_exits (placed : a.place f = .ok (b, exits)) (member : position ∈ exits) :
    ∃ cond, b.inst? position = some (.branch cond none) := by
  rw [(place_eq_ok placed).2, Fragment.mem_exitsFrom] at member
  obtain ⟨n, i, found, unlinked, rfl⟩ := member
  rw [inst?_place_new placed, found]
  cases i with
  | branch cond destination =>
    cases destination with
    | none => exact ⟨cond, rfl⟩
    | some destination => cases unlinked
  | _ => cases unlinked

theorem link_eq_ok (linked : a.link position target = .ok b) :
    b.origin = a.origin ∧ b.next = a.next ∧
      ∃ cond old, a.inst? position = some (.branch cond old) ∧
        ∀ q, b.inst? q =
          if q = position then some (.branch cond (some target)) else a.inst? q := by
  unfold link at linked
  split at linked
  next index after located changed =>
    cases linked
    obtain ⟨before, found, retargeted⟩ := Option.bind_eq_some_iff.mp changed
    obtain ⟨cond, old, rfl, rfl⟩ :
        ∃ cond old, before = .branch cond old ∧ after = .branch cond (some target) := by
      cases before with
      | branch cond old => exact ⟨cond, old, rfl, by simpa [Inst.retarget?] using retargeted.symm⟩
      | _ => cases retargeted
    have bounds := bounds_of_inst? found
    obtain rfl : position - a.origin = index := by
      simpa [index?, bounds.1] using located
    refine ⟨rfl, by simp [next], cond, old, found, fun q => ?_⟩
    simp only [inst?_eq]
    unfold next at bounds
    by_cases same : q = position
    · subst same
      rw [if_pos rfl, if_pos bounds.1, Array.getElem?_setIfInBounds_self_of_lt (by omega)]
    · rw [if_neg same]
      split
      next reached => rw [Array.getElem?_setIfInBounds_ne (by omega)]
      next early => rfl
  next => cases linked

theorem link_succeeds {cond : Cond} {old : Option Nat}
    (found : a.inst? position = some (.branch cond old)) : ∃ b, a.link position target = .ok b := by
  unfold link index?
  rw [if_pos (bounds_of_inst? found).1, found]
  exact ⟨_, rfl⟩

theorem linkAll_eq_ok (linked : a.linkAll positions target = .ok b) :
    b.origin = a.origin ∧ b.next = a.next ∧
      ∀ q, if q ∈ positions
        then ∃ cond old, a.inst? q = some (.branch cond old) ∧
          b.inst? q = some (.branch cond (some target))
        else b.inst? q = a.inst? q := by
  induction positions generalizing a with
  | nil =>
    cases linked
    simp
  | cons first rest ih =>
    rw [linkAll, List.foldlM_cons, bind_eq_ok_iff] at linked
    obtain ⟨c, step, later⟩ := linked
    obtain ⟨origin, next, cond, old, found, changed⟩ := link_eq_ok step
    obtain ⟨origin', next', others⟩ := ih later
    refine ⟨origin'.trans origin, next'.trans next, fun q => ?_⟩
    have here := others q
    by_cases same : q = first
    · subst same
      rw [changed, if_pos rfl] at here
      rw [if_pos List.mem_cons_self]
      -- A branch may be listed twice; the second time it is already linked to the same target.
      split at here
      next again =>
        obtain ⟨cond', old', same, final⟩ := here
        cases same
        exact ⟨cond, old, found, final⟩
      next once => exact ⟨cond, old, found, here⟩
    · rw [changed, if_neg same] at here
      simpa [same] using here

theorem linkAll_succeeds
    (branches : ∀ q ∈ positions, ∃ cond old, a.inst? q = some (.branch cond old)) :
    ∃ b, a.linkAll positions target = .ok b := by
  induction positions generalizing a with
  | nil => exact ⟨a, rfl⟩
  | cons first rest ih =>
    rw [List.forall_mem_cons] at branches
    obtain ⟨_, _, found⟩ := branches.1
    obtain ⟨mid, step⟩ := @link_succeeds _ _ target _ _ found
    obtain ⟨_, _, cond, _, _, changed⟩ := link_eq_ok step
    obtain ⟨b, others⟩ := @ih mid fun q member => by
      rw [changed]
      split
      next => exact ⟨cond, _, rfl⟩
      next => exact branches.2 q member
    exact ⟨b, by rw [linkAll, List.foldlM_cons, bind_eq_ok_iff]; exact ⟨mid, step, others⟩⟩

theorem inst?_place_linkAll {c : Assembler} {i : Inst} (placed : a.place f = .ok (b, exits))
    (linked : b.linkAll exits target = .ok c) {n : Nat} (found : f[n]? = some i) :
    c.inst? (a.next + n) = some ((i.shift a.next).linkOpen target) := by
  have before := inst?_place_new placed n
  rw [found, Option.map_some] at before
  have here := (linkAll_eq_ok linked).2.2 (a.next + n)
  split at here
  next exit =>
    rw [(place_eq_ok placed).2, Fragment.mem_exitsFrom] at exit
    obtain ⟨m, j, found', unlinked, same⟩ := exit
    obtain rfl : n = m := by omega
    cases found.symm.trans found'
    obtain ⟨cond, old, was, now⟩ := here
    cases i with
    | branch cond' destination =>
      cases destination with
      | none =>
        cases before.symm.trans was
        exact now
      | some destination => cases unlinked
    | _ => cases unlinked
  next kept =>
    rw [here, before]
    cases i with
    | branch cond destination =>
      cases destination with
      | none =>
        rw [(place_eq_ok placed).2, Fragment.mem_exitsFrom] at kept
        exact absurd ⟨n, _, found, rfl, rfl⟩ kept
      | some destination => rfl
    | _ => rfl

end Assembler

namespace Fragment

/-- The fragment is found in the code from `start` on, with its exits linked to `exit`. -/
def StandsAt (f : Fragment) (code : Array Inst) (start exit : Nat) : Prop :=
  ∀ n i, f[n]? = some i → code[start + n]? = some ((i.shift start).linkOpen exit)

/-- Wherever the fragment stands, execution that enters it in the state `s` gets through it without
a call and is then in the state `t`: by one of its exits if `leaves` holds, else past its end. -/
def Behaves (v : Services) (f : Fragment) (s : State) (leaves : Bool) (t : State) : Prop :=
  ∀ (code : Array Inst) (start exit : Nat), f.StandsAt code start exit →
    ∃ trace, Path v code start s trace [] (if leaves then exit else start + f.length) t ∧
      (∀ q ∈ trace, start ≤ q ∧ q < start + f.length) ∧
      (leaves = true → ∃ q ∈ exitsFrom start f, trace.getLast? = some q)

theorem Straight.place_eq {f : Fragment} (straight : f.Straight) (a : Assembler) :
    a.place f = .ok ({ a with code := a.code ++ f }, []) := by
  rw [Assembler.place, Fragment.fits, straight.fits, if_pos rfl, straight.shift_eq,
    straight.closed.exitsFrom_eq_nil]

theorem standsAt_of_place {a b c : Assembler} {f : Fragment} {exits : List Nat} {target : Nat}
    (fresh : a.origin = 0) (placed : a.place f = .ok (b, exits))
    (linked : b.linkAll exits target = .ok c) (rest : Array Inst) :
    f.StandsAt (c.code ++ rest) a.next target := by
  intro n i found
  have after := Assembler.inst?_place_linkAll placed linked found
  have zero : c.origin = 0 := by
    rw [(Assembler.linkAll_eq_ok linked).1, Assembler.origin_place placed, fresh]
  rw [Assembler.inst?_of_origin_zero zero] at after
  obtain ⟨bound, _⟩ := Array.getElem?_eq_some_iff.mp after
  rw [Array.getElem?_append_left bound, after]

namespace StandsAt

variable {code : Array Inst} {start exit : Nat} {f g : Fragment}

theorem fst_of_andThen (stands : (f.andThen g).StandsAt code start exit) :
    f.StandsAt code start exit := by
  intro n i found
  obtain ⟨bound, _⟩ := List.getElem?_eq_some_iff.mp found
  exact stands n i (by rw [andThen, List.getElem?_append_left bound, found])

theorem snd_of_andThen (stands : (f.andThen g).StandsAt code start exit) :
    g.StandsAt code (start + f.length) exit := by
  intro n i found
  have here := stands (f.length + n) (i.shift f.length) (by
    rw [andThen, List.getElem?_append_right (by omega), Nat.add_sub_cancel_left, shift,
      List.getElem?_map, found, Option.map_some])
  rw [Inst.shift_shift, Nat.add_comm f.length start] at here
  rw [Nat.add_assoc, here]

theorem of_linkExits {target : Nat} (stands : (linkExits target f).StandsAt code start exit) :
    f.StandsAt code start (start + target) := by
  intro n i found
  have here := stands n (i.linkOpen target) (by
    rw [linkExits, List.getElem?_map, found, Option.map_some])
  rw [here]
  cases i with
  | branch cond destination =>
    cases destination with
    | none => simp [Inst.linkOpen, Inst.shift, Nat.add_comm]
    | some destination => rfl
  | _ => rfl

end StandsAt

namespace Behaves

variable {v : Services} {s t u : State} {f g : Fragment} {leaves : Bool}

theorem empty (v : Services) (s : State) : Behaves v [] s false s := by
  intro code start exit _
  exact ⟨[], .stay start s, by simp, by simp⟩

theorem plain {i : Inst} (straight : i.isBranch = false)
    (stepped : ∀ pc, step v pc s i = .next (pc + 1) t) : Behaves v [i] s false t := by
  intro code start exit stands
  have here := stands 0 i rfl
  have same : (i.shift start).linkOpen exit = i := by
    cases i with
    | branch cond target => cases straight
    | _ => rfl
  rw [Nat.add_zero, same] at here
  exact ⟨[start], .single here (stepped start), by simp, by simp⟩

theorem branch {cond : Cond} (verdict : s.holds cond = leaves) :
    Behaves v [.branch cond none] s leaves s := by
  subst verdict
  intro code start exit stands
  have here : code[start]? = some (.branch cond (some exit)) := stands 0 _ rfl
  refine ⟨[start], .branch here, by simp, fun _ => ⟨start, ?_, rfl⟩⟩
  simp [exitsFrom, Inst.isUnlinked]

theorem andThen_of_leaves (first : Behaves v f s true t) : Behaves v (f.andThen g) s true t := by
  intro code start exit stands
  obtain ⟨trace, path, within, last⟩ := first code start exit stands.fst_of_andThen
  refine ⟨trace, path, fun q member => ?_, fun left => ?_⟩
  · have bounds := within q member
    rw [length_andThen]
    omega
  · obtain ⟨q, member, final⟩ := last left
    refine ⟨q, ?_, final⟩
    rw [andThen, exitsFrom_append]
    exact List.mem_append_left _ member

theorem andThen (first : Behaves v f s false t) (second : Behaves v g t leaves u) :
    Behaves v (f.andThen g) s leaves u := by
  intro code start exit stands
  obtain ⟨trace, path, within, _⟩ := first code start exit stands.fst_of_andThen
  obtain ⟨more, onward, within', last⟩ := second code _ exit stands.snd_of_andThen
  rw [Nat.add_assoc, ← length_andThen] at onward
  refine ⟨trace ++ more, path.trans onward, fun q member => ?_, fun left => ?_⟩
  · rw [length_andThen]
    rcases List.mem_append.mp member with early | late
    · have bounds := within q early
      omega
    · have bounds := within' q late
      omega
  · obtain ⟨q, member, final⟩ := last left
    refine ⟨q, ?_, by rw [List.getLast?_append, final]; rfl⟩
    rw [Fragment.andThen, exitsFrom_append, exitsFrom_shift]
    exact List.mem_append_right _ member

/-- A test that leaves skips the body. -/
theorem skipping_of_leaves (test : Behaves v f s true t) : Behaves v (f.skipping g) s false t := by
  intro code start exit stands
  rw [skipping_eq_andThen] at stands
  obtain ⟨trace, path, within, _⟩ := test code start _ stands.fst_of_andThen.of_linkExits
  rw [length_skipping]
  refine ⟨trace, path, fun q member => ?_, by simp⟩
  have bounds := within q member
  omega

theorem linkExits (test : Behaves v f s false t) (target : Nat) :
    Behaves v (linkExits target f) s false t := by
  intro code start exit stands
  obtain ⟨trace, path, within, _⟩ := test code start _ stands.of_linkExits
  rw [length_linkExits]
  exact ⟨trace, path, within, by simp⟩

theorem skipping (test : Behaves v f s false t) (body : Behaves v g t leaves u) :
    Behaves v (f.skipping g) s leaves u := by
  rw [skipping_eq_andThen]
  exact (test.linkExits _).andThen body

theorem either {first second : Bool} (early : f.Behaves v s first s)
    (late : g.Behaves v s second s) :
    (f.andThen g).Behaves v s (first || second) s := by
  cases first with
  | true => exact early.andThen_of_leaves
  | false => exact early.andThen late

theorem branchPast (c d : Cond) :
    Behaves v [.branch c (some 2), .branch d none] s (!s.holds c && s.holds d) s := by
  intro code start exit stands
  have first : code[start]? = some (.branch c (some (2 + start))) := stands 0 _ rfl
  have second : code[start + 1]? = some (.branch d (some exit)) := stands 1 _ rfl
  have early : Path v code start s _ _ _ s := .branch first
  have late : Path v code (start + 1) s _ _ _ s := .branch second
  cases skipped : s.holds c with
  | true =>
    rw [skipped, if_pos rfl, Nat.add_comm] at early
    exact ⟨[start], early, by simp, by simp⟩
  | false =>
    rw [skipped, if_neg Bool.false_ne_true] at early
    refine ⟨[start, start + 1], ?_, by simp, fun _ => ⟨start + 1, ?_, rfl⟩⟩
    · exact early.trans late
    · simp [exitsFrom, Inst.isUnlinked]

end Behaves

end Fragment

end InlineCache
