import InlineCache.Emit.SelfCheck
import InlineCache.Proofs.Placement

/-!
Fragments whose branches lead forward. Such a fragment can be placed wherever its end fits a word,
and execution is through with it after at most as many steps as it has instructions.
-/

namespace InlineCache

namespace Fragment

/-- Every branch that has a target goes to a later instruction, and not past `stop`. -/
def Forward (f : Fragment) (stop : Nat) : Prop :=
  ∀ n cond target, f[n]? = some (.branch cond (some target)) → n < target ∧ target ≤ stop

variable {f g : Fragment} {stop : Nat}

namespace Forward

theorem of_no_target (untargeted : ∀ i ∈ f, i.target? = none) : f.Forward stop := by
  intro n cond target found
  cases untargeted _ (List.mem_of_getElem? found)

theorem mono {further : Nat} (forward : f.Forward stop) (later : stop ≤ further) :
    f.Forward further := by
  intro n cond target found
  have bounds := forward n cond target found
  omega

theorem andThen (first : f.Forward (f.length + stop)) (second : g.Forward stop) :
    (f.andThen g).Forward (f.length + stop) := by
  intro n cond target found
  rw [Fragment.andThen, List.getElem?_append] at found
  split at found
  next early => exact first n cond target found
  next late =>
    rw [shift, List.getElem?_map, Option.map_eq_some_iff] at found
    obtain ⟨i, found, shifted⟩ := found
    cases i with
    | branch cond' destination =>
      cases destination with
      | none => cases shifted
      | some destination =>
        cases shifted
        have bounds := second _ _ _ found
        omega
    | _ => cases shifted

theorem linkExits {target : Nat} (forward : f.Forward stop) (beyond : f.length ≤ target)
    (within : target ≤ stop) : (linkExits target f).Forward stop := by
  intro n cond destination found
  rw [Fragment.linkExits, List.getElem?_map, Option.map_eq_some_iff] at found
  obtain ⟨i, found, linked⟩ := found
  obtain ⟨bound, _⟩ := List.getElem?_eq_some_iff.mp found
  cases i with
  | branch cond' old =>
    cases old with
    | none =>
      cases linked
      omega
    | some old =>
      cases linked
      exact forward _ _ _ found
  | _ => cases linked

theorem skipping (test : f.Forward f.length) (body : g.Forward g.length) :
    (f.skipping g).Forward (f.skipping g).length := by
  rw [skipping_eq_andThen, length_andThen]
  apply andThen
  · rw [length_linkExits]
    exact (test.mono (by omega)).linkExits (by omega) (Nat.le_refl _)
  · exact body

end Forward

theorem fitsFrom_of_bounds {start base : Nat} (room : base + f.length ≤ wordLimit)
    (targets : ∀ cond target, .branch cond (some target) ∈ f → start + target < wordLimit) :
    fitsFrom start base f = true := by
  induction f generalizing base with
  | nil => rfl
  | cons i rest ih =>
    rw [List.length_cons] at room
    have later : fitsFrom start (base + 1) rest = true :=
      ih (by omega) fun cond target member => targets cond target (List.mem_cons_of_mem i member)
    have here : base < wordLimit := by omega
    cases i with
    | branch cond destination =>
      cases destination with
      | none => simp only [fitsFrom, here, later, decide_true, Bool.and_true]
      | some target =>
        have leads := targets cond target List.mem_cons_self
        simp only [fitsFrom, here, leads, later, decide_true, Bool.and_true]
    | _ => exact later

theorem Forward.fits {start : Nat} (forward : f.Forward f.length)
    (room : start + f.length < wordLimit) : f.fits start = true := by
  apply fitsFrom_of_bounds (Nat.le_of_lt room)
  intro cond target member
  obtain ⟨n, found⟩ := List.mem_iff_getElem?.mp member
  have bounds := forward n cond target found
  omega

theorem Forward.trace_length_le {v : Services} {code : Array Inst} {start exit last : Nat}
    {s t : State} {trace : List Nat} {calls : List Call} (forward : f.Forward stop)
    (stands : f.StandsAt code start exit) (beyond : start + f.length ≤ exit)
    (path : Path v code start s trace calls last t)
    (within : ∀ q ∈ trace, start ≤ q ∧ q < start + f.length) : trace.length ≤ f.length := by
  -- An exit leads past the fragment, any other branch further on in it.
  have later : ∀ q ∈ trace, ∀ cond target,
      code[q]? = some (.branch cond (some target)) → q < target := by
    intro q member cond target fetched
    have bounds := within q member
    obtain ⟨n, rfl⟩ : ∃ n, q = start + n := ⟨q - start, by omega⟩
    have found : f[n]? = some f[n] := List.getElem?_eq_getElem (by omega)
    have same := (stands n _ found).symm.trans fetched
    cases placed : f[n] with
    | branch cond' destination =>
      rw [placed] at same found
      cases destination with
      | none =>
        cases same
        omega
      | some destination =>
        cases same
        have bounds := forward n _ _ found
        omega
    | _ =>
      rw [placed] at same
      cases same
  rcases path.length_le later fun q member => (within q member).2 with rfl | bounded
  · exact Nat.zero_le _
  · omega

/-- A fragment without exits that falls through can be placed wherever there is room, and execution
then passes from where it starts to where it ends. -/
theorem Forward.passes_placed {v : Services} {s t : State} {a : Assembler}
    (forward : f.Forward f.length) (sealed : exitsFrom a.next f = [])
    (behaves : f.Behaves v s false t) (fresh : a.origin = 0)
    (room : a.next + f.length < wordLimit) :
    ∃ placed, a.place f = .ok (placed, []) ∧ ∀ rest : Array Inst,
      ∃ trace, Run.Passes v (placed.code ++ rest) a.next s trace placed.next t ∧
        ∀ q ∈ trace, a.next ≤ q ∧ q < placed.next := by
  obtain ⟨placed, exits, placing⟩ := Assembler.place_succeeds (forward.fits room)
  obtain rfl : exits = [] := (Assembler.place_eq_ok placing).2.trans sealed
  refine ⟨placed, placing, fun rest => ?_⟩
  have stands : f.StandsAt (placed.code ++ rest) a.next 0 :=
    standsAt_of_place fresh placing rfl rest
  obtain ⟨trace, path, within, _⟩ := behaves _ _ _ stands
  rw [if_neg Bool.false_ne_true, ← Assembler.next_place placing] at path
  rw [← Assembler.next_place placing] at within
  exact ⟨trace, path.passes, within⟩

/-- A fragment that branches forward and is no longer than the room it gets. -/
structure Within (f : Fragment) (room : Nat) : Prop where
  forward : f.Forward f.length
  length : f.length ≤ room

theorem Within.andThen {f g : Fragment} {room more : Nat} (first : f.Within room)
    (second : g.Within more) : (f.andThen g).Within (room + more) where
  forward := by
    rw [length_andThen]
    exact (first.forward.mono (Nat.le_add_right _ _)).andThen second.forward
  length := by
    rw [length_andThen]
    exact Nat.add_le_add first.length second.length

theorem Within.plain {f : Fragment} {room : Nat} (untargeted : ∀ i ∈ f, i.target? = none)
    (length : f.length ≤ room) : f.Within room :=
  ⟨.of_no_target untargeted, length⟩

theorem Within.mono {f : Fragment} {room more : Nat} (within : f.Within room)
    (larger : room ≤ more) : f.Within more :=
  ⟨within.forward, Nat.le_trans within.length larger⟩

end Fragment

theorem SelfCheck.abortUnless_within {test : Fragment} {room : Nat} (o : Options)
    (reason : AbortReason) (within : test.Within room) :
    (abortUnless o reason test).Within (room + 1) := by
  unfold abortUnless
  split
  next =>
    refine ⟨within.forward.skipping (.of_no_target (by simp [Inst.target?])), ?_⟩
    rw [Fragment.length_skipping]
    exact Nat.add_le_add_right within.length 1
  next => exact .plain (by simp) (Nat.zero_le _)

namespace SelfCheck

theorem Evidence.code_within (e : Evidence) : e.code.Within e.code.length := by
  cases e with
  | any cond others => exact .plain (by simp [code, Inst.target?]) (Nat.le_refl _)
  | butNot cond excluded =>
    refine ⟨fun n _ target found => ?_, Nat.le_refl _⟩
    match n with
    | 0 =>
      cases found
      exact ⟨by decide, Nat.le_refl 2⟩
    | 1 => cases found
    | n + 2 => simp [code] at found

def room : List (AbortReason × Evidence) → Nat
  | [] => 0
  | test :: rest => test.2.code.length + 1 + room rest

theorem testAll_within (o : Options) (tests : List (AbortReason × Evidence)) :
    (testAll o tests).Within (room tests) := by
  induction tests with
  | nil => exact .plain (by simp [testAll]) (Nat.le_refl 0)
  | cons first rest ih => exact (abortUnless_within o first.1 first.2.code_within).andThen ih

end SelfCheck

theorem Guard.code_within (o : Options) (g : Guard) : (g.code o).Within (g.code o).length := by
  refine .plain (fun i member => ?_) (Nat.le_refl _)
  rcases List.mem_append.mp member with setup | last
  · have plain := Fragment.Straight.of_all (g.test o).straight i setup
    cases i with
    | branch cond target => cases plain
    | _ => rfl
  · cases List.mem_singleton.mp last
    rfl

end InlineCache
