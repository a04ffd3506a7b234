import InlineCache.Machine.Run

/-!
Stretches of execution. A `Path` is a finite part of a run, with the positions it executed and the
calls it made; an `Ends` is a whole run that comes to an end of its own accord. Both are tied to the
bounded runs of the machine: a path takes as much fuel as it has positions, and a run completes
within some step limit exactly if it ends.
-/

namespace InlineCache

/-- Execution that is at `pc` in one state comes to another position and state, through the
positions and the calls listed. -/
inductive Path (v : Services) (code : Array Inst) :
    Nat → State → List Nat → List Call → Nat → State → Prop where
  | stay (pc : Nat) (s : State) : Path v code pc s [] [] pc s
  | next {pc mid last : Nat} {s t u : State} {i : Inst} {trace : List Nat} {calls : List Call}
      (fetched : code[pc]? = some i) (stepped : step v pc s i = .next mid t)
      (rest : Path v code mid t trace calls last u) : Path v code pc s (pc :: trace) calls last u
  | called {pc mid last : Nat} {s t u : State} {i : Inst} {trace : List Nat} {calls : List Call}
      {call : Call} (fetched : code[pc]? = some i) (stepped : step v pc s i = .called call mid t)
      (rest : Path v code mid t trace calls last u) :
      Path v code pc s (pc :: trace) (call :: calls) last u

/-- Execution that is at `pc` in one state ends after the given number of steps, in another state
and after the calls listed. -/
inductive Ends (v : Services) (code : Array Inst) :
    Nat → State → Nat → List Call → Except Trap Exit → State → Prop where
  | off {pc : Nat} {s : State} (outside : code[pc]? = none) :
      Ends v code pc s 1 [] (.error (.fellOffEnd pc)) s
  | stop {pc : Nat} {s : State} {i : Inst} {ending : Except Trap Exit}
      (fetched : code[pc]? = some i) (stepped : step v pc s i = .stop ending) :
      Ends v code pc s 1 [] ending s
  | next {pc mid n : Nat} {s t u : State} {i : Inst} {calls : List Call}
      {ending : Except Trap Exit} (fetched : code[pc]? = some i)
      (stepped : step v pc s i = .next mid t) (rest : Ends v code mid t n calls ending u) :
      Ends v code pc s (n + 1) calls ending u
  | called {pc mid n : Nat} {s t u : State} {i : Inst} {calls : List Call} {call : Call}
      {ending : Except Trap Exit} (fetched : code[pc]? = some i)
      (stepped : step v pc s i = .called call mid t) (rest : Ends v code mid t n calls ending u) :
      Ends v code pc s (n + 1) (call :: calls) ending u

def Step.position? : Step → Option Nat
  | next position _ => some position
  | called _ position _ => some position
  | stop _ => none

theorem step_position {v : Services} {pc mid : Nat} {s : State} {i : Inst}
    (goes : (step v pc s i).position? = some mid) :
    mid = pc + 1 ∨ ∃ cond, i = .branch cond (some mid) ∧ s.holds cond = true := by
  cases i with
  | branch cond target =>
    cases target with
    | none => cases goes
    | some target =>
      simp only [step, Step.position?, Option.some.injEq] at goes
      split at goes
      next taken => exact .inr ⟨cond, by rw [goes], taken⟩
      next passed => exact .inl goes.symm
  | call target =>
    simp only [step] at goes
    split at goes
    next => exact .inl (by simpa [Step.position?] using goes.symm)
    next => cases goes
  | callSlowPath call =>
    simp only [step] at goes
    split at goes
    next => exact .inl (by simpa [Step.position?] using goes.symm)
    next => cases goes
  | abort reason => cases goes
  | breakpoint => cases goes
  | ret => cases goes
  | _ => exact .inl (by simpa [step, Step.position?] using goes.symm)

/-- With fuel enough, a run gets from one position and state to another, through the positions
listed and without a call. -/
def Run.Passes (v : Services) (code : Array Inst) (pc : Nat) (s : State) (trace : List Nat)
    (last : Nat) (t : State) : Prop :=
  ∀ limit fuel before made,
    Run.resume v code limit (trace.length + fuel) pc s before made =
      Run.resume v code limit fuel last t (before ++ trace.toArray) made

namespace Path

variable {v : Services} {code : Array Inst} {pc mid last : Nat} {s t u : State}
  {trace more : List Nat} {calls further : List Call}

theorem trans (first : Path v code pc s trace calls mid t)
    (second : Path v code mid t more further last u) :
    Path v code pc s (trace ++ more) (calls ++ further) last u := by
  induction first with
  | stay => exact second
  | next fetched stepped _ ih => exact .next fetched stepped (ih second)
  | called fetched stepped _ ih => exact .called fetched stepped (ih second)

theorem single {i : Inst} (fetched : code[pc]? = some i) (stepped : step v pc s i = .next mid t) :
    Path v code pc s [pc] [] mid t :=
  .next fetched stepped (.stay mid t)

theorem branch {cond : Cond} {target : Nat}
    (fetched : code[pc]? = some (.branch cond (some target))) :
    Path v code pc s [pc] [] (if s.holds cond then target else pc + 1) s :=
  single fetched rfl

theorem eq_of_nil (path : Path v code pc s [] calls last t) : pc = last ∧ s = t ∧ calls = [] := by
  cases path
  exact ⟨rfl, rfl, rfl⟩

/-- A path through code that only branches forward takes at most one step per position. -/
theorem length_le {stop : Nat} (path : Path v code pc s trace calls last t)
    (forward : ∀ q ∈ trace, ∀ cond target, code[q]? = some (.branch cond (some target)) →
      q < target)
    (within : ∀ q ∈ trace, q < stop) : trace = [] ∨ pc + trace.length ≤ stop := by
  induction path with
  | stay => exact .inl rfl
  | next fetched stepped _ ih | called fetched stepped _ ih =>
    rw [List.forall_mem_cons] at forward within
    have further := forward.1
    rw [fetched] at further
    right
    rcases ih forward.2 within.2 with rfl | bounded
    · exact within.1
    · rcases step_position (congrArg Step.position? stepped) with rfl | ⟨cond, rfl, _⟩
      · rw [List.length_cons]
        omega
      · have later := further cond _ rfl
        rw [List.length_cons]
        omega

theorem resume_eq (path : Path v code pc s trace calls last t) (limit fuel : Nat)
    (before : Array Nat) (made : Array Call) :
    Run.resume v code limit (trace.length + fuel) pc s before made =
      Run.resume v code limit fuel last t (before ++ trace.toArray) (made ++ calls.toArray) := by
  induction path generalizing before made with
  | stay => simp
  | next fetched stepped _ ih =>
    rw [List.length_cons, Nat.add_right_comm, Run.resume, fetched]
    simp only [stepped, ih]
    congr 1
    simp
  | called fetched stepped _ ih =>
    rw [List.length_cons, Nat.add_right_comm, Run.resume, fetched]
    simp only [stepped, ih]
    congr 1
    · simp
    · simp

theorem passes (path : Path v code pc s trace [] last t) :
    Run.Passes v code pc s trace last t := by
  intro limit fuel before made
  rw [path.resume_eq, Array.append_empty]

theorem ne_callSlowPath (path : Path v code pc s trace [] last t) {q : Nat} (member : q ∈ trace)
    (call : SlowCall) : code[q]? ≠ some (.callSlowPath call) := by
  generalize quiet : ([] : List Call) = calls at path
  induction path with
  | stay => cases member
  | called => cases quiet
  | @next pc mid _ s _ _ i _ _ fetched stepped _ ih =>
    rcases List.mem_cons.mp member with rfl | later
    · intro found
      cases fetched.symm.trans found
      rw [step] at stepped
      split at stepped
      next => cases stepped
      next => cases stepped
    · exact ih later quiet

end Path

namespace Ends

variable {v : Services} {code : Array Inst} {pc mid last n : Nat} {s t u : State}
  {trace : List Nat} {calls further : List Call} {ending : Except Trap Exit}

theorem after (path : Path v code pc s trace calls mid t)
    (rest : Ends v code mid t n further ending u) :
    Ends v code pc s (trace.length + n) (calls ++ further) ending u := by
  induction path with
  | stay => simpa using rest
  | next fetched stepped _ ih =>
    have tail := ih rest
    rw [List.length_cons, Nat.add_right_comm]
    exact .next fetched stepped tail
  | called fetched stepped _ ih =>
    have tail := ih rest
    rw [List.length_cons, Nat.add_right_comm]
    exact .called fetched stepped tail

theorem of_path (path : Path v code pc s trace calls mid t)
    (whole : Ends v code pc s n further ending u) :
    ∃ rest left, n = trace.length + left ∧ further = calls ++ rest ∧
      Ends v code mid t left rest ending u := by
  induction path generalizing n further with
  | stay => exact ⟨further, n, by simp, rfl, whole⟩
  | next fetched stepped _ ih =>
    cases whole with
    | off outside => simp [fetched] at outside
    | stop same ended =>
      cases fetched.symm.trans same
      simp [stepped] at ended
    | next same taken rest =>
      cases fetched.symm.trans same
      cases stepped.symm.trans taken
      obtain ⟨later, left, count, made, tail⟩ := ih rest
      exact ⟨later, left, by simp only [List.length_cons]; omega, made, tail⟩
    | called same taken rest =>
      cases fetched.symm.trans same
      simp [stepped] at taken
  | called fetched stepped _ ih =>
    cases whole with
    | off outside => simp [fetched] at outside
    | stop same ended =>
      cases fetched.symm.trans same
      simp [stepped] at ended
    | next same taken rest =>
      cases fetched.symm.trans same
      simp [stepped] at taken
    | called same taken rest =>
      cases fetched.symm.trans same
      cases stepped.symm.trans taken
      obtain ⟨later, left, count, made, tail⟩ := ih rest
      exact ⟨later, left, by simp only [List.length_cons]; omega, by rw [made]; rfl, tail⟩

theorem ne_stepLimit (whole : Ends v code pc s n calls ending u) (limit : Nat) :
    ending ≠ .error (.stepLimit limit) := by
  induction whole with
  | off => simp
  | next _ _ _ ih => exact ih
  | called _ _ _ ih => exact ih
  | @stop pc s i _ _ stepped =>
    intro same
    subst same
    cases i with
    | branch cond target => cases target <;> simp [step] at stepped
    | call target =>
      simp only [step] at stepped
      split at stepped <;> simp at stepped
    | callSlowPath call =>
      simp only [step] at stepped
      split at stepped <;> simp at stepped
    | _ => simp [step] at stepped

theorem resume_eq (whole : Ends v code pc s n calls ending u) {fuel : Nat} (enough : n ≤ fuel)
    (limit : Nat) (before : Array Nat) (made : Array Call) :
    ∃ trace, Run.resume v code limit fuel pc s before made =
      ⟨ending, u, trace, made ++ calls.toArray⟩ := by
  induction whole generalizing fuel before made with
  | off outside =>
    obtain ⟨rest, rfl⟩ : ∃ rest, fuel = rest + 1 := ⟨fuel - 1, by omega⟩
    exact ⟨before, by simp [Run.resume, outside]⟩
  | @stop pc _ _ _ fetched stepped =>
    obtain ⟨rest, rfl⟩ : ∃ rest, fuel = rest + 1 := ⟨fuel - 1, by omega⟩
    exact ⟨before.push pc, by simp [Run.resume, fetched, stepped]⟩
  | @next pc _ _ _ _ _ _ _ _ fetched stepped _ ih =>
    obtain ⟨rest, rfl⟩ : ∃ rest, fuel = rest + 1 := ⟨fuel - 1, by omega⟩
    obtain ⟨trace, result⟩ := ih (Nat.le_of_succ_le_succ enough) (before.push pc) made
    exact ⟨trace, by simp only [Run.resume, fetched, stepped, result]⟩
  | @called pc _ _ _ _ _ _ _ call _ fetched stepped _ ih =>
    obtain ⟨rest, rfl⟩ : ∃ rest, fuel = rest + 1 := ⟨fuel - 1, by omega⟩
    obtain ⟨trace, result⟩ := ih (Nat.le_of_succ_le_succ enough) (before.push pc) (made.push call)
    exact ⟨trace, by simp [Run.resume, fetched, stepped, result]⟩

/-- What the machine sees end otherwise than by its limit is an execution that ends. -/
theorem of_resume (limit fuel pc : Nat) (s : State) (before : Array Nat) (made : Array Call)
    (completed : (Run.resume v code limit fuel pc s before made).ending ≠
      .error (.stepLimit limit)) :
    ∃ n calls, (Run.resume v code limit fuel pc s before made).calls = made ++ calls.toArray ∧
      Ends v code pc s n calls (Run.resume v code limit fuel pc s before made).ending
        (Run.resume v code limit fuel pc s before made).state := by
  induction fuel generalizing pc s before made with
  | zero => simp [Run.resume] at completed
  | succ fuel ih =>
    cases fetched : code[pc]? with
    | none =>
      simp only [Run.resume, fetched]
      exact ⟨1, [], by simp, .off fetched⟩
    | some i =>
      cases stepped : step v pc s i with
      | next mid t =>
        simp only [Run.resume, fetched, stepped] at completed ⊢
        obtain ⟨n, calls, made, rest⟩ := ih mid t _ _ completed
        exact ⟨n + 1, calls, made, .next fetched stepped rest⟩
      | called call mid t =>
        simp only [Run.resume, fetched, stepped] at completed ⊢
        obtain ⟨n, calls, made, rest⟩ := ih mid t _ _ completed
        exact ⟨n + 1, call :: calls, by simp [made], .called fetched stepped rest⟩
      | stop ending =>
        simp only [Run.resume, fetched, stepped]
        exact ⟨1, [], by simp, .stop fetched stepped⟩

end Ends

namespace Run

/-- Under some step limit the run from `entry` ends otherwise than by that limit, in the given way
and state and after the given calls. -/
def Completes (v : Services) (code : Array Inst) (entry : Nat) (s : State)
    (ending : Except Trap Exit) (final : State) (calls : List Call) : Prop :=
  ∃ limit, (start v code limit entry s).ending ≠ .error (.stepLimit limit) ∧
    (start v code limit entry s).ending = ending ∧ (start v code limit entry s).state = final ∧
    (start v code limit entry s).calls.toList = calls

theorem completes_iff_ends {v : Services} {code : Array Inst} {entry : Nat} {s final : State}
    {ending : Except Trap Exit} {calls : List Call} :
    Completes v code entry s ending final calls ↔
      ∃ n, Ends v code entry s n calls ending final := by
  constructor
  · rintro ⟨limit, completed, rfl, rfl, rfl⟩
    obtain ⟨n, calls, made, whole⟩ := Ends.of_resume limit limit entry s #[] #[] completed
    refine ⟨n, ?_⟩
    simpa [start, made] using whole
  · rintro ⟨n, whole⟩
    obtain ⟨trace, result⟩ := whole.resume_eq (Nat.le_refl n) n #[] #[]
    have limited := whole.ne_stepLimit n
    exact ⟨n, by simp [start, result, limited]⟩

end Run

end InlineCache
