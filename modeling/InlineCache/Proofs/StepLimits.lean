import InlineCache.Proofs.Execution
import Mathlib.Data.List.Chain

/-!
Step limits. Execution has a course of its own, and the limit only says how far the machine follows
it: within any number of steps there is a path of that length, or a shorter one to where execution
halts. A run that halts is therefore the same under every larger limit, and a run that is cut off
is the beginning of the longer one.
-/

namespace InlineCache

/-- Execution is over at `pc`. The list says which positions are executed there: none where the code
has ended. -/
inductive Halts (v : Services) (code : Array Inst) (pc : Nat) (s : State) :
    List Nat → Except Trap Exit → Prop where
  | off (outside : code[pc]? = none) : Halts v code pc s [] (.error (.fellOffEnd pc))
  | stop {i : Inst} {ending : Except Trap Exit} (fetched : code[pc]? = some i)
      (stepped : step v pc s i = .stop ending) : Halts v code pc s [pc] ending

/-- What execution comes to within a number of steps: a path that takes all of them, or one that
leaves a step to halt in. -/
inductive Fate (v : Services) (code : Array Inst) (pc : Nat) (s : State) : Nat → Prop where
  | cut {trace : List Nat} {calls : List Call} {last : Nat} {t : State}
      (path : Path v code pc s trace calls last t) : Fate v code pc s trace.length
  | halted {fuel : Nat} {trace final : List Nat} {calls : List Call} {last : Nat} {t : State}
      {ending : Except Trap Exit} (path : Path v code pc s trace calls last t)
      (early : trace.length < fuel) (halts : Halts v code last t final ending) :
      Fate v code pc s fuel

def Follows (code : Array Inst) (p q : Nat) : Prop :=
  q = p + 1 ∨ ∃ cond, code[p]? = some (.branch cond (some q))

structure Traced (code : Array Inst) (entry : Nat) (trace : List Nat) : Prop where
  inside : ∀ q ∈ trace, q < code.size
  first : ∀ q, trace.head? = some q → q = entry
  follows : trace.IsChain (Follows code)

variable {v : Services} {code : Array Inst} {pc mid last : Nat} {s t : State}
  {trace final : List Nat} {calls : List Call} {ending : Except Trap Exit}

namespace Halts

theorem ne_stepLimit (halts : Halts v code pc s final ending) (limit : Nat) :
    ending ≠ .error (.stepLimit limit) := by
  cases halts with
  | off outside => simp
  | stop fetched stepped => exact (Ends.stop fetched stepped).ne_stepLimit limit

theorem resume_eq (halts : Halts v code pc s final ending) (limit fuel : Nat) (before : Array Nat)
    (made : Array Call) :
    Run.resume v code limit (fuel + 1) pc s before made =
      ⟨ending, s, before ++ final.toArray, made⟩ := by
  cases halts with
  | off outside => simp [Run.resume, outside]
  | stop fetched stepped => simp [Run.resume, fetched, stepped]

theorem final_eq (halts : Halts v code pc s final ending) :
    final = [] ∨ final = [pc] ∧ pc < code.size := by
  cases halts with
  | off outside => exact .inl rfl
  | stop fetched stepped => exact .inr ⟨rfl, (Array.getElem?_eq_some_iff.mp fetched).1⟩

end Halts

namespace Path

theorem cut_resume (path : Path v code pc s trace calls last t) (limit : Nat)
    (before : Array Nat) (made : Array Call) :
    Run.resume v code limit trace.length pc s before made =
      ⟨.error (.stepLimit limit), t, before ++ trace.toArray, made ++ calls.toArray⟩ :=
  path.resume_eq limit 0 before made

theorem halted_resume (path : Path v code pc s trace calls last t)
    (halts : Halts v code last t final ending) {fuel : Nat} (early : trace.length < fuel)
    (limit : Nat) (before : Array Nat) (made : Array Call) :
    Run.resume v code limit fuel pc s before made =
      ⟨ending, t, before ++ (trace ++ final).toArray, made ++ calls.toArray⟩ := by
  have fits : fuel = trace.length + (fuel - trace.length - 1 + 1) := by omega
  rw [fits, path.resume_eq, halts.resume_eq]
  simp

theorem head? (path : Path v code pc s trace calls last t) :
    (trace ++ [last]).head? = some pc := by
  cases path with
  | stay => rfl
  | next => rfl
  | called => rfl

theorem inside (path : Path v code pc s trace calls last t) : ∀ q ∈ trace, q < code.size := by
  induction path with
  | stay => simp
  | next fetched _ _ ih | called fetched _ _ ih =>
    rw [List.forall_mem_cons]
    exact ⟨(Array.getElem?_eq_some_iff.mp fetched).1, ih⟩

theorem follows (path : Path v code pc s trace calls last t) :
    (trace ++ [last]).IsChain (Follows code) := by
  induction path with
  | stay pc => exact .singleton pc
  | next fetched stepped rest ih | called fetched stepped rest ih =>
    rw [List.cons_append, List.isChain_cons, rest.head?]
    refine ⟨fun q here => ?_, ih⟩
    cases here
    rcases step_position (congrArg Step.position? stepped) with rfl | ⟨cond, rfl, _⟩
    · exact .inl rfl
    · exact .inr ⟨cond, fetched⟩

theorem traced (path : Path v code pc s trace calls last t) : Traced code pc trace where
  inside := path.inside
  first := by
    intro q here
    have start := path.head?
    rw [List.head?_append, here] at start
    exact Option.some.inj start
  follows := path.follows.left_of_append

theorem traced_halted (path : Path v code pc s trace calls last t)
    (halts : Halts v code last t final ending) : Traced code pc (trace ++ final) := by
  rcases halts.final_eq with rfl | ⟨rfl, within⟩
  · rw [List.append_nil]
    exact path.traced
  · refine ⟨fun q member => ?_, fun q here => ?_, path.follows⟩
    · rcases List.mem_append.mp member with earlier | last
      · exact path.inside q earlier
      · rw [List.mem_singleton.mp last]
        exact within
    · exact Option.some.inj (here.symm.trans path.head?)

end Path

namespace Fate

theorem after (first : Path v code pc s [pc] calls mid t) {fuel : Nat}
    (rest : Fate v code mid t fuel) : Fate v code pc s (fuel + 1) := by
  cases rest with
  | cut path => exact .cut (first.trans path)
  | halted path early halts =>
    exact .halted (first.trans path) (Nat.succ_lt_succ early) halts

theorem exists_within (v : Services) (code : Array Inst) (fuel pc : Nat) (s : State) :
    Fate v code pc s fuel := by
  induction fuel generalizing pc s with
  | zero => exact .cut (.stay pc s)
  | succ fuel ih =>
    have start : ([] : List Nat).length < fuel + 1 := Nat.succ_pos fuel
    cases fetched : code[pc]? with
    | none => exact .halted (.stay pc s) start (.off fetched)
    | some i =>
      cases stepped : step v pc s i with
      | next mid t => exact after (.single fetched stepped) (ih mid t)
      | called call mid t => exact after (.called fetched stepped (.stay mid t)) (ih mid t)
      | stop ending => exact .halted (.stay pc s) start (.stop fetched stepped)

end Fate

namespace Run

def CutOff (r : Run) : Prop := ∃ limit, r.ending = .error (.stepLimit limit)

theorem before_prefix (limit fuel : Nat) (before : Array Nat) (made : Array Call) :
    before.toList <+: (resume v code limit fuel pc s before made).trace.toList := by
  cases Fate.exists_within v code fuel pc s with
  | cut path =>
    rw [path.cut_resume]
    exact ⟨_, (Array.toList_append).symm⟩
  | halted path early halts =>
    rw [path.halted_resume halts early]
    exact ⟨_, (Array.toList_append).symm⟩

theorem traced (limit : Nat) :
    Traced code pc (start v code limit pc s).trace.toList := by
  rw [start]
  cases Fate.exists_within v code limit pc s with
  | cut path =>
    rw [path.cut_resume, Array.empty_append]
    exact path.traced
  | halted path early halts =>
    rw [path.halted_resume halts early, Array.empty_append]
    exact path.traced_halted halts

section Limits

variable {n k : Nat} (larger : n ≤ k)
include larger

theorem start_eq_of_completed (completed : ¬ (start v code n pc s).CutOff) :
    start v code k pc s = start v code n pc s := by
  cases Fate.exists_within v code n pc s with
  | @cut trace _ _ _ path =>
    refine absurd ⟨trace.length, ?_⟩ completed
    rw [start, path.cut_resume]
  | halted path early halts =>
    rw [start, start, path.halted_resume halts (Nat.lt_of_lt_of_le early larger),
      path.halted_resume halts early]

theorem start_of_cutOff (cutOff : (start v code n pc s).CutOff) :
    (start v code n pc s).ending = .error (.stepLimit n) ∧
      (start v code n pc s).trace.size = n ∧
      (start v code n pc s).trace.toList <+: (start v code k pc s).trace.toList := by
  cases Fate.exists_within v code n pc s with
  | cut path =>
    obtain ⟨more, rfl⟩ := Nat.exists_eq_add_of_le larger
    rw [start, start, path.cut_resume, path.resume_eq, Array.empty_append]
    exact ⟨rfl, List.size_toArray, before_prefix _ more _ _⟩
  | halted path early halts =>
    obtain ⟨limit, same⟩ := cutOff
    rw [start, path.halted_resume halts early] at same
    exact absurd same (halts.ne_stepLimit limit)

end Limits

end Run

/-- Under a larger step limit a machine does the same in a run that was not cut off by the smaller
one, and goes on after as many positions as the limit allowed in a run that was. Under every limit
a run starts at its entry, stays in the code and moves on by one position or along a branch. -/
theorem Machine.limits_agree (m : Machine) (code : Array Inst) (entry : Nat) {n k : Nat}
    (larger : n ≤ k) :
    let short := { m with stepLimit := n }.run code entry
    let long := { m with stepLimit := k }.run code entry
    (¬ short.1.CutOff → long = (short.1, { short.2 with stepLimit := k })) ∧
    (short.1.CutOff → short.1.ending = .error (.stepLimit n) ∧ short.2.trace.size = n ∧
      short.2.trace.toList <+: long.2.trace.toList) ∧
    Traced code entry short.2.trace.toList ∧ Traced code entry long.2.trace.toList := by
  intro short long
  refine ⟨fun completed => ?_, fun cutOff => ?_, Run.traced n, Run.traced k⟩
  · have same : long.1 = short.1 := Run.start_eq_of_completed larger completed
    change (long.1, { m with stepLimit := k, state := long.1.state, trace := long.1.trace }) = _
    rw [same]
    rfl
  · exact Run.start_of_cutOff larger cutOff

theorem Machine.limits_agree_from_three :
    let code : Array Inst := #[.branch .always (some 2), .ret, .branch .always (some 1)]
    let run (limit : Nat) := { Machine.new with stepLimit := limit }.run code 0
    (run 2).1.CutOff ∧ (run 2).2.trace.toList <+: (run 3).2.trace.toList ∧
      (run 3).1.ending = .ok .returned ∧ (run 3).2.trace = #[0, 2, 1] ∧
      run 100 = ((run 3).1, { (run 3).2 with stepLimit := 100 }) := by
  intro code run
  have ended : (run 3).1.ending = .ok .returned := rfl
  have completed : ¬ (run 3).1.CutOff := by
    rintro ⟨limit, same⟩
    cases ended.symm.trans same
  have cutOff : (run 2).1.CutOff := ⟨2, rfl⟩
  refine ⟨cutOff, ?_, ended, rfl, ?_⟩
  · exact ((limits_agree .new code 0 (by decide : 2 ≤ 3)).2.1 cutOff).2.2
  · exact (limits_agree .new code 0 (by decide : 3 ≤ 100)).1 completed

end InlineCache
