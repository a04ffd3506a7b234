import InlineCache.Worker
import Mathlib.Logic.Function.Iterate

/-!
The hand-off between a worker and its owner. The calls of the owner and the steps of the loop in the
background interleave in any way, and a history lists them with their answers. At every point of a
history the accepted jobs are those whose results were received, those whose results wait, and those
that the worker still owes; after a fault it owes the job that faulted and all behind it, for good.
Left to itself, the loop settles what it owes up to the first fault.
-/

namespace InlineCache

namespace Request

variable {o : Options}

def results (o : Options) : List Request → List Reply
  | [] => []
  | r :: rest =>
    match r.run o with
    | some reply => reply :: results o rest
    | none => []

/-- What comes of a job that runs alone, on an empty draft with the given options. -/
inductive Yields (o : Options) (r : Request) : Reply → Prop where
  | finished {d : Draft} {unit : Finished} (ran : r.job { options := o } = .ok d)
      (finished : d.finish = .ok unit) : Yields o r (.finished r.unitId unit)
  | unfinished {d : Draft} {e : BuildError} (ran : r.job { options := o } = .ok d)
      (unfinished : d.finish = .error e) : Yields o r (.failed r.unitId e)
  | failed {e : BuildError} (failed : r.job { options := o } = .error (.error e)) :
      Yields o r (.failed r.unitId e)

def faults (o : Options) (r : Request) : Bool :=
  match r.job { options := o } with
  | .error (.fault _) => true
  | _ => false

theorem Yields.unitId_eq {r : Request} {reply : Reply} (yields : Yields o r reply) :
    reply.unitId = r.unitId := by
  cases yields <;> rfl

theorem yields_of_run {r : Request} {reply : Reply} (ran : r.run o = some reply) :
    Yields o r reply := by
  unfold run at ran
  split at ran
  next d generated =>
    split at ran
    next unit finished =>
      cases ran
      exact .finished generated finished
    next e unfinished =>
      cases ran
      exact .unfinished generated unfinished
  next e failed =>
    cases ran
    exact .failed failed
  next => cases ran

theorem faults_eq (r : Request) : r.faults o = (r.run o).isNone := by
  unfold run faults
  split
  next fault faulted =>
    rw [faulted]
    rfl
  next sound =>
    split
    next => split <;> rfl
    next => rfl
    next fault faulted => exact absurd faulted (sound fault)

theorem results_of_run {r : Request} {reply : Reply} (ran : r.run o = some reply)
    (rest : List Request) : results o (r :: rest) = reply :: results o rest := by
  rw [results, ran]

theorem results_of_fault {r : Request} (faulted : r.run o = none) (rest : List Request) :
    results o (r :: rest) = [] := by
  rw [results, faulted]

theorem results_append {done rest : List Request} {replies : List Reply}
    (ran : done.map (run o) = replies.map some) :
    results o (done ++ rest) = replies ++ results o rest := by
  induction done generalizing replies with
  | nil =>
    cases replies with
    | nil => rfl
    | cons reply replies => cases ran
  | cons r done ih =>
    cases replies with
    | nil => cases ran
    | cons reply replies =>
      rw [List.map_cons, List.map_cons, List.cons.injEq] at ran
      rw [List.cons_append, results_of_run ran.1, ih ran.2, List.cons_append]

theorem run_of_mem_results {jobs : List Request} {reply : Reply} {i : Nat}
    (found : (results o jobs)[i]? = some reply) :
    ∃ r, jobs[i]? = some r ∧ r.run o = some reply := by
  induction jobs generalizing i with
  | nil => simp [results] at found
  | cons r rest ih =>
    cases ran : r.run o with
    | none =>
      rw [results_of_fault ran] at found
      simp at found
    | some first =>
      rw [results_of_run ran] at found
      cases i with
      | zero =>
        rw [List.getElem?_cons_zero] at found ⊢
        exact ⟨r, rfl, ran.trans found⟩
      | succ i =>
        rw [List.getElem?_cons_succ] at found ⊢
        exact ih found

theorem length_results_le {jobs : List Request} {r : Request} {i : Nat}
    (found : jobs[i]? = some r) (faulted : r.run o = none) : (results o jobs).length ≤ i := by
  apply Nat.le_of_not_lt
  intro beyond
  obtain ⟨r', same, ran⟩ := run_of_mem_results (List.getElem?_eq_getElem beyond)
  rw [found, Option.some.injEq] at same
  rw [← same, faulted] at ran
  cases ran

end Request

theorem Loop.closing_or_gone {loop : Loop} (closed : loop.takesJobs = false) :
    loop = .closing ∨ loop = .gone := by
  cases loop with
  | idle => cases closed
  | running r => cases closed
  | closing => exact .inl rfl
  | gone => exact .inr rfl

namespace Worker

inductive Event where
  | submit (r : Request) (answer : Except BuildError Unit)
  | work
  | receive (answer : Except BuildError Reply)
  | tryReceive (answer : Except BuildError (Option Reply))

namespace Event

def accepted? : Event → Option Request
  | submit r (.ok ()) => some r
  | _ => none

def received? : Event → Option Reply
  | receive (.ok reply) => some reply
  | tryReceive (.ok reply) => reply
  | _ => none

end Event

/-- The worker before and after an event. Waiting is answered as soon as looking would find a result
or find the worker gone. -/
inductive Moves : Worker → Event → Worker → Prop where
  | submit {w w' : Worker} {r : Request} (accepted : w.submit r = .ok w') :
      Moves w (.submit r (.ok ())) w'
  | refuse {w : Worker} {r : Request} {e : BuildError} (refused : w.submit r = .error e) :
      Moves w (.submit r (.error e)) w
  | work (w : Worker) : Moves w .work w.step
  | receive {w w' : Worker} {reply : Reply} (looked : w.tryReceive = (.ok (some reply), w')) :
      Moves w (.receive (.ok reply)) w'
  | disconnect {w w' : Worker} {e : BuildError} (looked : w.tryReceive = (.error e, w')) :
      Moves w (.receive (.error e)) w'
  | tryReceive {w w' : Worker} {answer : Except BuildError (Option Reply)}
      (looked : w.tryReceive = (answer, w')) : Moves w (.tryReceive answer) w'

inductive Reaches (o : Options) : List Event → Worker → Prop where
  | start : Reaches o [] (spawn o)
  | next {history : List Event} {event : Event} {w w' : Worker} (before : Reaches o history w)
      (moves : Moves w event w') : Reaches o (history ++ [event]) w'

def accepted (history : List Event) : List Request := history.filterMap Event.accepted?

def received (history : List Event) : List Reply := history.filterMap Event.received?

inductive Owes (w : Worker) : List Request → Prop where
  | idle {jobs : List Request} (waits : w.loop = .idle) (queue : w.requests = jobs) : Owes w jobs
  | running {r : Request} {rest : List Request} (runs : w.loop = .running r)
      (queue : w.requests = rest) : Owes w (r :: rest)
  | faulted {r : Request} {lost : List Request} (closed : w.loop.takesJobs = false)
      (fault : r.run w.options = none) : Owes w (r :: lost)

/-- Every accepted job has its result received or waiting, or the worker owes it. -/
structure Accounted (o : Options) (history : List Event) (w : Worker) : Prop where
  options : w.options = o
  jobs : ∃ done owed, accepted history = done ++ owed ∧
    done.map (Request.run o) = (received history ++ w.replies).map some ∧ w.Owes owed

section Accounting

variable {o : Options} {history : List Event} {w w' : Worker} {event : Event} {owed : List Request}

theorem step_wait (waits : w.loop = .idle) (queue : w.requests = []) : w.step = w := by
  rw [step, waits, queue]

theorem step_take {r : Request} {rest : List Request} (waits : w.loop = .idle)
    (queue : w.requests = r :: rest) :
    w.step = { w with loop := .running r, requests := rest } := by
  rw [step, waits, queue]

theorem step_send {r : Request} {reply : Reply} (runs : w.loop = .running r)
    (ran : r.run w.options = some reply) :
    w.step = { w with loop := .idle, replies := w.replies ++ [reply] } := by
  simp only [step, runs, ran]

theorem step_fault {r : Request} (runs : w.loop = .running r) (fault : r.run w.options = none) :
    w.step = { w with loop := .closing, requests := [] } := by
  simp only [step, runs, fault]

theorem step_close (closing : w.loop = .closing) : w.step = { w with loop := .gone } := by
  rw [step, closing]

theorem step_gone (gone : w.loop = .gone) : w.step = w := by
  rw [step, gone]

theorem options_step (w : Worker) : w.step.options = w.options := by
  unfold step
  split
  next => split <;> rfl
  next => split <;> rfl
  next => rfl
  next => rfl

theorem Owes.step (owes : w.Owes owed) :
    (w.step.replies = w.replies ∧ w.step.Owes owed) ∨
      ∃ r rest reply, owed = r :: rest ∧ r.run w.options = some reply ∧
        w.step.replies = w.replies ++ [reply] ∧ w.step.Owes rest := by
  cases owes with
  | idle waits queue =>
    left
    cases owed with
    | nil =>
      rw [step_wait waits queue]
      exact ⟨rfl, .idle waits queue⟩
    | cons r rest =>
      rw [step_take waits queue]
      exact ⟨rfl, .running rfl rfl⟩
  | @running r rest runs queue =>
    cases ran : r.run w.options with
    | none =>
      left
      rw [step_fault runs ran]
      exact ⟨rfl, .faulted rfl ran⟩
    | some reply =>
      right
      rw [step_send runs ran]
      exact ⟨r, rest, reply, rfl, ran, rfl, .idle rfl queue⟩
  | faulted closed fault =>
    left
    rcases Loop.closing_or_gone closed with closing | gone
    · rw [step_close closing]
      exact ⟨rfl, .faulted rfl fault⟩
    · rw [step_gone gone]
      exact ⟨rfl, .faulted closed fault⟩

theorem Owes.submit {r : Request} (owes : w.Owes owed) (submitted : w.submit r = .ok w') :
    w'.options = w.options ∧ w'.replies = w.replies ∧ w'.Owes (owed ++ [r]) := by
  unfold Worker.submit at submitted
  split at submitted
  next takes =>
    cases submitted
    refine ⟨rfl, rfl, ?_⟩
    cases owes with
    | idle waits queue => exact .idle waits (congrArg (· ++ [r]) queue)
    | running runs queue => exact .running runs (congrArg (· ++ [r]) queue)
    | faulted closed =>
      rw [closed] at takes
      cases takes
  next => cases submitted

theorem tryReceive_cases {answer : Except BuildError (Option Reply)}
    (looked : w.tryReceive = (answer, w')) :
    (∃ reply rest, w.replies = reply :: rest ∧ answer = .ok (some reply) ∧
      w' = { w with replies := rest }) ∨
    w.replies = [] ∧ w' = w ∧
      answer = if w.loop.isGone then .error .workerGone else .ok none := by
  unfold tryReceive at looked
  split at looked
  next reply rest queue =>
    cases looked
    exact .inl ⟨reply, rest, queue, rfl, rfl⟩
  next queue =>
    cases looked
    exact .inr ⟨queue, rfl, rfl⟩

theorem accepted_append (history : List Event) (event : Event) :
    accepted (history ++ [event]) = accepted history ++ event.accepted?.toList := by
  rw [accepted, List.filterMap_append]
  cases answer : event.accepted? <;> simp [accepted, answer]

theorem received_append (history : List Event) (event : Event) :
    received (history ++ [event]) = received history ++ event.received?.toList := by
  rw [received, List.filterMap_append]
  cases answer : event.received? <;> simp [received, answer]

theorem Owes.setReplies (owes : w.Owes owed) (replies : List Reply) :
    Owes { w with replies } owed := by
  cases owes with
  | idle waits queue => exact .idle waits queue
  | running runs queue => exact .running runs queue
  | faulted closed fault => exact .faulted closed fault

theorem Accounted.quiet (accounted : Accounted o history w) (unaccepted : event.accepted? = none)
    (unreceived : event.received? = none) : Accounted o (history ++ [event]) w := by
  refine ⟨accounted.options, ?_⟩
  rw [accepted_append, received_append, unaccepted, unreceived, Option.toList_none,
    List.append_nil, Option.toList_none, List.append_nil]
  exact accounted.jobs

theorem Accounted.look {answer : Except BuildError (Option Reply)}
    (accounted : Accounted o history w) (looked : w.tryReceive = (answer, w'))
    (unaccepted : event.accepted? = none)
    (heard : event.received? = (Event.tryReceive answer).received?) :
    Accounted o (history ++ [event]) w' := by
  rcases tryReceive_cases looked with ⟨reply, rest, queue, rfl, rfl⟩ | ⟨_, rfl, rfl⟩
  · obtain ⟨done, owed, split, sent, owes⟩ := accounted.jobs
    refine ⟨accounted.options, done, owed, ?_, ?_, owes.setReplies rest⟩
    · rw [accepted_append, unaccepted, Option.toList_none, List.append_nil, split]
    · rw [received_append, heard, sent, queue, Event.received?, Option.toList_some,
        List.append_assoc]
      rfl
  · apply accounted.quiet unaccepted
    rw [heard]
    cases w'.loop.isGone <;> rfl

theorem Accounted.work (accounted : Accounted o history w) :
    Accounted o (history ++ [.work]) w.step := by
  obtain ⟨done, owed, split, sent, owes⟩ := accounted.jobs
  refine ⟨(options_step w).trans accounted.options, ?_⟩
  have unaccepted : accepted (history ++ [.work]) = accepted history :=
    (accepted_append history .work).trans (List.append_nil _)
  have unreceived : received (history ++ [.work]) = received history :=
    (received_append history .work).trans (List.append_nil _)
  rw [unaccepted, unreceived, split]
  rcases owes.step with ⟨replies, owes⟩ | ⟨r, rest, reply, rfl, ran, replies, owes⟩
  · exact ⟨done, owed, rfl, by rw [sent, replies], owes⟩
  · refine ⟨done ++ [r], rest, by rw [List.append_assoc, List.singleton_append], ?_, owes⟩
    rw [accounted.options] at ran
    calc (done ++ [r]).map (Request.run o)
        = (received history ++ w.replies).map some ++ [some reply] := by
          rw [List.map_append, sent, List.map_singleton, ran]
      _ = (received history ++ w.step.replies).map some := by
          simp only [replies, List.map_append, List.map_singleton, List.append_assoc]

theorem Accounted.next (accounted : Accounted o history w) (moves : Moves w event w') :
    Accounted o (history ++ [event]) w' := by
  cases moves with
  | @submit _ r submitted =>
    obtain ⟨done, owed, split, sent, owes⟩ := accounted.jobs
    obtain ⟨options, replies, owes⟩ := owes.submit submitted
    refine ⟨options.trans accounted.options, done, owed ++ [r], ?_, ?_, owes⟩
    · rw [accepted_append, split, List.append_assoc]
      rfl
    · rw [received_append, replies, sent]
      simp [Event.received?]
  | refuse => exact accounted.quiet rfl rfl
  | work => exact accounted.work
  | receive looked => exact accounted.look looked rfl rfl
  | disconnect looked => exact accounted.look looked rfl rfl
  | tryReceive looked => exact accounted.look looked rfl rfl

theorem Reaches.accounted (run : Reaches o history w) : Accounted o history w := by
  induction run with
  | start => exact ⟨rfl, [], [], rfl, rfl, .idle rfl rfl⟩
  | next _ moves ih => exact ih.next moves

/-- What was received, what waits and what is still to come are the results of the accepted jobs,
and a job that faults is still owed. -/
theorem Accounted.results_eq (accounted : Accounted o history w) :
    ∃ owed, w.Owes owed ∧
      Request.results o (accepted history) =
        received history ++ (w.replies ++ Request.results o owed) ∧
      (accepted history).any (Request.faults o) = owed.any (Request.faults o) := by
  obtain ⟨done, owed, split, sent, owes⟩ := accounted.jobs
  refine ⟨owed, owes, ?_, ?_⟩
  · rw [split, Request.results_append sent, List.append_assoc]
  · -- The jobs that are done have results, so a fault can only be among the others.
    have sound : done.any (Request.faults o) = false := by
      rw [List.any_eq_false]
      intro r member
      have ran : r.run o ∈ done.map (Request.run o) := List.mem_map_of_mem member
      rw [sent] at ran
      obtain ⟨reply, _, ran⟩ := List.mem_map.mp ran
      rw [Request.faults_eq, ← ran]
      exact Bool.false_ne_true
    rw [split, List.any_append, sound, Bool.false_or]

end Accounting

section Settling

variable {o : Options} {history : List Event} {w : Worker} {owed : List Request} {r : Request}

/-- On its own, the loop comes to send the results of all jobs that it owes up to a fault, and it is
gone then exactly if there is a fault. -/
def Settles (w : Worker) (owed : List Request) : Prop :=
  ∃ n, (step^[n] w).replies = w.replies ++ Request.results w.options owed ∧
    (step^[n] w).loop.isGone = owed.any (Request.faults w.options)

theorem Settles.of_step {left : List Request} {sent : List Reply} (settles : w.step.Settles left)
    (sends : w.step.replies = w.replies ++ sent)
    (results : Request.results w.options owed = sent ++ Request.results w.options left)
    (faults : owed.any (Request.faults w.options) = left.any (Request.faults w.options)) :
    w.Settles owed := by
  obtain ⟨n, replies, gone⟩ := settles
  rw [options_step] at replies gone
  refine ⟨n + 1, ?_, ?_⟩
  · rw [Function.iterate_succ_apply, replies, sends, results, List.append_assoc]
  · rw [Function.iterate_succ_apply, gone, faults]

theorem Settles.of_quiet_step (settles : w.step.Settles owed) (quiet : w.step.replies = w.replies) :
    w.Settles owed :=
  settles.of_step (quiet.trans (List.append_nil _).symm) rfl rfl

theorem settles_of_fault {lost : List Request} (closed : w.loop.takesJobs = false)
    (fault : r.run w.options = none) : w.Settles (r :: lost) := by
  have settled {v : Worker} (gone : v.loop = .gone) (fault : r.run v.options = none) :
      v.Settles (r :: lost) := by
    refine ⟨0, ?_, ?_⟩
    · rw [Request.results_of_fault fault, List.append_nil]
      rfl
    · rw [List.any_cons, Request.faults_eq, fault, Function.iterate_zero_apply, gone]
      rfl
  rcases Loop.closing_or_gone closed with closing | gone
  · apply Settles.of_quiet_step
    · rw [step_close closing]
      exact settled rfl fault
    · rw [step_close closing]
  · exact settled gone fault

theorem Owes.settles (owes : w.Owes owed) : w.Settles owed := by
  -- The induction is on the jobs that are owed: a job that was sent leaves the others behind.
  induction owed generalizing w with
  | nil =>
    cases owes with
    | idle waits queue => exact ⟨0, (List.append_nil _).symm, congrArg Loop.isGone waits⟩
  | cons r rest ih =>
    have running {v : Worker} (runs : v.loop = .running r) (queue : v.requests = rest) :
        v.Settles (r :: rest) := by
      cases ran : r.run v.options with
      | some reply =>
        have settles : v.step.Settles rest := by
          apply ih
          rw [step_send runs ran]
          exact .idle rfl queue
        have sends : v.step.replies = v.replies ++ [reply] := by rw [step_send runs ran]
        apply settles.of_step sends (Request.results_of_run ran rest)
        rw [List.any_cons, Request.faults_eq, ran, Option.isNone_some, Bool.false_or]
      | none =>
        apply Settles.of_quiet_step
        · rw [step_fault runs ran]
          exact settles_of_fault rfl ran
        · rw [step_fault runs ran]
    cases owes with
    | idle waits queue =>
      apply Settles.of_quiet_step
      · rw [step_take waits queue]
        exact running rfl rfl
      · rw [step_take waits queue]
    | running runs queue => exact running runs queue
    | faulted closed fault => exact settles_of_fault closed fault

theorem Reaches.work (run : Reaches o history w) (n : Nat) :
    Reaches o (history ++ List.replicate n .work) (step^[n] w) := by
  induction n with
  | zero =>
    rw [List.replicate_zero, List.append_nil]
    exact run
  | succ n ih =>
    rw [List.replicate_succ', ← List.append_assoc, Function.iterate_succ_apply']
    exact ih.next (.work _)

end Settling

section Waiting

variable {w : Worker} {owed : List Request} {r : Request}

def awaited : Option Reply → Bool → Except BuildError (Option Reply)
  | some reply, _ => .ok (some reply)
  | none, true => .error .workerGone
  | none, false => .ok none

theorem advance_of_reply {reply : Reply} {rest : List Reply} (waiting : w.replies = reply :: rest)
    (n : Nat) : w.advance n = w := by
  cases n with
  | zero => rfl
  | succ n => simp [advance, waiting]

theorem advance_succ (empty : w.replies = []) (n : Nat) :
    w.advance (n + 1) = w.step.advance n := by
  simp [advance, empty]

theorem advance_gone (gone : w.loop = .gone) (n : Nat) : w.advance n = w := by
  induction n with
  | zero => rfl
  | succ n ih =>
    rw [advance, step_gone gone, ih]
    exact ite_self w

theorem exists_advance_eq_iterate (w : Worker) (n : Nat) : ∃ k, w.advance n = step^[k] w := by
  induction n generalizing w with
  | zero => exact ⟨0, rfl⟩
  | succ n ih =>
    obtain ⟨k, same⟩ := ih w.step
    rw [advance]
    split
    next => exact ⟨k + 1, same⟩
    next => exact ⟨0, rfl⟩

theorem tryReceive_advance_of_fault (closed : w.loop.takesJobs = false) (empty : w.replies = [])
    (n : Nat) : (w.advance (n + 1)).tryReceive.1 = .error .workerGone := by
  rcases Loop.closing_or_gone closed with closing | gone
  · rw [advance_succ empty, step_close closing, advance_gone rfl]
    simp [tryReceive, empty, Loop.isGone]
  · rw [advance_gone gone]
    simp [tryReceive, empty, gone, Loop.isGone]

theorem tryReceive_advance_of_running (runs : w.loop = .running r) (empty : w.replies = [])
    (n : Nat) : (w.advance (n + 2)).tryReceive.1 = awaited (r.run w.options) true := by
  cases ran : r.run w.options with
  | some reply =>
    rw [advance_succ empty, step_send runs ran, empty, List.nil_append, advance_of_reply rfl]
    rfl
  | none =>
    rw [advance_succ empty, step_fault runs ran]
    apply tryReceive_advance_of_fault
    · rfl
    · exact empty

theorem Owes.receive (owes : w.Owes owed) :
    w.receive.1 = awaited (w.replies ++ Request.results w.options owed).head?
      (owed.any (Request.faults w.options)) := by
  rw [Worker.receive]
  cases empty : w.replies with
  | cons reply rest =>
    rw [advance_of_reply empty, tryReceive, empty]
    rfl
  | nil =>
    rw [List.nil_append]
    cases owed with
    | nil =>
      cases owes with
      | idle waits queue =>
        have stays (n : Nat) : w.advance n = w := by
          induction n with
          | zero => rfl
          | succ n ih => rw [advance_succ empty, step_wait waits queue, ih]
        rw [stays]
        simp [tryReceive, empty, waits, Loop.isGone, Request.results, awaited]
    | cons r rest =>
      have first : awaited (Request.results w.options (r :: rest)).head?
          ((r :: rest).any (Request.faults w.options)) = awaited (r.run w.options) true := by
        rw [List.any_cons, Request.faults_eq]
        cases ran : r.run w.options with
        | some reply =>
          rw [Request.results_of_run ran]
          rfl
        | none =>
          rw [Request.results_of_fault ran]
          rfl
      rw [first]
      cases owes with
      | idle waits queue =>
        rw [advance_succ empty, step_take waits queue]
        apply tryReceive_advance_of_running
        · rfl
        · exact empty
      | running runs queue => exact tryReceive_advance_of_running runs empty 1
      | faulted closed fault =>
        rw [fault]
        exact tryReceive_advance_of_fault closed empty 2

end Waiting

theorem tryReceive_of_gone {w : Worker} (gone : w.loop = .gone) (drained : w.replies = []) :
    w.tryReceive = (.error .workerGone, w) := by
  rw [tryReceive, drained, gone]
  rfl

theorem moves_receive_of_gone {w w' : Worker} {answer : Except BuildError Reply}
    (gone : w.loop = .gone) (drained : w.replies = []) :
    Moves w (.receive answer) w' ↔ answer = .error .workerGone ∧ w' = w := by
  have looks := tryReceive_of_gone gone drained
  constructor
  · intro moves
    cases moves with
    | receive looked =>
      rw [looks] at looked
      cases looked
    | disconnect looked =>
      rw [looks] at looked
      cases looked
      exact ⟨rfl, rfl⟩
  · rintro ⟨rfl, rfl⟩
    exact .disconnect looks

theorem moves_tryReceive_of_gone {w w' : Worker} {answer : Except BuildError (Option Reply)}
    (gone : w.loop = .gone) (drained : w.replies = []) :
    Moves w (.tryReceive answer) w' ↔ answer = .error .workerGone ∧ w' = w := by
  have looks := tryReceive_of_gone gone drained
  constructor
  · intro moves
    cases moves with
    | tryReceive looked =>
      rw [looks] at looked
      cases looked
      exact ⟨rfl, rfl⟩
  · rintro ⟨rfl, rfl⟩
    exact .tryReceive looks

theorem Reaches.receive {o : Options} {history : List Event} {w : Worker}
    (run : Reaches o history w) :
    ∃ n, Reaches o (history ++ List.replicate n .work ++ [.tryReceive w.receive.1])
      w.receive.2 := by
  obtain ⟨n, worked⟩ := exists_advance_eq_iterate w 3
  refine ⟨n, (run.work n).next (.tryReceive ?_)⟩
  rw [← worked]
  rfl

/-- At every point of every history, the results that were received are the first results of the
accepted jobs, in the order of the jobs, each under the id of its job and as the job gives it when
it runs alone. A job that faults has no result and neither has any job behind it. When the worker is
gone and its results are received, the owner is told so. Nothing is lost: the loop comes to send all
results before the first fault, and an owner that waits gets the next of them. -/
theorem handoff_in_order {o : Options} {history : List Event} {w : Worker}
    (run : Reaches o history w) :
    received history <+: Request.results o (accepted history) ∧
    (∀ (i : Nat) (reply : Reply), (received history)[i]? = some reply →
      ∃ r : Request, (accepted history)[i]? = some r ∧ r.Yields o reply ∧
        reply.unitId = r.unitId) ∧
    (∀ (i : Nat) (r : Request), (accepted history)[i]? = some r → r.faults o = true →
      (received history).length ≤ i) ∧
    (w.loop = .gone → received history = Request.results o (accepted history) →
      (∀ answer w', Moves w (.receive answer) w' ↔ answer = .error .workerGone ∧ w' = w) ∧
      ∀ answer w', Moves w (.tryReceive answer) w' ↔ answer = .error .workerGone ∧ w' = w) ∧
    (∃ n, Reaches o (history ++ List.replicate n .work) (step^[n] w) ∧
      received history ++ (step^[n] w).replies = Request.results o (accepted history) ∧
      (step^[n] w).loop.isGone = (accepted history).any (Request.faults o)) ∧
    (∃ n, Reaches o (history ++ List.replicate n .work ++ [.tryReceive w.receive.1])
      w.receive.2) ∧
    w.receive.1 = awaited (Request.results o (accepted history))[(received history).length]?
      ((accepted history).any (Request.faults o)) := by
  have options := run.accounted.options
  obtain ⟨owed, owes, results, faults⟩ := run.accounted.results_eq
  have sent : received history <+: Request.results o (accepted history) := by
    rw [results]
    exact List.prefix_append _ _
  refine ⟨sent, ?_, ?_, ?_, ?_, run.receive, ?_⟩
  · intro i reply found
    have stands : (Request.results o (accepted history))[i]? = some reply := by
      rw [results, List.getElem?_append_left (List.getElem?_eq_some_iff.mp found).1]
      exact found
    obtain ⟨r, job, ran⟩ := Request.run_of_mem_results stands
    have yields := Request.yields_of_run ran
    exact ⟨r, job, yields, yields.unitId_eq⟩
  · intro i r job fault
    rw [Request.faults_eq, Option.isNone_iff_eq_none] at fault
    exact Nat.le_trans sent.length_le (Request.length_results_le job fault)
  · intro gone drained
    have empty : w.replies = [] := by
      rw [results] at drained
      exact (List.append_eq_nil_iff.mp (List.self_eq_append_right.mp drained)).1
    exact ⟨fun _ _ => moves_receive_of_gone gone empty,
      fun _ _ => moves_tryReceive_of_gone gone empty⟩
  · obtain ⟨n, replies, gone⟩ := owes.settles
    rw [options] at replies gone
    exact ⟨n, run.work n, by rw [replies, results], gone.trans faults.symm⟩
  · rw [results, faults, List.getElem?_append_right (Nat.le_refl _), Nat.sub_self,
      ← List.head?_eq_getElem?, ← options]
    exact owes.receive

/-- Of four jobs the second fails and the third faults. The fourth is accepted while the third
runs, and lost. -/
def faultyHistory : List Event :=
  [.submit ⟨1, .ok⟩ (.ok ()),
    .submit ⟨2, fun _ => .error (.error (.unlinkedJump 3))⟩ (.ok ()),
    .work, .work,
    .receive (.ok (.finished 1 ⟨{}, #[], []⟩)),
    .submit ⟨3, fun _ => .error (.fault .outOfBounds)⟩ (.ok ()),
    .work, .work, .work,
    .submit ⟨4, .ok⟩ (.ok ()),
    .work, .work,
    .tryReceive (.ok (some (.failed 2 (.unlinkedJump 3)))),
    .receive (.error .workerGone)]

theorem faultyHistory_reached : Reaches {} faultyHistory { options := {}, loop := .gone } := by
  have failing := ((((Reaches.start (o := {})).next (.submit (r := ⟨1, .ok⟩) rfl)).next
    (.submit (r := ⟨2, fun _ => .error (.error (.unlinkedJump 3))⟩) rfl)).work 2).next
    (.receive rfl)
  have faulting := ((failing.next
    (.submit (r := ⟨3, fun _ => .error (.fault .outOfBounds)⟩) rfl)).work 3).next
    (.submit (r := ⟨4, .ok⟩) rfl)
  exact ((faulting.work 2).next (.tryReceive rfl)).next (.disconnect rfl)

theorem handoff_up_to_fault :
    received faultyHistory = [.finished 1 ⟨{}, #[], []⟩, .failed 2 (.unlinkedJump 3)] ∧
    received faultyHistory <+: Request.results {} (accepted faultyHistory) ∧
    (accepted faultyHistory).length = 4 ∧
    ∀ answer w', Moves { options := {}, loop := .gone } (.receive answer) w' ↔
      answer = .error .workerGone ∧ w' = { options := {}, loop := .gone } := by
  obtain ⟨sent, _, _, gone, _⟩ := handoff_in_order faultyHistory_reached
  exact ⟨rfl, sent, rfl, (gone rfl rfl).1⟩

end Worker

end InlineCache
