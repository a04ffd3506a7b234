import InlineCache.Draft

/-!
Generation in the background. Jobs wait in a queue, run one after the other, each on a draft of its
own, and their results wait in a second queue. A job that faults ends the worker: the jobs behind it
are lost, while the results before it can still be received. The loop in the background takes its
steps at any time between the calls of the owner.
-/

namespace InlineCache

abbrev Job := Draft → Except Failure Draft

structure Request where
  unitId : Nat
  job : Job

inductive Reply where
  | finished (unitId : Nat) (unit : Finished)
  | failed (unitId : Nat) (error : BuildError)
deriving DecidableEq, Repr

def Reply.unitId : Reply → Nat
  | finished unitId _ => unitId
  | failed unitId _ => unitId

/-- Runs a job on an empty draft; nothing comes of a job that faults. -/
def Request.run (o : Options) (r : Request) : Option Reply :=
  match r.job { options := o } with
  | .ok d =>
    match d.finish with
    | .ok unit => some (.finished r.unitId unit)
    | .error e => some (.failed r.unitId e)
  | .error (.error e) => some (.failed r.unitId e)
  | .error (.fault _) => none

inductive Loop where
  | idle
  | running (r : Request)
  /-- A job faulted: the queue of jobs is closed, and the queue of results is about to be. -/
  | closing
  | gone

namespace Loop

def takesJobs : Loop → Bool
  | idle => true
  | running _ => true
  | closing => false
  | gone => false

def isGone : Loop → Bool
  | gone => true
  | _ => false

end Loop

structure Worker where
  options : Options
  loop : Loop := .idle
  requests : List Request := []
  replies : List Reply := []

namespace Worker

def spawn (o : Options) : Worker := { options := o }

/-- One step of the loop: it takes a job, or is done with the one it has. -/
def step (w : Worker) : Worker :=
  match w.loop with
  | .idle =>
    match w.requests with
    | [] => w
    | r :: rest => { w with loop := .running r, requests := rest }
  | .running r =>
    match r.run w.options with
    | some reply => { w with loop := .idle, replies := w.replies ++ [reply] }
    | none => { w with loop := .closing, requests := [] }
  | .closing => { w with loop := .gone }
  | .gone => w

def submit (w : Worker) (r : Request) : Except BuildError Worker :=
  if w.loop.takesJobs then .ok { w with requests := w.requests ++ [r] } else .error .workerGone

def tryReceive (w : Worker) : Except BuildError (Option Reply) × Worker :=
  match w.replies with
  | reply :: rest => (.ok (some reply), { w with replies := rest })
  | [] => (if w.loop.isGone then .error .workerGone else .ok none, w)

def advance : (n : Nat) → Worker → Worker
  | 0, w => w
  | n + 1, w => if w.replies.isEmpty then advance n w.step else w

/-- Waits for the next result. There is none, now or later, if no job is left. Three steps are
enough: the loop takes a job and sends its result, or closes its two queues after a fault. -/
def receive (w : Worker) : Except BuildError (Option Reply) × Worker :=
  (w.advance 3).tryReceive

end Worker

end InlineCache
