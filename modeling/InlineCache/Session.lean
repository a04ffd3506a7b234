import InlineCache.Linked
import InlineCache.Machine.Run
import InlineCache.Emit.Piece
import InlineCache.Worker

/-!
A session with the compiler: one unit at a time is generated, finished and linked against the stack
maps and the shapes that the session knows, and its code can be run on the session's machine. Units
can also come from a worker in the background.
-/

namespace InlineCache

structure Session where
  options : Options
  layout : RuntimeLayout
  keys : KeyTable := {}
  draft : Draft := { options }
  maps : StackMapTable := .empty
  shapes : ShapeModel := .empty
  finished? : Option Finished := none
  linked? : Option Linked := none
  machine : Machine := .withTags
  worker? : Option Worker := none

namespace Session

def intern (s : Session) (name : String) : Key × Session :=
  let (key, keys) := s.keys.intern name
  (key, { s with keys })

def place (s : Session) (f : Fragment) : Except Fault (List Nat × Session) := do
  let (draft, exits) ← s.draft.place f
  return (exits, { s with draft })

def emit {α : Type} (s : Session) (steps : Emit α) : Except Fault (α × Session) := do
  let (draft, answer) ← s.draft.emit steps
  return (answer, { s with draft })

def setAssembler (s : Session) (assembler : Assembler) : Session :=
  { s with draft := { s.draft with assembler } }

def addSite (s : Session) (stackMap : StackMapId) (callSite : CallSite) (name : String)
    (access : Key → Access) : Except Fault (Nat × Session) := do
  let (key, s) := s.intern name
  let (draft, id) ← s.draft.addSite { stackMap, callSite, access := access key }
  return (id, { s with draft })

/-- Finishes the draft. A new one is begun in any case. -/
def finish (s : Session) : Except BuildError Finished × Session :=
  let rest := { s with draft := { options := s.options } }
  match s.draft.finish with
  | .ok unit => (.ok unit, { rest with finished? := some unit })
  | .error e => (.error e, rest)

/-- Links the finished unit, and says whether the result is the same as the last one. -/
def link (s : Session) (unit : Finished) : Except Failure (Linked × Bool × Session) := do
  let linked ← unit.link s.maps.recorded s.shapes
  return (linked, s.linked? == some linked, { s with linked? := some linked })

def job (s : Session) (generate : Session → Except Failure Session) : Job := fun draft => do
  let after ← generate { options := s.options, layout := s.layout, keys := s.keys, draft }
  return after.draft

def startWorker (s : Session) : Session := { s with worker? := some (.spawn s.options) }

/-- The next result of the worker, if one is due. A unit that comes with it counts as finished. -/
def receive (s : Session) (w : Worker) : Except BuildError (Option Reply) × Session :=
  let (reply, w) := w.receive
  let s := { s with worker? := some w }
  match reply with
  | .ok (some (.finished _ unit)) => (reply, { s with finished? := some unit })
  | _ => (reply, s)

def run (s : Session) (code : Array Inst) (entry : Nat) : Run × Session :=
  let (r, machine) := s.machine.run code entry
  (r, { s with machine })

end Session

end InlineCache
