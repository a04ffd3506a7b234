import InlineCache.BuildError
import InlineCache.Code.Assembler
import InlineCache.Options
import InlineCache.Site

/-!
A unit of code while it is generated, and the finished unit that comes of it. A site's patchable
region begins with a jump to its slow path; the slow path calls the runtime and leaves through a
jump that only linking gives a target. Everything else has to be linked before the unit is finished.
-/

namespace InlineCache

structure Draft where
  options : Options
  assembler : Assembler := {}
  /-- The sites in the order of their creation; a site is named by its index. -/
  sites : List Site := []
deriving DecidableEq, Repr

structure Finished where
  options : Options
  code : Array Inst
  sites : List Site
deriving DecidableEq, Repr

namespace Draft

def place (d : Draft) (f : Fragment) : Except Fault (Draft × List Nat) := do
  let (assembler, exits) ← d.assembler.place f
  return ({ d with assembler }, exits)

def emit {α : Type} (d : Draft) (steps : Emit α) : Except Fault (Draft × α) := do
  let (answer, assembler) ← steps.run d.assembler
  return ({ d with assembler }, answer)

def site (d : Draft) (id : Nat) : Except Fault Site :=
  match d.sites[id]? with
  | some s => .ok s
  | none => .error .outOfBounds

def addSite (d : Draft) (s : Site) : Except Fault (Draft × Nat) :=
  if d.options.selfChecks && s.stackMap.isUnset then .error .siteWithoutStackMap
  else .ok ({ d with sites := d.sites ++ [s] }, d.sites.length)

def updateSite (d : Draft) (id : Nat) (change : Site → Site) : Except Fault Draft := do
  let s ← d.site id
  return { d with sites := d.sites.set id (change s) }

def addPatch (d : Draft) (id : Nat) (p : Patch) : Except Fault Draft :=
  d.updateSite id fun s => { s with patches := s.patches ++ [p] }

def addExit (d : Draft) (id : Nat) (exit : Nat) : Except Fault Draft :=
  d.updateSite id fun s => { s with exits := s.exits ++ [exit] }

def emitRegion : Emit Patch := do
  let start ← (← get).label
  let placeholder ← Emit.branch .alwaysPatchable
  let stop ← fitWord (start + Patch.length)
  Emit.insts (List.replicate (stop - (← get).next) .nop)
  return ⟨start, ⟨start, Patch.length⟩, placeholder, ← (← get).label⟩

def emitPatch (d : Draft) (id : Nat) : Except Fault (Draft × Patch) := do
  let (d, patch) ← d.emit emitRegion
  return (← d.addPatch id patch, patch)

def emitReturn (call : SlowCall) (p : Patch) : Emit Nat := do
  Emit.linkHere [p.placeholder]
  Emit.inst (.callSlowPath call)
  Emit.branch .always

def emitSlowPath (d : Draft) (id : Nat) (call : SlowCall) (p : Patch) : Except Fault Draft := do
  let (d, exit) ← d.emit (emitReturn call p)
  d.addExit id exit

def emitSlowPaths (d : Draft) (id : Nat) : Except Failure (Draft × Nat) := do
  let s ← d.site id
  if s.patches.length < s.exits.length then
    throw (.error (.unbalancedExits id s.patches.length s.exits.length))
  let pending := s.patches.drop s.exits.length
  let d ← (pending.foldlM (fun d p => d.emitSlowPath id s.slowCall p) d : Except Fault Draft)
  return (d, pending.length)

def exits (d : Draft) : List Nat := d.sites.flatMap Site.exits

/-- Ends generation. The first branch without a target that is no slow-path exit is an error. -/
def finish (d : Draft) : Except BuildError Finished :=
  match d.assembler.unlinked.find? fun position => !d.exits.contains position with
  | some position => .error (.unlinkedJump position)
  | none => .ok ⟨d.options, d.assembler.code, d.sites⟩

end Draft

end InlineCache
