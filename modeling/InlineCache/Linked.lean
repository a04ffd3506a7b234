import InlineCache.Draft
import InlineCache.Resolution

/-!
Linking of finished units. The exits of the slow paths get their targets, and each patchable region
becomes a test of the shape that was seen, followed by the access itself. Where the access
cannot be resolved the region stays as it is and always takes the slow path.
-/

namespace InlineCache

structure Outcome where
  site : Nat
  patch : Nat
  region : Region
  resolution : Resolution
deriving DecidableEq, Repr

structure Linked where
  code : Array Inst
  /-- One outcome per patch, by site and then by patch. -/
  report : List Outcome
deriving DecidableEq, Repr

def Linked.unresolved (l : Linked) : Nat := l.code.countP Inst.isUnlinked

namespace Patch

/-- The new contents of a region: the test of the shape, which leaves to the slow path, the access,
and then nothing up to the end of the region. -/
def specialize (o : Options) (shapes : ShapeModel) (snapshot : Snapshot) (access : Access)
    (p : Patch) (slowPath : Nat) :
    Except Failure (Except SlowReason (Resolution × Array Inst)) := do
  match snapshot.shape? with
  | none => return .error .noShape
  | some shape =>
    if (shapes.shape? shape).isNone then return .error .invalidShape
    let guard ← Guard.forTy o snapshot.base snapshot.scratch (.objectWithShape shape)
    let start : Assembler := { origin := p.region.start }
    let (guarded, exits) ← start.place guard
    let guarded ← guarded.linkAll exits slowPath
    match ← access.specialize o shapes snapshot shape with
    | .error reason => return .error reason
    | .ok (resolution, rest) =>
      let (whole, _) ← guarded.place rest
      if p.region.length < whole.code.size then
        throw (.error (.regionOverflow whole.code.size p.region.length))
      let padding := Array.replicate (p.region.length - whole.code.size) Inst.nop
      return .ok (resolution, whole.code ++ padding)

def install (code : Array Inst) (r : Region) (contents : Array Inst) :
    Except Fault (Array Inst) := do
  let stop ← fitWord r.stop
  if code.size < stop then throw .outOfBounds
  return code.extract 0 r.start ++ contents ++ code.extract stop code.size

def link (o : Options) (shapes : ShapeModel) (snapshot : Snapshot) (access : Access)
    (code : Array Inst) (p : Patch) : Except Failure (Array Inst × Resolution) := do
  match (code[p.placeholder]?).bind Inst.target? with
  | none => throw (.error (.unlinkedJump p.placeholder))
  | some slowPath =>
    match ← p.specialize o shapes snapshot access slowPath with
    | .ok (resolution, contents) => return (← install code p.region contents, resolution)
    | .error reason => return (code, .slowPath reason)

end Patch

namespace Site

def linkExit (code : Array Inst) (p : Patch) (exit : Nat) : Except BuildError (Array Inst) :=
  match (code[exit]?).bind fun i => i.retarget? p.done with
  | some linked => .ok (code.setIfInBounds exit linked)
  | none => .error (.unlinkedJump exit)

def linkPatches (o : Options) (shapes : ShapeModel) (snapshot : Snapshot) (access : Access)
    (site : Nat) :
    (index : Nat) → List Patch → Array Inst → Except Failure (Array Inst × List Outcome)
  | _, [], code => .ok (code, [])
  | index, p :: rest, code => do
      let (code, resolution) ← p.link o shapes snapshot access code
      let (code, report) ← linkPatches o shapes snapshot access site (index + 1) rest code
      return (code, ⟨site, index, p.region, resolution⟩ :: report)

/-- Links the site with the given index: its exits first, then its regions. -/
def link (o : Options) (maps : StackMaps) (shapes : ShapeModel) (index : Nat) (s : Site)
    (code : Array Inst) : Except Failure (Array Inst × List Outcome) := do
  if s.patches.length ≠ s.exits.length then
    throw (.error (.unbalancedExits index s.patches.length s.exits.length))
  let code ← ((s.patches.zip s.exits).foldlM (fun code (p, exit) => linkExit code p exit) code :
    Except BuildError (Array Inst))
  if s.patches.isEmpty then return (code, [])
  match maps s.stackMap with
  | none => throw (.error (.missingStackMap s.stackMap))
  | some snapshot => linkPatches o shapes snapshot s.access index 0 s.patches code

end Site

namespace Finished

def linkSites (o : Options) (maps : StackMaps) (shapes : ShapeModel) :
    (index : Nat) → List Site → Array Inst → Except Failure (Array Inst × List Outcome)
  | _, [], code => .ok (code, [])
  | index, s :: rest, code => do
      let (code, report) ← s.link o maps shapes index code
      let (code, more) ← linkSites o maps shapes (index + 1) rest code
      return (code, report ++ more)

def link (maps : StackMaps) (shapes : ShapeModel) (u : Finished) : Except Failure Linked := do
  let (code, report) ← linkSites u.options maps shapes 0 u.sites u.code
  return ⟨code, report⟩

end Finished

end InlineCache
