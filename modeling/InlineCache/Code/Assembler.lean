import InlineCache.Code.Fragment

/-!
Code under construction: the instructions placed so far, the first of which stands at the origin.
Branches are named by the position at which they stand. Code comes about step by step: a branch is
put down without a target, its position is kept, and once the target is reached it is linked. A
whole fragment can also be placed at once.
-/

namespace InlineCache

structure Assembler where
  origin : Nat := 0
  code : Array Inst := #[]
deriving DecidableEq, Repr

namespace Assembler

def next (a : Assembler) : Nat := a.origin + a.code.size

def label (a : Assembler) : Except Fault Nat := fitWord a.next

/-- Appends a fragment and hands back the positions of its exits. -/
def place (a : Assembler) (f : Fragment) : Except Fault (Assembler × List Nat) :=
  if f.fits a.next then
    .ok ({ a with code := a.code ++ Fragment.shift a.next f }, Fragment.exitsFrom a.next f)
  else .error .overflow

def index? (a : Assembler) (position : Nat) : Option Nat :=
  if a.origin ≤ position then some (position - a.origin) else none

def inst? (a : Assembler) (position : Nat) : Option Inst :=
  (a.index? position).bind fun i => a.code[i]?

def link (a : Assembler) (position target : Nat) : Except Fault Assembler :=
  match a.index? position, (a.inst? position).bind fun i => i.retarget? target with
  | some i, some linked => .ok { a with code := a.code.setIfInBounds i linked }
  | _, _ => .error (.notABranch position)

def linkAll (a : Assembler) (positions : List Nat) (target : Nat) : Except Fault Assembler :=
  positions.foldlM (fun a position => a.link position target) a

def linkHere (a : Assembler) (positions : List Nat) : Except Fault Assembler := do
  let target ← a.label
  a.linkAll positions target

def unlinked (a : Assembler) : List Nat := Fragment.exitsFrom a.origin a.code.toList

end Assembler

/-- Steps of generation, which add to the code or give branches their targets. -/
abbrev Emit := StateT Assembler (Except Fault)

namespace Emit

def inst (i : Inst) : Emit Unit := modify fun a => { a with code := a.code.push i }

def insts (f : Fragment) : Emit Unit := f.forM inst

def branch (cond : Cond) : Emit Nat := do
  let position ← (← get).label
  inst (.branch cond none)
  return position

def linkHere (jumps : List Nat) : Emit Unit := do
  set (← (← get).linkHere jumps)

end Emit

end InlineCache
