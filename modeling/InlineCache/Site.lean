import InlineCache.Key
import InlineCache.SlowCall

/-!
Inline cache sites. A site is a property access in the source program; each time code is generated
for it, it gets a region that can be patched when the code is linked, and later a slow path that
returns behind that region.
-/

namespace InlineCache

inductive Access where
  | read (key : Key)
  | write (key : Key) (mode : Strictness) (kind : WriteKind)
  | has (key : Key)
deriving DecidableEq, Repr

namespace Access

def key : Access → Key
  | read key => key
  | write key _ _ => key
  | has key => key

def op : Access → RuntimeOp
  | read _ => .read
  | write _ mode kind => .write mode kind
  | has _ => .has

end Access

structure Region where
  start : Nat
  length : Nat
deriving DecidableEq, Repr

def Region.stop (r : Region) : Nat := r.start + r.length

/-- A patchable region, with the jump to the slow path that fills it until it is patched. -/
structure Patch where
  entry : Nat
  region : Region
  placeholder : Nat
  /-- Where the fast and the slow path meet again. -/
  done : Nat
deriving DecidableEq, Repr

def Patch.length : Nat := 16

structure Site where
  stackMap : StackMapId
  callSite : CallSite
  access : Access
  patches : List Patch := []
  /-- The jumps that leave the slow paths, the `i`-th of them for the `i`-th patch. -/
  exits : List Nat := []
deriving DecidableEq, Repr

def Site.slowCall (s : Site) : SlowCall := ⟨s.access.op, s.stackMap, s.callSite⟩

end InlineCache
