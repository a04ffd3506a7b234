import InlineCache.Fault

/-!
Calls from generated code into the runtime, for property accesses that have no fast path.
-/

namespace InlineCache

structure StackMapId where
  raw : Half
deriving DecidableEq, Repr

namespace StackMapId

def unset : StackMapId := ⟨0xFFFFFFFF#32⟩

def isUnset (id : StackMapId) : Bool := id = unset

def name (id : StackMapId) : String :=
  if id.isUnset then "stackmap#unset" else s!"stackmap#{id.raw.toNat}"

end StackMapId

structure CallSite where
  raw : Half
deriving DecidableEq, Repr

inductive Strictness where
  | strict
  | sloppy
deriving DecidableEq, Repr

inductive WriteKind where
  | define
  | replace
deriving DecidableEq, Repr

inductive RuntimeOp where
  | read
  | write (mode : Strictness) (kind : WriteKind)
  | has
deriving DecidableEq, Repr

structure SlowCall where
  op : RuntimeOp
  stackMap : StackMapId
  callSite : CallSite
deriving DecidableEq, Repr

end InlineCache
