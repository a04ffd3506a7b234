import InlineCache.Fault
import InlineCache.SlowCall
import InlineCache.Value

/-!
Stack maps: where the values of a site are when its code runs, and what was seen there before.
-/

namespace InlineCache

structure Snapshot where
  base : ValueRegs
  /-- A register that patched code may overwrite. -/
  scratch : Gpr
  value? : Option ValueRegs := none
  result? : Option ValueRegs := none
  shape? : Option ShapeId := none
deriving DecidableEq, Repr

abbrev StackMaps := StackMapId → Option Snapshot

structure StackMapTable where
  nextId : StackMapId
  recorded : StackMaps

namespace StackMapTable

def empty : StackMapTable := ⟨⟨0#32⟩, fun _ => none⟩

def issue (t : StackMapTable) : Except Fault (StackMapId × StackMapTable) :=
  if t.nextId.isUnset then .error .stackMapIdsExhausted
  else .ok (t.nextId, { t with nextId := ⟨t.nextId.raw + 1⟩ })

def record (t : StackMapTable) (id : StackMapId) (s : Snapshot) : StackMapTable :=
  { t with recorded := fun i => if i = id then some s else t.recorded i }

end StackMapTable

end InlineCache
