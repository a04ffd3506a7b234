import InlineCache.Emit.SelfCheck
import InlineCache.Site
import InlineCache.StackMap

/-!
What a property access becomes when the shape of the object is known: a direct access to an inline
slot, or a reason to leave it to the runtime.
-/

namespace InlineCache

inductive SlowReason where
  | noShape
  /-- The shape that was seen, or the one that a write leads to, is no longer valid. -/
  | invalidShape
  | missingProperty
  | noTransition
  | missingRegisters
deriving DecidableEq, Repr

inductive Resolution where
  | load (shape : ShapeId) (slot : Half)
  | store (shape : ShapeId) (slot : Half)
  | transition (source target : ShapeId) (slot : Half)
  | present (shape : ShapeId)
  | slowPath (reason : SlowReason)
deriving DecidableEq, Repr

def Resolution.isSpecialized : Resolution → Bool
  | slowPath _ => false
  | _ => true

namespace Slot

def location (object : Gpr) (slot : Half) : Except Fault Mem := do
  return .base object (← Cell.slotDisplacement slot)

/-- Loads a slot. The half that overwrites the object's register goes last. -/
def load (object : Gpr) (slot : Half) (result : ValueRegs) : Except Fault Fragment := do
  let low ← location object slot
  let high := low.displace 4#32
  match result with
  | .packed dst => return [.load64 dst low]
  | .split tag payload =>
      if payload = object then return [.load32 tag high, .load32 payload low]
      else return [.load32 payload low, .load32 tag high]

def store (object : Gpr) (slot : Half) (value : ValueRegs) : Except Fault Fragment := do
  let low ← location object slot
  let high := low.displace 4#32
  match value with
  | .packed src => return [.store64 src low]
  | .split tag payload => return [.store32 payload low, .store32 tag high]

def setTrue : ValueRegs → Fragment
  | .packed dst => [.moveImm dst Packed.trueWord]
  | .split tag payload =>
      [.moveImm tag (Split.booleanTag.setWidth 64), .moveImm payload 1#64]

end Slot

namespace Access

/-- What an access becomes for objects of a shape: a reason to leave it slow, or its resolution
with the code that follows the test of the shape. -/
def specialize (o : Options) (shapes : ShapeModel) (snapshot : Snapshot) (shape : ShapeId)
    (access : Access) : Except Fault (Except SlowReason (Resolution × Fragment)) :=
  let object := snapshot.base.payload
  match access with
  | .read key =>
      match shapes.slot? shape key, snapshot.result? with
      | none, _ => .ok (.error .missingProperty)
      | some _, none => .ok (.error .missingRegisters)
      | some slot, some result => do
          return .ok (.load shape slot, ← Slot.load object slot result)
  | .write key _ .replace =>
      match shapes.slot? shape key, snapshot.value? with
      | none, _ => .ok (.error .missingProperty)
      | some _, none => .ok (.error .missingRegisters)
      | some slot, some value => do
          return .ok (.store shape slot, ← Slot.store object slot value)
  | .write key _ .define =>
      match shapes.transition? shape key with
      | none => .ok (.error .noTransition)
      | some (target, slot) =>
        match shapes.shape? target, snapshot.value? with
        | none, _ => .ok (.error .invalidShape)
        | some _, none => .ok (.error .missingRegisters)
        | some header, some value => do
            let write ← Slot.store object slot value
            return .ok (.transition shape target slot, write.andThen (Header.store o header object))
  | .has key =>
      match shapes.slot? shape key, snapshot.result? with
      | none, _ => .ok (.error .missingProperty)
      | some _, none => .ok (.error .missingRegisters)
      | some _, some result => .ok (.ok (.present shape, Slot.setTrue result))

end Access

end InlineCache
