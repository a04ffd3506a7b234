import InlineCache.Key
import InlineCache.Value

/-!
Shapes and the cells that have them. A cell starts with a header of eight bytes, which its shape
determines; from byte 16 on come its inline slots, eight bytes each.
-/

namespace InlineCache

namespace Cell

def shapeOffset : Half := 0#32
def indexingTypeOffset : Half := 4#32
def cellTypeOffset : Half := 5#32
def flagsOffset : Half := 6#32
def slotsOffset : Half := 16#32
def slotSize : Half := 8#32

def stringType : Byte := 2#8
def symbolType : Byte := 3#8

/-- Objects are the cells whose type is this or larger. -/
def objectType : Byte := 0x10#8
def finalObjectType : Byte := 0x11#8

def isDisplacement (n : Int) : Bool := -0x80000000 ≤ n && n < 0x80000000

/-- The displacement of an inline slot from the start of its cell. The slot number is read as a
signed one. -/
def slotDisplacement (slot : Half) : Except Fault Half :=
  let scaled := slot.toInt * slotSize.toInt
  if isDisplacement scaled && isDisplacement (scaled + slotsOffset.toInt) then
    .ok (BitVec.ofInt 32 (scaled + slotsOffset.toInt))
  else .error .overflow

end Cell

structure Shape where
  id : ShapeId
  indexingType : Byte
  cellType : Byte
  flags : Byte
deriving DecidableEq, Repr

namespace Shape

/-- The upper half of the header: the three type bytes and a zero byte. -/
def typeInfo (s : Shape) : Half := 0#8 ++ s.flags ++ s.cellType ++ s.indexingType

def header (s : Shape) : Word := s.typeInfo ++ s.id.raw

end Shape

structure ShapeModel where
  shape? : ShapeId → Option Shape
  slot? : ShapeId → Key → Option Half
  /-- The shape that is reached by adding a property, and the slot that the property gets. -/
  transition? : ShapeId → Key → Option (ShapeId × Half)

namespace ShapeModel

def empty : ShapeModel where
  shape? := fun _ => none
  slot? := fun _ _ => none
  transition? := fun _ _ => none

def setShape (m : ShapeModel) (id : ShapeId) (answer : Option Shape) : ShapeModel :=
  { m with shape? := fun s => if s = id then answer else m.shape? s }

def setSlot (m : ShapeModel) (id : ShapeId) (key : Key) (answer : Option Half) : ShapeModel :=
  { m with slot? := fun s k => if s = id ∧ k = key then answer else m.slot? s k }

def setTransition (m : ShapeModel) (id : ShapeId) (key : Key) (answer : Option (ShapeId × Half)) :
    ShapeModel :=
  { m with transition? := fun s k => if s = id ∧ k = key then answer else m.transition? s k }

end ShapeModel

end InlineCache
