import InlineCache.Register

/-!
Dynamic values and their two representations in registers and slots.

In the *packed* representation a value is one word: integers carry all sixteen top bits, doubles are
moved up by `2 ^ 48` so that they carry some but not all of them, and cells are plain addresses. In
the *split* representation a value is a tag and a payload of 32 bits each; a double is its own high
and low half, and the tags of everything else lie above the high half of any double that is kept.
-/

namespace InlineCache

structure ShapeId where
  raw : Half
deriving DecidableEq, Repr

def ShapeId.name (s : ShapeId) : String := s!"S{s.raw.toNat}"

/-- A dynamic value. A double is given by its bits, a cell with what its header says. -/
inductive Value where
  | int32 (n : Half)
  | double (bits : Word)
  | boolean (b : Bool)
  | null
  | undefined
  | cell (address : Word) (shape : ShapeId) (cellType : Byte)
deriving DecidableEq, Repr

inductive Representation where
  | packed
  | split
deriving DecidableEq, Repr

/-- Whether packed tests may read the tag constants from reserved registers. -/
inductive TagRegisters where
  | reserved
  | absent
deriving DecidableEq, Repr

inductive ValueRegs where
  | packed (value : Gpr)
  | split (tag payload : Gpr)
deriving DecidableEq, Repr

namespace ValueRegs

def payload : ValueRegs → Gpr
  | packed value => value
  | split _ payload => payload

def tag? : ValueRegs → Option Gpr
  | packed _ => none
  | split tag _ => some tag

def representation : ValueRegs → Representation
  | packed _ => .packed
  | split _ _ => .split

end ValueRegs

namespace Packed

/-- Set in full in integers, in part in doubles, not at all in anything else. -/
def numberTag : Word := 0xFFFF000000000000#64
def otherBit : Word := 0x2#64
def booleanBit : Word := 0x4#64
def undefinedBit : Word := 0x8#64

/-- No cell has any of these bits, and everything else has one. -/
def tagMask : Word := numberTag ||| otherBit
def doubleOffset : Word := 0x1000000000000#64
def falseWord : Word := otherBit ||| booleanBit
def trueWord : Word := falseWord ||| 1#64
def nullWord : Word := otherBit
def undefinedWord : Word := otherBit ||| undefinedBit

end Packed

namespace Split

def int32Tag : Half := 0xFFFFFFFF#32
def booleanTag : Half := 0xFFFFFFFE#32
def nullTag : Half := 0xFFFFFFFD#32
def undefinedTag : Half := 0xFFFFFFFC#32
def cellTag : Half := 0xFFFFFFFB#32
def emptyTag : Half := 0xFFFFFFFA#32
def deletedTag : Half := 0xFFFFFFF9#32

/-- Every tag is at least this; the high half of a double is below it. -/
def lowestTag : Half := deletedTag

end Split

def pureNaN : Word := 0x7FF8000000000000#64

namespace Value

def isOther : Value → Bool
  | null => true
  | undefined => true
  | _ => false

def packedWord : Value → Word
  | int32 n => Packed.numberTag ||| n.setWidth 64
  | double bits => bits + Packed.doubleOffset
  | boolean false => Packed.falseWord
  | boolean true => Packed.trueWord
  | null => Packed.nullWord
  | undefined => Packed.undefinedWord
  | cell address _ _ => address

def splitTag : Value → Half
  | int32 _ => Split.int32Tag
  | double bits => bits.extractLsb' 32 32
  | boolean _ => Split.booleanTag
  | null => Split.nullTag
  | undefined => Split.undefinedTag
  | cell _ _ _ => Split.cellTag

def splitPayload : Value → Half
  | int32 n => n
  | double bits => bits.setWidth 32
  | boolean b => if b then 1#32 else 0#32
  | null => 0#32
  | undefined => 0#32
  | cell address _ _ => address.setWidth 32

/-- The eight bytes of the value in a slot, as one word: the packed word, or the tag above the
payload. -/
def slotWord (v : Value) : Representation → Word
  | .packed => v.packedWord
  | .split => v.splitTag ++ v.splitPayload

end Value

end InlineCache
