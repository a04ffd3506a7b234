import InlineCache.Shape

/-!
The types that inference gives to values. `Ty.admits` says which values a type covers. `Ty.join` is
the type given to what had one of two types; it takes every cell of a named shape for an object.
-/

namespace InlineCache

inductive Ty where
  | bottom
  | boolean
  /-- Null or undefined. -/
  | other
  | int32
  | number
  | string
  | object
  | objectOrOther
  | objectWithShape (s : ShapeId)
  | objectWithShapeOrOther (s : ShapeId)
  | top
deriving DecidableEq, Repr

namespace Ty

def kindName : Ty → String
  | bottom => "Bottom"
  | boolean => "Boolean"
  | other => "Other"
  | int32 => "Int32"
  | number => "Number"
  | string => "String"
  | object => "Object"
  | objectOrOther => "ObjectOrOther"
  | objectWithShape _ => "ObjectWithStructure"
  | objectWithShapeOrOther _ => "ObjectWithStructureOrOther"
  | top => "Top"

def shape? : Ty → Option ShapeId
  | objectWithShape s => some s
  | objectWithShapeOrOther s => some s
  | _ => none

def name (t : Ty) : String :=
  match t.shape? with
  | some s => t.kindName ++ "(" ++ s.name ++ ")"
  | none => t.kindName

inductive Objects where
  | none
  | some (s : ShapeId)
  | all
deriving DecidableEq, Repr

def Objects.join : Objects → Objects → Objects
  | .none, b => b
  | a, .none => a
  | .some s, .some t => if s = t then .some s else .all
  | _, _ => .all

def ofObjects : (other : Bool) → Objects → Ty
  | false, .none => bottom
  | true, .none => Ty.other
  | false, .all => object
  | true, .all => objectOrOther
  | false, .some s => objectWithShape s
  | true, .some s => objectWithShapeOrOther s

def objects? : Ty → Option (Bool × Objects)
  | other => some (true, .none)
  | object => some (false, .all)
  | objectOrOther => some (true, .all)
  | objectWithShape s => some (false, .some s)
  | objectWithShapeOrOther s => some (true, .some s)
  | _ => none

/-- The type of what has one type or the other. Int32 widens to number, objects and "other" keep
what is known of both, and all else that differs goes to the top. -/
def join (a b : Ty) : Ty :=
  if a = b then a
  else match a, b with
    | bottom, b => b
    | a, bottom => a
    | int32, number => number
    | number, int32 => number
    | a, b =>
      match a.objects?, b.objects? with
      | some (p, x), some (q, y) => ofObjects (p || q) (x.join y)
      | _, _ => top

def isObject : Value → Bool
  | .cell _ _ cellType => Cell.objectType ≤ cellType
  | _ => false

def hasShape (s : ShapeId) : Value → Bool
  | .cell _ shape _ => shape = s
  | _ => false

def admits : Ty → Value → Bool
  | bottom, _ => false
  | boolean, v => match v with
    | .boolean _ => true
    | _ => false
  | other, v => v.isOther
  | int32, v => match v with
    | .int32 _ => true
    | _ => false
  | number, v => match v with
    | .int32 _ => true
    | .double _ => true
    | _ => false
  | string, v => match v with
    | .cell _ _ cellType => cellType = Cell.stringType
    | _ => false
  | object, v => isObject v
  | objectOrOther, v => v.isOther || isObject v
  | objectWithShape s, v => hasShape s v
  | objectWithShapeOrOther s, v => v.isOther || hasShape s v
  | top, _ => true

end Ty

end InlineCache
