import InlineCache.Emit.ExceptionCheck
import InlineCache.Emit.Guard
import InlineCache.Linked

/-!
The names under which requests and listings speak of conditions, modes, operations and types.
-/

namespace InlineCache

class Named (α : Type) where
  names : List (String × α)

namespace Named

def ofName? {α : Type} [Named α] (name : String) : Option α :=
  (names : List (String × α)).lookup name

def name {α : Type} [Named α] [BEq α] (a : α) : String :=
  ((names.find? fun entry => entry.2 == a).map Prod.fst).getD ""

instance : Named Relation where
  names := [("Equal", .equal), ("NotEqual", .notEqual), ("Above", .above),
    ("AboveOrEqual", .aboveOrEqual), ("Below", .below), ("BelowOrEqual", .belowOrEqual),
    ("GreaterThan", .greaterThan), ("GreaterThanOrEqual", .greaterThanOrEqual),
    ("LessThan", .lessThan), ("LessThanOrEqual", .lessThanOrEqual)]

instance : Named MaskTest where
  names := [("Zero", .zero), ("NonZero", .nonZero)]

instance : Named DoubleTest where
  names := [("Equal", .equal), ("NotEqualOrUnordered", .notEqualOrUnordered)]

instance : Named Representation where
  names := [("Packed", .packed), ("Split", .split)]

instance : Named TagRegisters where
  names := [("Have", .reserved), ("DontHave", .absent)]

instance : Named Pending where
  names := [("Normal", .some), ("Inverted", .none)]

instance : Named Reach where
  names := [("Near", .near), ("Far", .far)]

instance : Named Strictness where
  names := [("Strict", .strict), ("Sloppy", .sloppy)]

instance : Named WriteKind where
  names := [("Define", .define), ("Replace", .replace)]

instance : Named RuntimeOp where
  names := [("GetById", .read), ("PutByIdStrict", .write .strict .replace),
    ("PutByIdSloppy", .write .sloppy .replace), ("PutByIdDirectStrict", .write .strict .define),
    ("PutByIdDirectSloppy", .write .sloppy .define), ("In", .has)]

instance : Named Ty where
  names := [.bottom, .boolean, .other, .int32, .number, .string, .object, .objectOrOther, .top].map
    fun t : Ty => (t.kindName, t)

instance : Named SlowReason where
  names := [("NoStructure", .noShape), ("InvalidStructure", .invalidShape),
    ("MissingProperty", .missingProperty), ("NoTransition", .noTransition),
    ("MissingRegisters", .missingRegisters)]

end Named

end InlineCache
