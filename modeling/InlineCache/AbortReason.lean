/-!
The reasons that a self-check of generated code gives when it aborts.
-/

namespace InlineCache

inductive AbortReason where
  | isNotInt32
  | isNotBoxedInt32
  | isNotBoxedNumber
  | isNotBoxedDouble
  | isNotCell
  | numberTagNotInPlace
  | tagMaskNotInPlace
  | callFrameMisaligned
  | isNotNull
  | insaneArgumentCount
  | uncaughtExceptionAfterCall
  | shapeIsValid
  | indexingTypeIsValid
  | cellTypeIsValid
  | flagsAreValid
deriving DecidableEq, Repr

namespace AbortReason

def all : List AbortReason :=
  [isNotInt32, isNotBoxedInt32, isNotBoxedNumber, isNotBoxedDouble, isNotCell, numberTagNotInPlace,
    tagMaskNotInPlace, callFrameMisaligned, isNotNull, insaneArgumentCount,
    uncaughtExceptionAfterCall, shapeIsValid, indexingTypeIsValid, cellTypeIsValid, flagsAreValid]

def code : AbortReason → Nat
  | isNotInt32 => 1
  | isNotBoxedInt32 => 2
  | isNotBoxedNumber => 3
  | isNotBoxedDouble => 4
  | isNotCell => 5
  | numberTagNotInPlace => 6
  | tagMaskNotInPlace => 7
  | callFrameMisaligned => 8
  | isNotNull => 9
  | insaneArgumentCount => 10
  | uncaughtExceptionAfterCall => 11
  | shapeIsValid => 12
  | indexingTypeIsValid => 13
  | cellTypeIsValid => 14
  | flagsAreValid => 15

def ofCode? (n : Nat) : Option AbortReason := all.find? fun r => r.code == n

def title : AbortReason → String
  | isNotInt32 => "IsNotInt32"
  | isNotBoxedInt32 => "IsNotJSInt32"
  | isNotBoxedNumber => "IsNotJSNumber"
  | isNotBoxedDouble => "IsNotJSDouble"
  | isNotCell => "IsNotCell"
  | numberTagNotInPlace => "TagTypeNumberNotInPlace"
  | tagMaskNotInPlace => "TagMaskNotInPlace"
  | callFrameMisaligned => "CallFrameMisaligned"
  | isNotNull => "IsNotNull"
  | insaneArgumentCount => "InsaneArgumentCount"
  | uncaughtExceptionAfterCall => "UncaughtExceptionAfterCall"
  | shapeIsValid => "StructureIdIsValid"
  | indexingTypeIsValid => "IndexingTypeIsValid"
  | cellTypeIsValid => "TypeInfoIsValid"
  | flagsAreValid => "TypeInfoInlineTypeFlagsAreValid"

def name (r : AbortReason) : String := s!"{r.title} (#{r.code})"

end AbortReason

end InlineCache
