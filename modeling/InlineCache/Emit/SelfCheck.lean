import InlineCache.Emit.ExceptionCheck
import InlineCache.Emit.Guard

/-!
Facts that generated code checks about itself. A check is a test whose exits skip an abort. Without
self-checks nothing is generated.
-/

namespace InlineCache

inductive SelfCheck where
  | int32 (register : Gpr)
  | boxedInt32 (regs : ValueRegs)
  | boxedNumber (regs : ValueRegs)
  | boxedDouble (regs : ValueRegs)
  | cell (regs : ValueRegs)
  | tagsInPlace
  | callFrameAligned
  | zero (register : Gpr)
  /-- The argument count in the call frame is below a limit that no call reaches. -/
  | argumentCountSane
  | noException (layout : RuntimeLayout)
deriving DecidableEq, Repr

namespace CallFrame

def alignmentMask : Word := 7#64
def argumentCountOffset : Half := 32#32
def argumentCountLimit : Half := 10000000#32

end CallFrame

namespace SelfCheck

/-- What shows that a fact holds: that one of some conditions does, or one without another. -/
inductive Evidence where
  | any (cond : Cond) (others : List Cond := [])
  | butNot (cond excluded : Cond)
deriving DecidableEq, Repr

namespace Evidence

/-- Leaves if the fact holds. An excluded condition leads to what follows. -/
def code : Evidence → Fragment
  | any cond others => (cond :: others).map fun cond => .branch cond none
  | butNot cond excluded => [.branch excluded (some 2), .branch cond none]

def emit : Evidence → Emit (List Nat)
  | any cond others => (cond :: others).mapM Emit.branch
  | butNot cond excluded => do
      let fails ← Emit.branch excluded
      let holds ← Emit.branch cond
      Emit.linkHere [fails]
      return [holds]

end Evidence

def tests (o : Options) : SelfCheck → List (AbortReason × Evidence)
  | int32 register =>
      match o.representation with
      | .packed => [(.isNotInt32,
          .any (.compare64 .belowOrEqual (.reg register) (Guard.half (BitVec.allOnes 32))))]
      | .split => []
  | boxedInt32 (.packed value) =>
      [(.isNotBoxedInt32, .any (.compare64 .aboveOrEqual (.reg value) o.numberTag))]
  | boxedInt32 (.split tag _) =>
      [(.isNotBoxedInt32, .any (.compare32 .equal (.reg tag) (Guard.half Split.int32Tag)))]
  | boxedNumber (.packed value) =>
      [(.isNotBoxedNumber, .any (.mask64 .nonZero (.reg value) o.numberTag))]
  | boxedNumber (.split tag _) =>
      [(.isNotBoxedNumber, .any (.compare32 .equal (.reg tag) (Guard.half Split.int32Tag))
        [.compare32 .below (.reg tag) (Guard.half Split.lowestTag)])]
  | boxedDouble (.packed value) =>
      [(.isNotBoxedDouble, .butNot (.mask64 .nonZero (.reg value) o.numberTag)
        (.compare64 .aboveOrEqual (.reg value) o.numberTag))]
  | boxedDouble (.split tag _) =>
      [(.isNotBoxedDouble, .any (.compare32 .below (.reg tag) (Guard.half Split.lowestTag)))]
  | cell regs => [(.isNotCell, .any ((Guard.isCell regs).test o).cond)]
  | tagsInPlace =>
      match o.representation, o.tagRegisters with
      | .packed, .reserved =>
          [(.numberTagNotInPlace,
              .any (.compare64 .equal (.reg .numberTag) (.imm Packed.numberTag))),
            (.tagMaskNotInPlace, .any (.compare64 .equal (.reg .tagMask) (.imm Packed.tagMask)))]
      | _, _ => []
  | callFrameAligned => [(.callFrameMisaligned,
      .any (.mask64 .zero (.reg .callFrame) (.imm CallFrame.alignmentMask)))]
  | zero register =>
      [(.isNotNull, .any (.mask64 .zero (.reg register) (.imm (BitVec.allOnes 64))))]
  | argumentCountSane => [(.insaneArgumentCount,
      .any (.compare32 .below (.mem (.base .callFrame CallFrame.argumentCountOffset))
        (Guard.half CallFrame.argumentCountLimit)))]
  | noException layout =>
      [(.uncaughtExceptionAfterCall, .any (ExceptionCheck.cond o layout .none))]

/-- Aborts for the reason given unless the test leaves through an exit. -/
def abortUnless (o : Options) (reason : AbortReason) (test : Fragment) : Fragment :=
  if o.selfChecks then test.skipping [.abort reason] else []

def emitUnless (o : Options) (reason : AbortReason) (test : Emit (List Nat)) : Emit Unit := do
  if o.selfChecks then
    let holds ← test
    Emit.inst (.abort reason)
    Emit.linkHere holds

def testAll (o : Options) : List (AbortReason × Evidence) → Fragment
  | [] => []
  | (reason, evidence) :: rest => (abortUnless o reason evidence.code).andThen (testAll o rest)

def emitTests (o : Options) (tests : List (AbortReason × Evidence)) : Emit Unit :=
  tests.forM fun (reason, evidence) => emitUnless o reason evidence.emit

def code (o : Options) (c : SelfCheck) : Fragment := testAll o (c.tests o)

def emit (o : Options) (c : SelfCheck) : Emit Unit := emitTests o (c.tests o)

end SelfCheck

/-!
The header of a cell. The packed representation writes it in one store and, with self-checks, reads
every field back; the split representation writes the two halves.
-/

namespace Header

def tests (s : Shape) (dest : Gpr) : List (AbortReason × SelfCheck.Evidence) :=
  [(.shapeIsValid,
      .any (.compare32 .equal (.mem (.base dest Cell.shapeOffset)) (Guard.half s.id.raw))),
    (.indexingTypeIsValid,
      .any (.compare8 .equal (.base dest Cell.indexingTypeOffset) s.indexingType)),
    (.cellTypeIsValid, .any (.compare8 .equal (.base dest Cell.cellTypeOffset) s.cellType)),
    (.flagsAreValid, .any (.compare8 .equal (.base dest Cell.flagsOffset) s.flags))]

def halves (s : Shape) (dest : Gpr) : Fragment :=
  [.store32Imm s.typeInfo (.base dest Cell.indexingTypeOffset),
    .store32Imm s.id.raw (.base dest Cell.shapeOffset)]

def store (o : Options) (s : Shape) (dest : Gpr) : Fragment :=
  match o.representation with
  | .packed => Fragment.andThen [.store64Imm s.header (.base dest Cell.shapeOffset)]
      (SelfCheck.testAll o (tests s dest))
  | .split => halves s dest

def emit (o : Options) (s : Shape) (dest : Gpr) : Emit Unit :=
  match o.representation with
  | .packed => do
      Emit.inst (.store64Imm s.header (.base dest Cell.shapeOffset))
      SelfCheck.emitTests o (tests s dest)
  | .split => Emit.insts (halves s dest)

end Header

end InlineCache
