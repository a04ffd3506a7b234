import InlineCache.Code.Assembler
import InlineCache.Options
import InlineCache.Ty

/-!
Code that tests the type of a value. A guard leaves through an exit when its test says so and falls
through otherwise; the guard of a type leaves exactly when the type does not admit the value.

In the guards of types that allow null and undefined, the test for those two comes first and skips
the tests of the object.
-/

namespace InlineCache

/-- The tests that guards are made of, named for what makes them leave. The register `temp` may be
overwritten; the tests named for a `cell` look into it and need to know that it is one. -/
inductive Guard where
  | notInt32 (regs : ValueRegs)
  | notNumber (regs : ValueRegs) (temp : Gpr)
  | notCell (regs : ValueRegs)
  | isCell (regs : ValueRegs)
  | isOther (regs : ValueRegs) (temp : Gpr)
  | notOther (regs : ValueRegs) (temp : Gpr)
  | notBoolean (regs : ValueRegs) (temp : Gpr)
  | notString (cell : Gpr)
  | notObject (cell : Gpr)
  | shape (relation : Relation) (cell : Gpr) (s : ShapeId)
deriving DecidableEq, Repr

namespace Options

def numberTag (o : Options) : Operand :=
  match o.tagRegisters with
  | .reserved => .reg .numberTag
  | .absent => .imm Packed.numberTag

def tagMask (o : Options) : Operand :=
  match o.tagRegisters with
  | .reserved => .reg .tagMask
  | .absent => .imm Packed.tagMask

end Options

namespace Guard

def half (h : Half) : Operand := .imm (h.setWidth 64)

structure Test where
  setup : Fragment := []
  cond : Cond
  straight : setup.all (fun i => !i.isBranch) = true := by rfl

namespace Test

def code (t : Test) : Fragment := t.setup ++ [.branch t.cond none]

def emit (t : Test) : Emit Nat := do
  Emit.insts t.setup
  Emit.branch t.cond

end Test

/-- Compares null, or what becomes null when undefined is turned into it. -/
def other (relation : Relation) (temp : Gpr) : ValueRegs → Test
  | .packed value =>
      { setup := [.move temp value, .and64 temp (~~~Packed.undefinedBit)]
        cond := .compare64 relation (.reg temp) (.imm Packed.nullWord) }
  | .split tag _ =>
      { setup := [.move temp tag, .or32 temp 1#32]
        cond := .compare32 relation (.reg temp) (half Split.nullTag) }

def test (o : Options) : Guard → Test
  | notInt32 (.packed value) => { cond := .compare64 .below (.reg value) o.numberTag }
  | notInt32 (.split tag _) => { cond := .compare32 .notEqual (.reg tag) (half Split.int32Tag) }
  | notNumber (.packed value) _ => { cond := .mask64 .zero (.reg value) o.numberTag }
  | notNumber (.split tag _) temp =>
      -- The tag of integers wraps to zero, below the tags of doubles.
      { setup := [.add32 temp tag 1#32]
        cond := .compare32 .aboveOrEqual (.reg temp) (half (Split.lowestTag + 1)) }
  | notCell (.packed value) => { cond := .mask64 .nonZero (.reg value) o.tagMask }
  | notCell (.split tag _) => { cond := .compare32 .notEqual (.reg tag) (half Split.cellTag) }
  | isCell (.packed value) => { cond := .mask64 .zero (.reg value) o.tagMask }
  | isCell (.split tag _) => { cond := .compare32 .equal (.reg tag) (half Split.cellTag) }
  | isOther regs temp => other .equal temp regs
  | notOther regs temp => other .notEqual temp regs
  | notBoolean (.packed value) temp =>
      { setup := [.move temp value, .xor64 temp Packed.falseWord]
        cond := .mask64 .nonZero (.reg temp) (.imm (~~~1#64)) }
  | notBoolean (.split tag _) _ =>
      { cond := .compare32 .notEqual (.reg tag) (half Split.booleanTag) }
  | notString cell =>
      { cond := .compare8 .notEqual (.base cell Cell.cellTypeOffset) Cell.stringType }
  | notObject cell =>
      { cond := .compare8 .below (.base cell Cell.cellTypeOffset) Cell.objectType }
  | shape relation cell s =>
      { cond := .compare32 relation (.mem (.base cell Cell.shapeOffset)) (half s.raw) }

def code (o : Options) (g : Guard) : Fragment := (g.test o).code

def emit (o : Options) (g : Guard) : Emit Nat := (g.test o).emit

/-- Leaves if the value is no cell, or if it is one that the test rejects. -/
def cellTest (o : Options) (regs : ValueRegs) (test : Guard) : Fragment :=
  ((notCell regs).code o).andThen (test.code o)

def notTy (o : Options) (regs : ValueRegs) (temp : Gpr) : Ty → Fragment
  | .bottom => [.branch .always none]
  | .boolean => (notBoolean regs temp).code o
  | .other => (notOther regs temp).code o
  | .int32 => (notInt32 regs).code o
  | .number => (notNumber regs temp).code o
  | .string => cellTest o regs (notString regs.payload)
  | .object => cellTest o regs (notObject regs.payload)
  | .objectOrOther =>
      ((isOther regs temp).code o).skipping (cellTest o regs (notObject regs.payload))
  | .objectWithShape s => cellTest o regs (shape .notEqual regs.payload s)
  | .objectWithShapeOrOther s =>
      ((isOther regs temp).code o).skipping (cellTest o regs (shape .notEqual regs.payload s))
  | .top => []

def forTy (o : Options) (regs : ValueRegs) (temp : Gpr) (t : Ty) : Except Fault Fragment :=
  if regs.representation = o.representation then .ok (notTy o regs temp t)
  else .error .representationMismatch

def emitCellTest (o : Options) (regs : ValueRegs) (test : Guard) : Emit (List Nat) := do
  let noCell ← (notCell regs).emit o
  let rejected ← test.emit o
  return [noCell, rejected]

def emitOrOther (o : Options) (regs : ValueRegs) (temp : Gpr) (test : Guard) :
    Emit (List Nat) := do
  let escape ← (isOther regs temp).emit o
  let result ← emitCellTest o regs test
  Emit.linkHere [escape]
  return result

def emitTy (o : Options) (regs : ValueRegs) (temp : Gpr) (t : Ty) : Emit (List Nat) := do
  if regs.representation ≠ o.representation then throw .representationMismatch
  match t with
  | .bottom => return [← Emit.branch .always]
  | .boolean => return [← (notBoolean regs temp).emit o]
  | .other => return [← (notOther regs temp).emit o]
  | .int32 => return [← (notInt32 regs).emit o]
  | .number => return [← (notNumber regs temp).emit o]
  | .string => emitCellTest o regs (notString regs.payload)
  | .object => emitCellTest o regs (notObject regs.payload)
  | .objectOrOther => emitOrOther o regs temp (notObject regs.payload)
  | .objectWithShape s => emitCellTest o regs (shape .notEqual regs.payload s)
  | .objectWithShapeOrOther s => emitOrOther o regs temp (shape .notEqual regs.payload s)
  | .top => return []

def purifyNaN (f : Fpr) : Fragment :=
  Fragment.skipping [.branch (.double .equal f f) none] [.moveDouble f pureNaN]

def emitPurifyNaN (f : Fpr) : Emit Unit := do
  let noNaN ← Emit.branch (.double .equal f f)
  Emit.inst (.moveDouble f pureNaN)
  Emit.linkHere [noNaN]

end Guard

end InlineCache
