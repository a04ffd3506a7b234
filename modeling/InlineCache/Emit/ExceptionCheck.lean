import InlineCache.Code.Assembler
import InlineCache.Options

/-!
Checks for a pending exception. A *near* check is one branch; a *far* check is a branch that skips
a patchable jump, which can be linked to any distance. With exception fuzzing, each check first
calls the fuzz operation of the runtime, around which all allocatable registers are spilled.
-/

namespace InlineCache

structure RuntimeLayout where
  /-- Zero while no exception is pending. -/
  exceptionSlot : Word
  spillBuffer : Word
  fuzzEntry : Word
deriving DecidableEq, Repr

namespace RuntimeLayout

def spillSize : Nat := 8 * (Gpr.allocatable.length + Fpr.allocatable.length)

def slotAddress (l : RuntimeLayout) (n : Nat) : Word := l.spillBuffer + BitVec.ofNat 64 (8 * n)

def spillSlot (l : RuntimeLayout) (n : Nat) : Except Fault Word :=
  if l.spillBuffer.toNat + 8 * n < wordLimit then .ok (l.slotAddress n) else .error .overflow

def gprSlot (l : RuntimeLayout) (i : Nat) : Except Fault Word := l.spillSlot i

def fprSlot (l : RuntimeLayout) (i : Nat) : Except Fault Word :=
  l.spillSlot (Gpr.allocatable.length + i)

end RuntimeLayout

inductive Pending where
  | some
  | none
deriving DecidableEq, Repr

def Pending.negate : Pending → Pending
  | some => none
  | none => some

inductive Reach where
  | near
  | far
deriving DecidableEq, Repr

namespace ExceptionCheck

def cond (o : Options) (l : RuntimeLayout) (pending : Pending) : Cond :=
  let test : MaskTest := match pending with
    | .some => .nonZero
    | .none => .zero
  let slot : Operand := .mem (.absolute l.exceptionSlot)
  match o.representation with
  | .packed => .mask64 test slot (.imm (BitVec.allOnes 64))
  | .split => .mask32 test slot (.imm ((BitVec.allOnes 32).setWidth 64))

def branch (o : Options) (l : RuntimeLayout) (pending : Pending) : Fragment :=
  [.branch (cond o l pending) none]

def spillGprs (l : RuntimeLayout) : Fragment :=
  Gpr.allocatable.zipIdx.map fun (r, i) => .store64 r (.absolute (l.slotAddress i))

def restoreGprs (l : RuntimeLayout) : Fragment :=
  Gpr.allocatable.zipIdx.map fun (r, i) => .load64 r (.absolute (l.slotAddress i))

/-- Spills the floating-point registers through the first temporary, which is spilled already. -/
def spillFprs (l : RuntimeLayout) : Fragment :=
  (Fpr.allocatable.zipIdx Gpr.allocatable.length).flatMap fun (r, i) =>
    [.moveImm .t0 (l.slotAddress i), .storeDouble r (.base .t0 0#32)]

def restoreFprs (l : RuntimeLayout) : Fragment :=
  (Fpr.allocatable.zipIdx Gpr.allocatable.length).flatMap fun (r, i) =>
    [.moveImm .t0 (l.slotAddress i), .loadDouble r (.base .t0 0#32)]

def callFuzz (l : RuntimeLayout) : Fragment :=
  [.move .argument0 .callFrame, .moveImm .callTarget l.fuzzEntry, .call .callTarget]

def hook (l : RuntimeLayout) : Fragment :=
  spillGprs l ++ spillFprs l ++ callFuzz l ++ restoreFprs l ++ restoreGprs l

/-- The fuzz hook, if the last slot of the spill buffer has an address; nothing without exception
fuzzing. -/
def fuzz (o : Options) (l : RuntimeLayout) : Except Fault Fragment := do
  if o.exceptionFuzzing then
    let _ ← l.fprSlot (Fpr.allocatable.length - 1)
    return hook l
  else return []

def code (o : Options) (l : RuntimeLayout) (pending : Pending) (reach : Reach) :
    Except Fault Fragment := do
  let before ← fuzz o l
  match reach with
  | .near => return before.andThen (branch o l pending)
  | .far =>
      return before.andThen ((branch o l pending.negate).skipping [.branch .alwaysPatchable none])

/-- The check for a pending exception by a branch that is never turned into a jump to a stub. -/
def fixed (o : Options) (l : RuntimeLayout) : Except Fault Fragment := do
  let before ← fuzz o l
  return before.andThen (branch o l .some)

def emitSlots {ρ : Type} (slot : Nat → Except Fault Word) (access : ρ → Word → Fragment)
    (i : Nat) : List ρ → Emit Unit
  | [] => return
  | r :: rest => do
      Emit.insts (access r (← slot i))
      emitSlots slot access (i + 1) rest

def emitFuzz (o : Options) (l : RuntimeLayout) : Emit Unit := do
  if o.exceptionFuzzing then
    emitSlots l.gprSlot (fun r slot => [.store64 r (.absolute slot)]) 0 Gpr.allocatable
    emitSlots l.fprSlot (fun r slot => [.moveImm .t0 slot, .storeDouble r (.base .t0 0#32)]) 0
      Fpr.allocatable
    Emit.insts (callFuzz l)
    emitSlots l.fprSlot (fun r slot => [.moveImm .t0 slot, .loadDouble r (.base .t0 0#32)]) 0
      Fpr.allocatable
    emitSlots l.gprSlot (fun r slot => [.load64 r (.absolute slot)]) 0 Gpr.allocatable

def emit (o : Options) (l : RuntimeLayout) (pending : Pending) (reach : Reach) : Emit Nat := do
  emitFuzz o l
  match reach with
  | .near => Emit.branch (cond o l pending)
  | .far =>
      let skip ← Emit.branch (cond o l pending.negate)
      let stub ← Emit.branch .alwaysPatchable
      Emit.linkHere [skip]
      return stub

def emitFixed (o : Options) (l : RuntimeLayout) : Emit Nat := do
  emitFuzz o l
  Emit.branch (cond o l .some)

end ExceptionCheck

end InlineCache
