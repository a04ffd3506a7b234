import InlineCache.Code.Inst
import InlineCache.Machine.Memory
import InlineCache.Shape

/-!
The state of the machine: two register files and a memory.
-/

namespace InlineCache

structure State where
  gprs : Vector Word 16
  fprs : Vector Word 16
  memory : Memory

namespace State

def zero : State := ⟨Vector.replicate 16 0, Vector.replicate 16 0, .empty⟩

def gpr (s : State) (r : Gpr) : Word := s.gprs[r.index]

def setGpr (s : State) (r : Gpr) (value : Word) : State :=
  { s with gprs := s.gprs.set r.index value }

def fpr (s : State) (r : Fpr) : Word := s.fprs[r.index]

def setFpr (s : State) (r : Fpr) (bits : Word) : State :=
  { s with fprs := s.fprs.set r.index bits }

theorem gpr_setGpr (s : State) (r q : Gpr) (value : Word) :
    (s.setGpr r value).gpr q = if q = r then value else s.gpr q := by
  have same : r.index.val = q.index.val ↔ q = r := by
    rw [Gpr.mk.injEq, Fin.ext_iff]
    exact eq_comm
  simp only [gpr, setGpr, Fin.getElem_fin, Vector.getElem_set, same]

theorem fpr_setFpr (s : State) (r q : Fpr) (bits : Word) :
    (s.setFpr r bits).fpr q = if q = r then bits else s.fpr q := by
  have same : r.index.val = q.index.val ↔ q = r := by
    rw [Fpr.mk.injEq, Fin.ext_iff]
    exact eq_comm
  simp only [fpr, setFpr, Fin.getElem_fin, Vector.getElem_set, same]

def low (s : State) (r : Gpr) : Half := (s.gpr r).setWidth 32

def setByte (s : State) (a : Word) (value : Byte) : State :=
  { s with memory := s.memory.setByte a value }

def write32 (s : State) (a : Word) (value : Half) : State :=
  { s with memory := s.memory.write32 a value }

def write64 (s : State) (a : Word) (value : Word) : State :=
  { s with memory := s.memory.write64 a value }

def setValue (s : State) (regs : ValueRegs) (v : Value) : State :=
  match regs with
  | .packed value => s.setGpr value v.packedWord
  | .split tag payload =>
      (s.setGpr tag (v.splitTag.setWidth 64)).setGpr payload (v.splitPayload.setWidth 64)

/-- The value in registers, as a slot would hold it. -/
def valueBits (s : State) : ValueRegs → Word
  | .packed value => s.gpr value
  | .split tag payload => s.low tag ++ s.low payload

def writeHeader (s : State) (a : Word) (shape : Shape) : State := s.write64 a shape.header

def setTags (s : State) : State :=
  (s.setGpr .numberTag Packed.numberTag).setGpr .tagMask Packed.tagMask

def address (s : State) : Mem → Word
  | .base register displacement => s.gpr register + displacement.signExtend 64
  | .absolute address => address

def operand64 (s : State) : Operand → Word
  | .reg register => s.gpr register
  | .imm value => value
  | .mem location => s.memory.read64 (s.address location)

def operand32 (s : State) : Operand → Half
  | .reg register => s.low register
  | .imm value => value.setWidth 32
  | .mem location => s.memory.read32 (s.address location)

/-- Whether a branch is taken. Bytes are compared as numbers from 0 to 255. -/
def holds (s : State) : Cond → Bool
  | .compare64 relation lhs rhs => relation.holds (s.operand64 lhs) (s.operand64 rhs)
  | .compare32 relation lhs rhs => relation.holds (s.operand32 lhs) (s.operand32 rhs)
  | .compare8 relation lhs rhs =>
      relation.holds ((s.memory.byte (s.address lhs)).setWidth 32) (rhs.setWidth 32)
  | .mask64 test value mask => test.holds (s.operand64 value &&& s.operand64 mask)
  | .mask32 test value mask => test.holds (s.operand32 value &&& s.operand32 mask)
  | .double test lhs rhs => test.holds (s.fpr lhs) (s.fpr rhs)
  | .always => true
  | .alwaysPatchable => true

end State

end InlineCache
