import InlineCache.AbortReason
import InlineCache.Code.Condition
import InlineCache.Register
import InlineCache.SlowCall

/-!
The instructions of the virtual machine. All branches are one constructor, a condition and a
target; the target is absent until the branch is linked.
-/

namespace InlineCache

inductive Mem where
  | base (register : Gpr) (displacement : Half)
  | absolute (address : Word)
deriving DecidableEq, Repr

def Mem.displace : Mem → Half → Mem
  | base register displacement, delta => base register (displacement + delta)
  | absolute address, delta => absolute (address + delta.signExtend 64)

/-- A source of a comparison; a memory operand is as wide as the comparison. -/
inductive Operand where
  | reg (register : Gpr)
  | imm (value : Word)
  | mem (location : Mem)
deriving DecidableEq, Repr

inductive Cond where
  | compare64 (relation : Relation) (lhs rhs : Operand)
  | compare32 (relation : Relation) (lhs rhs : Operand)
  | compare8 (relation : Relation) (lhs : Mem) (rhs : Byte)
  | mask64 (test : MaskTest) (value mask : Operand)
  | mask32 (test : MaskTest) (value mask : Operand)
  | double (test : DoubleTest) (lhs rhs : Fpr)
  | always
  /-- Always taken, and of a width that lets the target be replaced later. -/
  | alwaysPatchable
deriving DecidableEq, Repr

def Cond.isUnconditional : Cond → Bool
  | always => true
  | alwaysPatchable => true
  | _ => false

inductive Inst where
  | nop
  | move (dst src : Gpr)
  | moveImm (dst : Gpr) (value : Word)
  | moveDouble (dst : Fpr) (bits : Word)
  | load64 (dst : Gpr) (src : Mem)
  | load32 (dst : Gpr) (src : Mem)
  | load8 (dst : Gpr) (src : Mem)
  | store64 (src : Gpr) (dst : Mem)
  | store32 (src : Gpr) (dst : Mem)
  | store64Imm (value : Word) (dst : Mem)
  | store32Imm (value : Half) (dst : Mem)
  | loadDouble (dst : Fpr) (src : Mem)
  | storeDouble (src : Fpr) (dst : Mem)
  | and64 (dst : Gpr) (value : Word)
  | xor64 (dst : Gpr) (value : Word)
  | or32 (dst : Gpr) (value : Half)
  | add32 (dst src : Gpr) (value : Half)
  | branch (cond : Cond) (target : Option Nat)
  | call (target : Gpr)
  | callSlowPath (call : SlowCall)
  | abort (reason : AbortReason)
  | breakpoint
  | ret
deriving DecidableEq, Repr

namespace Inst

def isBranch : Inst → Bool
  | branch _ _ => true
  | _ => false

def target? : Inst → Option Nat
  | branch _ target => target
  | _ => none

def isUnlinked : Inst → Bool
  | branch _ none => true
  | _ => false

def isUnconditional : Inst → Bool
  | branch cond _ => cond.isUnconditional
  | _ => false

def retarget? : Inst → Nat → Option Inst
  | branch cond _, target => some (branch cond (some target))
  | _, _ => none

def linkOpen (target : Nat) : Inst → Inst
  | branch cond none => branch cond (some target)
  | i => i

def shift (distance : Nat) : Inst → Inst
  | branch cond (some target) => branch cond (some (target + distance))
  | i => i

theorem isUnlinked_shift (distance : Nat) (i : Inst) :
    (i.shift distance).isUnlinked = i.isUnlinked := by
  cases i with
  | branch cond target => cases target <;> rfl
  | _ => rfl

theorem shift_zero (i : Inst) : i.shift 0 = i := by
  cases i with
  | branch cond target => cases target <;> rfl
  | _ => rfl

theorem shift_shift (i : Inst) (first second : Nat) :
    (i.shift first).shift second = i.shift (first + second) := by
  cases i with
  | branch cond target =>
      cases target with
      | none => rfl
      | some target => simp only [shift, Nat.add_assoc]
  | _ => rfl

end Inst

end InlineCache
