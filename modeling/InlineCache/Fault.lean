/-!
Machine words, and the faults that stop a compilation at once. Words are bit vectors, so addition on
them wraps. A fault is never an answer about the program being compiled: it says that the compiler
was used in a way it does not allow.
-/

namespace InlineCache

abbrev Word := BitVec 64

abbrev Half := BitVec 32

abbrev Byte := BitVec 8

/-- Addresses stay below this bound, and so do positions: the indices of instructions, counted from
the start of the whole code. -/
def wordLimit : Nat := 0x10000000000000000

def Word.hex (w : Word) : String := "0x" ++ String.ofList (Nat.toDigits 16 w.toNat)

inductive Fault where
  | overflow
  | outOfBounds
  | gprOutOfRange
  | fprOutOfRange
  | notABranch (position : Nat)
  | representationMismatch
  /-- A site was created with the unset stack map, in a compilation that checks itself. -/
  | siteWithoutStackMap
  | stackMapIdsExhausted
deriving DecidableEq, Repr

/-- The text of a fault; faults of arithmetic and of indexing have none of their own. -/
def Fault.message : Fault → Option String
  | .overflow => none
  | .outOfBounds => none
  | .gprOutOfRange => some "gpr index out of range"
  | .fprOutOfRange => some "fpr index out of range"
  | .notABranch position => some s!"jump at {position} is not a branch of this assembler"
  | .representationMismatch => some "value registers do not match the compilation's representation"
  | .siteWithoutStackMap => some "inline cache created without a stack map"
  | .stackMapIdsExhausted => some "stack map ids exhausted"

def fitWord (n : Nat) : Except Fault Nat :=
  if n < wordLimit then .ok n else .error .overflow

theorem fitWord_eq_ok_iff {n m : Nat} : fitWord n = .ok m ↔ n < wordLimit ∧ n = m := by
  unfold fitWord
  split
  next fits => simp [fits]
  next tooLarge => simp [tooLarge]

theorem bind_eq_ok_iff {ε α β : Type} {x : Except ε α} {f : α → Except ε β} {b : β} :
    x >>= f = .ok b ↔ ∃ a, x = .ok a ∧ f a = .ok b := by
  cases x with
  | error e => simp [bind, Except.bind]
  | ok a => simp [bind, Except.bind]

end InlineCache
