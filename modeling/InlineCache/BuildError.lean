import InlineCache.Fault
import InlineCache.SlowCall

/-!
What can go wrong with a unit of code that is built as it should be. Errors are answers: the caller
drops the unit and goes on. Faults are not, and a `Failure` is either.
-/

namespace InlineCache

inductive BuildError where
  /-- A branch has no target, or a recorded position holds no branch. -/
  | unlinkedJump (position : Nat)
  | missingStackMap (id : StackMapId)
  | unbalancedExits (site patches exits : Nat)
  | regionOverflow (needed available : Nat)
  | workerGone
deriving DecidableEq, Repr

def BuildError.title : BuildError → String
  | unlinkedJump _ => "UnlinkedJump"
  | missingStackMap _ => "MissingStackMap"
  | unbalancedExits _ _ _ => "UnbalancedSlowPathExits"
  | regionOverflow _ _ => "RegionOverflow"
  | workerGone => "WorkerGone"

def BuildError.message : BuildError → String
  | unlinkedJump position => s!"unlinked jump at position {position}"
  | missingStackMap id => s!"no stack map recorded for {id.name}"
  | unbalancedExits site patches exits =>
      s!"inline cache {site} has {patches} generators but {exits} slow-path exits"
  | regionOverflow needed available =>
      s!"specialized access needs {needed} instructions, region holds {available}"
  | workerGone => "compile worker disconnected"

inductive Failure where
  | fault (f : Fault)
  | error (e : BuildError)
deriving DecidableEq, Repr

instance : MonadLift (Except Fault) (Except Failure) where
  monadLift := Except.mapError .fault

instance : MonadLift (Except BuildError) (Except Failure) where
  monadLift := Except.mapError .error

theorem mapError_eq_ok_iff {ε ε₁ α : Type} {f : ε → ε₁} {x : Except ε α} {a : α} :
    x.mapError f = .ok a ↔ x = .ok a := by
  cases x with
  | error e => exact iff_of_false nofun nofun
  | ok b =>
    change Except.ok b = Except.ok a ↔ _
    simp only [Except.ok.injEq]

@[simp]
theorem liftFault_eq_ok_iff {α : Type} {x : Except Fault α} {a : α} :
    (liftM x : Except Failure α) = .ok a ↔ x = .ok a :=
  mapError_eq_ok_iff

@[simp]
theorem liftError_eq_ok_iff {α : Type} {x : Except BuildError α} {a : α} :
    (liftM x : Except Failure α) = .ok a ↔ x = .ok a :=
  mapError_eq_ok_iff

end InlineCache
