import InlineCache.Fault

/-!
The two register files of the machine, sixteen registers each, and the roles that generated code
gives to single registers.
-/

namespace InlineCache

structure Gpr where
  index : Fin 16
deriving DecidableEq, Repr

structure Fpr where
  index : Fin 16
deriving DecidableEq, Repr

namespace Gpr

def ofIndex (n : Nat) : Except Fault Gpr :=
  if bound : n < 16 then .ok ⟨⟨n, bound⟩⟩ else .error .gprOutOfRange

def returnValue : Gpr := ⟨0⟩
def t0 : Gpr := ⟨0⟩
def t1 : Gpr := ⟨1⟩
def t2 : Gpr := ⟨2⟩
def t3 : Gpr := ⟨3⟩
def stackPointer : Gpr := ⟨4⟩
def callFrame : Gpr := ⟨5⟩

/-- Neither preserved by calls nor used for their results: free to hold a call's target. -/
def callTarget : Gpr := ⟨6⟩
def argument0 : Gpr := ⟨7⟩
def argument1 : Gpr := ⟨8⟩

def numberTag : Gpr := ⟨14⟩

def tagMask : Gpr := ⟨15⟩

def name (r : Gpr) : String :=
  match r.index.val with
  | 4 => "sp"
  | 5 => "cfr"
  | 14 => "tagTypeNumber"
  | 15 => "tagMask"
  | n => s!"r{n}"

def all : List Gpr := (List.finRange 16).map Gpr.mk

/-- The registers that hold program values: all but the stack, frame and tag registers. -/
def allocatable : List Gpr :=
  [⟨0⟩, ⟨1⟩, ⟨2⟩, ⟨3⟩, ⟨6⟩, ⟨7⟩, ⟨8⟩, ⟨9⟩, ⟨10⟩, ⟨11⟩, ⟨12⟩, ⟨13⟩]

end Gpr

namespace Fpr

def ofIndex (n : Nat) : Except Fault Fpr :=
  if bound : n < 16 then .ok ⟨⟨n, bound⟩⟩ else .error .fprOutOfRange

def t0 : Fpr := ⟨0⟩

def name (r : Fpr) : String := s!"f{r.index.val}"

def all : List Fpr := (List.finRange 16).map Fpr.mk

def allocatable : List Fpr := all

end Fpr

end InlineCache
