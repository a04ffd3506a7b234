import InlineCache.Machine.State

/-!
Execution of code. A run takes one step per instruction until the code exits, something traps, or
the step limit is reached; it records the positions it executed and the calls it made.
-/

namespace InlineCache

inductive Exit where
  | returned
  | aborted (reason : AbortReason)
  | breakpoint
deriving DecidableEq, Repr

inductive Trap where
  /-- A branch without a target was reached, whether it would be taken or not. -/
  | unlinkedBranch (position : Nat)
  | unknownCallTarget (address : Word)
  | missingSlowPathHandler (position : Nat)
  | stepLimit (limit : Nat)
  | fellOffEnd (position : Nat)
deriving DecidableEq, Repr

def Trap.title : Trap → String
  | unlinkedBranch _ => "UnlinkedBranch"
  | unknownCallTarget _ => "UnknownCallTarget"
  | missingSlowPathHandler _ => "MissingSlowPathHandler"
  | stepLimit _ => "StepLimit"
  | fellOffEnd _ => "FellOffEnd"

def Trap.message : Trap → String
  | unlinkedBranch position => s!"branch at {position} has no target"
  | unknownCallTarget address => s!"call to {Word.hex address} with no host function installed"
  | missingSlowPathHandler position =>
      s!"slow path called at {position} with no handler installed"
  | stepLimit limit => s!"step limit of {limit} exceeded"
  | fellOffEnd position => s!"control fell off the end of the code at {position}"

inductive Call where
  | host (address : Word)
  | slow (call : SlowCall)
deriving DecidableEq, Repr

/-- What runs outside of generated code: functions at addresses and the slow-path handler. -/
structure Services where
  host? : Word → Option (State → State)
  slowPath? : Option (SlowCall → State → State)

namespace Services

def none : Services := ⟨fun _ => Option.none, Option.none⟩

def installHost (v : Services) (address : Word) (function : State → State) : Services :=
  { v with host? := fun a => if a = address then some function else v.host? a }

def installSlowPath (v : Services) (handler : SlowCall → State → State) : Services :=
  { v with slowPath? := some handler }

end Services

inductive Step where
  | next (position : Nat) (state : State)
  | called (call : Call) (position : Nat) (state : State)
  | stop (ending : Except Trap Exit)

def step (v : Services) (pc : Nat) (s : State) : Inst → Step
  | .nop => .next (pc + 1) s
  | .move dst src => .next (pc + 1) (s.setGpr dst (s.gpr src))
  | .moveImm dst value => .next (pc + 1) (s.setGpr dst value)
  | .moveDouble dst bits => .next (pc + 1) (s.setFpr dst bits)
  | .load64 dst src => .next (pc + 1) (s.setGpr dst (s.memory.read64 (s.address src)))
  | .load32 dst src =>
      .next (pc + 1) (s.setGpr dst ((s.memory.read32 (s.address src)).setWidth 64))
  | .load8 dst src => .next (pc + 1) (s.setGpr dst ((s.memory.byte (s.address src)).setWidth 64))
  | .store64 src dst => .next (pc + 1) (s.write64 (s.address dst) (s.gpr src))
  | .store32 src dst => .next (pc + 1) (s.write32 (s.address dst) (s.low src))
  | .store64Imm value dst => .next (pc + 1) (s.write64 (s.address dst) value)
  | .store32Imm value dst => .next (pc + 1) (s.write32 (s.address dst) value)
  | .loadDouble dst src => .next (pc + 1) (s.setFpr dst (s.memory.read64 (s.address src)))
  | .storeDouble src dst => .next (pc + 1) (s.write64 (s.address dst) (s.fpr src))
  | .and64 dst value => .next (pc + 1) (s.setGpr dst (s.gpr dst &&& value))
  | .xor64 dst value => .next (pc + 1) (s.setGpr dst (s.gpr dst ^^^ value))
  | .or32 dst value => .next (pc + 1) (s.setGpr dst ((s.low dst ||| value).setWidth 64))
  | .add32 dst src value => .next (pc + 1) (s.setGpr dst ((s.low src + value).setWidth 64))
  | .branch _ none => .stop (.error (.unlinkedBranch pc))
  | .branch cond (some target) => .next (if s.holds cond then target else pc + 1) s
  | .call target =>
      match v.host? (s.gpr target) with
      | some function => .called (.host (s.gpr target)) (pc + 1) (function s)
      | none => .stop (.error (.unknownCallTarget (s.gpr target)))
  | .callSlowPath call =>
      match v.slowPath? with
      | some handler => .called (.slow call) (pc + 1) (handler call s)
      | none => .stop (.error (.missingSlowPathHandler pc))
  | .abort reason => .stop (.ok (.aborted reason))
  | .breakpoint => .stop (.ok .breakpoint)
  | .ret => .stop (.ok .returned)

structure Run where
  ending : Except Trap Exit
  state : State
  trace : Array Nat
  calls : Array Call

namespace Run

/-- Goes on from `pc` for at most `fuel` steps, after the given trace and calls. -/
def resume (v : Services) (code : Array Inst) (limit : Nat) :
    (fuel : Nat) → (pc : Nat) → State → Array Nat → Array Call → Run
  | 0, _, s, trace, calls => ⟨.error (.stepLimit limit), s, trace, calls⟩
  | fuel + 1, pc, s, trace, calls =>
      match code[pc]? with
      | none => ⟨.error (.fellOffEnd pc), s, trace, calls⟩
      | some i =>
        match step v pc s i with
        | .next position s => Run.resume v code limit fuel position s (trace.push pc) calls
        | .called call position s =>
            Run.resume v code limit fuel position s (trace.push pc) (calls.push call)
        | .stop ending => ⟨ending, s, trace.push pc, calls⟩

def start (v : Services) (code : Array Inst) (limit : Nat) (entry : Nat) (s : State) : Run :=
  Run.resume v code limit limit entry s #[] #[]

end Run

structure Machine where
  state : State
  services : Services
  stepLimit : Nat
  trace : Array Nat

namespace Machine

def defaultStepLimit : Nat := 100000

def new : Machine := ⟨.zero, .none, defaultStepLimit, #[]⟩

def withTags : Machine := { new with state := State.zero.setTags }

def run (m : Machine) (code : Array Inst) (entry : Nat) : Run × Machine :=
  let r := Run.start m.services code m.stepLimit entry m.state
  (r, { m with state := r.state, trace := r.trace })

def executed (m : Machine) (position : Nat) : Bool := m.trace.contains position

end Machine

end InlineCache
