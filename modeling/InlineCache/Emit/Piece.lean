import InlineCache.Emit.SelfCheck

/-!
The pieces of code that can be asked for. Each is described in two ways: by the steps that generate
it and by the fragment that comes about.
-/

namespace InlineCache

inductive Piece where
  | guard (regs : ValueRegs) (temp : Gpr) (t : Ty)
  | test (g : Guard)
  | purify (f : Fpr)
  | check (c : SelfCheck)
  | exceptionCheck (layout : RuntimeLayout) (pending : Pending) (reach : Reach)
  | fixedExceptionCheck (layout : RuntimeLayout)
  | fuzzHook (layout : RuntimeLayout)
  | header (s : Shape) (dest : Gpr)
deriving DecidableEq, Repr

namespace Piece

def emit (o : Options) : Piece → Emit (List Nat)
  | guard regs temp t => Guard.emitTy o regs temp t
  | test g => do return [← g.emit o]
  | purify f => do
      Guard.emitPurifyNaN f
      return []
  | check c => do
      c.emit o
      return []
  | exceptionCheck layout pending reach => do
      return [← ExceptionCheck.emit o layout pending reach]
  | fixedExceptionCheck layout => do return [← ExceptionCheck.emitFixed o layout]
  | fuzzHook layout => do
      ExceptionCheck.emitFuzz o layout
      return []
  | header s dest => do
      Header.emit o s dest
      return []

def code (o : Options) : Piece → Except Fault Fragment
  | guard regs temp t => Guard.forTy o regs temp t
  | test g => .ok (g.code o)
  | purify f => .ok (Guard.purifyNaN f)
  | check c => .ok (c.code o)
  | exceptionCheck layout pending reach => ExceptionCheck.code o layout pending reach
  | fixedExceptionCheck layout => ExceptionCheck.fixed o layout
  | fuzzHook layout => ExceptionCheck.fuzz o layout
  | header s dest => .ok (Header.store o s dest)

end Piece

end InlineCache
