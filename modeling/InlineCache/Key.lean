import InlineCache.Fault
import Std.Data.HashMap.Lemmas

/-!
Property names and the table that numbers them. A name's key is its place in the order in which
the names were first seen. The table finds names by their keys in one structure and keys by their
names in another.
-/

namespace InlineCache

structure Key where
  index : Half
deriving DecidableEq, Repr

def Key.name (k : Key) : String := s!"key#{k.index.toNat}"

structure KeyTable where
  names : Array String := #[]
  keys : Std.HashMap String Key := ∅
deriving Repr

namespace KeyTable

def key? (t : KeyTable) (s : String) : Option Key := t.keys[s]?

/-- The key of a name, which joins the table if it is new. A key has 32 bits, whatever the size of
the table. -/
def intern (t : KeyTable) (s : String) : Key × KeyTable :=
  match t.key? s with
  | some k => (k, t)
  | none =>
    let k : Key := ⟨BitVec.ofNat 32 t.names.size⟩
    (k, ⟨t.names.push s, t.keys.insert s k⟩)

def resolve? (t : KeyTable) (k : Key) : Option String := t.names[k.index.toNat]?

def size (t : KeyTable) : Nat := t.names.size

end KeyTable

end InlineCache
