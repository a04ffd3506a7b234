import InlineCache.Fault
import Std.Data.ExtTreeMap.Lemmas

/-!
Byte memory over the whole address space. Bytes that were never written are zero, and a memory
keeps only the bytes that are not, so that two memories with the same contents are equal. Wider
accesses are little-endian and go on at address zero after the last address.
-/

namespace InlineCache

structure Memory where
  bytes : Std.ExtTreeMap Word Byte
  nonzero : ∀ a : Word, bytes[a]? ≠ some 0#8

namespace Memory

def empty : Memory := ⟨∅, by simp⟩

def byte (m : Memory) (a : Word) : Byte := m.bytes[a]?.getD 0#8

def setByte (m : Memory) (a : Word) (b : Byte) : Memory where
  bytes := if b = 0#8 then m.bytes.erase a else m.bytes.insert a b
  nonzero := by
    intro c
    have kept := m.nonzero c
    split
    next zero =>
      rw [Std.ExtTreeMap.getElem?_erase]
      split
      next same => simp
      next differs => exact kept
    next present =>
      rw [Std.ExtTreeMap.getElem?_insert]
      split
      next same => simpa using present
      next differs => exact kept

/-- The number in the `n` bytes from `a` on, the low byte first. -/
def read (m : Memory) (a : Word) : (n : Nat) → Nat
  | 0 => 0
  | n + 1 => (m.byte a).toNat + 256 * m.read (a + 1) n

def write (m : Memory) (a : Word) : (n value : Nat) → Memory
  | 0, _ => m
  | n + 1, value => (m.setByte a (BitVec.ofNat 8 value)).write (a + 1) n (value / 256)

def read32 (m : Memory) (a : Word) : Half := BitVec.ofNat 32 (m.read a 4)

def read64 (m : Memory) (a : Word) : Word := BitVec.ofNat 64 (m.read a 8)

def write32 (m : Memory) (a : Word) (value : Half) : Memory := m.write a 4 value.toNat

def write64 (m : Memory) (a : Word) (value : Word) : Memory := m.write a 8 value.toNat

@[simp]
theorem byte_empty (a : Word) : empty.byte a = 0#8 := by
  simp [byte, empty]

theorem byte_setByte (m : Memory) (a c : Word) (b : Byte) :
    (m.setByte a b).byte c = if c = a then b else m.byte c := by
  unfold byte setByte
  by_cases zero : b = 0#8
  · simp only [if_pos zero, Std.ExtTreeMap.getElem?_erase, Std.compare_eq_iff_eq]
    by_cases same : a = c
    · simp [same, zero]
    · simp [same, Ne.symm same]
  · simp only [if_neg zero, Std.ExtTreeMap.getElem?_insert, Std.compare_eq_iff_eq]
    by_cases same : a = c
    · simp [same]
    · simp [same, Ne.symm same]

theorem ext_byte {m n : Memory} (same : ∀ a, m.byte a = n.byte a) : m = n := by
  have entries : m.bytes = n.bytes := by
    apply Std.ExtTreeMap.ext_getElem?
    intro a
    have here := same a
    have left := m.nonzero a
    have right := n.nonzero a
    unfold byte at here
    cases inM : m.bytes[a]? with
    | none =>
      cases inN : n.bytes[a]? with
      | none => rfl
      | some b => simp_all
    | some b =>
      cases inN : n.bytes[a]? with
      | none => simp_all
      | some c => simp_all
  cases m
  cases n
  simp_all

end Memory

end InlineCache
