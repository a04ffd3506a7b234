import InlineCache.Machine.Memory
import Mathlib.Algebra.Group.Nat.Defs

/-!
Loads and stores of every width. A store lays the bytes of its value over what was in memory, the
low byte first; a load finds the bytes of its result in memory in that order. The distance of an
address from the start of an access is taken modulo the size of the address space, so that all laws
hold of accesses that go on at address zero.
-/

namespace InlineCache

theorem extractLsb'_byte {n : Nat} (v : BitVec n) (k : Nat) :
    v.extractLsb' (8 * k) 8 = BitVec.ofNat 8 (v.toNat / 256 ^ k) := by
  rw [BitVec.extractLsb', Nat.shiftRight_eq_div_pow, Nat.pow_mul]

theorem eq_of_bytes {n : Nat} {v u : BitVec (8 * n)}
    (same : ∀ k < n, v.extractLsb' (8 * k) 8 = u.extractLsb' (8 * k) 8) : v = u := by
  apply BitVec.eq_of_getLsbD_eq
  intro i bound
  have bits := congrArg (fun b : Byte => b.getLsbD (i % 8)) (same (i / 8) (by omega))
  have place : 8 * (i / 8) + i % 8 = i := Nat.div_add_mod i 8
  have inside : i % 8 < 8 := Nat.mod_lt i (by decide)
  simpa only [BitVec.getLsbD_extractLsb', inside, decide_true, Bool.true_and, place] using bits

inductive Width where
  | byte
  | half
  | word
deriving DecidableEq, Repr

namespace Width

def bytes : Width → Nat
  | byte => 1
  | half => 4
  | word => 8

/-- An access at `a` and another at `b` have no byte in common. -/
def Disjoint (w : Width) (a : Word) (w' : Width) (b : Word) : Prop :=
  ∀ c, (c - a).toNat < w.bytes → ¬ (c - b).toNat < w'.bytes

theorem bytes_le (w : Width) : w.bytes ≤ 8 := by
  cases w with
  | byte => decide
  | half => decide
  | word => decide

theorem toNat_distance (w : Width) (a : Word) {k : Nat} (within : k < w.bytes) :
    (a + BitVec.ofNat 64 k - a).toNat = k := by
  have bound := w.bytes_le
  rw [BitVec.add_comm, BitVec.add_sub_cancel, BitVec.toNat_ofNat]
  omega

theorem disjoint_of_apart {w w' : Width} {a b : Word} (behind : w.bytes ≤ (b - a).toNat)
    (before : w'.bytes ≤ (a - b).toNat) : w.Disjoint a w' b := by
  intro c first second
  bv_omega

end Width

namespace Memory

theorem byte_write (m : Memory) (a c : Word) {n : Nat} (value : Nat) (short : n ≤ 2 ^ 64) :
    (m.write a n value).byte c =
      if (c - a).toNat < n then BitVec.ofNat 8 (value / 256 ^ (c - a).toNat) else m.byte c := by
  induction n generalizing m a value with
  | zero => simp [write]
  | succ n ih =>
    rw [write, ih _ _ _ (by omega), byte_setByte]
    by_cases here : c = a
    -- The first byte is not reached again: from the address behind it, it is the last of all.
    · subst here
      have last : (c - (c + 1)).toNat = 2 ^ 64 - 1 := by
        bv_omega
      rw [if_neg (by omega), if_pos rfl, BitVec.sub_self, if_pos (by simp)]
      simp
    · have distance : (c - a).toNat = (c - (a + 1)).toNat + 1 := by
        bv_omega
      simp only [distance, if_neg here, Nat.add_lt_add_iff_right, Nat.div_div_eq_div_mul,
        Nat.pow_succ']

theorem add_one_add_ofNat (a : Word) (k : Nat) :
    a + 1 + BitVec.ofNat 64 k = a + BitVec.ofNat 64 (k + 1) := by
  rw [BitVec.ofNat_add, BitVec.add_assoc, BitVec.add_comm 1]
  rfl

theorem read_add (m : Memory) (a : Word) (j k : Nat) :
    m.read a (j + k) = m.read a j + 256 ^ j * m.read (a + BitVec.ofNat 64 j) k := by
  induction j generalizing a with
  | zero => simp [read]
  | succ j ih =>
    rw [Nat.succ_add, read, read, ih, add_one_add_ofNat]
    rw [show 256 ^ (j + 1) = 256 * 256 ^ j from Nat.pow_succ', Nat.mul_add, Nat.mul_assoc,
      Nat.add_assoc]

theorem read_lt (m : Memory) (a : Word) (n : Nat) : m.read a n < 256 ^ n := by
  induction n generalizing a with
  | zero => simp [read]
  | succ n ih =>
    have low := (m.byte a).isLt
    have rest := ih (a + 1)
    rw [read, show 256 ^ (n + 1) = 256 * 256 ^ n from Nat.pow_succ']
    omega

theorem byte_of_read (m : Memory) (a : Word) {n k : Nat} (within : k < n) :
    BitVec.ofNat 8 (m.read a n / 256 ^ k) = m.byte (a + BitVec.ofNat 64 k) := by
  obtain ⟨rest, rfl⟩ : ∃ rest, n = k + (rest + 1) := ⟨n - k - 1, by omega⟩
  have low := m.read_lt a k
  rw [read_add, Nat.add_mul_div_left _ _ (Nat.pow_pos (by decide)), Nat.div_eq_of_lt low,
    Nat.zero_add, read]
  apply BitVec.eq_of_toNat_eq
  have bound := (m.byte (a + BitVec.ofNat 64 k)).isLt
  rw [BitVec.toNat_ofNat]
  omega

def load (m : Memory) : (w : Width) → (a : Word) → BitVec (8 * w.bytes)
  | .byte, a => m.byte a
  | .half, a => m.read32 a
  | .word, a => m.read64 a

def store (m : Memory) : (w : Width) → (a : Word) → BitVec (8 * w.bytes) → Memory
  | .byte, a, v => m.setByte a v
  | .half, a, v => m.write32 a v
  | .word, a, v => m.write64 a v

theorem store_eq_write (m : Memory) (w : Width) (a : Word) (v : BitVec (8 * w.bytes)) :
    m.store w a v = m.write a w.bytes v.toNat := by
  cases w with
  | byte =>
    have whole : BitVec.ofNat 8 v.toNat = v :=
      (BitVec.ofNat_toNat 8 v).trans (BitVec.setWidth_eq v)
    exact congrArg (m.setByte a) whole.symm
  | half => rfl
  | word => rfl

theorem toNat_load (m : Memory) (w : Width) (a : Word) :
    (m.load w a).toNat = m.read a w.bytes := by
  have bound := m.read_lt a w.bytes
  cases w with
  | byte => rfl
  | half => exact (BitVec.toNat_ofNat _ 32).trans (Nat.mod_eq_of_lt bound)
  | word => exact (BitVec.toNat_ofNat _ 64).trans (Nat.mod_eq_of_lt bound)

variable (m : Memory) (w : Width) (a : Word) (v : BitVec (8 * w.bytes))

/-- A store lays the bytes of its value over what was in memory. -/
theorem byte_store (c : Word) :
    (m.store w a v).byte c =
      if (c - a).toNat < w.bytes then v.extractLsb' (8 * (c - a).toNat) 8 else m.byte c := by
  have short : w.bytes ≤ 2 ^ 64 := Nat.le_trans w.bytes_le (by decide)
  rw [store_eq_write, byte_write _ _ _ _ short, extractLsb'_byte]

theorem byte_load {k : Nat} (within : k < w.bytes) :
    (m.load w a).extractLsb' (8 * k) 8 = m.byte (a + BitVec.ofNat 64 k) := by
  rw [extractLsb'_byte, toNat_load, byte_of_read _ _ within]

theorem load_congr {m m' : Memory} {w : Width} {a : Word}
    (same : ∀ k < w.bytes, m'.byte (a + BitVec.ofNat 64 k) = m.byte (a + BitVec.ofNat 64 k)) :
    m'.load w a = m.load w a := by
  apply eq_of_bytes
  intro k within
  rw [byte_load _ _ _ within, byte_load _ _ _ within, same k within]

theorem load_store_of_le {w' : Width} (narrow : w'.bytes ≤ w.bytes) :
    (m.store w a v).load w' a = v.setWidth (8 * w'.bytes) := by
  apply eq_of_bytes
  intro k within
  rw [byte_load _ _ _ within, byte_store, w'.toNat_distance a within,
    if_pos (Nat.lt_of_lt_of_le within narrow), BitVec.extractLsb'_setWidth_of_le (by omega)]

theorem load_store : (m.store w a v).load w a = v :=
  (m.load_store_of_le w a v (Nat.le_refl _)).trans (BitVec.setWidth_eq v)

section Disjoint

variable {w a} {w' : Width} {b : Word} (disjoint : w.Disjoint a w' b)
include disjoint

theorem load_store_of_disjoint : (m.store w a v).load w' b = m.load w' b := by
  apply load_congr
  intro k within
  have outside : ¬ (b + BitVec.ofNat 64 k - a).toNat < w.bytes := by
    intro inside
    have beyond := disjoint _ inside
    rw [w'.toNat_distance b within] at beyond
    exact beyond within
  rw [byte_store, if_neg outside]

theorem store_comm_of_disjoint (u : BitVec (8 * w'.bytes)) :
    (m.store w a v).store w' b u = (m.store w' b u).store w a v := by
  apply ext_byte
  intro c
  simp only [byte_store]
  by_cases inside : (c - a).toNat < w.bytes
  · rw [if_neg (disjoint c inside), if_pos inside, if_pos inside]
  · rw [if_neg inside, if_neg inside]

end Disjoint

end Memory

end InlineCache
