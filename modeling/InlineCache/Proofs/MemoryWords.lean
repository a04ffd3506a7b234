import InlineCache.Machine.State
import InlineCache.Proofs.MemoryAccess

/-!
Words in memory. Words are read back as they were written, and their bytes are those of the low half
and then those of the high half, so that a word is written by writing its two halves, in either
order. Main statement: what a store leaves and what a load finds, byte by byte.
-/

namespace InlineCache

theorem append_halves (w : Word) : w.extractLsb' 32 32 ++ w.setWidth 32 = w := by
  apply BitVec.eq_of_getLsbD_eq
  intro i bound
  rw [BitVec.getLsbD_append, BitVec.getLsbD_extractLsb', BitVec.getLsbD_setWidth]
  split
  next low => simp [low]
  next high =>
    have place : 32 + (i - 32) = i := by omega
    simp [place, show i - 32 < 32 by omega]

namespace Memory

theorem read32_write64 (m : Memory) (a w : Word) : (m.write64 a w).read32 a = w.setWidth 32 :=
  @load_store_of_le m .word a w .half (by decide)

theorem byte_write64 (m : Memory) (a w : Word) {k : Nat} (within : k < 8) :
    (m.write64 a w).byte (a + BitVec.ofNat 64 k) = BitVec.ofNat 8 (w.toNat / 256 ^ k) := by
  rw [write64, byte_write _ _ _ _ (by decide), Width.toNat_distance .word a within, if_pos within]

theorem read64_write64 (m : Memory) (a w : Word) : (m.write64 a w).read64 a = w :=
  m.load_store .word a w

theorem byte_write64_of_outside (m : Memory) {a c : Word} (w : Word)
    (outside : 8 ≤ (c - a).toNat) : (m.write64 a w).byte c = m.byte c :=
  (m.byte_store .word a w c).trans (if_neg (Nat.not_lt.mpr outside))

theorem read64_write64_of_apart (m : Memory) {a b : Word} (w : Word)
    (behind : 8 ≤ (b - a).toNat) (before : 8 ≤ (a - b).toNat) :
    (m.write64 a w).read64 b = m.read64 b :=
  @load_store_of_disjoint m .word a w .word b (Width.disjoint_of_apart behind before)

theorem toNat_append_halves (high low : Half) :
    (high ++ low : Word).toNat = high.toNat * 2 ^ 32 + low.toNat := by
  rw [BitVec.toNat_append, ← Nat.shiftLeft_add_eq_or_of_lt low.isLt, Nat.shiftLeft_eq]

theorem read64_eq_append (m : Memory) (a : Word) :
    m.read64 a = m.read32 (a + 4#64) ++ m.read32 a := by
  apply BitVec.eq_of_toNat_eq
  have low := m.read_lt a 4
  have high := m.read_lt (a + 4#64) 4
  have whole : m.read a 8 = m.read a 4 + 256 ^ 4 * m.read (a + 4#64) 4 := m.read_add a 4 4
  rw [toNat_append_halves, read64, read32, read32, BitVec.toNat_ofNat, BitVec.toNat_ofNat,
    BitVec.toNat_ofNat]
  omega

theorem byte_of_halves (high low : Half) {k : Nat} (within : k < 8) :
    BitVec.ofNat 8 ((high ++ low : Word).toNat / 256 ^ k) =
      if k < 4 then BitVec.ofNat 8 (low.toNat / 256 ^ k)
      else BitVec.ofNat 8 (high.toNat / 256 ^ (k - 4)) := by
  rw [toNat_append_halves]
  have bound := low.isLt
  apply BitVec.eq_of_toNat_eq
  have cases : k = 0 ∨ k = 1 ∨ k = 2 ∨ k = 3 ∨ k = 4 ∨ k = 5 ∨ k = 6 ∨ k = 7 := by omega
  rcases cases with rfl | rfl | rfl | rfl | rfl | rfl | rfl | rfl <;>
    simp only [Nat.reduceLT, Nat.reduceSub, Nat.reducePow, if_true, if_false,
      BitVec.toNat_ofNat] <;>
    omega

theorem write32_low_high (m : Memory) (a : Word) (low high : Half) :
    (m.write32 a low).write32 (a + 4#64) high = m.write64 a (high ++ low) := by
  apply ext_byte
  intro c
  simp only [write32, write64]
  rw [byte_write _ _ _ _ (by decide), byte_write _ _ _ _ (by decide),
    byte_write _ _ _ _ (by decide)]
  by_cases within : (c - a).toNat < 8
  · rw [if_pos within, byte_of_halves high low within]
    by_cases early : (c - a).toNat < 4
    · rw [if_neg (by bv_omega), if_pos early, if_pos early]
    · have distance : (c - (a + 4#64)).toNat = (c - a).toNat - 4 := by bv_omega
      rw [distance, if_pos (by omega), if_neg early]
  · rw [if_neg within, if_neg (by bv_omega), if_neg (by omega)]

theorem write32_high_low (m : Memory) (a : Word) (low high : Half) :
    (m.write32 (a + 4#64) high).write32 a low = m.write64 a (high ++ low) := by
  have disjoint : Width.half.Disjoint (a + 4#64) .half a := by
    apply Width.disjoint_of_apart
    · change 4 ≤ (a - (a + 4#64)).toNat
      bv_omega
    · change 4 ≤ (a + 4#64 - a).toNat
      bv_omega
  rw [← write32_low_high]
  exact @store_comm_of_disjoint m .half (a + 4#64) high .half a disjoint low

/-- A store leaves the bytes of its value, the low byte first, and what was in memory elsewhere; a
load finds the bytes of its result in the same order. Hence what was stored is loaded again, a word
is stored as its two halves in either order, and accesses without a byte in common can change
places. -/
theorem accesses_by_bytes (m : Memory) (a : Word) :
    (∀ w v c, (m.store w a v).byte c =
      if (c - a).toNat < w.bytes then v.extractLsb' (8 * (c - a).toNat) 8 else m.byte c) ∧
    (∀ w k, k < w.bytes →
      (m.load w a).extractLsb' (8 * k) 8 = m.byte (a + BitVec.ofNat 64 k)) ∧
    (∀ w v, (m.store w a v).load w a = v) ∧
    (∀ v : Word,
      (m.write32 a (v.setWidth 32)).write32 (a + 4#64) (v.extractLsb' 32 32) = m.write64 a v ∧
      (m.write32 (a + 4#64) (v.extractLsb' 32 32)).write32 a (v.setWidth 32) = m.write64 a v) ∧
    ∀ w w' b, w.Disjoint a w' b → ∀ v,
      (∀ u, (m.store w a v).store w' b u = (m.store w' b u).store w a v) ∧
        (m.store w a v).load w' b = m.load w' b := by
  refine ⟨fun w v c => m.byte_store w a v c, fun w k within => m.byte_load w a within,
    fun w v => m.load_store w a v, fun v => ⟨?_, ?_⟩, fun w w' b disjoint v => ⟨fun u => ?_, ?_⟩⟩
  · rw [write32_low_high, append_halves]
  · rw [write32_high_low, append_halves]
  · exact m.store_comm_of_disjoint v disjoint u
  · exact m.load_store_of_disjoint v disjoint

/-- A word at the end of the address space goes on at its beginning, and a half that follows it
there can be stored first. -/
theorem accesses_around_top :
    let a := 0xFFFFFFFFFFFFFFFC#64
    let stored := Memory.empty.write64 a 0x1122334455667788#64
    stored.byte 0xFFFFFFFFFFFFFFFF#64 = 0x55#8 ∧ stored.byte 0#64 = 0x44#8 ∧
      stored.read64 a = 0x1122334455667788#64 ∧ Width.word.Disjoint a .half 4#64 ∧
      stored.write32 4#64 0xAABBCCDD#32 =
        (Memory.empty.write32 4#64 0xAABBCCDD#32).write64 a 0x1122334455667788#64 ∧
      stored.read32 4#64 = Memory.empty.read32 4#64 := by
  have inside (a v c : Word) {k : Nat} (distance : (c - a).toNat = k) (within : k < 8) :
      (Memory.empty.write64 a v).byte c = v.extractLsb' (8 * k) 8 := by
    subst distance
    obtain ⟨written, _⟩ := accesses_by_bytes .empty a
    exact (written .word v c).trans (if_pos within)
  have again (a v : Word) : (Memory.empty.write64 a v).read64 a = v := by
    obtain ⟨_, _, restored, _⟩ := accesses_by_bytes .empty a
    exact restored .word v
  have exchange (a v b : Word) (u : Half) (disjoint : Width.word.Disjoint a .half b) :
      (Memory.empty.write64 a v).write32 b u = (Memory.empty.write32 b u).write64 a v ∧
        (Memory.empty.write64 a v).read32 b = Memory.empty.read32 b := by
    obtain ⟨_, _, _, _, apart⟩ := accesses_by_bytes .empty a
    obtain ⟨commute, kept⟩ := apart .word .half b disjoint v
    exact ⟨commute u, kept⟩
  have disjoint : Width.word.Disjoint 0xFFFFFFFFFFFFFFFC#64 .half 4#64 := by
    intro c first second
    change (c - 0xFFFFFFFFFFFFFFFC#64).toNat < 8 at first
    change (c - 4#64).toNat < 4 at second
    bv_omega
  have last := inside 0xFFFFFFFFFFFFFFFC#64 0x1122334455667788#64 0xFFFFFFFFFFFFFFFF#64
    (k := 3) (by decide) (by decide)
  have first := inside 0xFFFFFFFFFFFFFFFC#64 0x1122334455667788#64 0#64
    (k := 4) (by decide) (by decide)
  exact ⟨last.trans (by decide), first.trans (by decide), again _ _, disjoint,
    exchange _ _ _ _ disjoint⟩

end Memory

namespace State

theorem write32_low_high (s : State) (a : Word) (low high : Half) :
    (s.write32 a low).write32 (a + 4#64) high = s.write64 a (high ++ low) := by
  simp only [write32, write64, Memory.write32_low_high]

theorem write32_high_low (s : State) (a : Word) (low high : Half) :
    (s.write32 (a + 4#64) high).write32 a low = s.write64 a (high ++ low) := by
  simp only [write32, write64, Memory.write32_high_low]

end State

end InlineCache
