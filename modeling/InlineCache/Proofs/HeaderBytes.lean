import InlineCache.Proofs.RegionRoom
import InlineCache.Proofs.SelfCheckVerdict
import InlineCache.Proofs.SiteAccess

/-!
Headers byte by byte. In either representation, with self-checks and without, the code that stores a
header puts the same eight bytes over what was in memory and does nothing else, also where they run
over the end of the address space. The tests of a cell then answer as its shape says.
-/

namespace InlineCache

def Shape.headerBytes (shape : Shape) : List Byte :=
  [shape.id.raw.extractLsb' 0 8, shape.id.raw.extractLsb' 8 8, shape.id.raw.extractLsb' 16 8,
    shape.id.raw.extractLsb' 24 8, shape.indexingType, shape.cellType, shape.flags, 0#8]

theorem Shape.getElem?_headerBytes (shape : Shape) {k : Nat} (within : k < 8) :
    shape.headerBytes[k]? = some (BitVec.ofNat 8 (shape.header.toNat / 256 ^ k)) := by
  obtain ⟨indexing, kind, flags, last⟩ := shape.bytes_typeInfo
  have low := extractLsb'_byte shape.id.raw
  rw [header, Memory.byte_of_halves _ _ within]
  obtain rfl | rfl | rfl | rfl | rfl | rfl | rfl | rfl : k = 0 ∨ k = 1 ∨ k = 2 ∨ k = 3 ∨ k = 4 ∨
      k = 5 ∨ k = 6 ∨ k = 7 := by omega
  · exact congrArg some (low 0)
  · exact congrArg some (low 1)
  · exact congrArg some (low 2)
  · exact congrArg some (low 3)
  · exact congrArg some indexing.symm
  · exact congrArg some kind.symm
  · exact congrArg some flags.symm
  · exact congrArg some last.symm

theorem State.byte_writeHeader (s : State) (a c : Word) (shape : Shape) :
    (s.writeHeader a shape).memory.byte c =
      (shape.headerBytes[(c - a).toNat]?).getD (s.memory.byte c) := by
  have written : (s.writeHeader a shape).memory.byte c = if (c - a).toNat < 8
      then BitVec.ofNat 8 (shape.header.toNat / 256 ^ (c - a).toNat) else s.memory.byte c :=
    Memory.byte_write _ _ _ _ (by decide)
  rw [written]
  by_cases within : (c - a).toNat < 8
  · rw [if_pos within, shape.getElem?_headerBytes within, Option.getD_some]
  · rw [if_neg within, List.getElem?_eq_none (Nat.not_lt.mp within), Option.getD_none]

namespace Header

variable (s : State) (o : Options) (shape : Shape) (dest : Gpr)

theorem leaves_shape (relation : Relation) (id : ShapeId) :
    (Guard.shape relation dest id).leaves o (s.writeHeader (s.gpr dest) shape) =
      relation.holds shape.id.raw id.raw := by
  have verdict : (s.writeHeader (s.gpr dest) shape).holds
      (.compare32 relation (.mem (.base dest Cell.shapeOffset)) (Guard.half id.raw)) =
      relation.holds shape.id.raw id.raw := by
    rw [State.holds, operand32_shape, Guard.half, State.operand32,
      BitVec.setWidth_setWidth_of_le _ (by decide), BitVec.setWidth_eq]
  exact Guard.leaves_eq (.branch verdict)

theorem typeOf_writeHeader :
    (s.writeHeader (s.gpr dest) shape).typeOf (.packed dest) = shape.cellType := by
  have distance : (s.gpr dest + 5#64 - s.gpr dest).toNat = 5 := by
    rw [BitVec.add_comm, BitVec.add_sub_cancel]
    rfl
  have here : (s.writeHeader (s.gpr dest) shape).gpr dest = s.gpr dest := rfl
  rw [State.typeOf, ValueRegs.payload, here, State.byte_writeHeader, distance]
  rfl

theorem leaves_notString :
    (Guard.notString dest).leaves o (s.writeHeader (s.gpr dest) shape) =
      !decide (shape.cellType = Cell.stringType) := by
  rw [← typeOf_writeHeader s shape dest]
  exact Guard.leaves_eq (Guard.notString_behaves _ _ _ (.packed dest))

theorem leaves_notObject :
    (Guard.notObject dest).leaves o (s.writeHeader (s.gpr dest) shape) =
      !decide (Cell.objectType ≤ shape.cellType) := by
  rw [← typeOf_writeHeader s shape dest]
  exact Guard.leaves_eq (Guard.notObject_behaves _ _ _ (.packed dest))

/-- Code that stores a header can be placed wherever there is room. It falls through, whatever the
options, with the registers as they were and with the bytes of the header over what was in memory.
After that a comparison with a shape comes out as it does for the shape that was stored, and the
tests for strings and objects go by its cell type. -/
theorem store_overlays_header (shape : Shape) (dest : Gpr) (s : State) :
    let final := s.writeHeader (s.gpr dest) shape
    (∀ (v : Services) (o : Options) (a : Assembler), a.origin = 0 →
      a.next + (store o shape dest).length < wordLimit →
      ∃ placed, a.place (store o shape dest) = .ok (placed, []) ∧ ∀ rest : Array Inst,
        ∃ trace, Run.Passes v (placed.code ++ rest) a.next s trace placed.next final ∧
          ∀ q ∈ trace, a.next ≤ q ∧ q < placed.next) ∧
    final.gprs = s.gprs ∧ final.fprs = s.fprs ∧
    (∀ c, final.memory.byte c =
      (shape.headerBytes[(c - s.gpr dest).toNat]?).getD (s.memory.byte c)) ∧
    ∀ o : Options,
      (∀ relation id, (Guard.shape relation dest id).leaves o final =
        relation.holds shape.id.raw id.raw) ∧
      (Guard.notString dest).leaves o final = !decide (shape.cellType = Cell.stringType) ∧
      (Guard.notObject dest).leaves o final = !decide (Cell.objectType ≤ shape.cellType) := by
  intro final
  refine ⟨fun v o a fresh room => ?_, rfl, rfl, fun c => s.byte_writeHeader _ c shape,
    fun o => ⟨leaves_shape s o shape dest, leaves_notString s o shape dest,
      leaves_notObject s o shape dest⟩⟩
  have sealed := (store_closed o shape dest).exitsFrom_eq_nil a.next
  exact (store_within o shape dest).forward.passes_placed sealed
    (store_behaves v s o shape dest) fresh room

/-- The header of a cell at the end of the address space goes on at its beginning, in one store with
checks as in two. -/
theorem store_overlays_around :
    let s := State.zero.setGpr .t1 0xFFFFFFFFFFFFFFFC#64
    let shape : Shape := ⟨⟨0x77#32⟩, 3#8, Cell.finalObjectType, 0x20#8⟩
    ∃ final : State, (∀ o, ∃ placed trace,
        ({} : Assembler).place (store o shape .t1) = .ok (placed, []) ∧
        Run.Passes .none placed.code 0 s trace placed.next final) ∧
      final.memory.byte 0xFFFFFFFFFFFFFFFC#64 = 0x77#8 ∧
      final.memory.byte 1#64 = Cell.finalObjectType ∧ final.memory.byte 4#64 = 0#8 := by
  intro s shape
  obtain ⟨runs, _, _, bytes, _⟩ := store_overlays_header shape .t1 s
  refine ⟨s.writeHeader (s.gpr .t1) shape, fun o => ?_, ?_, ?_, ?_⟩
  · have room : ({} : Assembler).next + (store o shape .t1).length < wordLimit := by
      have bound := (store_within o shape .t1).length
      have start : ({} : Assembler).next = 0 := rfl
      unfold wordLimit
      omega
    obtain ⟨placed, placing, run⟩ := runs .none o {} rfl room
    obtain ⟨trace, passes, _⟩ := run #[]
    rw [Array.append_empty] at passes
    exact ⟨placed, trace, placing, passes⟩
  · have start : s.gpr .t1 = 0xFFFFFFFFFFFFFFFC#64 := rfl
    have first : shape.headerBytes[0]? = some 0x77#8 := by decide
    rw [bytes, start, BitVec.sub_self]
    exact congrArg (Option.getD · _) first
  · have sixth : shape.headerBytes[(1#64 - s.gpr .t1).toNat]? = some Cell.finalObjectType := rfl
    rw [bytes, sixth, Option.getD_some]
  · have behind : shape.headerBytes[(4#64 - s.gpr .t1).toNat]? = none := rfl
    rw [bytes, behind, Option.getD_none]
    exact Memory.byte_empty 4#64

end Header

end InlineCache
