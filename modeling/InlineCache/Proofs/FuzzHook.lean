import InlineCache.Emit.ExceptionCheck
import InlineCache.Proofs.MemoryWords
import InlineCache.Proofs.RegionContents

/-!
The fuzz hook. Every allocatable register has a word of the spill buffer as its home, and the homes
have no byte in common, even in a buffer that runs over the end of the address space. The hook
stores the registers in their homes, calls the fuzz operation with the call frame, and loads the
registers again. Whatever the operation does elsewhere, the program gets its registers back.
-/

namespace InlineCache

namespace Memory

def writeWords (m : Memory) : List (Word × Word) → Memory
  | [] => m
  | (a, w) :: rest => (m.write64 a w).writeWords rest

variable {words : List (Word × Word)}

theorem writeWords_append (m : Memory) (early late : List (Word × Word)) :
    m.writeWords (early ++ late) = (m.writeWords early).writeWords late := by
  induction early generalizing m with
  | nil => rfl
  | cons first rest ih => exact ih (m.write64 first.1 first.2)

theorem byte_writeWords_of_outside (m : Memory) {c : Word}
    (outside : ∀ p ∈ words, 8 ≤ (c - p.1).toNat) : (m.writeWords words).byte c = m.byte c := by
  induction words generalizing m with
  | nil => rfl
  | cons first rest ih =>
    rw [List.forall_mem_cons] at outside
    rw [writeWords, ih _ outside.2, byte_write64_of_outside _ _ outside.1]

theorem read64_writeWords_of_apart (m : Memory) {b : Word}
    (apart : ∀ p ∈ words, 8 ≤ (b - p.1).toNat ∧ 8 ≤ (p.1 - b).toNat) :
    (m.writeWords words).read64 b = m.read64 b := by
  induction words generalizing m with
  | nil => rfl
  | cons first rest ih =>
    rw [List.forall_mem_cons] at apart
    rw [writeWords, ih _ apart.2, read64_write64_of_apart _ _ apart.1.1 apart.1.2]

theorem read64_writeWords (m : Memory) {a w : Word}
    (apart : words.Pairwise fun p q => 8 ≤ (p.1 - q.1).toNat ∧ 8 ≤ (q.1 - p.1).toNat)
    (member : (a, w) ∈ words) : (m.writeWords words).read64 a = w := by
  induction words generalizing m with
  | nil => cases member
  | cons first rest ih =>
    rw [List.pairwise_cons] at apart
    rcases List.mem_cons.mp member with rfl | later
    · rw [writeWords, read64_writeWords_of_apart _ apart.1, read64_write64]
    · exact ih _ apart.2 later

end Memory

/-- With fuel enough, a run gets from one position and state to another through the positions
listed. It makes one call, of the host function at `entry`, which is handed the state `seen`. -/
def Run.CallsOnce (v : Services) (code : Array Inst) (pc : Nat) (s : State) (entry : Word)
    (seen : State) (trace : List Nat) (last : Nat) (t : State) : Prop :=
  (∃ early late call target, trace = early ++ call :: late ∧
    Run.Passes v code pc s early call seen ∧ code[call]? = some (.call target) ∧
    seen.gpr target = entry) ∧
  ∀ limit fuel before made,
    Run.resume v code limit (trace.length + fuel) pc s before made =
      Run.resume v code limit fuel last t (before ++ trace.toArray) (made.push (.host entry))

namespace Fragment

variable {v : Services} {s seen t u : State} {f g : Fragment} {leaves : Bool}

theorem Behaves.append (first : f.Behaves v s false t) (straight : g.Straight)
    (second : g.Behaves v t leaves u) : Behaves v (f ++ g) s leaves u := by
  rw [← straight.andThen_eq]
  exact first.andThen second

def calling (target : Gpr) (f g : Fragment) : Fragment :=
  f.andThen (Fragment.andThen [.call target] g)

@[simp]
theorem length_calling (target : Gpr) (f g : Fragment) :
    (calling target f g).length = f.length + (1 + g.length) := by
  rw [calling, length_andThen, length_andThen, List.length_singleton]

theorem Behaves.callsOnce {target : Gpr} {host : State → State} {code : Array Inst}
    {start exit : Nat} (first : f.Behaves v s false seen)
    (installed : v.host? (seen.gpr target) = some host) (second : g.Behaves v (host seen) leaves t)
    (stands : (calling target f g).StandsAt code start exit) :
    ∃ trace, Run.CallsOnce v code start s (seen.gpr target) seen trace
        (if leaves then exit else start + (calling target f g).length) t ∧
      ∀ q ∈ trace, start ≤ q ∧ q < start + (calling target f g).length := by
  obtain ⟨early, before, within, _⟩ := first code start exit stands.fst_of_andThen
  have here := stands.snd_of_andThen.fst_of_andThen 0 _ rfl
  obtain ⟨late, after, within', _⟩ := second code _ exit stands.snd_of_andThen.snd_of_andThen
  have call : Path v code (start + f.length) seen [start + f.length] [.host (seen.gpr target)]
      (start + f.length + 1) (host seen) :=
    .called here (by simp [Inst.shift, Inst.linkOpen, step, installed]) (.stay _ _)
  have whole : Path v code start s (early ++ (start + f.length) :: late) [.host (seen.gpr target)]
      (if leaves then exit else start + f.length + 1 + g.length) t :=
    before.trans (call.trans after)
  rw [length_calling, ← Nat.add_assoc, ← Nat.add_assoc]
  refine ⟨early ++ (start + f.length) :: late,
    ⟨⟨early, late, _, target, rfl, before.passes, here, rfl⟩, fun limit fuel before made => ?_⟩,
    fun q member => ?_⟩
  · rw [whole.resume_eq]
    simp
  · rcases List.mem_append.mp member with soon | rest
    · have bounds := within q soon
      omega
    · rcases List.mem_cons.mp rest with rfl | later
      · omega
      · have bounds := within' q later
        simp only [List.length_singleton] at bounds
        omega

theorem Behaves.flatMap_cons {α : Type} {piece : α → Fragment} {x : α} {rest : List α}
    (straight : ∀ x, (piece x).Straight) (here : (piece x).Behaves v s false t)
    (later : Behaves v (rest.flatMap piece) t leaves u) :
    Behaves v ((x :: rest).flatMap piece) s leaves u := by
  rw [List.flatMap_cons]
  apply here.append _ later
  intro i member
  obtain ⟨y, _, listed⟩ := List.mem_flatMap.mp member
  exact straight y i listed

end Fragment

theorem Fpr.mem_allocatable (r : Fpr) : r ∈ Fpr.allocatable :=
  List.mem_map.mpr ⟨r.index, List.mem_finRange _, rfl⟩

namespace RuntimeLayout

variable {l : RuntimeLayout}

def InBuffer (l : RuntimeLayout) (c : Word) : Prop := (c - l.spillBuffer).toNat < spillSize

instance (l : RuntimeLayout) (c : Word) : Decidable (l.InBuffer c) :=
  inferInstanceAs (Decidable (_ < _))

def gprHome (l : RuntimeLayout) (r : Gpr) : Word := l.slotAddress (Gpr.allocatable.idxOf r)

def fprHome (l : RuntimeLayout) (r : Fpr) : Word :=
  l.slotAddress (Gpr.allocatable.length + Fpr.allocatable.idxOf r)

def saved (l : RuntimeLayout) (s : State) : List (Word × Word) :=
  (Gpr.allocatable.map fun r => (l.gprHome r, s.gpr r)) ++
    Fpr.allocatable.map fun r => (l.fprHome r, s.fpr r)

def slotCount : Nat := Gpr.allocatable.length + Fpr.allocatable.length

theorem spillSize_eq : spillSize = 8 * slotCount := rfl

/-- Every slot starts within the address space. -/
def Addressable (l : RuntimeLayout) : Prop :=
  l.spillBuffer.toNat + 8 * (slotCount - 1) < wordLimit

instance (l : RuntimeLayout) : Decidable l.Addressable := inferInstanceAs (Decidable (_ < _))

theorem homes_eq (l : RuntimeLayout) (s : State) :
    (l.saved s).map Prod.fst = (List.range slotCount).map l.slotAddress := rfl

theorem toNat_slotOffset {n : Nat} (slot : n < slotCount) :
    (BitVec.ofNat 64 (8 * n)).toNat = 8 * n := by
  have few : slotCount ≤ 2 ^ 32 := by decide
  rw [BitVec.toNat_ofNat]
  omega

theorem slots_apart (l : RuntimeLayout) {m n : Nat} (first : m < slotCount) (second : n < slotCount)
    (differ : m ≠ n) : 8 ≤ (l.slotAddress m - l.slotAddress n).toNat := by
  have here := toNat_slotOffset first
  have there := toNat_slotOffset second
  unfold slotAddress
  bv_omega

theorem inBuffer_slot (l : RuntimeLayout) {n k : Nat} (slot : n < slotCount) (place : k < 8) :
    l.InBuffer (l.slotAddress n + BitVec.ofNat 64 k) := by
  have start := toNat_slotOffset slot
  have further : (BitVec.ofNat 64 k).toNat = k := by
    rw [BitVec.toNat_ofNat]
    omega
  unfold InBuffer slotAddress
  rw [spillSize_eq]
  bv_omega

theorem slot_apart_outside (l : RuntimeLayout) {n : Nat} {c : Word} (slot : n < slotCount)
    (outside : ¬ l.InBuffer c) : 8 ≤ (c - l.slotAddress n).toNat := by
  have start := toNat_slotOffset slot
  unfold InBuffer at outside
  unfold slotAddress
  rw [spillSize_eq] at outside
  bv_omega

theorem slot_of_mem_saved {s : State} {p : Word × Word} (member : p ∈ l.saved s) :
    ∃ n < slotCount, p.1 = l.slotAddress n := by
  have listed : p.1 ∈ (l.saved s).map Prod.fst := List.mem_map_of_mem member
  rw [homes_eq] at listed
  obtain ⟨n, inside, same⟩ := List.mem_map.mp listed
  exact ⟨n, List.mem_range.mp inside, same.symm⟩

theorem saved_apart (l : RuntimeLayout) (s : State) :
    (l.saved s).Pairwise fun p q => 8 ≤ (p.1 - q.1).toNat ∧ 8 ≤ (q.1 - p.1).toNat := by
  have slots : ((List.range slotCount).map l.slotAddress).Pairwise fun a b =>
      8 ≤ (a - b).toNat ∧ 8 ≤ (b - a).toNat := by
    rw [List.pairwise_map]
    apply List.Pairwise.imp_of_mem _ List.pairwise_lt_range
    intro m n first second order
    rw [List.mem_range] at first second
    exact ⟨l.slots_apart first second (by omega), l.slots_apart second first (by omega)⟩
  rw [← l.homes_eq s, List.pairwise_map] at slots
  exact slots

theorem mem_saved_gpr (l : RuntimeLayout) (s : State) {r : Gpr} (listed : r ∈ Gpr.allocatable) :
    (l.gprHome r, s.gpr r) ∈ l.saved s :=
  List.mem_append_left _ (List.mem_map.mpr ⟨r, listed, rfl⟩)

theorem mem_saved_fpr (l : RuntimeLayout) (s : State) (r : Fpr) :
    (l.fprHome r, s.fpr r) ∈ l.saved s :=
  List.mem_append_right _ (List.mem_map.mpr ⟨r, r.mem_allocatable, rfl⟩)

theorem read64_saved {s : State} {m : Memory} {a w : Word}
    (kept : ∀ c, l.InBuffer c → m.byte c = (s.memory.writeWords (l.saved s)).byte c)
    (member : (a, w) ∈ l.saved s) : m.read64 a = w := by
  obtain ⟨n, slot, home⟩ := slot_of_mem_saved member
  have same : m.load .word a = (s.memory.writeWords (l.saved s)).load .word a := by
    apply Memory.load_congr
    intro k place
    apply kept
    rw [show a = l.slotAddress n from home]
    exact l.inBuffer_slot slot place
  calc
    m.read64 a = (s.memory.writeWords (l.saved s)).read64 a := same
    _ = w := s.memory.read64_writeWords (l.saved_apart s) member

theorem byte_saved_of_outside (l : RuntimeLayout) (s : State) {c : Word}
    (outside : ¬ l.InBuffer c) : (s.memory.writeWords (l.saved s)).byte c = s.memory.byte c := by
  apply Memory.byte_writeWords_of_outside
  intro p member
  obtain ⟨n, slot, home⟩ := slot_of_mem_saved member
  rw [home]
  exact l.slot_apart_outside slot outside

end RuntimeLayout

theorem State.fpr_of_fprs_eq {s t : State} (same : t.fprs = s.fprs) (r : Fpr) :
    t.fpr r = s.fpr r := by
  rw [fpr, fpr, same]

namespace ExceptionCheck

def saveGpr (l : RuntimeLayout) (r : Gpr) : Fragment := [.store64 r (.absolute (l.gprHome r))]

def loadGpr (l : RuntimeLayout) (r : Gpr) : Fragment := [.load64 r (.absolute (l.gprHome r))]

def saveFpr (l : RuntimeLayout) (r : Fpr) : Fragment :=
  [.moveImm .t0 (l.fprHome r), .storeDouble r (.base .t0 0#32)]

def loadFpr (l : RuntimeLayout) (r : Fpr) : Fragment :=
  [.moveImm .t0 (l.fprHome r), .loadDouble r (.base .t0 0#32)]

def enter (l : RuntimeLayout) : Fragment :=
  Gpr.allocatable.flatMap (saveGpr l) ++ Fpr.allocatable.flatMap (saveFpr l) ++
    [.move .argument0 .callFrame, .moveImm .callTarget l.fuzzEntry]

def leave (l : RuntimeLayout) : Fragment :=
  Fpr.allocatable.flatMap (loadFpr l) ++ Gpr.allocatable.flatMap (loadGpr l)

variable (v : Services) (l : RuntimeLayout)

theorem address_setGpr_t0 (s : State) (a : Word) :
    (s.setGpr .t0 a).address (.base .t0 0#32) = a := by
  simp [State.address, State.gpr_setGpr]

theorem point_behaves (s : State) (a : Word) :
    Fragment.Behaves v [.moveImm .t0 a] s false (s.setGpr .t0 a) := .plain rfl fun _ => rfl

theorem saveFpr_behaves (s : State) (r : Fpr) :
    (saveFpr l r).Behaves v s false
      ((s.setGpr .t0 (l.fprHome r)).write64 (l.fprHome r) (s.fpr r)) := by
  have store : Fragment.Behaves v [.storeDouble r (.base .t0 0#32)]
      (s.setGpr .t0 (l.fprHome r)) false
      ((s.setGpr .t0 (l.fprHome r)).write64 (l.fprHome r) (s.fpr r)) :=
    .plain rfl fun _ => by rw [step, address_setGpr_t0]; rfl
  exact (point_behaves v s (l.fprHome r)).andThen store

theorem loadFpr_behaves (s : State) (r : Fpr) :
    (loadFpr l r).Behaves v s false
      ((s.setGpr .t0 (l.fprHome r)).setFpr r (s.memory.read64 (l.fprHome r))) := by
  have load : Fragment.Behaves v [.loadDouble r (.base .t0 0#32)]
      (s.setGpr .t0 (l.fprHome r)) false
      ((s.setGpr .t0 (l.fprHome r)).setFpr r (s.memory.read64 (l.fprHome r))) :=
    .plain rfl fun _ => by rw [step, address_setGpr_t0]; rfl
  exact (point_behaves v s (l.fprHome r)).andThen load

theorem saveGprs_behaves (rs : List Gpr) (s : State) :
    Fragment.Behaves v (rs.flatMap (saveGpr l)) s false
      { s with memory := s.memory.writeWords (rs.map fun r => (l.gprHome r, s.gpr r)) } := by
  induction rs generalizing s with
  | nil => exact .empty v s
  | cons r rest ih =>
    have here : (saveGpr l r).Behaves v s false (s.write64 (l.gprHome r) (s.gpr r)) :=
      .plain rfl fun _ => rfl
    exact .flatMap_cons (fun _ => .of_all rfl) here (ih _)

/-- Floating-point registers are stored in their homes, at the cost of the first temporary. -/
theorem saveFprs_behaves (rs : List Fpr) (s : State) :
    ∃ t, Fragment.Behaves v (rs.flatMap (saveFpr l)) s false t ∧
      (∀ q, q ≠ .t0 → t.gpr q = s.gpr q) ∧
      t.memory = s.memory.writeWords (rs.map fun r => (l.fprHome r, s.fpr r)) := by
  induction rs generalizing s with
  | nil => exact ⟨s, .empty v s, fun _ _ => rfl, rfl⟩
  | cons r rest ih =>
    obtain ⟨t, later, gprs, memory⟩ :=
      ih ((s.setGpr .t0 (l.fprHome r)).write64 (l.fprHome r) (s.fpr r))
    refine ⟨t, .flatMap_cons (fun _ => .of_all rfl) (saveFpr_behaves v l s r) later,
      fun q other => ?_, memory⟩
    rw [gprs q other]
    exact (s.gpr_setGpr .t0 q _).trans (if_neg other)

theorem loadFprs_behaves (rs : List Fpr) (s : State) :
    ∃ t, Fragment.Behaves v (rs.flatMap (loadFpr l)) s false t ∧
      (∀ q, q ≠ .t0 → t.gpr q = s.gpr q) ∧
      (∀ q, t.fpr q = if q ∈ rs then s.memory.read64 (l.fprHome q) else s.fpr q) ∧
      t.memory = s.memory := by
  induction rs generalizing s with
  | nil => exact ⟨s, .empty v s, fun _ _ => rfl, by simp, rfl⟩
  | cons r rest ih =>
    obtain ⟨t, later, gprs, fprs, memory⟩ :=
      ih ((s.setGpr .t0 (l.fprHome r)).setFpr r (s.memory.read64 (l.fprHome r)))
    refine ⟨t, .flatMap_cons (fun _ => .of_all rfl) (loadFpr_behaves v l s r) later,
      fun q other => ?_, fun q => ?_, memory⟩
    · rw [gprs q other]
      exact (s.gpr_setGpr .t0 q _).trans (if_neg other)
    · rw [fprs q, State.fpr_setFpr]
      by_cases same : q = r
      · subst same
        simp [State.setFpr, State.setGpr]
      · simp only [List.mem_cons, same, false_or, if_false]
        rfl

theorem loadGprs_behaves (rs : List Gpr) (s : State) :
    ∃ t, Fragment.Behaves v (rs.flatMap (loadGpr l)) s false t ∧
      (∀ q, t.gpr q = if q ∈ rs then s.memory.read64 (l.gprHome q) else s.gpr q) ∧
      t.fprs = s.fprs ∧ t.memory = s.memory := by
  induction rs generalizing s with
  | nil => exact ⟨s, .empty v s, by simp, rfl, rfl⟩
  | cons r rest ih =>
    have here : (loadGpr l r).Behaves v s false (s.setGpr r (s.memory.read64 (l.gprHome r))) :=
      .plain rfl fun _ => rfl
    obtain ⟨t, later, gprs, kept⟩ := ih (s.setGpr r (s.memory.read64 (l.gprHome r)))
    refine ⟨t, .flatMap_cons (fun _ => .of_all rfl) here later, fun q => ?_, kept⟩
    rw [gprs q, State.gpr_setGpr]
    by_cases same : q = r
    · subst same
      simp [State.setGpr]
    · simp only [List.mem_cons, same, false_or, if_false]
      rfl

theorem hook_straight : (hook l).Straight := .of_all rfl

theorem hook_eq : hook l = Fragment.calling .callTarget (enter l) (leave l) := by
  have last : (leave l).Straight := .of_all rfl
  have whole : Fragment.Straight ([.call .callTarget] ++ leave l) := .of_all rfl
  have saves : spillGprs l = Gpr.allocatable.flatMap (saveGpr l) ∧
      spillFprs l = Fpr.allocatable.flatMap (saveFpr l) := ⟨rfl, rfl⟩
  have loads : restoreFprs l = Fpr.allocatable.flatMap (loadFpr l) ∧
      restoreGprs l = Gpr.allocatable.flatMap (loadGpr l) := ⟨rfl, rfl⟩
  rw [Fragment.calling, last.andThen_eq, whole.andThen_eq, hook, saves.1, saves.2, loads.1,
    loads.2]
  simp only [enter, leave, callFuzz, List.append_assoc, List.cons_append, List.nil_append]

theorem enter_behaves (s : State) :
    ∃ seen, (enter l).Behaves v s false seen ∧ seen.gpr .argument0 = s.gpr .callFrame ∧
      seen.gpr .callTarget = l.fuzzEntry ∧ seen.memory = s.memory.writeWords (l.saved s) := by
  have general := saveGprs_behaves v l Gpr.allocatable s
  obtain ⟨t, floating, kept, memory⟩ := saveFprs_behaves v l Fpr.allocatable _
  have spilled := general.append (.of_all rfl) floating
  let framed := t.setGpr .argument0 (t.gpr .callFrame)
  have frame : Fragment.Behaves v [.move .argument0 .callFrame] t false framed :=
    .plain rfl fun _ => rfl
  have target : Fragment.Behaves v [.moveImm .callTarget l.fuzzEntry] framed false
      (framed.setGpr .callTarget l.fuzzEntry) := .plain rfl fun _ => rfl
  refine ⟨_, spilled.append (.of_all rfl) (frame.andThen target), ?_, ?_, ?_⟩
  · calc
      (framed.setGpr .callTarget l.fuzzEntry).gpr .argument0 = t.gpr .callFrame := by
        simp [framed, State.gpr_setGpr, Gpr.argument0, Gpr.callTarget]
      _ = s.gpr .callFrame := kept _ (by decide)
  · rw [State.gpr_setGpr, if_pos rfl]
  · rw [RuntimeLayout.saved, Memory.writeWords_append]
    exact memory

/-- After the call, every register that has a home is loaded from there. The first temporary is one
of these, and it is loaded when it is no longer needed for the others. -/
theorem leave_behaves (s : State) :
    ∃ t, (leave l).Behaves v s false t ∧
      (∀ r, t.gpr r = if r ∈ Gpr.allocatable then s.memory.read64 (l.gprHome r) else s.gpr r) ∧
      (∀ r, t.fpr r = s.memory.read64 (l.fprHome r)) ∧ t.memory = s.memory := by
  obtain ⟨mid, floating, kept, fprs, memory⟩ := loadFprs_behaves v l Fpr.allocatable s
  obtain ⟨t, general, gprs, same, memory'⟩ := loadGprs_behaves v l Gpr.allocatable mid
  refine ⟨t, floating.append (.of_all rfl) general, fun r => ?_, fun r => ?_,
    memory'.trans memory⟩
  · rw [gprs r, memory]
    by_cases listed : r ∈ Gpr.allocatable
    · rw [if_pos listed, if_pos listed]
    · have other : r ≠ .t0 := by
        rintro rfl
        exact listed (by decide)
      rw [if_neg listed, if_neg listed, kept r other]
  · rw [State.fpr_of_fprs_eq same, fprs r, if_pos r.mem_allocatable]

def hooked (o : Options) (l : RuntimeLayout) : Fragment := if o.exceptionFuzzing then hook l else []

theorem fuzz_eq_ok_iff {o : Options} {l : RuntimeLayout} {f : Fragment} :
    fuzz o l = .ok f ↔ (o.exceptionFuzzing = true → l.Addressable) ∧ f = hooked o l := by
  have last : l.fprSlot (Fpr.allocatable.length - 1) =
      if l.Addressable then .ok (l.slotAddress (RuntimeLayout.slotCount - 1))
      else .error .overflow := rfl
  unfold fuzz hooked
  rw [last]
  cases o.exceptionFuzzing with
  | false => simp [pure, Except.pure, eq_comm]
  | true =>
    by_cases fits : l.Addressable
    · simp [fits, bind, Except.bind, pure, Except.pure, eq_comm]
    · simp [fits, bind, Except.bind]

/-- The hook calls the fuzz operation once, with the call frame as its argument and with memory as
it was apart from the spill buffer. If the operation spares the buffer, the program goes on with
all its registers, and with everything else as the operation left it. -/
theorem fuzz_preserves_registers (v : Services) {o : Options} {l : RuntimeLayout} {f : Fragment}
    {host : State → State} (enabled : o.exceptionFuzzing = true) (emitted : fuzz o l = .ok f)
    (installed : v.host? l.fuzzEntry = some host)
    (sparing : ∀ t c, l.InBuffer c → (host t).memory.byte c = t.memory.byte c) (s : State)
    {a : Assembler} (fresh : a.origin = 0) (rest : Array Inst) :
    ∃ (placed : Assembler) (trace : List Nat) (seen final : State),
      a.place f = .ok (placed, []) ∧
      Run.CallsOnce v (placed.code ++ rest) a.next s l.fuzzEntry seen trace placed.next final ∧
      (∀ q ∈ trace, a.next ≤ q ∧ q < placed.next) ∧
      seen.gpr .argument0 = s.gpr .callFrame ∧
      (∀ c, ¬ l.InBuffer c → seen.memory.byte c = s.memory.byte c) ∧
      (∀ r ∈ Gpr.allocatable, final.gpr r = s.gpr r) ∧ (∀ r, final.fpr r = s.fpr r) ∧
      (∀ r, r ∉ Gpr.allocatable → final.gpr r = (host seen).gpr r) ∧
      final.memory = (host seen).memory := by
  obtain ⟨_, same⟩ := fuzz_eq_ok_iff.mp emitted
  rw [hooked, if_pos enabled] at same
  subst same
  obtain ⟨seen, enters, frame, target, saved⟩ := enter_behaves v l s
  obtain ⟨final, leaves, gprs, fprs, memory⟩ := leave_behaves v l (host seen)
  have placed := (hook_straight l).place_eq a
  have stands : (hook l).StandsAt _ a.next 0 := Fragment.standsAt_of_place fresh placed rfl rest
  rw [hook_eq] at stands
  obtain ⟨trace, run, within⟩ := enters.callsOnce (by rw [target]; exact installed) leaves stands
  rw [← hook_eq, ← Assembler.next_place placed] at within
  rw [if_neg Bool.false_ne_true, ← hook_eq, ← Assembler.next_place placed, target] at run
  have kept (c : Word) (inside : l.InBuffer c) :
      (host seen).memory.byte c = (s.memory.writeWords (l.saved s)).byte c := by
    rw [sparing seen c inside, saved]
  refine ⟨_, trace, seen, final, placed, run, within, frame, fun c outside => ?_,
    fun r listed => ?_, fun r => ?_, fun r other => ?_, memory⟩
  · rw [saved, l.byte_saved_of_outside s outside]
  · rw [gprs r, if_pos listed]
    exact RuntimeLayout.read64_saved kept (l.mem_saved_gpr s listed)
  · rw [fprs r]
    exact RuntimeLayout.read64_saved kept (l.mem_saved_fpr s r)
  · rw [gprs r, if_neg other]

/-- The last slot of this buffer runs over the end of the address space. -/
def topmost : RuntimeLayout := ⟨0x2000#64, 0xFFFFFFFFFFFFFF27#64, 0x5000#64⟩

def clobber (s : State) : State :=
  let general := ((s.setGpr .t0 7#64).setGpr .callTarget 8#64).setGpr .stackPointer 9#64
  (general.setFpr .t0 10#64).setByte topmost.exceptionSlot 11#8

theorem fuzz_preserves_registers_topmost :
    let v := Services.none.installHost 0x5000#64 clobber
    let s := (State.zero.setGpr .t0 0x1234#64).setFpr .t0 0x7FF8000000000123#64
    ∃ (placed : Assembler) (trace : List Nat) (seen final : State),
      ({} : Assembler).place (hook topmost) = .ok (placed, []) ∧
      Run.CallsOnce v placed.code 0 s 0x5000#64 seen trace placed.next final ∧
      final.gpr .t0 = 0x1234#64 ∧ final.fpr .t0 = 0x7FF8000000000123#64 ∧
      final.gpr .stackPointer = 9#64 ∧ final.memory.byte 0x2000#64 = 11#8 := by
  intro v s
  have sparing (t : State) (c : Word) (inside : topmost.InBuffer c) :
      (clobber t).memory.byte c = t.memory.byte c := by
    have apart : c ≠ topmost.exceptionSlot := by
      rintro rfl
      revert inside
      decide
    exact (Memory.byte_setByte _ _ _ _).trans (if_neg apart)
  obtain ⟨placed, trace, seen, final, placing, run, _, _, _, gprs, fprs, others, memory⟩ :=
    @fuzz_preserves_registers v { exceptionFuzzing := true } topmost (hook topmost) clobber rfl
      (fuzz_eq_ok_iff.mpr ⟨fun _ => by decide, rfl⟩) rfl sparing s {} rfl #[]
  rw [Array.append_empty] at run
  refine ⟨placed, trace, seen, final, placing, run, ?_, ?_, ?_, ?_⟩
  · rw [gprs .t0 (by decide)]
    rfl
  · rw [fprs]
    rfl
  · rw [others .stackPointer (by decide)]
    exact (State.gpr_setGpr _ _ _ _).trans (if_pos rfl)
  · rw [memory]
    exact (Memory.byte_setByte _ _ _ _).trans (if_pos rfl)

end ExceptionCheck

end InlineCache
