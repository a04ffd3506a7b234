import InlineCache.Code.Inst
import InlineCache.Fault

/-!
Pieces of code that can be placed anywhere. The targets inside a fragment count from its first
instruction; the branches without a target are its *exits*, for whoever places it to link.
-/

namespace InlineCache

abbrev Fragment := List Inst

namespace Fragment

/-- The fragment with its targets counted from `distance` instructions earlier. -/
def shift (distance : Nat) (f : Fragment) : Fragment := f.map (Inst.shift distance)

def andThen (f g : Fragment) : Fragment := f ++ shift f.length g

def linkExits (target : Nat) (f : Fragment) : Fragment := f.map (Inst.linkOpen target)

/-- The exits of `test` go past `body`, which follows it. -/
def skipping (test body : Fragment) : Fragment :=
  linkExits (test.length + body.length) test ++ shift test.length body

def exitsFrom : (base : Nat) → Fragment → List Nat
  | _, [] => []
  | base, i :: rest =>
      if i.isUnlinked then base :: exitsFrom (base + 1) rest else exitsFrom (base + 1) rest

/-- A branch can stand only where its position fits a word, and can only go where that fits. -/
def fitsFrom (start : Nat) : (base : Nat) → Fragment → Bool
  | _, [] => true
  | base, i :: rest =>
      (match i with
        | .branch _ none => base < wordLimit
        | .branch _ (some target) => base < wordLimit && start + target < wordLimit
        | _ => true) && fitsFrom start (base + 1) rest

def fits (start : Nat) (f : Fragment) : Bool := fitsFrom start start f

@[simp]
theorem length_shift (distance : Nat) (f : Fragment) : (shift distance f).length = f.length := by
  simp only [shift, List.length_map]

@[simp]
theorem length_linkExits (target : Nat) (f : Fragment) :
    (linkExits target f).length = f.length := by
  simp only [linkExits, List.length_map]

@[simp]
theorem length_andThen (f g : Fragment) : (f.andThen g).length = f.length + g.length := by
  simp only [andThen, List.length_append, length_shift]

theorem skipping_eq_andThen (test body : Fragment) :
    test.skipping body = (linkExits (test.length + body.length) test).andThen body := by
  rw [skipping, andThen, length_linkExits]

@[simp]
theorem length_skipping (test body : Fragment) :
    (test.skipping body).length = test.length + body.length := by
  rw [skipping_eq_andThen, length_andThen, length_linkExits]

theorem shift_shift (first second : Nat) (f : Fragment) :
    shift second (shift first f) = shift (first + second) f := by
  simp only [shift, List.map_map]
  apply List.map_congr_left
  intro i _
  exact i.shift_shift first second

theorem exitsFrom_shift (distance : Nat) (base : Nat) (f : Fragment) :
    exitsFrom base (shift distance f) = exitsFrom base f := by
  induction f generalizing base with
  | nil => rfl
  | cons i rest ih =>
      have tail := ih (base + 1)
      simp only [shift] at tail
      simp only [shift, List.map_cons, exitsFrom, Inst.isUnlinked_shift, tail]

theorem exitsFrom_append (base : Nat) (f g : Fragment) :
    exitsFrom base (f ++ g) = exitsFrom base f ++ exitsFrom (base + f.length) g := by
  induction f generalizing base with
  | nil => rfl
  | cons i rest ih =>
      have place : base + 1 + rest.length = base + (rest.length + 1) := by omega
      simp only [List.cons_append, List.length_cons, exitsFrom, ih, place]
      split
      next exit => rfl
      next linked => rfl

end Fragment

end InlineCache
