import InlineCache.Proofs.TypeJoin

/-!
Types ordered by what they admit. Apart from the lowest and the highest, every type belongs to one
of four families, and types of different families have no value in common. A type that covers two
families therefore covers everything, and within a family a join adds nothing that its operands do
not force: it is the least type that covers both.
-/

namespace InlineCache

inductive Family where
  | booleans
  | numbers
  | strings
  | objects
deriving DecidableEq, Repr

/-- The family of a value; cells that are neither objects nor strings have none. -/
def Value.family? : Value → Option Family
  | int32 _ => some .numbers
  | double _ => some .numbers
  | boolean _ => some .booleans
  | null => some .objects
  | undefined => some .objects
  | cell _ _ cellType =>
      if Cell.objectType ≤ cellType then some .objects
      else if cellType = Cell.stringType then some .strings
      else none

namespace Ty

def family? : Ty → Option Family
  | boolean => some .booleans
  | int32 => some .numbers
  | number => some .numbers
  | string => some .strings
  | other => some .objects
  | object => some .objects
  | objectOrOther => some .objects
  | objectWithShape _ => some .objects
  | objectWithShapeOrOther _ => some .objects
  | bottom => none
  | top => none

/-- The shapes that the types name are shapes of objects, as far as the value can tell. -/
def TypedBy (types : List Ty) (v : Value) : Prop := ∀ t ∈ types, t.Typed v

/-- Among the values that the types listed agree with, one type admits all that another does. -/
def Covers (types : List Ty) (c t : Ty) : Prop :=
  ∀ v, TypedBy types v → t.admits v = true → c.admits v = true

section Families

variable {t : Ty} {v : Value} {F : Family}

theorem family?_of_isOther (other : v.isOther = true) : v.family? = some .objects := by
  cases v with
  | null => rfl
  | undefined => rfl
  | _ => cases other

theorem family?_of_isObject (object : isObject v = true) : v.family? = some .objects := by
  cases v with
  | cell address shape cellType =>
    rw [isObject, decide_eq_true_eq] at object
    rw [Value.family?, if_pos object]
  | _ => cases object

theorem family?_eq_objects_iff : t.family? = some .objects ↔ ∃ p x, t.objects? = some (p, x) := by
  cases t <;> simp [family?, objects?]

theorem eq_bottom_or_top (none : t.family? = none) : t = bottom ∨ t = top := by
  cases t with
  | bottom => exact .inl rfl
  | top => exact .inr rfl
  | _ => cases none

theorem family?_of_admits (typed : t.Typed v) (belongs : t.family? = some F)
    (admitted : t.admits v = true) : v.family? = some F := by
  by_cases objects : F = .objects
  · subst objects
    obtain ⟨p, x, parts⟩ := family?_eq_objects_iff.mp belongs
    have whole := ofObjects_of_objects? parts
    rw [← whole, admits_ofObjects, Bool.or_eq_true, Bool.and_eq_true] at admitted
    rcases admitted with ⟨_, other⟩ | covered
    · exact family?_of_isOther other
    · cases x with
      | none => cases covered
      | all => exact family?_of_isObject covered
      | some s => exact family?_of_isObject (typed s (by rw [← whole, shape?_ofObjects]) covered)
  · cases t with
    | boolean =>
      cases v with
      | boolean b => exact belongs
      | _ => cases admitted
    | int32 =>
      cases v with
      | int32 n => exact belongs
      | _ => cases admitted
    | number =>
      cases v with
      | int32 n => exact belongs
      | double bits => exact belongs
      | _ => cases admitted
    | string =>
      cases v with
      | cell address shape cellType =>
        rw [admits, decide_eq_true_eq] at admitted
        subst admitted
        exact belongs
      | _ => cases admitted
    | bottom => cases belongs
    | top => cases belongs
    | _ => exact absurd (Option.some.inj belongs).symm objects

theorem bottom_join (t : Ty) : bottom.join t = t := by
  cases t <;> rfl

theorem join_bottom (t : Ty) : t.join bottom = t := by
  cases t <;> rfl

theorem join_ne_top {a b : Ty} (left : a.family? = some F) (right : b.family? = some F) :
    a.join b ≠ top := by
  cases F with
  | objects =>
    obtain ⟨p, x, first⟩ := family?_eq_objects_iff.mp left
    obtain ⟨q, y, second⟩ := family?_eq_objects_iff.mp right
    have below (other : Bool) (z : Objects) : ofObjects other z ≠ top := by
      cases other <;> cases z <;> simp [ofObjects]
    unfold join
    split
    next =>
      rw [← ofObjects_of_objects? first]
      exact below p x
    next =>
      split
      next => cases left
      next => cases right
      next => cases left
      next => cases left
      next =>
        rw [first, second]
        exact below _ _
  | _ => cases a <;> cases left <;> cases b <;> cases right <;> decide

end Families

section Least

variable {types : List Ty} {a b c t : Ty} {v : Value} {s : ShapeId}

theorem typedBy_of_isObject (types : List Ty) (object : isObject v = true) : TypedBy types v :=
  fun _ _ _ _ _ => object

theorem typedBy_of_unshaped (types : List Ty) (unshaped : ∀ s, hasShape s v = false) :
    TypedBy types v := by
  intro t _ s _ shaped
  rw [unshaped s] at shaped
  cases shaped

theorem typedBy_string (unnamed : ∀ t ∈ types, t.shape? ≠ some s) (address : Word) :
    TypedBy types (.cell address s Cell.stringType) := by
  intro t member u named shaped
  rw [hasShape, decide_eq_true_eq] at shaped
  subst shaped
  exact absurd named (unnamed t member)

theorem exists_admitted (unnamed : ∀ t ∈ types, t.shape? ≠ some s) (proper : t ≠ bottom) :
    ∃ v, TypedBy types v ∧ t.admits v = true := by
  have object (u : ShapeId) : isObject (.cell 0#64 u Cell.objectType) = true := by rfl
  cases t with
  | bottom => exact absurd rfl proper
  | boolean => exact ⟨.boolean true, typedBy_of_unshaped _ fun _ => rfl, rfl⟩
  | other => exact ⟨.null, typedBy_of_unshaped _ fun _ => rfl, rfl⟩
  | int32 => exact ⟨.int32 0#32, typedBy_of_unshaped _ fun _ => rfl, rfl⟩
  | number => exact ⟨.int32 0#32, typedBy_of_unshaped _ fun _ => rfl, rfl⟩
  | string => exact ⟨.cell 0#64 s Cell.stringType, typedBy_string unnamed _, by rfl⟩
  | object => exact ⟨_, typedBy_of_isObject _ (object s), object s⟩
  | objectOrOther => exact ⟨.null, typedBy_of_unshaped _ fun _ => rfl, rfl⟩
  | objectWithShape u => exact ⟨_, typedBy_of_isObject _ (object u), by simp [admits, hasShape]⟩
  | objectWithShapeOrOther u => exact ⟨.null, typedBy_of_unshaped _ fun _ => rfl, rfl⟩
  | top => exact ⟨.null, typedBy_of_unshaped _ fun _ => rfl, rfl⟩

/-- A type that covers another one is the highest or of the same family. -/
theorem Covers.family? (covers : Covers types c t) (covering : c ∈ types) (covered : t ∈ types)
    (unnamed : ∀ t ∈ types, t.shape? ≠ some s) (proper : t ≠ bottom) :
    c = top ∨ ∃ F, c.family? = some F ∧ t.family? = some F := by
  obtain ⟨v, typed, admitted⟩ := exists_admitted unnamed proper
  have kept := covers v typed admitted
  cases family : c.family? with
  | none =>
    rcases eq_bottom_or_top family with rfl | rfl
    · cases kept
    · exact .inl rfl
  | some F =>
    refine .inr ⟨F, rfl, ?_⟩
    have within (w : Value) (agrees : TypedBy types w) (seen : t.admits w = true) :
        w.family? = some F :=
      family?_of_admits (agrees c covering) family (covers w agrees seen)
    cases own : t.family? with
    | none =>
      rcases eq_bottom_or_top own with rfl | rfl
      · exact absurd rfl proper
      · have truth := within (.boolean true) (typedBy_of_unshaped _ fun _ => rfl) rfl
        have zero := within (.int32 0#32) (typedBy_of_unshaped _ fun _ => rfl) rfl
        cases truth.trans zero.symm
    | some G =>
      exact (family?_of_admits (typed t covered) own admitted).symm.trans (within v typed admitted)

theorem admits_of_two_shapes {u : ShapeId} (differ : s ≠ u)
    (first : c.admits (.cell 0#64 s Cell.objectType) = true)
    (second : c.admits (.cell 0#64 u Cell.objectType) = true) (object : isObject v = true) :
    c.admits v = true := by
  cases c with
  | object => exact object
  | objectOrOther => rw [admits, object, Bool.or_true]
  | top => rfl
  | objectWithShape w =>
    simp only [admits, hasShape, decide_eq_true_eq] at first second
    exact absurd (first.trans second.symm) differ
  | objectWithShapeOrOther w =>
    simp only [admits, hasShape, Value.isOther, Bool.false_or, decide_eq_true_eq] at first second
    exact absurd (first.trans second.symm) differ
  | _ => cases first

theorem Objects.covers_join {x y : Objects} (covered : (x.join y).covers v = true) :
    x.covers v = true ∨ y.covers v = true ∨
      ∃ s u, s ≠ u ∧ x = some s ∧ y = some u ∧ isObject v = true := by
  cases x with
  | none => exact .inr (.inl covered)
  | all => cases y <;> exact .inl covered
  | some s =>
    cases y with
    | none => exact .inl covered
    | all => exact .inr (.inl covered)
    | some u =>
      rw [Objects.join] at covered
      split at covered
      next => exact .inl covered
      next differ => exact .inr (.inr ⟨s, u, differ, rfl, rfl, covered⟩)

theorem Covers.ofObjects_join {p q : Bool} {x y : Objects}
    (left : Covers types c (ofObjects p x)) (right : Covers types c (ofObjects q y)) :
    Covers types c (ofObjects (p || q) (x.join y)) := by
  intro v typed admitted
  have ofLeft := left v typed
  have ofRight := right v typed
  rw [admits_ofObjects, Bool.or_eq_true, Bool.and_eq_true] at admitted ofLeft ofRight
  rcases admitted with ⟨other, isOther⟩ | covered
  · rcases (Bool.or_eq_true _ _).mp other with inLeft | inRight
    · exact ofLeft (.inl ⟨inLeft, isOther⟩)
    · exact ofRight (.inl ⟨inRight, isOther⟩)
  · rcases Objects.covers_join covered with inLeft | inRight | ⟨s, u, differ, rfl, rfl, object⟩
    · exact ofLeft (.inr inLeft)
    · exact ofRight (.inr inRight)
    · have seen (w : ShapeId) (b : Bool) (covers : Covers types c (ofObjects b (.some w))) :
          c.admits (.cell 0#64 w Cell.objectType) = true := by
        apply covers _ (typedBy_of_isObject _ rfl)
        rw [admits_ofObjects, Objects.covers, hasShape, decide_eq_true rfl, Bool.or_true]
      exact admits_of_two_shapes differ (seen s p left) (seen u q right) object

theorem Covers.join (left : Covers types c a) (right : Covers types c b) (covering : c ∈ types)
    (first : a ∈ types) (second : b ∈ types) (unnamed : ∀ t ∈ types, t.shape? ≠ some s) :
    Covers types c (a.join b) := by
  by_cases highest : c = top
  · intro v _ _
    rw [highest]
    rfl
  by_cases lowLeft : a = bottom
  · rw [lowLeft, bottom_join]
    exact right
  by_cases lowRight : b = bottom
  · rw [lowRight, join_bottom]
    exact left
  obtain ⟨F, own, inLeft⟩ :=
    (left.family? covering first unnamed lowLeft).resolve_left highest
  obtain ⟨G, same, inRight⟩ :=
    (right.family? covering second unnamed lowRight).resolve_left highest
  obtain rfl := Option.some.inj (own.symm.trans same)
  have below := join_ne_top inLeft inRight
  have joins := join_joins a b
  generalize a.join b = j at joins below
  cases joins with
  | same => exact left
  | fromBottom => exact absurd rfl lowLeft
  | toBottom => exact absurd rfl lowRight
  | widened => exact right
  | wide => exact left
  | unrelated => exact absurd rfl below
  | objects leftParts rightParts =>
    rw [← ofObjects_of_objects? leftParts] at left
    rw [← ofObjects_of_objects? rightParts] at right
    exact left.ofObjects_join right

theorem exists_unnamed (a b c : Ty) : ∃ s, ∀ t ∈ [a, b, c], t.shape? ≠ some s := by
  apply Classical.byContradiction
  intro all
  have named (s : ShapeId) : a.shape? = some s ∨ b.shape? = some s ∨ c.shape? = some s := by
    apply Classical.byContradiction
    intro none
    exact all ⟨s, by simpa using none⟩
  have zero := named ⟨0#32⟩
  have one := named ⟨1#32⟩
  have two := named ⟨2#32⟩
  have three := named ⟨3#32⟩
  grind

/-- Among the values for which the shapes that are named are shapes of objects, a type admits what
one of two types admits exactly if it admits what their join does: no type that covers both is more
precise than the join. -/
theorem join_least (a b c : Ty) :
    (∀ v, TypedBy [a, b, c] v → a.admits v = true ∨ b.admits v = true → c.admits v = true) ↔
      ∀ v, TypedBy [a, b, c] v → (a.join b).admits v = true → c.admits v = true := by
  constructor
  · intro covers
    obtain ⟨s, unnamed⟩ := exists_unnamed a b c
    have left : Covers [a, b, c] c a := fun v typed admitted => covers v typed (.inl admitted)
    have right : Covers [a, b, c] c b := fun v typed admitted => covers v typed (.inr admitted)
    exact left.join right (by simp) (by simp) (by simp) unnamed
  · intro covers v typed seen
    apply covers v typed
    exact admits_join (typed a (by simp)) (typed b (by simp)) seen

end Least

end Ty

end InlineCache
