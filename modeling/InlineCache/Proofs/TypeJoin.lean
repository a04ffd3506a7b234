import InlineCache.Ty

/-!
What a join admits. A type made of objects and "other" admits what its two parts do, and the parts
are joined one by one. A type that names a shape looks at nothing else of a cell, so it admits cells
of that shape that are no objects, while the types of all objects do not: this is the one way in
which a join can lose a value that was admitted before.
-/

namespace InlineCache

def Value.isNonObject : Value → Bool
  | cell _ _ cellType => cellType < Cell.objectType
  | _ => false

namespace Ty

def hasAllObjects : Ty → Bool
  | object => true
  | objectOrOther => true
  | _ => false

/-- The shape that a type names is a shape of objects, as far as the value can tell. -/
def Typed (t : Ty) (v : Value) : Prop :=
  ∀ s, t.shape? = some s → hasShape s v = true → isObject v = true

namespace Objects

def covers : Objects → Value → Bool
  | none, _ => false
  | some s, v => hasShape s v
  | all, v => isObject v

/-- The value is covered, or it is one of the cells that all objects do not cover. -/
def Accounts (x : Objects) (v : Value) : Prop :=
  x.covers v = true ∨ x = all ∧ v.isNonObject = true

theorem join_comm (x y : Objects) : x.join y = y.join x := by
  cases x with
  | none => cases y <;> rfl
  | all => cases y <;> rfl
  | some s =>
    cases y with
    | none => rfl
    | all => rfl
    | some t =>
      simp only [join, eq_comm (a := t)]
      split
      next same => rw [same]
      next => rfl

theorem accounts_all {s : ShapeId} {v : Value} (shaped : hasShape s v = true) :
    Accounts all v := by
  cases v with
  | cell address shape cellType =>
    by_cases object : Cell.objectType ≤ cellType
    · left
      simpa only [covers, isObject, decide_eq_true_eq] using object
    · right
      refine ⟨rfl, ?_⟩
      simpa only [Value.isNonObject, decide_eq_true_eq] using BitVec.not_le.mp object
  | _ => cases shaped

theorem Accounts.join {x : Objects} {v : Value} (accounts : x.Accounts v) (y : Objects) :
    (x.join y).Accounts v := by
  cases x with
  | none =>
    rcases accounts with covered | ⟨lost, _⟩
    · cases covered
    · cases lost
  | all => cases y <;> exact accounts
  | some s =>
    rcases accounts with shaped | ⟨lost, _⟩
    · cases y with
      | none => exact .inl shaped
      | all => exact accounts_all shaped
      | some t =>
        rw [Objects.join]
        split
        next same => exact .inl shaped
        next differ => exact accounts_all shaped
    · cases lost

theorem eq_some_of_join {x y : Objects} {s : ShapeId} (named : x.join y = some s) :
    x = some s ∨ y = some s := by
  cases x with
  | none => exact .inr named
  | all => cases y <;> cases named
  | some t =>
    cases y with
    | none => exact .inl named
    | all => cases named
    | some u =>
      rw [join] at named
      split at named
      next => exact .inl named
      next => cases named

end Objects

theorem ofObjects_of_objects? {t : Ty} {other : Bool} {x : Objects}
    (parts : t.objects? = some (other, x)) : ofObjects other x = t := by
  cases t <;> cases parts <;> rfl

theorem admits_ofObjects (other : Bool) (x : Objects) (v : Value) :
    (ofObjects other x).admits v = (other && v.isOther || x.covers v) := by
  cases other <;> cases x <;> simp [ofObjects, admits, Objects.covers]

theorem shape?_ofObjects {other : Bool} {x : Objects} {s : ShapeId} :
    (ofObjects other x).shape? = some s ↔ x = .some s := by
  cases other <;> cases x <;> simp [ofObjects, shape?]

/-- The value is admitted, or it is one of the cells that the types of all objects do not admit. -/
def Accounts (t : Ty) (v : Value) : Prop :=
  t.admits v = true ∨ v.isNonObject = true ∧ t.hasAllObjects = true

theorem accounts_ofObjects {other : Bool} {x : Objects} {v : Value} :
    (ofObjects other x).Accounts v ↔ (other && v.isOther) = true ∨ x.Accounts v := by
  have all : (ofObjects other x).hasAllObjects = true ↔ x = .all := by
    cases other <;> cases x <;> simp [ofObjects, hasAllObjects]
  rw [Accounts, Objects.Accounts, admits_ofObjects, Bool.or_eq_true, all, or_assoc,
    and_comm (a := x = .all)]

theorem isObject_eq_false {v : Value} (nonObject : v.isNonObject = true) : isObject v = false := by
  cases v with
  | cell address shape cellType =>
    rw [Value.isNonObject, decide_eq_true_eq, ← BitVec.not_le] at nonObject
    rw [isObject, decide_eq_false_iff_not]
    exact nonObject
  | _ => rfl

theorem admits_eq_false_of_isNonObject {t : Ty} {v : Value} (nonObject : v.isNonObject = true)
    (allObjects : t.hasAllObjects = true) : t.admits v = false := by
  have cell : v.isOther = false := by
    cases v with
    | cell address shape cellType => rfl
    | _ => cases nonObject
  cases t with
  | object => exact isObject_eq_false nonObject
  | objectOrOther => rw [admits, cell, isObject_eq_false nonObject, Bool.or_false]
  | _ => cases allObjects

theorem Accounts.admits_eq_false_iff {t : Ty} {v : Value} (accounts : t.Accounts v) :
    t.admits v = false ↔ v.isNonObject = true ∧ t.hasAllObjects = true := by
  constructor
  · intro rejected
    rcases accounts with admitted | lost
    · rw [admitted] at rejected
      cases rejected
    · exact lost
  · intro lost
    exact admits_eq_false_of_isNonObject lost.1 lost.2

inductive Joins : Ty → Ty → Ty → Prop where
  | same (t : Ty) : Joins t t t
  | fromBottom (t : Ty) : Joins bottom t t
  | toBottom (t : Ty) : Joins t bottom t
  | widened : Joins int32 number number
  | wide : Joins number int32 number
  | objects {a b : Ty} {p q : Bool} {x y : Objects} (left : a.objects? = some (p, x))
      (right : b.objects? = some (q, y)) : Joins a b (ofObjects (p || q) (x.join y))
  | unrelated (a b : Ty) : Joins a b top

theorem join_joins (a b : Ty) : Joins a b (a.join b) := by
  unfold join
  split
  next equal =>
    subst equal
    exact .same a
  next differ =>
    split
    next => exact .fromBottom b
    next => exact .toBottom a
    next => exact .widened
    next => exact .wide
    next =>
      split
      next left right => exact .objects left right
      next => exact .unrelated a b

namespace Joins

variable {a b c : Ty} {v : Value} {s : ShapeId}

theorem symm (joins : Joins a b c) : Joins b a c := by
  cases joins with
  | same => exact .same a
  | fromBottom => exact .toBottom b
  | toBottom => exact .fromBottom a
  | widened => exact .wide
  | wide => exact .widened
  | unrelated => exact .unrelated b a
  | objects left right =>
    rw [Bool.or_comm, Objects.join_comm]
    exact .objects right left

theorem accounts_left (joins : Joins a b c) (accounts : a.Accounts v) : c.Accounts v := by
  cases joins with
  | same => exact accounts
  | toBottom => exact accounts
  | wide => exact accounts
  | unrelated => exact .inl rfl
  | fromBottom =>
    rcases accounts with admitted | ⟨_, lost⟩
    · cases admitted
    · cases lost
  | widened =>
    left
    rcases accounts with admitted | ⟨_, lost⟩
    · cases v with
      | int32 n => rfl
      | _ => cases admitted
    · cases lost
  | @objects _ _ p q x y left right =>
    rw [← ofObjects_of_objects? left, accounts_ofObjects] at accounts
    rw [accounts_ofObjects]
    rcases accounts with other | objects
    · left
      rw [Bool.and_eq_true] at other ⊢
      exact ⟨by rw [other.1, Bool.true_or], other.2⟩
    · right
      exact objects.join y

theorem shape?_or (joins : Joins a b c) (named : c.shape? = some s) :
    a.shape? = some s ∨ b.shape? = some s := by
  cases joins with
  | same => exact .inl named
  | fromBottom => exact .inr named
  | toBottom => exact .inl named
  | widened => cases named
  | wide => cases named
  | unrelated => cases named
  | objects left right =>
    rw [shape?_ofObjects] at named
    rw [← ofObjects_of_objects? left, ← ofObjects_of_objects? right, shape?_ofObjects,
      shape?_ofObjects]
    exact Objects.eq_some_of_join named

theorem named_of_lost (joins : Joins a b c) (admitted : a.admits v = true)
    (nonObject : v.isNonObject = true) (allObjects : c.hasAllObjects = true) :
    ∃ s, a.shape? = some s ∧ hasShape s v = true := by
  have differs : a ≠ c := by
    intro same
    rw [same, admits_eq_false_of_isNonObject nonObject allObjects] at admitted
    cases admitted
  cases joins with
  | same => exact absurd rfl differs
  | toBottom => exact absurd rfl differs
  | fromBottom => cases admitted
  | widened => cases allObjects
  | wide => cases allObjects
  | unrelated => cases allObjects
  | @objects _ _ p q x y left right =>
    have whole := ofObjects_of_objects? left
    rw [← whole, admits_ofObjects, Bool.or_eq_true, Bool.and_eq_true] at admitted
    rcases admitted with ⟨_, other⟩ | covered
    · cases v with
      | cell address shape cellType => cases other
      | _ => cases nonObject
    · cases x with
      | none => cases covered
      | some s => exact ⟨s, by rw [← whole, shape?_ofObjects], covered⟩
      | all =>
        rw [Objects.covers, isObject_eq_false nonObject] at covered
        cases covered

end Joins

section Widening

variable {a b : Ty} {v : Value}

theorem accounts_join (seen : a.Accounts v ∨ b.Accounts v) : (a.join b).Accounts v := by
  rcases seen with left | right
  · exact (join_joins a b).accounts_left left
  · exact (join_joins a b).symm.accounts_left right

theorem Typed.join (left : a.Typed v) (right : b.Typed v) : (a.join b).Typed v := by
  intro s named
  rcases (join_joins a b).shape?_or named with inLeft | inRight
  · exact left s inLeft
  · exact right s inRight

theorem admits_join (left : a.Typed v) (right : b.Typed v)
    (seen : a.admits v = true ∨ b.admits v = true) : (a.join b).admits v = true := by
  have accounts : (a.join b).Accounts v := accounts_join (seen.imp .inl .inl)
  rw [← Bool.not_eq_false, accounts.admits_eq_false_iff]
  intro lost
  have excluded : ∀ t : Ty, t.Typed v → ¬ ∃ s, t.shape? = some s ∧ hasShape s v = true := by
    intro t typed named
    obtain ⟨s, named, shaped⟩ := named
    have object := typed s named shaped
    rw [isObject_eq_false lost.1] at object
    cases object
  rcases seen with admitted | admitted
  · exact excluded a left ((join_joins a b).named_of_lost admitted lost.1 lost.2)
  · exact excluded b right ((join_joins a b).symm.named_of_lost admitted lost.1 lost.2)

theorem foldl_join_of_mem {P Q : Ty → Prop} (shared : ∀ a b, Q a → Q b → Q (a.join b))
    (takes : ∀ a b, Q a → Q b → P a ∨ P b → P (a.join b)) (types : List Ty) (start : Ty)
    (first : Q start) (all : ∀ t ∈ types, Q t) (seen : P start ∨ ∃ t ∈ types, P t) :
    P (types.foldl join start) := by
  induction types generalizing start with
  | nil =>
    rcases seen with now | ⟨_, member, _⟩
    · exact now
    · cases member
  | cons next rest ih =>
    rw [List.forall_mem_cons] at all
    have joined := takes start next first all.1
    apply ih (start.join next) (shared start next first all.1) all.2
    rcases seen with now | ⟨t, member, later⟩
    · exact .inl (joined (.inl now))
    · rcases List.mem_cons.mp member with rfl | member
      · exact .inl (joined (.inr later))
      · exact .inr ⟨t, member, later⟩

end Widening

/-- A join rejects a value that an operand admits exactly if the value is a cell that is no object
and the join is a type of all objects, which cannot be where the shapes that the operands name are
shapes of objects. The same holds of the type that any number of observed types is widened to. -/
theorem join_admits_seen (v : Value) :
    (∀ a b : Ty, a.admits v = true ∨ b.admits v = true →
      ((a.join b).admits v = false ↔ v.isNonObject = true ∧ (a.join b).hasAllObjects = true) ∧
      (a.Typed v → b.Typed v → (a.join b).admits v = true)) ∧
    ∀ (observed : List Ty) (t : Ty), t ∈ observed → t.admits v = true →
      ((observed.foldl join bottom).admits v = false ↔
        v.isNonObject = true ∧ (observed.foldl join bottom).hasAllObjects = true) ∧
      ((∀ u ∈ observed, u.Typed v) → (observed.foldl join bottom).admits v = true) := by
  constructor
  · intro a b seen
    have accounts : (a.join b).Accounts v := accounts_join (seen.imp .inl .inl)
    exact ⟨accounts.admits_eq_false_iff, fun left right => admits_join left right seen⟩
  · intro observed t member admitted
    constructor
    · apply Accounts.admits_eq_false_iff
      -- To be admitted is not kept from join to join, to be accounted for is.
      apply foldl_join_of_mem (P := fun t => t.Accounts v) (Q := fun _ => True)
      · exact fun _ _ _ _ => trivial
      · exact fun _ _ _ _ seen => accounts_join seen
      · trivial
      · exact fun _ _ => trivial
      · exact .inr ⟨t, member, .inl admitted⟩
    · intro typed
      apply foldl_join_of_mem (P := fun t => t.admits v = true) (Q := fun t => t.Typed v)
      · exact fun _ _ left right => left.join right
      · exact fun _ _ left right seen => admits_join left right seen
      · exact fun _ named => by cases named
      · exact typed
      · exact .inr ⟨t, member, admitted⟩

theorem join_admits_object_of_two_shapes :
    ((objectWithShape ⟨1#32⟩).join (objectWithShape ⟨2#32⟩)).admits
        (.cell 0x1000#64 ⟨1#32⟩ Cell.finalObjectType) = true ∧
      ([objectWithShape ⟨1#32⟩, other, objectWithShape ⟨2#32⟩, string].foldl join bottom).admits
        (.cell 0x1000#64 ⟨1#32⟩ Cell.finalObjectType) = true := by
  have typed : ∀ t : Ty, t.Typed (.cell 0x1000#64 ⟨1#32⟩ Cell.finalObjectType) :=
    fun _ _ _ _ => by decide
  obtain ⟨pair, pass⟩ := join_admits_seen (.cell 0x1000#64 ⟨1#32⟩ Cell.finalObjectType)
  exact ⟨(pair _ _ (.inl (by decide))).2 (typed _) (typed _),
    (pass _ (objectWithShape ⟨1#32⟩) List.mem_cons_self (by decide)).2 fun u _ => typed u⟩

/-- A string whose shape was named is lost when another shape is seen. -/
theorem join_loses_string_of_named_shape :
    ¬ ∀ (a b : Ty) (v : Value), a.admits v = true ∨ b.admits v = true →
      (a.join b).admits v = true := by
  intro covers
  have kept := covers (objectWithShape ⟨1#32⟩) (objectWithShape ⟨2#32⟩)
    (.cell 0x1000#64 ⟨1#32⟩ Cell.stringType) (.inl (by decide))
  revert kept
  decide

end Ty

end InlineCache
