import InlineCache.Proofs.JoinOrder
import Mathlib.Data.Finset.Lattice.Fold
import Mathlib.Data.List.Fold

/-!
The laws of the join. Types of one family are joined part by part, and types of two families have
nothing above them but the highest type. The types are therefore a semilattice with a lowest and a
highest element, and what observed types are widened to depends only on which types were observed,
not on how often or in which order.
-/

namespace InlineCache

namespace Ty

namespace Objects

theorem join_none (x : Objects) : x.join none = x := by
  cases x <;> rfl

theorem all_join (x : Objects) : all.join x = all := by
  cases x <;> rfl

theorem join_all (x : Objects) : x.join all = all := by
  cases x <;> rfl

theorem join_self (x : Objects) : x.join x = x := by
  cases x with
  | none => rfl
  | all => rfl
  | some s => rw [join, if_pos rfl]

theorem some_join_some {s t : ShapeId} (differ : s ≠ t) : (some s).join (some t) = all := by
  rw [join, if_neg differ]

theorem join_eq_none_iff {x y : Objects} : x.join y = none ↔ x = none ∧ y = none := by
  cases x with
  | none => simp [join]
  | all => simp [all_join]
  | some s =>
    cases y with
    | none => simp [join]
    | all => simp [join]
    | some t =>
      by_cases same : s = t
      · simp [same, join_self]
      · simp [some_join_some same]

theorem join_assoc (x y z : Objects) : (x.join y).join z = x.join (y.join z) := by
  cases x with
  | none => rfl
  | all => rw [all_join, all_join, all_join]
  | some s =>
    cases y with
    | none => rfl
    | all => rw [join_all, all_join, join_all]
    | some t =>
      cases z with
      | none => rw [join_none, join_none]
      | all => rw [join_all, join_all, join_all]
      | some u =>
        by_cases first : s = t
        · by_cases second : t = u
          · rw [← second, ← first, join_self, join_self]
          · rw [first, join_self, some_join_some second, join_all]
        · by_cases second : t = u
          · rw [some_join_some first, second, join_self, all_join,
              some_join_some (second ▸ first)]
          · rw [some_join_some first, some_join_some second, all_join, join_all]

end Objects

section Laws

variable {a b c : Ty} {F G : Family}

theorem join_self (a : Ty) : a.join a = a := if_pos rfl

theorem top_join (a : Ty) : top.join a = top := by
  cases a <;> rfl

theorem join_top (a : Ty) : a.join top = top := by
  cases a <;> rfl

theorem objects?_ofObjects (p : Bool) (x : Objects) :
    (p = false ∧ x = .none) ∨ (ofObjects p x).objects? = some (p, x) := by
  cases p <;> cases x <;> simp [ofObjects, objects?]

theorem join_of_objects? {p q : Bool} {x y : Objects} (left : a.objects? = some (p, x))
    (right : b.objects? = some (q, y)) : a.join b = ofObjects (p || q) (x.join y) := by
  unfold join
  split
  next equal =>
    subst equal
    obtain ⟨rfl, rfl⟩ := Prod.mk.inj (Option.some.inj (left.symm.trans right))
    rw [Bool.or_self, Objects.join_self, ofObjects_of_objects? left]
  next =>
    split
    next => cases left
    next => cases right
    next => cases left
    next => cases left
    next => rw [left, right]

/-- Types made of objects and "other" are joined part by part. -/
theorem ofObjects_join (p q : Bool) (x y : Objects) :
    (ofObjects p x).join (ofObjects q y) = ofObjects (p || q) (x.join y) := by
  rcases objects?_ofObjects p x with ⟨rfl, rfl⟩ | left
  · exact bottom_join _
  · rcases objects?_ofObjects q y with ⟨rfl, rfl⟩ | right
    · rw [Bool.or_false, Objects.join_none]
      exact join_bottom _
    · exact join_of_objects? left right

/-- Types of two families have only the highest type in common. -/
theorem join_of_families (left : a.family? = some F) (right : b.family? = some G)
    (differ : F ≠ G) : a.join b = top := by
  have joins := join_joins a b
  have apart {H : Family} (first : a.family? = some H) : b.family? ≠ some H := fun second =>
    differ (Option.some.inj (left.symm.trans first |>.trans (second.symm.trans right)))
  generalize a.join b = j at joins
  cases joins with
  | same => exact absurd left (apart left)
  | fromBottom => cases left
  | toBottom => cases right
  | widened => exact absurd rfl (apart (H := .numbers) rfl)
  | wide => exact absurd rfl (apart (H := .numbers) rfl)
  | unrelated => rfl
  | objects first second =>
    exact absurd (family?_eq_objects_iff.mpr ⟨_, _, second⟩)
      (apart (family?_eq_objects_iff.mpr ⟨_, _, first⟩))

theorem family?_join (left : a.family? = some F) (right : b.family? = some F) :
    (a.join b).family? = some F := by
  have joins := join_joins a b
  have below := join_ne_top left right
  generalize a.join b = j at joins below
  cases joins with
  | same => exact left
  | fromBottom => cases left
  | toBottom => cases right
  | widened => exact right
  | wide => exact left
  | unrelated => exact absurd rfl below
  | @objects _ _ p q x y first second =>
    have family := family?_eq_objects_iff.mpr ⟨p, x, first⟩
    rw [← left, family, family?_eq_objects_iff]
    rcases objects?_ofObjects (p || q) (x.join y) with ⟨neither, nothing⟩ | parts
    · rw [Bool.or_eq_false_iff] at neither
      rw [Objects.join_eq_none_iff] at nothing
      rw [← ofObjects_of_objects? first, neither.1, nothing.1] at left
      cases left
    · exact ⟨_, _, parts⟩

theorem eq_bottom_or_top_or_family (t : Ty) : t = bottom ∨ t = top ∨ ∃ F, t.family? = some F := by
  cases family : t.family? with
  | none => exact (eq_bottom_or_top family).imp_right .inl
  | some F => exact .inr (.inr ⟨F, rfl⟩)

theorem join_comm_of_family (left : a.family? = some F) (right : b.family? = some F) :
    a.join b = b.join a := by
  cases F with
  | objects =>
    obtain ⟨p, x, first⟩ := family?_eq_objects_iff.mp left
    obtain ⟨q, y, second⟩ := family?_eq_objects_iff.mp right
    rw [join_of_objects? first second, join_of_objects? second first, Bool.or_comm,
      Objects.join_comm]
  | _ => cases a <;> cases left <;> cases b <;> cases right <;> rfl

theorem join_comm (a b : Ty) : a.join b = b.join a := by
  rcases a.eq_bottom_or_top_or_family with rfl | rfl | ⟨F, left⟩
  · rw [bottom_join, join_bottom]
  · rw [top_join, join_top]
  rcases b.eq_bottom_or_top_or_family with rfl | rfl | ⟨G, right⟩
  · rw [bottom_join, join_bottom]
  · rw [top_join, join_top]
  by_cases same : F = G
  · subst same
    exact join_comm_of_family left right
  · rw [join_of_families left right same, join_of_families right left (Ne.symm same)]

theorem join_assoc_of_family (first : a.family? = some F) (second : b.family? = some F)
    (third : c.family? = some F) : (a.join b).join c = a.join (b.join c) := by
  cases F with
  | objects =>
    obtain ⟨p, x, left⟩ := family?_eq_objects_iff.mp first
    obtain ⟨q, y, mid⟩ := family?_eq_objects_iff.mp second
    obtain ⟨r, z, right⟩ := family?_eq_objects_iff.mp third
    rw [← ofObjects_of_objects? left, ← ofObjects_of_objects? mid, ← ofObjects_of_objects? right]
    simp only [ofObjects_join, Bool.or_assoc, Objects.join_assoc]
  | _ => cases a <;> cases first <;> cases b <;> cases second <;> cases c <;> cases third <;> rfl

theorem join_assoc (a b c : Ty) : (a.join b).join c = a.join (b.join c) := by
  rcases a.eq_bottom_or_top_or_family with rfl | rfl | ⟨F, first⟩
  · rw [bottom_join, bottom_join]
  · rw [top_join, top_join, top_join]
  rcases b.eq_bottom_or_top_or_family with rfl | rfl | ⟨G, second⟩
  · rw [bottom_join, join_bottom]
  · rw [top_join, join_top, top_join]
  rcases c.eq_bottom_or_top_or_family with rfl | rfl | ⟨H, third⟩
  · rw [join_bottom, join_bottom]
  · rw [join_top, join_top, join_top]
  -- Where two families meet, the highest type absorbs the third operand.
  by_cases early : F = G
  · subst early
    by_cases late : F = H
    · subst late
      exact join_assoc_of_family first second third
    · rw [join_of_families (family?_join first second) third late,
        join_of_families second third late, join_top]
  · rw [join_of_families first second early, top_join]
    by_cases late : G = H
    · subst late
      rw [join_of_families first (family?_join second third) early]
    · rw [join_of_families second third late, join_top]

end Laws

instance : Max Ty := ⟨join⟩

instance : SemilatticeSup Ty := .mk' join_comm join_assoc join_self

instance : OrderBot Ty where
  bot := bottom
  bot_le := bottom_join

theorem foldl_join_eq_sup (observed : List Ty) :
    observed.foldl join bottom = observed.toFinset.sup id := by
  calc
    observed.foldl join bottom = observed.foldr (· ⊔ ·) ⊥ :=
      List.foldl_eq_foldr (f := (· ⊔ ·)) (l := observed)
    _ = observed.toFinset.sup id := List.foldr_sup_eq_sup_toFinset observed

/-- The join is associative, commutative and idempotent, the lowest type is neutral and the highest
absorbs. Lists of the same types, in any order and with any repetitions, are widened to the same
type. -/
theorem join_laws_and_widening :
    (∀ a b c : Ty, (a.join b).join c = a.join (b.join c)) ∧
    (∀ a b : Ty, a.join b = b.join a) ∧ (∀ a : Ty, a.join a = a) ∧
    (∀ a : Ty, bottom.join a = a ∧ a.join bottom = a) ∧
    (∀ a : Ty, top.join a = top ∧ a.join top = top) ∧
    ∀ xs ys : List Ty, (∀ t, t ∈ xs ↔ t ∈ ys) → xs.foldl join bottom = ys.foldl join bottom := by
  refine ⟨join_assoc, join_comm, join_self, fun a => ⟨bottom_join a, join_bottom a⟩,
    fun a => ⟨top_join a, join_top a⟩, fun xs ys same => ?_⟩
  have sets : xs.toFinset = ys.toFinset := by
    ext t
    rw [List.mem_toFinset, List.mem_toFinset, same]
  rw [foldl_join_eq_sup, foldl_join_eq_sup, sets]

theorem widening_of_reordered_shapes :
    [objectWithShape ⟨1#32⟩, other, objectWithShape ⟨2#32⟩, other].foldl join bottom =
      [other, objectWithShape ⟨2#32⟩, objectWithShape ⟨1#32⟩].foldl join bottom := by
  obtain ⟨_, _, _, _, _, widening⟩ := join_laws_and_widening
  apply widening
  intro t
  simp only [List.mem_cons, List.not_mem_nil, or_false]
  tauto

end Ty

end InlineCache
