import InlineCache.Key
import Mathlib.Algebra.Group.Nat.Defs
import Mathlib.Data.Finset.Card

/-!
The numbering of names. A table keeps its names and their keys apart, and interning keeps the two in
step: the names are those that were interned, each once and in the order of their first occurrences,
and a name's key is its place among them. While the places fit a key, keys and names determine each
other. Whatever is interned later changes nothing about the names that a table knows.
-/

namespace InlineCache.KeyTable

def internAll (t : KeyTable) (names : List String) : KeyTable :=
  names.foldl (fun t s => (t.intern s).2) t

/-- The table numbers the names that were interned by their first occurrences. -/
structure Numbers (t : KeyTable) (seen : List String) : Prop where
  listed : ∀ s, (∃ i : Nat, t.names[i]? = some s) ↔ s ∈ seen
  ordered : ∀ (i j : Nat) (s u : String), t.names[i]? = some s → t.names[j]? = some u →
    (i < j ↔ seen.idxOf s < seen.idxOf u)
  keyed : ∀ s k, t.key? s = some k ↔ ∃ i : Nat, t.names[i]? = some s ∧ k = ⟨BitVec.ofNat 32 i⟩

section Step

variable {t : KeyTable} {s u : String} {k : Key} {seen : List String}

theorem intern_of_known (known : t.key? s = some k) : t.intern s = (k, t) := by
  simp only [intern, known]

theorem intern_of_new (new : t.key? s = none) :
    t.intern s = (⟨BitVec.ofNat 32 t.size⟩,
      ⟨t.names.push s, t.keys.insert s ⟨BitVec.ofNat 32 t.size⟩⟩) := by
  simp only [intern, new, size]

theorem key?_insert (names : Array String) (keys : Std.HashMap String Key) (s u : String)
    (k : Key) :
    (KeyTable.mk names (keys.insert s k)).key? u = if s = u then some k else keys[u]? := by
  rw [key?, Std.HashMap.getElem?_insert]
  simp only [beq_iff_eq]

theorem getElem?_push_eq_some_iff {names : Array String} {i : Nat} :
    (names.push s)[i]? = some u ↔ names[i]? = some u ∨ (i = names.size ∧ u = s) := by
  rw [Array.getElem?_push]
  split
  next last => simp [last, eq_comm]
  next => simp [*]

theorem key?_intern_self (t : KeyTable) (s : String) :
    (t.intern s).2.key? s = some (t.intern s).1 := by
  cases found : t.key? s with
  | some k => rw [intern_of_known found, found]
  | none => rw [intern_of_new found, key?_insert, if_pos rfl]

theorem key?_intern (known : t.key? u = some k) (s : String) :
    (t.intern s).2.key? u = some k := by
  cases found : t.key? s with
  | some l => rw [intern_of_known found, known]
  | none =>
    have differ : s ≠ u := by
      rintro rfl
      rw [known] at found
      cases found
    rw [intern_of_new found, key?_insert, if_neg differ]
    exact known

theorem resolve?_intern (issued : t.resolve? k = some u) (s : String) :
    (t.intern s).2.resolve? k = some u := by
  cases found : t.key? s with
  | some l => rw [intern_of_known found, issued]
  | none =>
    rw [intern_of_new found]
    exact getElem?_push_eq_some_iff.mpr (.inl issued)

namespace Numbers

theorem empty : Numbers {} [] where
  listed := by simp
  ordered := by simp
  keyed := by simp [key?]

theorem known_iff (numbers : t.Numbers seen) : (∃ k, t.key? s = some k) ↔ s ∈ seen := by
  rw [← numbers.listed]
  constructor
  · rintro ⟨k, found⟩
    obtain ⟨i, place, _⟩ := (numbers.keyed s k).mp found
    exact ⟨i, place⟩
  · rintro ⟨i, place⟩
    exact ⟨_, (numbers.keyed s _).mpr ⟨i, place, rfl⟩⟩

theorem mem_seen (numbers : t.Numbers seen) {i : Nat} (place : t.names[i]? = some s) : s ∈ seen :=
  (numbers.listed s).mp ⟨i, place⟩

theorem again (numbers : t.Numbers seen) (member : s ∈ seen) : t.Numbers (seen ++ [s]) where
  listed := by
    intro u
    rw [numbers.listed, List.mem_append, List.mem_singleton]
    constructor
    · exact .inl
    · rintro (earlier | rfl)
      · exact earlier
      · exact member
  ordered := by
    intro i j u w first second
    rw [List.idxOf_append_of_mem (numbers.mem_seen first),
      List.idxOf_append_of_mem (numbers.mem_seen second)]
    exact numbers.ordered i j u w first second
  keyed := numbers.keyed

/-- A new name gets the next place, which comes after all places before. -/
theorem push (numbers : t.Numbers seen) (new : s ∉ seen) :
    (KeyTable.mk (t.names.push s)
      (t.keys.insert s ⟨BitVec.ofNat 32 t.size⟩)).Numbers (seen ++ [s]) where
  listed := by
    intro u
    simp only [getElem?_push_eq_some_iff, exists_or, exists_eq_left, List.mem_append,
      List.mem_singleton, numbers.listed]
  ordered := by
    have last : (seen ++ [s]).idxOf s = seen.length := by
      rw [List.idxOf_append_of_notMem new, List.idxOf_cons_self, Nat.add_zero]
    have early {i : Nat} {u : String} (place : t.names[i]? = some u) :
        i < t.names.size ∧ (seen ++ [s]).idxOf u = seen.idxOf u ∧ seen.idxOf u < seen.length := by
      obtain ⟨bound, _⟩ := Array.getElem?_eq_some_iff.mp place
      have member := numbers.mem_seen place
      exact ⟨bound, List.idxOf_append_of_mem member, List.idxOf_lt_length_of_mem member⟩
    intro i j u w first second
    rcases getElem?_push_eq_some_iff.mp first with before | ⟨rfl, rfl⟩
    · rcases getElem?_push_eq_some_iff.mp second with after | ⟨rfl, rfl⟩
      · rw [(early before).2.1, (early after).2.1]
        exact numbers.ordered i j u w before after
      · have bounds := early before
        omega
    · rcases getElem?_push_eq_some_iff.mp second with after | ⟨rfl, rfl⟩
      · have bounds := early after
        omega
      · omega
  keyed := by
    intro u k
    rw [key?_insert]
    simp only [getElem?_push_eq_some_iff]
    split
    next same =>
      subst same
      have absent (i : Nat) : t.names[i]? ≠ some s := fun place => new (numbers.mem_seen place)
      simp [absent, size, eq_comm]
    next differ =>
      have other (i : Nat) : ¬ (i = t.names.size ∧ u = s) := fun here => differ here.2.symm
      simp only [other, or_false]
      exact numbers.keyed u k

theorem intern (numbers : t.Numbers seen) (s : String) :
    (t.intern s).2.Numbers (seen ++ [s]) := by
  cases found : t.key? s with
  | some k =>
    rw [intern_of_known found]
    exact numbers.again (numbers.known_iff.mp ⟨k, found⟩)
  | none =>
    rw [intern_of_new found]
    apply numbers.push
    intro member
    obtain ⟨k, known⟩ := numbers.known_iff.mpr member
    rw [known] at found
    cases found

end Numbers

end Step

section Runs

variable {t : KeyTable} {s : String} {k : Key} {seen : List String}

theorem Numbers.internAll (numbers : t.Numbers seen) (names : List String) :
    (t.internAll names).Numbers (seen ++ names) := by
  induction names generalizing t seen with
  | nil => rwa [List.append_nil]
  | cons first rest ih =>
    have later := ih (numbers.intern first)
    rwa [List.append_assoc] at later

theorem key?_internAll (known : t.key? s = some k) (names : List String) :
    (t.internAll names).key? s = some k := by
  induction names generalizing t with
  | nil => exact known
  | cons first rest ih => exact ih (key?_intern known first)

theorem resolve?_internAll (issued : t.resolve? k = some s) (names : List String) :
    (t.internAll names).resolve? k = some s := by
  induction names generalizing t with
  | nil => exact issued
  | cons first rest ih => exact ih (resolve?_intern issued first)

end Runs

namespace Numbers

variable {t : KeyTable} {s : String} {k : Key} {seen : List String}

theorem nodup (numbers : t.Numbers seen) : t.names.toList.Nodup := by
  rw [List.nodup_iff_getElem?_ne_getElem?]
  intro i j later bound same
  rw [Array.getElem?_toList, Array.getElem?_toList] at same
  have second : t.names[j]? = some t.names[j] := Array.getElem?_eq_getElem bound
  have order := numbers.ordered i j _ _ (same.trans second) second
  omega

theorem size_eq (numbers : t.Numbers seen) : t.size = seen.toFinset.card := by
  have members : t.names.toList.toFinset = seen.toFinset := by
    ext s
    rw [List.mem_toFinset, List.mem_toFinset, ← numbers.listed, Array.mem_toList_iff,
      Array.mem_iff_getElem?]
  rw [← members, List.toFinset_card_of_nodup numbers.nodup, Array.length_toList, size]

theorem key?_eq_some_iff (numbers : t.Numbers seen) (few : t.size ≤ 2 ^ 32) :
    t.key? s = some k ↔ t.names[k.index.toNat]? = some s := by
  have place {i : Nat} (found : t.names[i]? = some s) : (BitVec.ofNat 32 i).toNat = i := by
    obtain ⟨bound, _⟩ := Array.getElem?_eq_some_iff.mp found
    rw [size] at few
    rw [BitVec.toNat_ofNat]
    omega
  rw [numbers.keyed]
  constructor
  · rintro ⟨i, found, rfl⟩
    rwa [place found]
  · intro found
    exact ⟨k.index.toNat, found, by rw [BitVec.ofNat_toNat, BitVec.setWidth_eq]⟩

end Numbers

/-- After any names were interned, as many different ones as there are keys or fewer, the table has
the size of the set of them. A name has a key exactly if the key resolves to the name. The keys are
the numbers below the size, ordered as the first occurrences of their names. A name is found under
the key that it is interned with; a known name is interned with the key it has, and what is known
stays as it is through all calls that follow. -/
theorem interned_names_and_keys_correspond (names : List String)
    (few : names.toFinset.card ≤ 2 ^ 32) :
    let t : KeyTable := internAll {} names
    t.size = names.toFinset.card ∧
    (∀ s k, t.key? s = some k ↔ t.resolve? k = some s) ∧
    (∀ s, (∃ k, t.key? s = some k) ↔ s ∈ names) ∧
    (∀ k, (∃ s, t.key? s = some k) ↔ k.index.toNat < t.size) ∧
    (∀ s u k l, t.key? s = some k → t.key? u = some l →
      (k.index.toNat < l.index.toNat ↔ names.idxOf s < names.idxOf u)) ∧
    (∀ s, (t.intern s).2.key? s = some (t.intern s).1) ∧
    (∀ s k, t.key? s = some k → t.intern s = (k, t)) ∧
    ∀ more : List String,
      (∀ s k, t.key? s = some k → (t.internAll more).key? s = some k) ∧
      ∀ s k, t.resolve? k = some s → (t.internAll more).resolve? k = some s := by
  intro t
  have numbers : t.Numbers names := Numbers.empty.internAll names
  have small : t.size ≤ 2 ^ 32 := numbers.size_eq.trans_le few
  refine ⟨numbers.size_eq, fun s k => numbers.key?_eq_some_iff small, fun s => numbers.known_iff,
    fun k => ?_, fun s u k l first second => ?_, t.key?_intern_self,
    fun s k known => intern_of_known known,
    fun more => ⟨fun s k known => key?_internAll known more,
      fun s k issued => resolve?_internAll issued more⟩⟩
  · constructor
    · rintro ⟨s, known⟩
      exact (Array.getElem?_eq_some_iff.mp ((numbers.key?_eq_some_iff small).mp known)).1
    · intro bound
      exact ⟨_, (numbers.key?_eq_some_iff small).mpr (Array.getElem?_eq_getElem bound)⟩
  · exact numbers.ordered _ _ s u ((numbers.key?_eq_some_iff small).mp first)
      ((numbers.key?_eq_some_iff small).mp second)

theorem interned_length_before_size :
    let t := internAll {} ["length", "size", "size", "length"]
    t.size = 2 ∧ ∃ k l, t.resolve? k = some "length" ∧ t.resolve? l = some "size" ∧
      k.index.toNat < l.index.toNat ∧ (t.intern "name").2.resolve? l = some "size" := by
  intro t
  obtain ⟨count, inverse, known, _, order, _, _, later⟩ :=
    interned_names_and_keys_correspond ["length", "size", "size", "length"] (by decide)
  obtain ⟨k, first⟩ := (known "length").mpr (by decide)
  obtain ⟨l, second⟩ := (known "size").mpr (by decide)
  exact ⟨count, k, l, (inverse _ _).mp first, (inverse _ _).mp second,
    (order _ _ _ _ first second).mpr (by decide),
    (later ["name"]).2 _ _ ((inverse _ _).mp second)⟩

end InlineCache.KeyTable
