import MinRuby.Proofs.Run.Acyclic
import Mathlib.Data.Set.Finite.Basic
import Mathlib.Order.OrderIsoNat

/-!
# Finite values

A value is finite if nothing in it contains itself; its parts then form a tree, and what is true of every part may be proved
from the inside to the outside. A change of the store concerns a value only if it changes a container in it.

* `Value.Throughout` — the value is finite, and it and all parts have a property.
* `Value.throughout_iff` — in terms of what is in what.
* `Value.Unmodified` — the value and its parts are in a second store what they are in the first.
-/

namespace MinRuby

/-- The first value is the second one, or is in it directly or through others. -/
def Store.IsWithin (s : Store) : Value → Value → Prop := Relation.ReflTransGen s.IsIn

namespace Value

section

variable {s : Store} {P Q : Value → Prop} {v x : Value}

/-! ## Properties of all parts -/

/-- The value is finite, and it and all that is in it have the property. -/
inductive Throughout (s : Store) (P : Value → Prop) : Value → Prop where
  | intro {v : Value} (here : P v) (parts : ∀ x, s.IsIn x v → Throughout s P x) : Throughout s P v

theorem Throughout.here (h : v.Throughout s P) : P v := by
  cases h with
  | intro here _ => exact here

theorem Throughout.part (h : v.Throughout s P) (hx : s.IsIn x v) : x.Throughout s P := by
  cases h with
  | intro _ parts => exact parts x hx

theorem Throughout.within (h : v.Throughout s P) (hx : s.IsWithin x v) : x.Throughout s P := by
  induction hx using Relation.ReflTransGen.head_induction_on with
  | refl => exact h
  | head hin _ ih => exact ih.part hin

theorem Throughout.mono (h : v.Throughout s P) (hPQ : ∀ x, P x → Q x) : v.Throughout s Q := by
  induction h with
  | intro here _ ih => exact .intro (hPQ _ here) ih

theorem Throughout.acc (h : v.Throughout s P) : Acc s.IsIn v := by
  induction h with
  | intro _ _ ih => exact ⟨_, ih⟩

theorem throughout_of_isScalar (hv : v.IsScalar) (h : P v) : v.Throughout s P := by
  refine .intro h fun x hx => ?_
  cases v with
  | array a => exact hv.elim
  | hash a => exact hv.elim
  | _ => exact hx.elim

theorem Throughout.element {a : Address} (h : (array a).Throughout s P) (hx : x ∈ (s.array a).toList) : x.Throughout s P :=
  h.part (x := x) (Array.mem_toList_iff.mp hx)

theorem Throughout.entry {a : Address} {p : Key × Entry} (h : (hash a).Throughout s P) (hp : p ∈ (s.hash a).entries) :
    p.2.value.Throughout s P :=
  h.part (x := p.2.value) ⟨p.2, List.mem_map_of_mem hp, .inr rfl⟩

/-! ## Cycles -/

/-- Only finitely many values have something in them. -/
theorem finite_containers (s : Store) : {y | ∃ x, s.IsIn x y}.Finite := by
  have hfinite := ((Set.finite_Iio s.arrays.size).image array).union ((Set.finite_Iio s.hashes.size).image hash)
  refine hfinite.subset ?_
  rintro y ⟨x, hx⟩
  cases y with
  | array a =>
    refine .inl ⟨a, ?_, rfl⟩
    by_contra ha
    have hempty : s.array a = #[] := by simp [Store.array, Array.getElem?_eq_none (Nat.le_of_not_lt ha)]
    have hx : x ∈ s.array a := hx
    rw [hempty] at hx
    exact Array.not_mem_empty x hx
  | hash a =>
    refine .inr ⟨a, ?_, rfl⟩
    by_contra ha
    have hempty : s.entries a = [] := by
      simp [Store.entries, Store.hash, Array.getElem?_eq_none (Nat.le_of_not_lt ha), OrderedTable.values, OrderedTable.empty]
    obtain ⟨e, he, -⟩ := hx
    rw [hempty] at he
    exact List.not_mem_nil he
  | _ => exact hx.elim

/-- Without a cycle there is no endless way down. -/
theorem acc_of_acyclic (h : ∀ x, s.IsWithin x v → ¬ Relation.TransGen s.IsIn x x) : Acc s.IsIn v := by
  by_contra hv
  obtain ⟨f, rfl, hf⟩ := not_acc_iff_exists_descending_chain.mp hv
  have hdown (i n : Nat) : Relation.TransGen s.IsIn (f (i + n + 1)) (f i) := by
    induction n with
    | zero => exact .single (hf i)
    | succ n ih => exact .head (hf (i + n + 1)) ih
  have hwithin (i : Nat) : s.IsWithin (f i) (f 0) := by
    induction i with
    | zero => exact .refl
    | succ i ih => exact .head (hf i) ih
  -- the way down comes by some container twice
  obtain ⟨i, j, hij, heq⟩ := Set.Finite.exists_lt_map_eq_of_forall_mem (t := {y | ∃ x, s.IsIn x y})
    (fun n => ⟨f (n + 1), hf n⟩) (finite_containers s)
  obtain ⟨n, rfl⟩ := Nat.exists_eq_add_of_lt hij
  have hcycle := hdown i n
  rw [← heq] at hcycle
  exact h (f i) (hwithin i) hcycle

/-- A value has a property throughout if no part contains itself and all parts have the property. -/
theorem throughout_iff : v.Throughout s P ↔
    (∀ x, s.IsWithin x v → ¬ Relation.TransGen s.IsIn x x) ∧ ∀ x, s.IsWithin x v → P x := by
  constructor
  · intro h
    have hirrefl {x : Value} (hx : Acc (Relation.TransGen s.IsIn) x) : ¬ Relation.TransGen s.IsIn x x := by
      induction hx with
      | intro x _ ih => exact fun hcycle => ih x hcycle hcycle
    exact ⟨fun x hx => hirrefl (h.within hx).acc.transGen, fun x hx => (h.within hx).here⟩
  · rintro ⟨hacyclic, hP⟩
    have hacc := acc_of_acyclic hacyclic
    clear hacyclic
    induction hacc with
    | intro v _ ih => exact .intro (hP v .refl) fun x hx => ih x hx fun y hy => hP y (hy.tail hx)

/-! ## Changes of the store -/

/-- The value holds in the second store what it holds in the first. -/
def SameIn (s s' : Store) : Value → Prop
  | array a => s'.array a = s.array a
  | hash a => s'.hash a = s.hash a
  | _ => True

/-- The value and all that is in it hold in the second store what they hold in the first. -/
def Unmodified (s s' : Store) (v : Value) : Prop := ∀ x, s.IsWithin x v → x.SameIn s s'

variable {s' : Store}

theorem Unmodified.sameIn (h : v.Unmodified s s') : v.SameIn s s' := h v .refl

theorem unmodified_of_isScalar (hv : v.IsScalar) : v.Unmodified s s' := by
  intro x hx
  rcases Relation.ReflTransGen.cases_tail hx with rfl | ⟨y, -, hy⟩
  · cases v <;> first | exact hv.elim | trivial
  · cases v <;> first | exact hv.elim | exact hy.elim

theorem Unmodified.part (h : v.Unmodified s s') (hx : s.IsIn x v) : x.Unmodified s s' := fun y hy => h y (hy.tail hx)

/-- A change at one place concerns only the values that the place is in. -/
theorem unmodified_updateHash {a : Address} (f : HashTable → HashTable) (h : ¬ s.IsWithin (hash a) v) :
    v.Unmodified s (s.updateHash a f) := by
  intro x hx
  cases x with
  | array b => rfl
  | hash b =>
    have hne : a ≠ b := fun hab => h (hab ▸ hx)
    simp [SameIn, Store.updateHash, Store.hash, Array.getElem?_modify, hne]
  | _ => trivial

end

end Value

end MinRuby
