import MinRuby.Proofs.OrderedTable
import MinRuby.Proofs.Value.Finite

/-!
# Equality of values

`Value.Equals` is what the comparison of two values computes when its depth suffices. On finite values without NaN it is an
equivalence relation, as long as each hash has pairwise different fingerprints.

* `Value.exists_equal` — the comparison with a finite value ends, and tells whether the values are equal.
* `Value.Equals.refl`, `Value.Equals.symm`, `Value.Equals.trans` — the laws.
-/

namespace MinRuby

open Numeric (Number Binary64)

/-- No hash has two entries with the same fingerprint. -/
def Store.Keyed (s : Store) : Prop := ∀ a, (s.hash a).Distinct

namespace Key

mutual

/-- Nothing in the fingerprint is NaN. -/
def WithoutNaN : Key → Prop
  | float x => Binary64.ofFloat x ≠ .nan
  | array items => AllWithoutNaN items
  | hash entries => EntriesWithoutNaN entries
  | _ => True

/-- The same of each of them. -/
def AllWithoutNaN : List Key → Prop
  | [] => True
  | k :: rest => k.WithoutNaN ∧ AllWithoutNaN rest

/-- The same of each key and value. -/
def EntriesWithoutNaN : List (Key × Key) → Prop
  | [] => True
  | (k, v) :: rest => k.WithoutNaN ∧ v.WithoutNaN ∧ EntriesWithoutNaN rest

end

end Key

theorem Numeric.Number.equal_self_iff {x : Float} : (Number.float x).equal (.float x) = true ↔ Binary64.ofFloat x ≠ .nan := by
  rw [Number.equal_iff]
  simp only [Number.scaled]
  split
  · next h => simp [h]
  · next h => simp [h]
  · next h => simp [h]

namespace Key

mutual

/-- A fingerprint without NaN is the same as itself. -/
theorem same_self : ∀ {k : Key}, k.WithoutNaN → same k k = true
  | nil, _ => rfl
  | bool _, _ | int _, _ | str _, _ => by simp [same]
  | float x, h => by
    rw [same]
    exact Number.equal_self_iff.mpr h
  | array items, h => by
    rw [same]
    exact sameAll_self h
  | hash entries, h => by
    rw [same]
    exact sameEntries_self h

theorem sameAll_self : ∀ {ks : List Key}, AllWithoutNaN ks → sameAll ks ks = true
  | [], _ => rfl
  | k :: ks, h => by rw [sameAll, same_self h.1, sameAll_self h.2, Bool.and_self]

theorem sameEntries_self : ∀ {es : List (Key × Key)}, EntriesWithoutNaN es → sameEntries es es = true
  | [], _ => rfl
  | (k, v) :: es, h => by rw [sameEntries, same_self h.1, same_self h.2.1, sameEntries_self h.2.2, Bool.and_self, Bool.and_self]

end

end Key

/-! ## Lists -/

theorem mem_zip_iff_getElem? {α β : Type} {xs : List α} {ys : List β} {p : α × β} :
    p ∈ xs.zip ys ↔ ∃ i : Nat, xs[i]? = some p.1 ∧ ys[i]? = some p.2 := by
  simp only [List.mem_iff_getElem?, List.getElem?_zip_eq_some]

theorem exists_getElem?_eq_some {α β : Type} {xs : List α} {ys : List β} {i : Nat} {x : α} (hlength : xs.length = ys.length)
    (hx : xs[i]? = some x) : ∃ y, ys[i]? = some y := by
  obtain ⟨hi, -⟩ := List.getElem?_eq_some_iff.mp hx
  exact ⟨ys[i], List.getElem?_eq_getElem (hlength ▸ hi)⟩

section

variable {ε α : Type} {p q : α → Except ε Bool} {l : List α}

theorem allM_eq_true_iff : l.allM p = .ok true ↔ ∀ a ∈ l, p a = .ok true := by
  induction l with
  | nil => exact ⟨fun _ a ha => absurd ha List.not_mem_nil, fun _ => rfl⟩
  | cons a l ih =>
    rw [List.allM, List.forall_mem_cons, ← ih]
    cases p a with
    | error e => simp [bind, Except.bind]
    | ok b => cases b <;> simp [bind, Except.bind, pure, Except.pure]

theorem allM_eq_of_eq {b : Bool} (hpq : ∀ a ∈ l, ∀ b, p a = .ok b → q a = .ok b) (h : l.allM p = .ok b) :
    l.allM q = .ok b := by
  induction l with
  | nil => exact h
  | cons a l ih =>
    obtain ⟨ha, hl⟩ := List.forall_mem_cons.mp hpq
    rw [List.allM] at h ⊢
    cases hp : p a with
    | error e =>
      rw [hp] at h
      cases h
    | ok c =>
      rw [hp] at h
      rw [ha c hp]
      cases c with
      | false => exact h
      | true => exact ih hl h

end

namespace Value

variable {s : Store} {x y z : Value}

/-! ## The relation -/

/-- The values are equal. -/
inductive Equals (s : Store) : Value → Value → Prop where
  | nil : Equals s nil nil
  | bool (b : Bool) : Equals s (bool b) (bool b)
  | str (t : String) : Equals s (str t) (str t)
  | procedure (a : Address) : Equals s (procedure a) (procedure a)
  /-- Numbers are compared across types. -/
  | number {x y : Value} {m n : Number} (hx : x.number? = some m) (hy : y.number? = some n) (h : m.equal n = true) :
    Equals s x y
  /-- Arrays are compared element by element. -/
  | array {a b : Address} (hlength : (s.array a).toList.length = (s.array b).toList.length)
    (h : ∀ (i : Nat) v w, (s.array a).toList[i]? = some v → (s.array b).toList[i]? = some w → Equals s v w) :
    Equals s (array a) (array b)
  /-- Hashes are equal if they have the same keys with equal values. -/
  | hash {a b : Address} (hsize : (s.hash a).size = (s.hash b).size)
    (hkeys : ∀ k ∈ (s.hash a).keys, (s.hash b).contains k = true)
    (h : ∀ p ∈ (s.hash a).entries, ∀ e, (s.hash b).find? p.1 = some e → Equals s p.2.value e.value) :
    Equals s (hash a) (hash b)

/-! ## The comparison -/

theorem equal_succ {d : Nat} {b : Bool} (h : x.equal s d y = .ok b) : x.equal s (d + 1) y = .ok b := by
  induction d generalizing x y b with
  | zero => cases x <;> cases y <;> first | exact h | cases h
  | succ d ih =>
    cases x <;> cases y <;> try exact h
    · rw [equal] at h ⊢
      split
      · next hlength =>
        rw [if_pos hlength] at h
        exact allM_eq_of_eq (fun p _ b hp => ih hp) h
      · next hlength =>
        rw [if_neg hlength] at h
        exact h
    · rw [equal] at h ⊢
      split
      · next hkeys =>
        rw [if_pos hkeys] at h
        refine allM_eq_of_eq (fun p _ b hp => ?_) h
        split at hp
        · exact ih hp
        · exact hp
      · next hkeys =>
        rw [if_neg hkeys] at h
        exact h

/-- An outcome of a comparison is the outcome at greater depths too. -/
theorem equal_mono {d d' : Nat} {b : Bool} (h : x.equal s d y = .ok b) (hd : d ≤ d') : x.equal s d' y = .ok b := by
  induction hd with
  | refl => exact h
  | step _ ih => exact equal_succ ih

/-- A scalar that is found equal is equal. -/
theorem equals_of_equal_of_isScalar {d : Nat} (hx : x.IsScalar) (h : x.equal s d y = .ok true) : x.Equals s y := by
  cases x with
  | array a => exact hx.elim
  | hash a => exact hx.elim
  | nil => cases y <;> cases d <;> first | exact .nil | cases h
  | bool a =>
    cases y with
    | bool b =>
      obtain rfl : a = b := by cases d <;> exact of_decide_eq_true (Except.ok.inj h)
      exact .bool a
    | _ => cases d <;> cases h
  | str t =>
    cases y with
    | str u =>
      obtain rfl : t = u := by cases d <;> exact of_decide_eq_true (Except.ok.inj h)
      exact .str t
    | _ => cases d <;> cases h
  | procedure a =>
    cases y with
    | procedure b =>
      obtain rfl : a = b := by cases d <;> exact of_decide_eq_true (Except.ok.inj h)
      exact .procedure a
    | _ => cases d <;> cases h
  | int n =>
    cases y with
    | int m => cases d <;> exact .number rfl rfl (Except.ok.inj h)
    | float z => cases d <;> exact .number rfl rfl (Except.ok.inj h)
    | _ => cases d <;> cases h
  | float z =>
    cases y with
    | int m => cases d <;> exact .number rfl rfl (Except.ok.inj h)
    | float z' => cases d <;> exact .number rfl rfl (Except.ok.inj h)
    | _ => cases d <;> cases h

/-- Values that are found equal are equal. -/
theorem equals_of_equal {d : Nat} (h : x.equal s d y = .ok true) : x.Equals s y := by
  induction d generalizing x y with
  | zero =>
    cases x with
    | array a => cases y <;> cases h
    | hash a => cases y <;> cases h
    | _ => exact equals_of_equal_of_isScalar trivial h
  | succ d ih =>
    cases x with
    | array a =>
      cases y with
      | array b =>
        rw [equal] at h
        split at h
        · next hlength =>
          refine .array hlength fun i v w hv hw => ih (allM_eq_true_iff.mp h (v, w) ?_)
          exact mem_zip_iff_getElem?.mpr ⟨i, hv, hw⟩
        · cases h
      | _ => cases h
    | hash a =>
      cases y with
      | hash b =>
        rw [equal] at h
        split at h
        · next hkeys =>
          refine .hash hkeys.1 (List.all_eq_true.mp hkeys.2) fun p hp e he => ?_
          have hp := allM_eq_true_iff.mp h p hp
          rw [he] at hp
          exact ih hp
        · cases h
      | _ => cases h
    | _ => exact equals_of_equal_of_isScalar trivial h

/-- Equal values are found equal, if the depth suffices. -/
theorem Equals.exists_equal (h : x.Equals s y) : ∃ D, ∀ d ≥ D, x.equal s d y = .ok true := by
  suffices h : ∃ D, x.equal s D y = .ok true by
    obtain ⟨D, hD⟩ := h
    exact ⟨D, fun d hd => equal_mono hD hd⟩
  induction h with
  | nil => exact ⟨0, rfl⟩
  | bool b => exact ⟨0, congrArg Except.ok (decide_eq_true rfl)⟩
  | str t => exact ⟨0, congrArg Except.ok (decide_eq_true rfl)⟩
  | procedure a => exact ⟨0, congrArg Except.ok (decide_eq_true rfl)⟩
  | @number x y m n hx hy h =>
    refine ⟨0, ?_⟩
    rw [← h]
    cases x <;> cases hx <;> cases y <;> cases hy <;> rfl
  | @array a b hlength _ ih =>
    have hpair (p : Value × Value) (hp : p ∈ (s.array a).toList.zip (s.array b).toList) :
        ∃ D, ∀ d ≥ D, p.1.equal s d p.2 = .ok true := by
      obtain ⟨i, hv, hw⟩ := mem_zip_iff_getElem?.mp hp
      obtain ⟨D, hD⟩ := ih i p.1 p.2 hv hw
      exact ⟨D, fun d hd => equal_mono hD hd⟩
    obtain ⟨D, hD⟩ := exists_common_bound hpair
    refine ⟨D + 1, ?_⟩
    rw [equal, if_pos hlength]
    exact allM_eq_true_iff.mpr fun p hp => hD p hp D (Nat.le_refl D)
  | @hash a b hsize hkeys _ ih =>
    have hentry (p : Key × Entry) (hp : p ∈ (s.hash a).entries) :
        ∃ D, ∀ d ≥ D, ∃ e, (s.hash b).find? p.1 = some e ∧ p.2.value.equal s d e.value = .ok true := by
      obtain ⟨e, he⟩ := OrderedTable.contains_iff_find?.mp (hkeys p.1 (List.mem_map_of_mem hp))
      obtain ⟨D, hD⟩ := ih p hp e he
      exact ⟨D, fun d hd => ⟨e, he, equal_mono hD hd⟩⟩
    obtain ⟨D, hD⟩ := exists_common_bound hentry
    refine ⟨D + 1, ?_⟩
    rw [equal, if_pos ⟨hsize, List.all_eq_true.mpr hkeys⟩]
    refine allM_eq_true_iff.mpr fun p hp => ?_
    obtain ⟨e, he, hequal⟩ := hD p hp D (Nat.le_refl D)
    rw [he]
    exact hequal

/-- Where the recursions over a value end, the comparison tells whether it equals another one. -/
theorem Finishes.exists_equal {d : Nat} (hx : x.Finishes s d) (y : Value) :
    ∃ b, x.equal s d y = .ok b ∧ (b = true ↔ x.Equals s y) := by
  cases hb : x.equal s d y with
  | error e => exact absurd (failsOnly_equal s d x y e hb) (hx.equal y e hb)
  | ok b =>
    refine ⟨b, rfl, fun h => equals_of_equal (h ▸ hb), fun h => ?_⟩
    obtain ⟨E, hE⟩ := h.exists_equal
    have hlarge := hE (max d E) (Nat.le_max_right d E)
    rw [equal_mono hb (Nat.le_max_left d E)] at hlarge
    exact Except.ok.inj hlarge

/-- The comparison with a finite value ends, and tells whether the values are equal. -/
theorem exists_equal (hx : Acc s.IsIn x) :
    ∃ D, ∀ d ≥ D, ∀ y, ∃ b, x.equal s d y = .ok b ∧ (b = true ↔ x.Equals s y) := by
  obtain ⟨D, hD⟩ := exists_finishes hx
  exact ⟨D, fun d hd y => (hD d hd).exists_equal y⟩

/-! ## The laws -/

/-- The value is not NaN, and if it is a hash, the fingerprints of its keys are without NaN. -/
def WithoutNaN (s : Store) : Value → Prop
  | float x => Binary64.ofFloat x ≠ .nan
  | hash a => ∀ k ∈ (s.hash a).keys, k.WithoutNaN
  | _ => True

theorem Equals.refl (hs : s.Keyed) (hx : x.Throughout s (WithoutNaN s)) : x.Equals s x := by
  induction hx with
  | @intro x hnan _ ih =>
    cases x with
    | nil => exact .nil
    | bool b => exact .bool b
    | str t => exact .str t
    | procedure a => exact .procedure a
    | int n => exact .number rfl rfl (decide_eq_true rfl)
    | float z => exact .number rfl rfl (Number.equal_self_iff.mpr hnan)
    | array a =>
      refine .array rfl fun i v w hv hw => ?_
      obtain rfl : v = w := Option.some.inj (hv.symm.trans hw)
      exact ih v (Array.mem_toList_iff.mp (List.mem_of_getElem? hv))
    | hash a =>
      have hself {k : Key} (hk : k ∈ (s.hash a).keys) : (k == k) = true := Key.same_self (hnan k hk)
      refine .hash rfl (fun k hk => OrderedTable.contains_iff_exists.mpr ⟨k, hk, hself hk⟩) fun p hp e he => ?_
      have hfound := (hs a).find?_eq_some hp (hself (List.mem_map_of_mem hp))
      obtain rfl : p.2 = e := Option.some.inj (hfound.symm.trans he)
      exact ih p.2.value ⟨p.2, List.mem_map_of_mem hp, .inr rfl⟩

theorem Equals.symm (hs : s.Keyed) (h : x.Equals s y) : y.Equals s x := by
  induction h with
  | nil => exact .nil
  | bool b => exact .bool b
  | str t => exact .str t
  | procedure a => exact .procedure a
  | number hx hy h =>
    obtain ⟨n, hm, hn⟩ := Number.equal_iff.mp h
    exact .number hy hx (Number.equal_iff.mpr ⟨n, hn, hm⟩)
  | array hlength _ ih => exact .array hlength.symm fun i v w hv hw => ih i w v hw hv
  | @hash a b hsize hkeys _ ih =>
    have hback := OrderedTable.contains_of_covers (hs a) hsize hkeys
    refine .hash hsize.symm hback fun q hq e he => ?_
    obtain ⟨k, hk, hp⟩ := OrderedTable.mem_entries_of_find? he
    exact ih (k, e) hp q.2 ((hs b).find?_eq_some hq (BEq.symm hk))

theorem Equals.trans (h : x.Equals s y) (h' : y.Equals s z) : x.Equals s z := by
  induction h generalizing z with
  | nil => exact h'
  | bool b => exact h'
  | str t => exact h'
  | procedure a => exact h'
  | @number x y m n hx hy h =>
    obtain ⟨i, hm, hn⟩ := Number.equal_iff.mp h
    cases h' with
    | @number _ _ m' n' hy' hz h' =>
      obtain rfl : n = m' := Option.some.inj (hy.symm.trans hy')
      obtain ⟨j, hn', hz'⟩ := Number.equal_iff.mp h'
      obtain rfl : i = j := Option.some.inj (hn.symm.trans hn')
      exact .number hx hz (Number.equal_iff.mpr ⟨i, hm, hz'⟩)
    | _ => cases hy
  | @array a b hlength _ ih =>
    cases h' with
    | number hx => cases hx
    | @array _ c hlength' h' =>
      refine .array (hlength.trans hlength') fun i v w hv hw => ?_
      obtain ⟨u, hu⟩ := exists_getElem?_eq_some hlength hv
      exact ih i v u hv hu (h' i u w hu hw)
  | @hash a b hsize hkeys _ ih =>
    cases h' with
    | number hx => cases hx
    | @hash _ c hsize' hkeys' h' =>
      -- an entry of the first hash has one of the second under its key, and that has one of the third
      have hmiddle (k : Key) (hk : k ∈ (s.hash a).keys) :
          ∃ k' e, (k == k') = true ∧ (k', e) ∈ (s.hash b).entries ∧ (s.hash b).find? k = some e := by
        obtain ⟨e, he⟩ := OrderedTable.contains_iff_find?.mp (hkeys k hk)
        obtain ⟨k', hsame, hmem⟩ := OrderedTable.mem_entries_of_find? he
        exact ⟨k', e, hsame, hmem, he⟩
      refine .hash (hsize.trans hsize') (fun k hk => ?_) fun p hp e he => ?_
      · obtain ⟨k', e, hsame, hmem, -⟩ := hmiddle k hk
        obtain ⟨e', he'⟩ := OrderedTable.contains_iff_find?.mp (hkeys' k' (List.mem_map_of_mem hmem))
        exact OrderedTable.contains_iff_find?.mpr ⟨e', (OrderedTable.find?_congr hsame).trans he'⟩
      · obtain ⟨k', e', hsame, hmem, he'⟩ := hmiddle p.1 (List.mem_map_of_mem hp)
        exact ih p hp e' he' (h' (k', e') hmem e ((OrderedTable.find?_congr hsame).symm.trans he))

end Value

end MinRuby
