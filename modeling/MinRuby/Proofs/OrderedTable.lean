import MinRuby.OrderedTable
import Mathlib.Data.List.Induction

/-!
# Tables with distinct keys

The tables that insertions lead to, when keys are compared by a partial equivalence that need not be equality. No two
entries have keys that are the same, so an entry is found under its key and under every key that is the same.

* `find?_insert`, `keys_insert_eq`, `Distinct.insert` — what one insertion does.
* `find?_ofList`, `keys_ofList` — a table that was filled step by step holds the last value under each key, and lists the
  keys in the order in which they came first.
* `contains_of_covers` — two tables of one size have the same keys if one has the keys of the other.
-/

namespace MinRuby

/-- One more element at the end is dropped if it is there already. -/
theorem eraseDups_append_singleton {κ : Type} [BEq κ] (ks : List κ) (k : κ) :
    (ks ++ [k]).eraseDups = if ks.eraseDups.any (k == ·) then ks.eraseDups else ks.eraseDups ++ [k] := by
  have hloop (seen : List κ) : List.eraseDupsBy.loop (· == ·) (ks ++ [k]) seen =
      if (List.eraseDupsBy.loop (· == ·) ks seen).any (k == ·) then List.eraseDupsBy.loop (· == ·) ks seen
      else List.eraseDupsBy.loop (· == ·) ks seen ++ [k] := by
    induction ks generalizing seen with
    | nil =>
      simp only [List.nil_append, List.eraseDupsBy.loop, List.any_reverse]
      split <;> simp_all
    | cons k' ks ih =>
      cases hseen : seen.any (k' == ·)
      · simp only [List.cons_append, List.eraseDupsBy.loop, hseen, ih]
      · simp only [List.cons_append, List.eraseDupsBy.loop, hseen, ih]
  exact hloop []

namespace OrderedTable

variable {κ α : Type} [BEq κ] {t t' : OrderedTable κ α} {k k' : κ} {v : α}

/-- No two entries have the same key. -/
def Distinct (t : OrderedTable κ α) : Prop := t.keys.Pairwise fun k k' => (k == k') = false

instance (t : OrderedTable κ α) : Decidable t.Distinct := inferInstanceAs (Decidable (List.Pairwise _ _))

theorem distinct_empty : (empty : OrderedTable κ α).Distinct := List.Pairwise.nil

theorem insertInto_cons (e : κ × α) (es : List (κ × α)) :
    insertInto k v (e :: es) = if k == e.1 then (e.1, v) :: es else e :: insertInto k v es := rfl

/-- A key that is not there yet comes last. -/
theorem insertInto_of_new {es : List (κ × α)} (h : ∀ e ∈ es, (k == e.1) = false) : insertInto k v es = es ++ [(k, v)] := by
  induction es with
  | nil => rfl
  | cons e es ih =>
    obtain ⟨he, hes⟩ := List.forall_mem_cons.mp h
    rw [insertInto_cons, he, if_neg Bool.false_ne_true, ih hes, List.cons_append]

theorem ofList_append_singleton (es : List (κ × α)) (e : κ × α) : ofList (es ++ [e]) = (ofList es).insert e.1 e.2 := by
  simp [ofList, List.foldl_append]

theorem keys_insert_eq (t : OrderedTable κ α) (k : κ) (v : α) :
    (t.insert k v).keys = if t.keys.any (k == ·) then t.keys else t.keys ++ [k] := by
  obtain ⟨entries⟩ := t
  unfold insert keys
  induction entries with
  | nil => rfl
  | cons e es ih =>
    rw [insertInto_cons]
    by_cases hk : (k == e.1) = true
    · simp [hk]
    · have hk' : (k == e.1) = false := by simpa using hk
      simp only [hk', Bool.false_eq_true, if_false, List.map_cons, List.any_cons, Bool.false_or, ih]
      split <;> rfl

/-- What is found stands under a key that is the same. -/
theorem mem_entries_of_find? (h : t.find? k = some v) : ∃ k', (k == k') = true ∧ (k', v) ∈ t.entries := by
  obtain ⟨entries⟩ := t
  unfold find? at h
  induction entries with
  | nil => cases h
  | cons e es ih =>
    rw [List.lookup_cons] at h
    split at h
    · next he =>
      obtain rfl := Option.some.inj h
      exact ⟨e.1, he, List.mem_cons_self⟩
    · obtain ⟨k', hk, hmem⟩ := ih h
      exact ⟨k', hk, List.mem_cons_of_mem e hmem⟩

theorem keys_ofList (es : List (κ × α)) : (ofList es).keys = (es.map (·.1)).eraseDups := by
  induction es using List.reverseRecOn with
  | nil => rfl
  | append_singleton es e ih =>
    rw [ofList_append_singleton, keys_insert_eq, List.map_append, List.map_singleton, eraseDups_append_singleton, ih]

theorem mem_map_of_mem_keys_ofList {es : List (κ × α)} (h : k ∈ (ofList es).keys) : k ∈ es.map (·.1) := by
  induction es using List.reverseRecOn with
  | nil => cases h
  | append_singleton es e ih =>
    rw [ofList_append_singleton, keys_insert_eq] at h
    rw [List.map_append, List.mem_append]
    split at h
    · exact .inl (ih h)
    · exact (List.mem_append.mp h).imp_left ih

section

variable [PartialEquivBEq κ]

/-! ## Looking up -/

theorem find?_congr (h : (k == k') = true) : t.find? k = t.find? k' := by
  obtain ⟨entries⟩ := t
  unfold find?
  induction entries with
  | nil => rfl
  | cons e es ih => rw [List.lookup_cons, List.lookup_cons, BEq.congr_left h, ih]

/-- Every entry is found, if keys are distinct. -/
theorem Distinct.find?_eq_some {e : κ × α} (ht : t.Distinct) (he : e ∈ t.entries) (hk : (k == e.1) = true) :
    t.find? k = some e.2 := by
  obtain ⟨entries⟩ := t
  unfold find?
  induction entries with
  | nil => cases he
  | cons f es ih =>
    obtain ⟨hf, hes⟩ := List.pairwise_cons.mp ht
    rw [List.lookup_cons]
    rcases List.mem_cons.mp he with rfl | he
    · rw [hk]
    · have hne : (k == f.1) = false := by
        rw [BEq.congr_left hk, BEq.comm]
        exact hf e.1 (List.mem_map_of_mem he)
      rw [hne]
      exact ih hes he

theorem contains_iff_exists : t.contains k = true ↔ ∃ k' ∈ t.keys, (k == k') = true := by
  simp only [contains, keys, List.any_eq_true, List.mem_map]
  constructor
  · rintro ⟨e, he, hk⟩
    exact ⟨e.1, ⟨e, he, rfl⟩, BEq.symm hk⟩
  · rintro ⟨_, ⟨e, he, rfl⟩, hk⟩
    exact ⟨e, he, BEq.symm hk⟩

theorem contains_iff_find? : t.contains k = true ↔ ∃ v, t.find? k = some v := by
  simp only [contains, find?, ← Option.isSome_iff_exists, List.lookup_isSome_iff, List.any_eq_true]
  constructor
  · rintro ⟨e, he, hk⟩
    exact ⟨e, he, BEq.symm hk⟩
  · rintro ⟨e, he, hk⟩
    exact ⟨e, he, BEq.symm hk⟩

/-! ## Insertions -/

theorem find?_insert (t : OrderedTable κ α) (k k' : κ) (v : α) :
    (t.insert k v).find? k' = if k' == k then some v else t.find? k' := by
  obtain ⟨entries⟩ := t
  unfold insert find?
  induction entries with
  | nil =>
    rw [insertInto, List.lookup_cons]
    split <;> simp_all
  | cons e es ih =>
    rw [insertInto_cons]
    split
    · next hk =>
      rw [List.lookup_cons, List.lookup_cons, ← BEq.congr_right hk]
      split <;> simp_all
    · next hk =>
      rw [List.lookup_cons, List.lookup_cons, ih]
      split
      · next he =>
        have hne : (k' == k) = false := by
          rw [BEq.congr_left he, BEq.comm]
          simpa using hk
        rw [hne, if_neg Bool.false_ne_true]
      · rfl

theorem Distinct.insert (ht : t.Distinct) (k : κ) (v : α) : (t.insert k v).Distinct := by
  unfold Distinct
  rw [keys_insert_eq]
  split
  · exact ht
  · next hnew =>
    refine List.pairwise_append.mpr ⟨ht, List.pairwise_singleton _ _, fun k' hk' x hx => ?_⟩
    obtain rfl := List.mem_singleton.mp hx
    rw [BEq.comm]
    exact Bool.eq_false_iff.mpr fun hk => hnew (List.any_eq_true.mpr ⟨k', hk', hk⟩)

/-! ## Filling -/

theorem distinct_ofList (es : List (κ × α)) : (ofList es).Distinct := by
  induction es using List.reverseRecOn with
  | nil => exact distinct_empty
  | append_singleton es e ih =>
    rw [ofList_append_singleton]
    exact ih.insert e.1 e.2

theorem find?_ofList (es : List (κ × α)) (k : κ) : (ofList es).find? k = es.reverse.lookup k := by
  induction es using List.reverseRecOn with
  | nil => rfl
  | append_singleton es e ih =>
    rw [ofList_append_singleton, find?_insert, List.reverse_concat, List.lookup_cons, ih]
    split <;> simp_all

/-- Entries with distinct keys stay as they are. -/
theorem entries_ofList (es : List (κ × α)) (h : Distinct ⟨es⟩) : (ofList es).entries = es := by
  induction es using List.reverseRecOn with
  | nil => rfl
  | append_singleton es e ih =>
    unfold Distinct keys at h
    rw [List.map_append, List.pairwise_append] at h
    rw [ofList_append_singleton, insert, ih h.1]
    refine insertInto_of_new fun f hf => ?_
    rw [BEq.comm]
    exact h.2.2 f.1 (List.mem_map_of_mem hf) e.1 List.mem_cons_self

/-! ## The same keys -/

/-- Of lists of one length, if no two elements of the first are the same and each is the same as one of the second, then
each of the second is the same as one of the first. -/
theorem covers_of_covered {xs ys : List κ} (hxs : xs.Pairwise fun k k' => (k == k') = false)
    (hcover : ∀ x ∈ xs, ∃ y ∈ ys, (x == y) = true) (hlength : ys.length ≤ xs.length) :
    ∀ y ∈ ys, ∃ x ∈ xs, (x == y) = true := by
  induction xs generalizing ys with
  | nil =>
    obtain rfl := List.length_eq_zero_iff.mp (Nat.le_zero.mp hlength)
    exact fun y hy => absurd hy List.not_mem_nil
  | cons x xs ih =>
    obtain ⟨hx, hxs⟩ := List.pairwise_cons.mp hxs
    obtain ⟨⟨y₀, hy₀, hxy⟩, hrest⟩ := List.forall_mem_cons.mp hcover
    obtain ⟨before, after, rfl⟩ := List.append_of_mem hy₀
    -- the other elements are covered by what is left when `y₀` is taken out
    have hother (x' : κ) (hx' : x' ∈ xs) : ∃ y ∈ before ++ after, (x' == y) = true := by
      obtain ⟨y, hy, hxy'⟩ := hrest x' hx'
      rcases List.mem_append.mp hy with hy | hy
      · exact ⟨y, List.mem_append_left _ hy, hxy'⟩
      · rcases List.mem_cons.mp hy with rfl | hy
        · have hsame : (x == x') = true := PartialEquivBEq.trans hxy (BEq.symm hxy')
          rw [hx x' hx'] at hsame
          cases hsame
        · exact ⟨y, List.mem_append_right _ hy, hxy'⟩
    have hleft := ih hxs hother (by simp at hlength ⊢; omega)
    intro y hy
    have hmove : y = y₀ ∨ y ∈ before ++ after := by
      simp only [List.mem_append, List.mem_cons] at hy ⊢
      tauto
    rcases hmove with rfl | hy
    · exact ⟨x, List.mem_cons_self, hxy⟩
    · obtain ⟨x', hx', hxy'⟩ := hleft y hy
      exact ⟨x', List.mem_cons_of_mem x hx', hxy'⟩

theorem contains_of_covers (ht : t.Distinct) (hsize : t.size = t'.size) (hcover : ∀ k ∈ t.keys, t'.contains k = true) :
    ∀ k ∈ t'.keys, t.contains k = true := by
  have hlength : t'.keys.length ≤ t.keys.length := by
    simp only [keys, List.length_map]
    exact Nat.le_of_eq hsize.symm
  intro k hk
  obtain ⟨k', hk', hsame⟩ := covers_of_covered ht (fun k hk => contains_iff_exists.mp (hcover k hk)) hlength k hk
  exact contains_iff_exists.mpr ⟨k', hk', BEq.symm hsame⟩

end

end OrderedTable

end MinRuby
