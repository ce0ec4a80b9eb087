import MinRuby.Proofs.Value.Fingerprint

/-!
# What a fingerprint is made of

The fingerprint of an array is made of those of its elements, and that of a hash of the ones that its keys had when they
were stored and of those of its values. So a change somewhere concerns only the fingerprints of the values that hold the
place as elements and as values of entries. A value that holds a hash in this way is never found in that hash: its
fingerprint is taller than all those that the hash has entries under.

* `Store.IsHeldIn` — the values that a fingerprint is made of.
* `fingerprint_congr`, `inspect_congr` — what is the same in two stores.
* `find?_eq_none_of_isHeldIn` — a hash has no entry for a value that holds it.
-/

namespace MinRuby

/-- The first value is an element of the second one or the value of an entry. -/
def Store.IsHeldBy (s : Store) (x : Value) : Value → Prop
  | .array a => x ∈ s.array a
  | .hash a => ∃ p ∈ (s.hash a).entries, x = p.2.value
  | _ => False

/-- The first value is the second one, or is held by it directly or through others. -/
def Store.IsHeldIn (s : Store) : Value → Value → Prop := Relation.ReflTransGen s.IsHeldBy

theorem Store.IsHeldBy.isIn {s : Store} {x y : Value} (h : s.IsHeldBy x y) : s.IsIn x y := by
  cases y with
  | array a => exact h
  | hash a =>
    obtain ⟨p, hp, rfl⟩ := h
    exact ⟨p.2, List.mem_map_of_mem hp, .inr rfl⟩
  | _ => exact h.elim

theorem Store.IsHeldIn.isWithin {s : Store} {x y : Value} (h : s.IsHeldIn x y) : s.IsWithin x y :=
  Relation.ReflTransGen.mono (fun _ _ => IsHeldBy.isIn) x y h

namespace Value

theorem mapM_congr {ε α β : Type} {f g : α → Except ε β} {l : List α} (h : ∀ x ∈ l, f x = g x) : l.mapM f = l.mapM g := by
  induction l with
  | nil => rfl
  | cons x l ih => rw [List.mapM_cons, List.mapM_cons, h x List.mem_cons_self, ih fun y hy => h y (List.mem_cons_of_mem x hy)]

section

variable {s s' : Store} {v : Value} {k : Key}

/-! ## Changes that do not matter -/

/-- A fingerprint depends only on what is held. -/
theorem fingerprint_congr (h : ∀ x, s.IsHeldIn x v → x.SameIn s s') (d : Nat) : v.fingerprint s' d = v.fingerprint s d := by
  induction d generalizing v with
  | zero => cases v <;> rfl
  | succ d ih =>
    have hpart {x : Value} (hx : s.IsHeldBy x v) : x.fingerprint s' d = x.fingerprint s d := ih fun y hy => h y (hy.tail hx)
    cases v with
    | array a =>
      have hsame : s'.array a = s.array a := h _ .refl
      rw [fingerprint, fingerprint]
      rw [hsame, mapM_congr fun x hx => hpart (x := x) (Array.mem_toList_iff.mp hx)]
    | hash a =>
      have hsame : s'.hash a = s.hash a := h _ .refl
      rw [fingerprint, fingerprint, hsame]
      congr 1
      exact mapM_congr fun p hp => by rw [hpart (x := p.2.value) ⟨p, hp, rfl⟩]
    | _ => rfl

theorem inspect_int (s : Store) (d : Nat) (n : Int) : (int n).inspect s d = decimal n := by cases d <;> rfl

theorem inspect_procedure (s : Store) (d : Nat) (a : Address) : (procedure a).inspect s d =
    .ok ("#<" ++ Kind.userDefined.name ++ " " ++ ((s.procedures[a]?).map (·.name)).getD "" ++ ">") := by
  cases d <;> rfl

theorem inspect_array (s : Store) (d : Nat) (a : Address) : (array a).inspect s (d + 1) =
    (do return "[" ++ ", ".intercalate (← (s.array a).toList.mapM (inspect s d)) ++ "]") := rfl

theorem inspect_hash (s : Store) (d : Nat) (a : Address) : (hash a).inspect s (d + 1) = (do
    let entries ← (s.entries a).mapM fun e => do return (← inspect s d e.key) ++ " => " ++ (← inspect s d e.value)
    return "\x7b" ++ ", ".intercalate entries ++ "\x7d") := rfl

/-- A text depends on all that is in the value. -/
theorem inspect_congr (h : v.Unmodified s s') (hprocedures : s'.procedures = s.procedures) (d : Nat) :
    v.inspect s' d = v.inspect s d := by
  induction d generalizing v with
  | zero =>
    cases v with
    | int n => rw [inspect_int, inspect_int]
    | procedure a => rw [inspect_procedure, inspect_procedure, hprocedures]
    | _ => rfl
  | succ d ih =>
    have hpart {x : Value} (hx : s.IsIn x v) : x.inspect s' d = x.inspect s d := ih (h.part hx)
    cases v with
    | array a =>
      have hsame : s'.array a = s.array a := h.sameIn
      rw [inspect_array, inspect_array, hsame, mapM_congr fun x hx => hpart (x := x) (Array.mem_toList_iff.mp hx)]
    | hash a =>
      have hsame : s'.entries a = s.entries a := congrArg OrderedTable.values h.sameIn
      rw [inspect_hash, inspect_hash, hsame]
      congr 1
      refine mapM_congr fun e he => ?_
      rw [hpart (x := e.key) ⟨e, he, .inl rfl⟩, hpart (x := e.value) ⟨e, he, .inr rfl⟩]
    | int n => rw [inspect_int, inspect_int]
    | procedure a => rw [inspect_procedure, inspect_procedure, hprocedures]
    | _ => rfl

end

end Value

/-! ## Heights -/

namespace Key

mutual

/-- How deep arrays and hashes nest in a fingerprint. -/
def height : Key → Nat
  | array ks => heightAll ks + 1
  | hash es => heightEntries es + 1
  | _ => 0

/-- The greatest height of several fingerprints. -/
def heightAll : List Key → Nat
  | [] => 0
  | k :: ks => max k.height (heightAll ks)

/-- The greatest height of the fingerprints in several entries. -/
def heightEntries : List (Key × Key) → Nat
  | [] => 0
  | (k, v) :: es => max (max k.height v.height) (heightEntries es)

end

mutual

theorem height_eq_of_same : ∀ {a b : Key}, same a b = true → a.height = b.height
  | nil, b, h | bool _, b, h | int _, b, h | float _, b, h | str _, b, h => by cases b <;> simp_all [same, height]
  | array xs, b, h => by
    cases b with
    | array ys => simp only [same] at h; simp only [height, heightAll_eq_of_same h]
    | _ => simp [same] at h
  | hash xs, b, h => by
    cases b with
    | hash ys => simp only [same] at h; simp only [height, heightEntries_eq_of_same h]
    | _ => simp [same] at h

theorem heightAll_eq_of_same : ∀ {xs ys : List Key}, sameAll xs ys = true → heightAll xs = heightAll ys
  | [], [], _ => rfl
  | x :: xs, y :: ys, h => by
    simp only [sameAll, Bool.and_eq_true] at h
    simp only [heightAll, height_eq_of_same h.1, heightAll_eq_of_same h.2]
  | [], _ :: _, h | _ :: _, [], h => by simp [sameAll] at h

theorem heightEntries_eq_of_same : ∀ {xs ys : List (Key × Key)}, sameEntries xs ys = true → heightEntries xs = heightEntries ys
  | [], [], _ => rfl
  | (k, v) :: xs, (k', v') :: ys, h => by
    simp only [sameEntries, Bool.and_eq_true] at h
    simp only [heightEntries, height_eq_of_same h.1.1, height_eq_of_same h.1.2, heightEntries_eq_of_same h.2]
  | [], _ :: _, h | _ :: _, [], h => by simp [sameEntries] at h

end

theorem height_lt_of_mem {k : Key} {ks : List Key} (h : k ∈ ks) : k.height < (array ks).height := by
  rw [height, Nat.lt_succ_iff]
  induction ks with
  | nil => cases h
  | cons k' ks ih =>
    rw [heightAll]
    rcases List.mem_cons.mp h with rfl | h
    · exact le_max_left _ _
    · exact (ih h).trans (le_max_right _ _)

theorem height_lt_of_mem_entries {e : Key × Key} {es : List (Key × Key)} (h : e ∈ es) :
    e.1.height < (hash es).height ∧ e.2.height < (hash es).height := by
  rw [height, Nat.lt_succ_iff, Nat.lt_succ_iff]
  induction es with
  | nil => cases h
  | cons e' es ih =>
    rw [heightEntries]
    rcases List.mem_cons.mp h with rfl | h
    · exact ⟨(le_max_left _ _).trans (le_max_left _ _), (le_max_right _ _).trans (le_max_left _ _)⟩
    · exact ⟨(ih h).1.trans (le_max_right _ _), (ih h).2.trans (le_max_right _ _)⟩

end Key

namespace Value

variable {s : Store} {x v : Value} {k : Key}

/-- The fingerprints of what is held are lower. -/
theorem HasFingerprint.height_lt (h : v.HasFingerprint s k) (hx : s.IsHeldBy x v) :
    ∃ j, x.HasFingerprint s j ∧ j.height < k.height := by
  cases h with
  | @array a ks hlength hitems =>
    obtain ⟨i, hi⟩ := List.mem_iff_getElem?.mp (Array.mem_toList_iff.mpr hx)
    obtain ⟨j, hj⟩ := exists_getElem?_eq_some hlength hi
    exact ⟨j, hitems i x j hi hj, Key.height_lt_of_mem (List.mem_of_getElem? hj)⟩
  | @hash a es hlength hkeys hvalues =>
    obtain ⟨p, hp, rfl⟩ := hx
    obtain ⟨i, hi⟩ := List.mem_iff_getElem?.mp hp
    obtain ⟨e, he⟩ := exists_getElem?_eq_some hlength hi
    exact ⟨e.2, hvalues i p e hi he, (Key.height_lt_of_mem_entries (List.mem_of_getElem? he)).2⟩
  | _ => exact hx.elim

theorem HasFingerprint.height_le (h : v.HasFingerprint s k) (hx : s.IsHeldIn x v) :
    ∃ j, x.HasFingerprint s j ∧ j.height ≤ k.height := by
  induction hx using Relation.ReflTransGen.head_induction_on with
  | refl => exact ⟨k, h, Nat.le_refl _⟩
  | head hin _ ih =>
    obtain ⟨j, hj, hle⟩ := ih
    obtain ⟨i, hi, hlt⟩ := hj.height_lt hin
    exact ⟨i, hi, hlt.le.trans hle⟩

/-- A hash has no entry for a value that holds it. -/
theorem find?_eq_none_of_isHeldIn {a : Address} (h : v.HasFingerprint s k) (hv : s.IsHeldIn (hash a) v) :
    (s.hash a).find? k = none := by
  obtain ⟨j, hj, hle⟩ := h.height_le hv
  cases hj with
  | @hash _ es hlength hkeys _ =>
    refine Option.eq_none_iff_forall_not_mem.mpr fun entry hentry => ?_
    obtain ⟨k', hsame, hmem⟩ := OrderedTable.mem_entries_of_find? hentry
    obtain ⟨i, hi⟩ := List.mem_iff_getElem?.mp hmem
    obtain ⟨e, he⟩ := exists_getElem?_eq_some hlength hi
    have hlower := (Key.height_lt_of_mem_entries (List.mem_of_getElem? he)).1
    rw [hkeys i _ e hi he, ← Key.height_eq_of_same hsame] at hlower
    exact absurd hle (Nat.not_le.mpr hlower)

end Value

end MinRuby
