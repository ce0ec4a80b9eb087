import MinRuby.Proofs.Value.Equality
import MinRuby.Value.Indexing
import Mathlib.Data.List.Forall2

/-!
# Fingerprints of values

A finite value without definitions has a fingerprint, which stays the same as long as the value is not modified. Two
fingerprints are the same if the values have the same types and contents throughout, and hashes list their entries in the
same order; so equal values have the same fingerprint only if their hashes do.

* `Value.exists_fingerprint`, `Value.Unmodified.fingerprint_eq` — the fingerprint of a value.
* `Value.same_iff_alike` — what two values with the same fingerprint have in common.
-/

namespace MinRuby

open Numeric (Number Binary64)

/-! ## Lists -/

theorem forall₂_iff_getElem? {α β : Type} {R : α → β → Prop} {xs : List α} {ys : List β} :
    List.Forall₂ R xs ys ↔
      xs.length = ys.length ∧ ∀ (i : Nat) x y, xs[i]? = some x → ys[i]? = some y → R x y := by
  rw [List.forall₂_iff_zip]
  refine and_congr_right fun _ => ⟨fun h i x y hx hy => h (mem_zip_iff_getElem?.mpr ⟨i, hx, hy⟩), fun h x y hxy => ?_⟩
  obtain ⟨i, hx, hy⟩ := mem_zip_iff_getElem?.mp hxy
  exact h i x y hx hy

theorem mapM_eq_ok_iff {ε α β : Type} {f : α → Except ε β} {xs : List α} {ys : List β} :
    xs.mapM f = .ok ys ↔ List.Forall₂ (fun x y => f x = .ok y) xs ys := by
  induction xs generalizing ys with
  | nil => cases ys <;> simp [pure, Except.pure]
  | cons x xs ih =>
    rw [List.mapM_cons]
    cases hx : f x with
    | error e => cases ys <;> simp [bind, Except.bind, hx]
    | ok y =>
      cases hxs : xs.mapM f with
      | error e => cases ys <;> simp [bind, Except.bind, hx, ← ih, hxs]
      | ok rest => cases ys <;> simp [bind, Except.bind, pure, Except.pure, hx, ← ih, hxs]

namespace Key

theorem sameAll_iff {xs ys : List Key} : sameAll xs ys = true ↔ List.Forall₂ (fun x y => same x y = true) xs ys := by
  induction xs generalizing ys with
  | nil => cases ys <;> simp [sameAll]
  | cons x xs ih => cases ys <;> simp [sameAll, ih]

theorem sameEntries_iff {xs ys : List (Key × Key)} : sameEntries xs ys = true ↔
    List.Forall₂ (fun p q => same p.1 q.1 = true ∧ same p.2 q.2 = true) xs ys := by
  induction xs generalizing ys with
  | nil => cases ys <;> simp [sameEntries]
  | cons x xs ih => cases ys <;> simp [sameEntries, ih]

theorem allWithoutNaN_iff {ks : List Key} : AllWithoutNaN ks ↔ ∀ k ∈ ks, k.WithoutNaN := by
  induction ks with
  | nil => simp [AllWithoutNaN]
  | cons k ks ih => simp [AllWithoutNaN, ih]

theorem entriesWithoutNaN_iff {es : List (Key × Key)} :
    EntriesWithoutNaN es ↔ ∀ e ∈ es, e.1.WithoutNaN ∧ e.2.WithoutNaN := by
  induction es with
  | nil => simp [EntriesWithoutNaN]
  | cons e es ih => simp [EntriesWithoutNaN, ih, and_assoc]

end Key

namespace Value

variable {s s' : Store} {x y v : Value} {d d' : Nat} {j k : Key}

/-! ## The fingerprint of a value -/

/-- The fingerprint of the value. -/
inductive HasFingerprint (s : Store) : Value → Key → Prop where
  | nil : HasFingerprint s nil .nil
  | bool (b : Bool) : HasFingerprint s (bool b) (.bool b)
  | int (n : Int) : HasFingerprint s (int n) (.int n)
  | float (x : Float) : HasFingerprint s (float x) (.float x)
  | str (t : String) : HasFingerprint s (str t) (.str t)
  /-- The fingerprints of the elements. -/
  | array {a : Address} {ks : List Key} (hlength : (s.array a).toList.length = ks.length)
    (h : ∀ (i : Nat) x k, (s.array a).toList[i]? = some x → ks[i]? = some k → HasFingerprint s x k) :
    HasFingerprint s (array a) (.array ks)
  /-- The fingerprints that the keys had when they were stored, and those of the values. -/
  | hash {a : Address} {es : List (Key × Key)} (hlength : (s.hash a).entries.length = es.length)
    (hkeys : ∀ (i : Nat) p e, (s.hash a).entries[i]? = some p → es[i]? = some e → e.1 = p.1)
    (h : ∀ (i : Nat) p e, (s.hash a).entries[i]? = some p → es[i]? = some e → HasFingerprint s p.2.value e.2) :
    HasFingerprint s (hash a) (.hash es)

theorem map_eq_ok_iff {ε α β : Type} {f : α → β} {r : Except ε α} {z : β} :
    (do return f (← r)) = Except.ok z ↔ ∃ x, z = f x ∧ r = .ok x := by
  cases r <;> simp [bind, Except.bind, pure, Except.pure, eq_comm]

theorem fingerprint_array {a : Address} : (array a).fingerprint s (d + 1) = .ok k ↔
    ∃ ks, k = .array ks ∧ List.Forall₂ (fun x k => x.fingerprint s d = .ok k) (s.array a).toList ks := by
  simp only [← mapM_eq_ok_iff]
  exact map_eq_ok_iff

theorem fingerprint_hash {a : Address} : (hash a).fingerprint s (d + 1) = .ok k ↔
    ∃ es, k = .hash es ∧
      List.Forall₂ (fun p e => ∃ k, e = (p.1, k) ∧ p.2.value.fingerprint s d = .ok k) (s.hash a).entries es := by
  simp only [← map_eq_ok_iff, ← mapM_eq_ok_iff]
  rfl

theorem fingerprint_succ (h : v.fingerprint s d = .ok k) : v.fingerprint s (d + 1) = .ok k := by
  induction d generalizing v k with
  | zero => cases v <;> first | exact h | cases h
  | succ d ih =>
    cases v with
    | array a =>
      obtain ⟨ks, rfl, hks⟩ := fingerprint_array.mp h
      exact fingerprint_array.mpr ⟨ks, rfl, hks.imp fun _ _ => ih⟩
    | hash a =>
      obtain ⟨es, rfl, hes⟩ := fingerprint_hash.mp h
      exact fingerprint_hash.mpr ⟨es, rfl, hes.imp fun _ _ ⟨j, he, hj⟩ => ⟨j, he, ih hj⟩⟩
    | _ => exact h

/-- A fingerprint is the same at greater depths. -/
theorem fingerprint_mono (h : v.fingerprint s d = .ok k) (hd : d ≤ d') : v.fingerprint s d' = .ok k := by
  induction hd with
  | refl => exact h
  | step _ ih => exact fingerprint_succ ih

/-- The fingerprint that is made is the fingerprint. -/
theorem hasFingerprint_of_fingerprint (h : v.fingerprint s d = .ok k) : v.HasFingerprint s k := by
  induction d generalizing v k with
  | zero => cases v <;> cases h <;> constructor
  | succ d ih =>
    cases v with
    | array a =>
      obtain ⟨ks, rfl, hks⟩ := fingerprint_array.mp h
      obtain ⟨hlength, hks⟩ := forall₂_iff_getElem?.mp hks
      exact .array hlength fun i x k hx hk => ih (hks i x k hx hk)
    | hash a =>
      obtain ⟨es, rfl, hes⟩ := fingerprint_hash.mp h
      obtain ⟨hlength, hes⟩ := forall₂_iff_getElem?.mp hes
      refine .hash hlength (fun i p e hp he => ?_) fun i p e hp he => ?_
      · obtain ⟨k, rfl, -⟩ := hes i p e hp he
        rfl
      · obtain ⟨k, rfl, hk⟩ := hes i p e hp he
        exact ih hk
    | nil => cases h; exact .nil
    | bool b => cases h; exact .bool b
    | int n => cases h; exact .int n
    | float x => cases h; exact .float x
    | str t => cases h; exact .str t
    | procedure a => cases h

/-- The fingerprint is made, if the depth suffices. -/
theorem HasFingerprint.exists_depth (h : v.HasFingerprint s k) : ∃ D, ∀ d ≥ D, v.fingerprint s d = .ok k := by
  suffices h : ∃ D, v.fingerprint s D = .ok k by
    obtain ⟨D, hD⟩ := h
    exact ⟨D, fun d hd => fingerprint_mono hD hd⟩
  induction h with
  | nil => exact ⟨0, rfl⟩
  | bool b => exact ⟨0, rfl⟩
  | int n => exact ⟨0, rfl⟩
  | float x => exact ⟨0, rfl⟩
  | str t => exact ⟨0, rfl⟩
  | @array a ks hlength _ ih =>
    have hpair (p : Value × Key) (hp : p ∈ (s.array a).toList.zip ks) : ∃ D, ∀ d ≥ D, p.1.fingerprint s d = .ok p.2 := by
      obtain ⟨i, hx, hk⟩ := mem_zip_iff_getElem?.mp hp
      obtain ⟨D, hD⟩ := ih i p.1 p.2 hx hk
      exact ⟨D, fun d hd => fingerprint_mono hD hd⟩
    obtain ⟨D, hD⟩ := exists_common_bound hpair
    refine ⟨D + 1, fingerprint_array.mpr ⟨ks, rfl, List.forall₂_iff_zip.mpr ⟨hlength, fun hxk => ?_⟩⟩⟩
    exact hD _ hxk D (Nat.le_refl D)
  | @hash a es hlength hkeys _ ih =>
    have hpair (p : (Key × Entry) × Key × Key) (hp : p ∈ (s.hash a).entries.zip es) :
        ∃ D, ∀ d ≥ D, p.2 = (p.1.1, p.2.2) ∧ p.1.2.value.fingerprint s d = .ok p.2.2 := by
      obtain ⟨i, hentry, he⟩ := mem_zip_iff_getElem?.mp hp
      obtain ⟨D, hD⟩ := ih i p.1 p.2 hentry he
      exact ⟨D, fun d hd => ⟨Prod.ext (hkeys i p.1 p.2 hentry he) rfl, fingerprint_mono hD hd⟩⟩
    obtain ⟨D, hD⟩ := exists_common_bound hpair
    refine ⟨D + 1, fingerprint_hash.mpr ⟨es, rfl, List.forall₂_iff_zip.mpr ⟨hlength, fun {p e} hpe => ?_⟩⟩⟩
    exact ⟨e.2, hD _ hpe D (Nat.le_refl D)⟩

theorem HasFingerprint.unique (hj : v.HasFingerprint s j) (hk : v.HasFingerprint s k) : j = k := by
  obtain ⟨D, hD⟩ := hj.exists_depth
  obtain ⟨E, hE⟩ := hk.exists_depth
  have hsame := hD (max D E) (Nat.le_max_left D E)
  rw [hE (max D E) (Nat.le_max_right D E)] at hsame
  exact (Except.ok.inj hsame).symm

/-- The value is no definition. -/
def NotProcedure : Value → Prop
  | procedure _ => False
  | _ => True

/-- A value without definitions has a fingerprint, unless it nests too deeply. -/
theorem failsOnly_fingerprint_depth (hv : v.Throughout s NotProcedure) : FailsOnly (· = .limit .depth) (v.fingerprint s d) := by
  induction hv generalizing d with
  | @intro v here _ ih =>
    cases v with
    | procedure a => exact here.elim
    | array a =>
      cases d with
      | zero => exact .error rfl
      | succ d => exact (FailsOnly.mapM _ fun x hx => ih x (Array.mem_toList_iff.mp hx)).bind fun _ => .ok _
    | hash a =>
      cases d with
      | zero => exact .error rfl
      | succ d =>
        refine (FailsOnly.mapM _ fun p hp => ?_).bind fun _ => .ok _
        exact (ih p.2.value ⟨p.2, List.mem_map_of_mem hp, .inr rfl⟩).bind fun _ => .ok _
    | _ => cases d <;> exact .ok _

/-- A finite value without definitions has a fingerprint. -/
theorem exists_fingerprint (hv : v.Throughout s NotProcedure) : ∃ k, v.HasFingerprint s k := by
  obtain ⟨D, hD⟩ := exists_finishes hv.acc
  cases hk : v.fingerprint s D with
  | error e => exact absurd (failsOnly_fingerprint_depth hv e hk) ((hD D (Nat.le_refl D)).fingerprint e hk)
  | ok k => exact ⟨k, hasFingerprint_of_fingerprint hk⟩

/-- The fingerprint of a value without NaN is without NaN. -/
theorem HasFingerprint.withoutNaN (h : v.HasFingerprint s k) (hv : v.Throughout s (WithoutNaN s)) : k.WithoutNaN := by
  induction h with
  | nil | bool | int | str => trivial
  | float x => exact hv.here
  | @array a ks hlength _ ih =>
    refine Key.allWithoutNaN_iff.mpr fun k hk => ?_
    obtain ⟨i, hk⟩ := List.mem_iff_getElem?.mp hk
    obtain ⟨x, hx⟩ := exists_getElem?_eq_some hlength.symm hk
    exact ih i x k hx hk (hv.element (List.mem_of_getElem? hx))
  | @hash a es hlength hkeys _ ih =>
    refine Key.entriesWithoutNaN_iff.mpr fun e he => ?_
    obtain ⟨i, he⟩ := List.mem_iff_getElem?.mp he
    obtain ⟨p, hp⟩ := exists_getElem?_eq_some hlength.symm he
    rw [hkeys i p e hp he]
    exact ⟨hv.here p.1 (List.mem_map_of_mem (List.mem_of_getElem? hp)), ih i p e hp he (hv.entry (List.mem_of_getElem? hp))⟩

/-- A value that is not modified keeps its fingerprint. -/
theorem Unmodified.fingerprint_eq (hv : v.Unmodified s s') (h : v.fingerprint s d = .ok k) : v.fingerprint s' d = .ok k := by
  induction d generalizing v k with
  | zero => cases v <;> exact h
  | succ d ih =>
    cases v with
    | array a =>
      have hsame : s'.array a = s.array a := hv.sameIn
      obtain ⟨ks, rfl, hks⟩ := fingerprint_array.mp h
      obtain ⟨hlength, hks⟩ := forall₂_iff_getElem?.mp hks
      refine fingerprint_array.mpr ⟨ks, rfl, forall₂_iff_getElem?.mpr ?_⟩
      rw [hsame]
      refine ⟨hlength, fun i x k hx hk => ih (hv.part (x := x) ?_) (hks i x k hx hk)⟩
      exact Array.mem_toList_iff.mp (List.mem_of_getElem? hx)
    | hash a =>
      have hsame : s'.hash a = s.hash a := hv.sameIn
      obtain ⟨es, rfl, hes⟩ := fingerprint_hash.mp h
      obtain ⟨hlength, hes⟩ := forall₂_iff_getElem?.mp hes
      refine fingerprint_hash.mpr ⟨es, rfl, forall₂_iff_getElem?.mpr ?_⟩
      rw [hsame]
      refine ⟨hlength, fun i p e hp he => ?_⟩
      obtain ⟨k, rfl, hk⟩ := hes i p e hp he
      exact ⟨k, rfl, ih (hv.part ⟨p.2, List.mem_map_of_mem (List.mem_of_getElem? hp), .inr rfl⟩) hk⟩
    | _ => exact h

theorem HasFingerprint.unmodified (h : v.HasFingerprint s k) (hv : v.Unmodified s s') : v.HasFingerprint s' k := by
  obtain ⟨D, hD⟩ := h.exists_depth
  exact hasFingerprint_of_fingerprint (hv.fingerprint_eq (hD D (Nat.le_refl D)))

/-! ## Values with the same fingerprint -/

/-- The values have the same types and contents throughout. Two floats have the same content if they are the same number, two
hashes if they list the same keys with such values in the same order. -/
inductive Alike (s : Store) : Value → Value → Prop where
  | nil : Alike s nil nil
  | bool (b : Bool) : Alike s (bool b) (bool b)
  | int (n : Int) : Alike s (int n) (int n)
  | float {x y : Float} (h : (Number.float x).equal (.float y) = true) : Alike s (float x) (float y)
  | str (t : String) : Alike s (str t) (str t)
  | array {a b : Address} (hlength : (s.array a).toList.length = (s.array b).toList.length)
    (h : ∀ (i : Nat) v w, (s.array a).toList[i]? = some v → (s.array b).toList[i]? = some w → Alike s v w) :
    Alike s (array a) (array b)
  | hash {a b : Address} (hsize : (s.hash a).size = (s.hash b).size)
    (hkeys : ∀ (i : Nat) p q, (s.hash a).entries[i]? = some p → (s.hash b).entries[i]? = some q → (p.1 == q.1) = true)
    (h : ∀ (i : Nat) p q, (s.hash a).entries[i]? = some p → (s.hash b).entries[i]? = some q →
      Alike s p.2.value q.2.value) : Alike s (hash a) (hash b)

/-- Values with the same fingerprint are alike. -/
theorem alike_of_same (hx : x.HasFingerprint s j) (hy : y.HasFingerprint s k) (h : (j == k) = true) : x.Alike s y := by
  induction hx generalizing y k with
  | nil =>
    cases hy with
    | nil => exact .nil
    | _ => cases h
  | bool b =>
    cases hy with
    | bool b' =>
      obtain rfl := of_decide_eq_true h
      exact .bool b
    | _ => cases h
  | int n =>
    cases hy with
    | int n' =>
      obtain rfl := of_decide_eq_true h
      exact .int n
    | _ => cases h
  | float x =>
    cases hy with
    | float y => exact .float h
    | _ => cases h
  | str t =>
    cases hy with
    | str t' =>
      obtain rfl := of_decide_eq_true h
      exact .str t
    | _ => cases h
  | @array a ks hlength hks ih =>
    cases hy with
    | @array b ls hlength' hls =>
      obtain ⟨hlengths, hsame⟩ := forall₂_iff_getElem?.mp (Key.sameAll_iff.mp h)
      refine .array (by omega) fun i v w hv hw => ?_
      obtain ⟨k, hk⟩ := exists_getElem?_eq_some hlength hv
      obtain ⟨l, hl⟩ := exists_getElem?_eq_some hlength' hw
      exact ih i v k hv hk (hls i w l hw hl) (hsame i k l hk hl)
    | _ => cases h
  | @hash a es hlength hkeys _ ih =>
    cases hy with
    | @hash b fs hlength' hkeys' hfs =>
      obtain ⟨hlengths, hsame⟩ := forall₂_iff_getElem?.mp (Key.sameEntries_iff.mp h)
      have hsize : (s.hash a).entries.length = (s.hash b).entries.length := by omega
      refine .hash hsize (fun i p q hp hq => ?_) fun i p q hp hq => ?_
      all_goals
        obtain ⟨e, he⟩ := exists_getElem?_eq_some hlength hp
        obtain ⟨f, hf⟩ := exists_getElem?_eq_some hlength' hq
        obtain ⟨hkey, hvalue⟩ := hsame i e f he hf
      · rw [hkeys i p e hp he, hkeys' i q f hq hf] at hkey
        exact hkey
      · exact ih i p e hp he (hfs i q f hq hf) hvalue
    | _ => cases h

theorem same_of_alike (h : x.Alike s y) (hx : x.HasFingerprint s j) (hy : y.HasFingerprint s k) : (j == k) = true := by
  induction h generalizing j k with
  | nil =>
    cases hx
    cases hy
    rfl
  | bool b =>
    cases hx
    cases hy
    exact decide_eq_true rfl
  | int n =>
    cases hx
    cases hy
    exact decide_eq_true rfl
  | float h =>
    cases hx
    cases hy
    exact h
  | str t =>
    cases hx
    cases hy
    exact decide_eq_true rfl
  | @array a b hlength _ ih =>
    cases hx with
    | @array _ ks hks hget =>
      cases hy with
      | @array _ ls hls hget' =>
        refine Key.sameAll_iff.mpr (forall₂_iff_getElem?.mpr ⟨by omega, fun i k l hk hl => ?_⟩)
        obtain ⟨v, hv⟩ := exists_getElem?_eq_some hks.symm hk
        obtain ⟨w, hw⟩ := exists_getElem?_eq_some hls.symm hl
        exact ih i v w hv hw (hget i v k hv hk) (hget' i w l hw hl)
  | @hash a b hsize hkeys _ ih =>
    cases hx with
    | @hash _ es hes hkeyed hget =>
      cases hy with
      | @hash _ fs hfs hkeyed' hget' =>
        have hsize : (s.hash a).entries.length = (s.hash b).entries.length := hsize
        refine Key.sameEntries_iff.mpr (forall₂_iff_getElem?.mpr ⟨by omega, fun i e f he hf => ?_⟩)
        obtain ⟨p, hp⟩ := exists_getElem?_eq_some hes.symm he
        obtain ⟨q, hq⟩ := exists_getElem?_eq_some hfs.symm hf
        refine ⟨?_, ih i p q hp hq (hget i p e hp he) (hget' i q f hq hf)⟩
        rw [hkeyed i p e hp he, hkeyed' i q f hq hf]
        exact hkeys i p q hp hq

/-- Two values have the same fingerprint exactly if they are alike. -/
theorem same_iff_alike (hx : x.HasFingerprint s j) (hy : y.HasFingerprint s k) : (j == k) = true ↔ x.Alike s y :=
  ⟨alike_of_same hx hy, fun h => same_of_alike h hx hy⟩

/-- At corresponding places of the two values hashes list the same keys in the same order. -/
inductive SameOrder (s : Store) : Value → Value → Prop where
  | scalar {x y : Value} (hx : x.IsScalar) (hy : y.IsScalar) : SameOrder s x y
  | array {a b : Address}
    (h : ∀ (i : Nat) v w, (s.array a).toList[i]? = some v → (s.array b).toList[i]? = some w → SameOrder s v w) :
    SameOrder s (array a) (array b)
  | hash {a b : Address}
    (hkeys : ∀ (i : Nat) p q, (s.hash a).entries[i]? = some p → (s.hash b).entries[i]? = some q → (p.1 == q.1) = true)
    (h : ∀ (i : Nat) p q, (s.hash a).entries[i]? = some p → (s.hash b).entries[i]? = some q →
      SameOrder s p.2.value q.2.value) : SameOrder s (hash a) (hash b)

/-- The value is neither a float nor a definition. -/
def Plain : Value → Prop
  | float _ | procedure _ => False
  | _ => True

/-- In hashes that list the same keys in the same order, an entry is found at its own position. -/
theorem find?_of_same_position {t t' : HashTable} (ht : t'.Distinct)
    (hkeys : ∀ (i : Nat) p q, t.entries[i]? = some p → t'.entries[i]? = some q → (p.1 == q.1) = true) {i : Nat}
    {p q : Key × Entry} (hp : t.entries[i]? = some p) (hq : t'.entries[i]? = some q) : t'.find? p.1 = some q.2 :=
  ht.find?_eq_some (List.mem_of_getElem? hq) (hkeys i p q hp hq)

theorem Alike.equals (hs : s.Keyed) (h : x.Alike s y) : x.Equals s y := by
  induction h with
  | nil => exact .nil
  | bool b => exact .bool b
  | int n => exact .number rfl rfl (decide_eq_true rfl)
  | float h => exact .number rfl rfl h
  | str t => exact .str t
  | array hlength _ ih => exact .array hlength ih
  | @hash a b hsize hkeys _ ih =>
    have hposition (p : Key × Entry) (hp : p ∈ (s.hash a).entries) :
        ∃ (i : Nat) (q : Key × Entry), (s.hash a).entries[i]? = some p ∧ (s.hash b).entries[i]? = some q := by
      obtain ⟨i, hi⟩ := List.mem_iff_getElem?.mp hp
      obtain ⟨q, hq⟩ := exists_getElem?_eq_some hsize hi
      exact ⟨i, q, hi, hq⟩
    refine .hash hsize (fun k hk => ?_) fun p hp e he => ?_
    · obtain ⟨p, hp, rfl⟩ := List.mem_map.mp hk
      obtain ⟨i, q, hi, hq⟩ := hposition p hp
      exact OrderedTable.contains_iff_find?.mpr ⟨q.2, find?_of_same_position (hs b) hkeys hi hq⟩
    · obtain ⟨i, q, hi, hq⟩ := hposition p hp
      obtain rfl : q.2 = e := Option.some.inj ((find?_of_same_position (hs b) hkeys hi hq).symm.trans he)
      exact ih i p q hi hq

theorem Alike.sameOrder (h : x.Alike s y) : x.SameOrder s y := by
  induction h with
  | array _ _ ih => exact .array ih
  | hash _ hkeys _ ih => exact .hash hkeys ih
  | _ => exact .scalar trivial trivial

theorem alike_of_equals (hs : s.Keyed) (hx : x.Throughout s Plain) (hy : y.Throughout s Plain) (h : x.Equals s y)
    (horder : x.SameOrder s y) : x.Alike s y := by
  induction h with
  | nil => exact .nil
  | bool b => exact .bool b
  | str t => exact .str t
  | procedure a => exact hx.here.elim
  | @number x y m n hm hn h =>
    cases x with
    | int i =>
      cases y with
      | int j =>
        cases hm
        cases hn
        obtain rfl : i = j := of_decide_eq_true h
        exact .int i
      | float _ => exact hy.here.elim
      | _ => cases hn
    | float _ => exact hx.here.elim
    | _ => cases hm
  | @array a b hlength _ ih =>
    cases horder with
    | scalar hx => exact hx.elim
    | array horder =>
      refine .array hlength fun i v w hv hw => ?_
      exact ih i v w hv hw (hx.element (List.mem_of_getElem? hv)) (hy.element (List.mem_of_getElem? hw)) (horder i v w hv hw)
  | @hash a b hsize _ _ ih =>
    cases horder with
    | scalar hx => exact hx.elim
    | hash hkeys horder =>
      refine .hash hsize hkeys fun i p q hp hq => ?_
      exact ih p (List.mem_of_getElem? hp) q.2 (find?_of_same_position (hs b) hkeys hp hq)
        (hx.entry (List.mem_of_getElem? hp)) (hy.entry (List.mem_of_getElem? hq)) (horder i p q hp hq)

/-- Two finite values without floats and definitions have the same fingerprint exactly if, besides being equal, they list the
entries of their hashes in the same order. In that case, and in no other, what is stored in a hash under the one is then found
under the other. -/
theorem same_fingerprint_iff_equal_and_same_order (hs : s.Keyed) (hx : x.Throughout s Plain) (hy : y.Throughout s Plain) :
    ∃ D, ∀ d ≥ D, ∃ j k b, x.fingerprint s d = .ok j ∧ y.fingerprint s d = .ok k ∧ x.equal s d y = .ok b ∧
      ((j == k) = true ↔ b = true ∧ x.SameOrder s y) ∧
      ∀ a v, a < s.hashes.size → ¬ s.IsWithin (hash a) y → ∃ s', assign d (hash a) x v s = .ok () s' ∧ ∀ d' ≥ D,
        (b = true ∧ x.SameOrder s y → lookup? s' d' a y = .ok (some v)) ∧
          (¬ (b = true ∧ x.SameOrder s y) → lookup? s' d' a y = lookup? s d' a y) := by
  have hplain (v : Value) (hv : v.Plain) : v.NotProcedure := by
    cases v <;> first | exact hv.elim | trivial
  obtain ⟨j, hj⟩ := exists_fingerprint (hx.mono hplain)
  obtain ⟨k, hk⟩ := exists_fingerprint (hy.mono hplain)
  obtain ⟨D, hD⟩ := hj.exists_depth
  obtain ⟨E, hE⟩ := hk.exists_depth
  obtain ⟨F, hF⟩ := exists_equal hx.acc
  refine ⟨max D (max E F), fun d hd => ?_⟩
  obtain ⟨b, hb, hequals⟩ := hF d (by omega) y
  have hsame : (j == k) = true ↔ b = true ∧ x.SameOrder s y := by
    rw [same_iff_alike hj hk, hequals]
    exact ⟨fun h => ⟨h.equals hs, h.sameOrder⟩, fun h => alike_of_equals hs hx hy h.1 h.2⟩
  refine ⟨j, k, b, hD d (by omega), hE d (by omega), hb, hsame, fun a v ha hwithin => ?_⟩
  refine ⟨_, assign_of_fingerprint (hD d (by omega)), fun d' hd' => ?_⟩
  have hold := hE d' (by omega)
  have hnew := (unmodified_updateHash (·.insert j ⟨x, v⟩) hwithin).fingerprint_eq hold
  rw [lookup?_of_fingerprint hnew, lookup?_of_fingerprint hold, Store.hash_updateHash ha, OrderedTable.find?_insert, BEq.comm,
    ← hsame]
  constructor
  · intro h
    rw [if_pos h]
    rfl
  · intro h
    rw [if_neg h]

/-- Two hashes with the same entries, in different orders. -/
def twoOrders : Store where
  hashes := #[⟨[(.int 1, ⟨int 1, int 1⟩), (.int 2, ⟨int 2, int 2⟩)]⟩, ⟨[(.int 2, ⟨int 2, int 2⟩), (.int 1, ⟨int 1, int 1⟩)]⟩]

theorem keyed_twoOrders : twoOrders.Keyed := by
  intro a
  match a with
  | 0 => decide
  | 1 => decide
  | a + 2 => exact OrderedTable.distinct_empty

theorem throughout_twoOrders {P : Value → Prop} {a : Address} (ha : P (hash a)) (hint : ∀ n, P (int n)) :
    (hash a).Throughout twoOrders P := by
  have hentry (e : Entry) (he : e ∈ twoOrders.entries a) : ∃ m n, e = ⟨int m, int n⟩ := by
    match a with
    | 0 => rcases List.mem_pair.mp he with rfl | rfl <;> exact ⟨_, _, rfl⟩
    | 1 => rcases List.mem_pair.mp he with rfl | rfl <;> exact ⟨_, _, rfl⟩
    | a + 2 => exact absurd he List.not_mem_nil
  refine .intro ha ?_
  rintro x ⟨e, he, hx⟩
  obtain ⟨m, n, rfl⟩ := hentry e he
  rcases hx with rfl | rfl <;> exact throughout_of_isScalar trivial (hint _)

/-- The two hashes are equal, but they are different keys. -/
theorem equal_without_same_fingerprint : twoOrders.Keyed ∧
    (hash 0).Throughout twoOrders Plain ∧ (hash 1).Throughout twoOrders Plain ∧
    (hash 0).equal twoOrders 1 (hash 1) = .ok true ∧
    ∃ j k, (hash 0).fingerprint twoOrders 1 = .ok j ∧ (hash 1).fingerprint twoOrders 1 = .ok k ∧ (j == k) = false :=
  ⟨keyed_twoOrders, throughout_twoOrders trivial fun _ => trivial, throughout_twoOrders trivial fun _ => trivial, rfl, _, _, rfl,
    rfl, rfl⟩

theorem same_fingerprint_iff_of_two_orders : ∃ D, ∀ d ≥ D, ∃ j k b, (hash 0).fingerprint twoOrders d = .ok j ∧
    (hash 1).fingerprint twoOrders d = .ok k ∧ (hash 0).equal twoOrders d (hash 1) = .ok b ∧
    ((j == k) = true ↔ b = true ∧ (hash 0).SameOrder twoOrders (hash 1)) ∧
    ∀ a v, a < twoOrders.hashes.size → ¬ twoOrders.IsWithin (hash a) (hash 1) →
      ∃ s', assign d (hash a) (hash 0) v twoOrders = .ok () s' ∧ ∀ d' ≥ D,
        (b = true ∧ (hash 0).SameOrder twoOrders (hash 1) → lookup? s' d' a (hash 1) = .ok (some v)) ∧
          (¬ (b = true ∧ (hash 0).SameOrder twoOrders (hash 1)) → lookup? s' d' a (hash 1) = lookup? twoOrders d' a (hash 1)) :=
  same_fingerprint_iff_equal_and_same_order keyed_twoOrders (throughout_twoOrders trivial fun _ => trivial)
    (throughout_twoOrders trivial fun _ => trivial)

end Value

end MinRuby
