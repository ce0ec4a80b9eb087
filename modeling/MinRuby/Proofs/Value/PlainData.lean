import MinRuby.Proofs.Run.Tables
import MinRuby.Proofs.Value.Content
import MinRuby.Proofs.Value.Holding
import MinRuby.Value.Conversion

/-!
# Values and the plain data they stand for

`Data.IsOf` says that a value in a store is made of the same parts as plain data: arrays of lists or tuples, hashes of
mappings, entry by entry. Such a value is converted to the data, and the data is converted to such a value.

* `Data.IsOf.toData_eq` — the data of a value.
* `Data.exists_ofData` — the value of data, in places of its own.
* `Data.IsOf.inspect_eq`, `Data.IsOf.alike` — two values of the same data.
-/

namespace MinRuby

open Numeric (Number Binary64)

namespace Data

/-! ## The shape of data -/

mutual

/-- How deep sequences and mappings nest. -/
def height : Data → Nat
  | list items => heightAll items + 1
  | tuple items => heightAll items + 1
  | mapping entries => heightEntries entries + 1
  | _ => 0
termination_by structural d => d

/-- The height of the highest member. -/
def heightAll : List Data → Nat
  | [] => 0
  | d :: rest => max d.height (heightAll rest)
termination_by structural l => l

/-- The height of the highest key or value. -/
def heightEntries : List (Data × Data) → Nat
  | [] => 0
  | (k, v) :: rest => max (max k.height v.height) (heightEntries rest)
termination_by structural l => l

end

mutual

/-- The fingerprint of a value that is made of the same parts. -/
def key : Data → Key
  | null => .nil
  | bool b => .bool b
  | int n => .int n
  | float x => .float x
  | str s => .str s
  | list items => .array (keyAll items)
  | tuple items => .array (keyAll items)
  | mapping entries => .hash (keyEntries entries)
termination_by structural d => d

/-- The fingerprints of the members. -/
def keyAll : List Data → List Key
  | [] => []
  | d :: rest => d.key :: keyAll rest
termination_by structural l => l

/-- The fingerprints of the keys and values. -/
def keyEntries : List (Data × Data) → List (Key × Key)
  | [] => []
  | (k, v) :: rest => (k.key, v.key) :: keyEntries rest
termination_by structural l => l

end

section

variable (P : Data → Prop)

mutual

/-- The data and all its parts have the property. -/
def Everywhere : Data → Prop
  | list items => P (list items) ∧ EverywhereAll items
  | tuple items => P (tuple items) ∧ EverywhereAll items
  | mapping entries => P (mapping entries) ∧ EverywhereEntries entries
  | d => P d
termination_by structural d => d

/-- The same of each member. -/
def EverywhereAll : List Data → Prop
  | [] => True
  | d :: rest => Everywhere d ∧ EverywhereAll rest
termination_by structural l => l

/-- The same of each key and value. -/
def EverywhereEntries : List (Data × Data) → Prop
  | [] => True
  | (k, v) :: rest => Everywhere k ∧ Everywhere v ∧ EverywhereEntries rest
termination_by structural l => l

end

end

/-- If the data is a mapping, its keys have pairwise different fingerprints. -/
def Unmerged : Data → Prop
  | mapping entries => entries.Pairwise fun e f => Key.same e.1.key f.1.key = false
  | _ => True

/-- The data is not NaN. -/
def NotNaN : Data → Prop
  | float x => Binary64.ofFloat x ≠ .nan
  | _ => True

mutual

/-- The data is a key that no other value shares: null, an integer, a text, or a tuple of such. -/
def IsKey : Data → Prop
  | null | int _ | str _ => True
  | tuple items => AreKeys items
  | _ => False
termination_by structural d => d

/-- The same of each member. -/
def AreKeys : List Data → Prop
  | [] => True
  | d :: rest => d.IsKey ∧ AreKeys rest
termination_by structural l => l

end

mutual

/-- The data has such keys in its mappings, and tuples nowhere else. -/
def IsPlain : Data → Prop
  | tuple _ => False
  | list items => ArePlain items
  | mapping entries => EntriesArePlain entries
  | _ => True
termination_by structural d => d

/-- The same of each member. -/
def ArePlain : List Data → Prop
  | [] => True
  | d :: rest => d.IsPlain ∧ ArePlain rest
termination_by structural l => l

/-- The same of each value. -/
def EntriesArePlain : List (Data × Data) → Prop
  | [] => True
  | (k, v) :: rest => k.IsKey ∧ v.IsPlain ∧ EntriesArePlain rest
termination_by structural l => l

end

/-! ## Values of data -/

section

variable (filed : Key → Key → Prop) (s : Store) (low : Address)

mutual

/-- The value is made of the same parts as the data. Its hashes stand at `low` or above, and `filed` relates the fingerprint
under which an entry is stored to the one that its key has now. -/
def IsOf : Data → Value → Prop
  | null, .nil => True
  | bool b, .bool b' => b' = b
  | int n, .int n' => n' = n
  | float x, .float x' => x' = x
  | str t, .str t' => t' = t
  | list items, .array a => a < s.arrays.size ∧ AreOf items (s.array a).toList
  | tuple items, .array a => a < s.arrays.size ∧ AreOf items (s.array a).toList
  | mapping entries, .hash a => low ≤ a ∧ a < s.hashes.size ∧ EntriesAreOf entries (s.hash a).entries
  | _, _ => False
termination_by structural d => d

/-- The elements of an array are made of the same parts as the members of a sequence. -/
def AreOf : List Data → List Value → Prop
  | [], [] => True
  | d :: ds, v :: vs => IsOf d v ∧ AreOf ds vs
  | _, _ => False
termination_by structural l => l

/-- The entries of a hash are made of the same parts as the entries of a mapping, in the same order. -/
def EntriesAreOf : List (Data × Data) → List (Key × Entry) → Prop
  | [], [] => True
  | (k, v) :: ds, e :: es => filed e.1 k.key ∧ IsOf k e.2.key ∧ IsOf v e.2.value ∧ EntriesAreOf ds es
  | _, _ => False
termination_by structural l => l

end

end

section

variable {filed filed' : Key → Key → Prop} {s s' : Store} {low low' : Address} {v w : Value}

theorem isOf_null : IsOf filed s low null v ↔ v = .nil := by cases v <;> simp [IsOf]

theorem isOf_bool {b : Bool} : IsOf filed s low (bool b) v ↔ v = .bool b := by cases v <;> simp [IsOf]

theorem isOf_int {n : Int} : IsOf filed s low (int n) v ↔ v = .int n := by cases v <;> simp [IsOf]

theorem isOf_float {x : Float} : IsOf filed s low (float x) v ↔ v = .float x := by cases v <;> simp [IsOf]

theorem isOf_str {t : String} : IsOf filed s low (str t) v ↔ v = .str t := by cases v <;> simp [IsOf]

theorem isOf_list {items : List Data} : IsOf filed s low (list items) v ↔
    ∃ a, v = .array a ∧ a < s.arrays.size ∧ AreOf filed s low items (s.array a).toList := by
  cases v <;> simp [IsOf]

theorem isOf_tuple {items : List Data} : IsOf filed s low (tuple items) v ↔
    ∃ a, v = .array a ∧ a < s.arrays.size ∧ AreOf filed s low items (s.array a).toList := by
  cases v <;> simp [IsOf]

theorem isOf_mapping {entries : List (Data × Data)} : IsOf filed s low (mapping entries) v ↔
    ∃ a, v = .hash a ∧ low ≤ a ∧ a < s.hashes.size ∧ EntriesAreOf filed s low entries (s.hash a).entries := by
  cases v <;> simp [IsOf]

/-! ### Keys -/

mutual

/-- A key holds no hash, so where hashes stand and how they are filed does not matter. -/
theorem IsOf.of_isKey : ∀ {k : Data} {v : Value}, IsOf filed s low k v → k.IsKey → IsOf filed' s low' k v
  | null, _, hv, _ => isOf_null.mpr (isOf_null.mp hv)
  | int _, _, hv, _ => isOf_int.mpr (isOf_int.mp hv)
  | str _, _, hv, _ => isOf_str.mpr (isOf_str.mp hv)
  | tuple items, v, hv, hk => by
    obtain ⟨a, rfl, ha, hitems⟩ := isOf_tuple.mp hv
    exact isOf_tuple.mpr ⟨a, rfl, ha, AreOf.of_areKeys hitems hk⟩
  | bool _, _, _, hk | float _, _, _, hk | list _, _, _, hk | mapping _, _, _, hk => hk.elim

theorem AreOf.of_areKeys : ∀ {ks : List Data} {vs : List Value}, AreOf filed s low ks vs → AreKeys ks →
    AreOf filed' s low' ks vs
  | [], [], _, _ => trivial
  | _ :: _, _ :: _, h, hk => ⟨IsOf.of_isKey h.1 hk.1, AreOf.of_areKeys h.2 hk.2⟩
  | [], _ :: _, h, _ => h.elim
  | _ :: _, [], h, _ => h.elim

end

mutual

/-- Two keys are the same key of a mapping exactly if they have the same fingerprint. -/
theorem sameKey_eq : ∀ {k l : Data}, k.IsKey → l.IsKey → k.sameKey l = Key.same k.key l.key
  | null, l, _, hl => by cases l <;> first | exact hl.elim | rfl
  | int m, l, _, hl => by
    cases l <;> first | exact hl.elim | simp [sameKey, number?, Number.equal, key, Key.same]
  | str t, l, _, hl => by
    refine Bool.eq_iff_iff.mpr ?_
    cases l <;> first | exact hl.elim | simp [sameKey, number?, key, Key.same]
  | tuple ks, l, hk, hl => by
    cases l with
    | tuple ls =>
      rw [sameKey, sameKeys_eq hk hl, key, key, Key.same]
    | null => rfl
    | int _ => rfl
    | str _ => rfl
    | bool _ => exact hl.elim
    | float _ => exact hl.elim
    | list _ => exact hl.elim
    | mapping _ => exact hl.elim
  | bool _, _, hk, _ | float _, _, hk, _ | list _, _, hk, _ | mapping _, _, hk, _ => hk.elim

theorem sameKeys_eq : ∀ {ks ls : List Data}, AreKeys ks → AreKeys ls →
    sameKeys ks ls = Key.sameAll (keyAll ks) (keyAll ls)
  | [], [], _, _ => rfl
  | _ :: _, _ :: _, hk, hl => by
    rw [sameKeys, sameKey_eq hk.1 hl.1, sameKeys_eq hk.2 hl.2, keyAll, keyAll, Key.sameAll]
  | [], _ :: _, _, _ => rfl
  | _ :: _, [], _, _ => rfl

end

/-! ### Fingerprints -/

mutual

/-- The fingerprint of a value is that of its data. -/
theorem IsOf.fingerprint_eq : ∀ {x : Data} {v : Value} {d : Nat}, IsOf Eq s low x v → x.height ≤ d →
    v.fingerprint s d = .ok x.key
  | null, v, d, hv, _ => by
    obtain rfl := isOf_null.mp hv
    cases d <;> rfl
  | bool b, v, d, hv, _ => by
    obtain rfl := isOf_bool.mp hv
    cases d <;> rfl
  | int n, v, d, hv, _ => by
    obtain rfl := isOf_int.mp hv
    cases d <;> rfl
  | float x, v, d, hv, _ => by
    obtain rfl := isOf_float.mp hv
    cases d <;> rfl
  | str t, v, d, hv, _ => by
    obtain rfl := isOf_str.mp hv
    cases d <;> rfl
  | list items, v, d, hv, hd => by
    obtain ⟨a, rfl, _, hitems⟩ := isOf_list.mp hv
    obtain ⟨d, rfl⟩ := Nat.exists_eq_add_one_of_ne_zero (Nat.ne_zero_of_lt hd)
    rw [Value.fingerprint, AreOf.mapM_fingerprint hitems (Nat.le_of_succ_le_succ hd)]
    rfl
  | tuple items, v, d, hv, hd => by
    obtain ⟨a, rfl, _, hitems⟩ := isOf_tuple.mp hv
    obtain ⟨d, rfl⟩ := Nat.exists_eq_add_one_of_ne_zero (Nat.ne_zero_of_lt hd)
    rw [Value.fingerprint, AreOf.mapM_fingerprint hitems (Nat.le_of_succ_le_succ hd)]
    rfl
  | mapping entries, v, d, hv, hd => by
    obtain ⟨a, rfl, _, _, hentries⟩ := isOf_mapping.mp hv
    obtain ⟨d, rfl⟩ := Nat.exists_eq_add_one_of_ne_zero (Nat.ne_zero_of_lt hd)
    rw [Value.fingerprint, EntriesAreOf.mapM_fingerprint hentries (Nat.le_of_succ_le_succ hd)]
    rfl

theorem AreOf.mapM_fingerprint : ∀ {xs : List Data} {vs : List Value} {d : Nat}, AreOf Eq s low xs vs →
    heightAll xs ≤ d → vs.mapM (Value.fingerprint s d) = .ok (keyAll xs)
  | [], [], _, _, _ => rfl
  | x :: xs, v :: vs, d, hv, hd => by
    have hd : max x.height (heightAll xs) ≤ d := hd
    rw [List.mapM_cons, IsOf.fingerprint_eq hv.1 (by omega), AreOf.mapM_fingerprint hv.2 (by omega)]
    rfl
  | [], _ :: _, _, h, _ => h.elim
  | _ :: _, [], _, h, _ => h.elim

theorem EntriesAreOf.mapM_fingerprint : ∀ {xs : List (Data × Data)} {es : List (Key × Entry)} {d : Nat},
    EntriesAreOf Eq s low xs es → heightEntries xs ≤ d →
    es.mapM (fun e => do return (e.1, ← Value.fingerprint s d e.2.value)) = .ok (keyEntries xs)
  | [], [], _, _, _ => rfl
  | (k, v) :: xs, e :: es, d, he, hd => by
    have hd : max (max k.height v.height) (heightEntries xs) ≤ d := hd
    rw [List.mapM_cons, IsOf.fingerprint_eq he.2.2.1 (by omega), EntriesAreOf.mapM_fingerprint he.2.2.2 (by omega), he.1]
    rfl
  | [], _ :: _, _, h, _ => h.elim
  | _ :: _, [], _, h, _ => h.elim

end

/-- A key has the fingerprint of its data. -/
theorem IsOf.hasFingerprint {k : Data} (hv : IsOf filed s low k v) (hk : k.IsKey) : v.HasFingerprint s k.key := by
  have hv : IsOf Eq s low k v := hv.of_isKey hk
  exact Value.hasFingerprint_of_fingerprint (hv.fingerprint_eq (Nat.le_refl _))

/-- The fingerprints under which the entries are stored. -/
theorem EntriesAreOf.keys_eq : ∀ {xs : List (Data × Data)} {es : List (Key × Entry)},
    EntriesAreOf Eq s low xs es → es.map (·.1) = xs.map (·.1.key)
  | [], [], _ => rfl
  | (k, v) :: xs, e :: es, h => by rw [List.map_cons, List.map_cons, h.1, EntriesAreOf.keys_eq h.2.2.2]
  | [], _ :: _, h => h.elim
  | _ :: _, [], h => h.elim

/-! ### From values to data -/

mutual

/-- A key is converted to data that freezes to it. -/
theorem IsOf.toData_key : ∀ {k : Data} {v : Value} {d : Nat}, IsOf filed s low k v → k.IsKey → k.height ≤ d →
    ∃ x, v.toData s d = .ok x ∧ x.frozen? = some k
  | null, v, d, hv, _, _ => by
    obtain rfl := isOf_null.mp hv
    exact ⟨null, by cases d <;> rfl, rfl⟩
  | int n, v, d, hv, _, _ => by
    obtain rfl := isOf_int.mp hv
    exact ⟨int n, by cases d <;> rfl, rfl⟩
  | str t, v, d, hv, _, _ => by
    obtain rfl := isOf_str.mp hv
    exact ⟨str t, by cases d <;> rfl, rfl⟩
  | tuple items, v, d, hv, hk, hd => by
    obtain ⟨a, rfl, _, hitems⟩ := isOf_tuple.mp hv
    obtain ⟨d, rfl⟩ := Nat.exists_eq_add_one_of_ne_zero (Nat.ne_zero_of_lt hd)
    obtain ⟨xs, hxs, hfrozen⟩ := AreOf.mapM_toData_keys hitems hk (Nat.le_of_succ_le_succ hd)
    refine ⟨list xs, ?_, ?_⟩
    · rw [Value.toData, hxs]
      rfl
    · rw [frozen?, hfrozen]
      rfl
  | bool _, _, _, _, hk, _ | float _, _, _, _, hk, _ | list _, _, _, _, hk, _ | mapping _, _, _, _, hk, _ => hk.elim

theorem AreOf.mapM_toData_keys : ∀ {ks : List Data} {vs : List Value} {d : Nat}, AreOf filed s low ks vs → AreKeys ks →
    heightAll ks ≤ d → ∃ xs, vs.mapM (Value.toData s d) = .ok xs ∧ frozenAll? xs = some ks
  | [], [], _, _, _, _ => ⟨[], rfl, rfl⟩
  | k :: ks, v :: vs, d, hv, hk, hd => by
    have hd : max k.height (heightAll ks) ≤ d := hd
    obtain ⟨x, hx, hfrozen⟩ := IsOf.toData_key hv.1 hk.1 (by omega : k.height ≤ d)
    obtain ⟨xs, hxs, hfrozens⟩ := AreOf.mapM_toData_keys hv.2 hk.2 (by omega : heightAll ks ≤ d)
    refine ⟨x :: xs, ?_, ?_⟩
    · rw [List.mapM_cons, hx, hxs]
      rfl
    · rw [frozenAll?, hfrozen, hfrozens]
  | [], _ :: _, _, h, _, _ => h.elim
  | _ :: _, [], _, h, _, _ => h.elim

end

theorem insertEntry_of_new {k v : Data} : ∀ {done : List (Data × Data)}, (∀ e ∈ done, e.1.sameKey k = false) →
    insertEntry k v done = done ++ [(k, v)]
  | [], _ => rfl
  | e :: done, h => by
    obtain ⟨he, hdone⟩ := List.forall_mem_cons.mp h
    rw [insertEntry, he, insertEntry_of_new hdone]
    rfl

/-- Entries with different keys are put in one behind the other. -/
theorem mappingOf_eq {entries : List (Data × Data)} (h : entries.Pairwise fun e f => e.1.sameKey f.1 = false) :
    mappingOf entries = mapping entries := by
  have hfold : ∀ (rest done : List (Data × Data)), (done ++ rest).Pairwise (fun e f => e.1.sameKey f.1 = false) →
      rest.foldl (fun d e => insertEntry e.1 e.2 d) done = done ++ rest := by
    intro rest
    induction rest with
    | nil => simp
    | cons e rest ih =>
      intro done hdone
      have hnew := (List.pairwise_append.mp hdone).2.2
      rw [List.foldl_cons, insertEntry_of_new fun f hf => hnew f hf e List.mem_cons_self,
        ih (done ++ [e]) (by simpa using hdone)]
      simp
  rw [mappingOf, hfold entries [] h, List.nil_append]

theorem EntriesArePlain.isKey : ∀ {entries : List (Data × Data)}, EntriesArePlain entries → ∀ e ∈ entries, e.1.IsKey
  | (_, _) :: _, h, e, he => by
    rcases List.mem_cons.mp he with rfl | he
    · exact h.1
    · exact EntriesArePlain.isKey h.2.2 e he

mutual

/-- A value is converted to the data that it is made of. -/
theorem IsOf.toData_eq : ∀ {x : Data} {v : Value} {d : Nat}, IsOf filed s low x v → x.IsPlain → x.Everywhere Unmerged →
    x.height ≤ d → v.toData s d = .ok x
  | null, v, d, hv, _, _, _ => by
    obtain rfl := isOf_null.mp hv
    cases d <;> rfl
  | bool b, v, d, hv, _, _, _ => by
    obtain rfl := isOf_bool.mp hv
    cases d <;> rfl
  | int n, v, d, hv, _, _, _ => by
    obtain rfl := isOf_int.mp hv
    cases d <;> rfl
  | float x, v, d, hv, _, _, _ => by
    obtain rfl := isOf_float.mp hv
    cases d <;> rfl
  | str t, v, d, hv, _, _, _ => by
    obtain rfl := isOf_str.mp hv
    cases d <;> rfl
  | list items, v, d, hv, hplain, hkeys, hd => by
    obtain ⟨a, rfl, _, hitems⟩ := isOf_list.mp hv
    obtain ⟨d, rfl⟩ := Nat.exists_eq_add_one_of_ne_zero (Nat.ne_zero_of_lt hd)
    rw [Value.toData, AreOf.mapM_toData hitems hplain hkeys.2 (Nat.le_of_succ_le_succ hd)]
    rfl
  | tuple _, _, _, _, hplain, _, _ => hplain.elim
  | mapping entries, v, d, hv, hplain, hkeys, hd => by
    obtain ⟨a, rfl, _, _, hentries⟩ := isOf_mapping.mp hv
    obtain ⟨d, rfl⟩ := Nat.exists_eq_add_one_of_ne_zero (Nat.ne_zero_of_lt hd)
    have hdifferent : entries.Pairwise fun e f => e.1.sameKey f.1 = false := by
      have hisKey := EntriesArePlain.isKey hplain
      refine List.Pairwise.imp_of_mem (fun {e f} he hf hef => ?_) hkeys.1
      rw [sameKey_eq (hisKey e he) (hisKey f hf)]
      exact hef
    have hmapM := EntriesAreOf.mapM_toData hentries hplain hkeys.2 (Nat.le_of_succ_le_succ hd)
    rw [Value.toData.eq_def]
    refine (congrArg (fun r => r >>= fun entries => pure (mappingOf entries)) hmapM).trans ?_
    exact congrArg Except.ok (mappingOf_eq hdifferent)

theorem AreOf.mapM_toData : ∀ {xs : List Data} {vs : List Value} {d : Nat}, AreOf filed s low xs vs → ArePlain xs →
    EverywhereAll Unmerged xs → heightAll xs ≤ d → vs.mapM (Value.toData s d) = .ok xs
  | [], [], _, _, _, _, _ => rfl
  | x :: xs, v :: vs, d, hv, hplain, hkeys, hd => by
    have hd : max x.height (heightAll xs) ≤ d := hd
    rw [List.mapM_cons, IsOf.toData_eq hv.1 hplain.1 hkeys.1 (by omega),
      AreOf.mapM_toData hv.2 hplain.2 hkeys.2 (by omega)]
    rfl
  | [], _ :: _, _, h, _, _, _ => h.elim
  | _ :: _, [], _, h, _, _, _ => h.elim

theorem EntriesAreOf.mapM_toData : ∀ {xs : List (Data × Data)} {es : List (Key × Entry)} {d : Nat},
    EntriesAreOf filed s low xs es → EntriesArePlain xs → EverywhereEntries Unmerged xs → heightEntries xs ≤ d →
    (es.map (·.2)).mapM (fun e => do
      let key ← Value.toData s d e.key
      let value ← Value.toData s d e.value
      match key.frozen? with
      | some key => return (key, value)
      | none => .error .compoundKey) = .ok xs
  | [], [], _, _, _, _, _ => rfl
  | (k, v) :: xs, e :: es, d, he, hplain, hkeys, hd => by
    have hd : max (max k.height v.height) (heightEntries xs) ≤ d := hd
    obtain ⟨x, hx, hfrozen⟩ := IsOf.toData_key he.2.1 hplain.1 (by omega : k.height ≤ d)
    rw [List.map_cons, List.mapM_cons, hx, IsOf.toData_eq he.2.2.1 hplain.2.1 hkeys.2.1 (by omega),
      EntriesAreOf.mapM_toData he.2.2.2 hplain.2.2 hkeys.2.2 (by omega)]
    simp [bind, Except.bind, pure, Except.pure, hfrozen]
  | [], _ :: _, _, h, _, _, _ => h.elim
  | _ :: _, [], _, h, _, _, _ => h.elim

end

/-! ### Two values of the same data -/

mutual

/-- Values of the same data have the same text, or none for the same reason. -/
theorem IsOf.inspect_eq : ∀ {x : Data} {v w : Value}, IsOf filed s low x v → IsOf filed' s' low' x w →
    ∀ d, w.inspect s' d = v.inspect s d
  | null, v, w, hv, hw, d => by
    obtain rfl := isOf_null.mp hv
    obtain rfl := isOf_null.mp hw
    cases d <;> rfl
  | bool b, v, w, hv, hw, d => by
    obtain rfl := isOf_bool.mp hv
    obtain rfl := isOf_bool.mp hw
    cases d <;> rfl
  | int n, v, w, hv, hw, d => by
    obtain rfl := isOf_int.mp hv
    obtain rfl := isOf_int.mp hw
    rw [Value.inspect_int, Value.inspect_int]
  | float x, v, w, hv, hw, d => by
    obtain rfl := isOf_float.mp hv
    obtain rfl := isOf_float.mp hw
    cases d <;> rfl
  | str t, v, w, hv, hw, d => by
    obtain rfl := isOf_str.mp hv
    obtain rfl := isOf_str.mp hw
    cases d <;> rfl
  | list items, v, w, hv, hw, d => by
    obtain ⟨a, rfl, _, hitems⟩ := isOf_list.mp hv
    obtain ⟨b, rfl, _, hitems'⟩ := isOf_list.mp hw
    cases d with
    | zero => rfl
    | succ d => rw [Value.inspect_array, Value.inspect_array, AreOf.mapM_inspect hitems hitems' d]
  | tuple items, v, w, hv, hw, d => by
    obtain ⟨a, rfl, _, hitems⟩ := isOf_tuple.mp hv
    obtain ⟨b, rfl, _, hitems'⟩ := isOf_tuple.mp hw
    cases d with
    | zero => rfl
    | succ d => rw [Value.inspect_array, Value.inspect_array, AreOf.mapM_inspect hitems hitems' d]
  | mapping entries, v, w, hv, hw, d => by
    obtain ⟨a, rfl, _, _, hentries⟩ := isOf_mapping.mp hv
    obtain ⟨b, rfl, _, _, hentries'⟩ := isOf_mapping.mp hw
    cases d with
    | zero => rfl
    | succ d =>
      rw [Value.inspect_hash, Value.inspect_hash, Store.entries, Store.entries, OrderedTable.values, OrderedTable.values,
        EntriesAreOf.mapM_inspect hentries hentries' d]

theorem AreOf.mapM_inspect : ∀ {xs : List Data} {vs ws : List Value}, AreOf filed s low xs vs →
    AreOf filed' s' low' xs ws → ∀ d, ws.mapM (Value.inspect s' d) = vs.mapM (Value.inspect s d)
  | [], [], [], _, _, _ => rfl
  | x :: xs, v :: vs, w :: ws, hv, hw, d => by
    rw [List.mapM_cons, List.mapM_cons, IsOf.inspect_eq hv.1 hw.1 d, AreOf.mapM_inspect hv.2 hw.2 d]
  | [], _ :: _, _, h, _, _ => h.elim
  | [], _, _ :: _, _, h, _ => h.elim
  | _ :: _, [], _, h, _, _ => h.elim
  | _ :: _, _, [], _, h, _ => h.elim

theorem EntriesAreOf.mapM_inspect : ∀ {xs : List (Data × Data)} {es fs : List (Key × Entry)},
    EntriesAreOf filed s low xs es → EntriesAreOf filed' s' low' xs fs → ∀ d,
    (fs.map (·.2)).mapM (fun e => do
      return (← Value.inspect s' d e.key) ++ " => " ++ (← Value.inspect s' d e.value)) =
    (es.map (·.2)).mapM (fun e => do
      return (← Value.inspect s d e.key) ++ " => " ++ (← Value.inspect s d e.value))
  | [], [], [], _, _, _ => rfl
  | (k, v) :: xs, e :: es, f :: fs, he, hf, d => by
    rw [List.map_cons, List.map_cons, List.mapM_cons, List.mapM_cons, IsOf.inspect_eq he.2.1 hf.2.1 d,
      IsOf.inspect_eq he.2.2.1 hf.2.2.1 d, EntriesAreOf.mapM_inspect he.2.2.2 hf.2.2.2 d]
  | [], _ :: _, _, h, _, _ => h.elim
  | [], _, _ :: _, _, h, _ => h.elim
  | _ :: _, [], _, h, _, _ => h.elim
  | _ :: _, _, [], _, h, _ => h.elim

end

mutual

/-- The fingerprint of data without NaN is without NaN. -/
theorem withoutNaN_key : ∀ {x : Data}, x.Everywhere NotNaN → x.key.WithoutNaN
  | null, _ | bool _, _ | int _, _ | str _, _ => trivial
  | float _, h => h
  | list _, h => withoutNaN_keyAll h.2
  | tuple _, h => withoutNaN_keyAll h.2
  | mapping _, h => withoutNaN_keyEntries h.2

theorem withoutNaN_keyAll : ∀ {xs : List Data}, EverywhereAll NotNaN xs → Key.AllWithoutNaN (keyAll xs)
  | [], _ => trivial
  | _ :: _, h => ⟨withoutNaN_key h.1, withoutNaN_keyAll h.2⟩

theorem withoutNaN_keyEntries : ∀ {xs : List (Data × Data)}, EverywhereEntries NotNaN xs →
    Key.EntriesWithoutNaN (keyEntries xs)
  | [], _ => trivial
  | (_, _) :: _, h => ⟨withoutNaN_key h.1, withoutNaN_key h.2.1, withoutNaN_keyEntries h.2.2⟩

end

mutual

/-- Values of the same data without NaN are alike, if their hashes are filed by content. -/
theorem IsOf.alike : ∀ {x : Data} {v w : Value}, IsOf Eq s low x v → IsOf Eq s low' x w → x.Everywhere NotNaN →
    v.Alike s w
  | null, v, w, hv, hw, _ => by
    obtain rfl := isOf_null.mp hv
    obtain rfl := isOf_null.mp hw
    exact .nil
  | bool b, v, w, hv, hw, _ => by
    obtain rfl := isOf_bool.mp hv
    obtain rfl := isOf_bool.mp hw
    exact .bool b
  | int n, v, w, hv, hw, _ => by
    obtain rfl := isOf_int.mp hv
    obtain rfl := isOf_int.mp hw
    exact .int n
  | float x, v, w, hv, hw, hnan => by
    obtain rfl := isOf_float.mp hv
    obtain rfl := isOf_float.mp hw
    exact .float (Number.equal_self_iff.mpr hnan)
  | str t, v, w, hv, hw, _ => by
    obtain rfl := isOf_str.mp hv
    obtain rfl := isOf_str.mp hw
    exact .str t
  | list items, v, w, hv, hw, hnan => by
    obtain ⟨a, rfl, _, hitems⟩ := isOf_list.mp hv
    obtain ⟨b, rfl, _, hitems'⟩ := isOf_list.mp hw
    obtain ⟨hlength, halike⟩ := forall₂_iff_getElem?.mp (AreOf.alike hitems hitems' hnan.2)
    exact .array hlength halike
  | tuple items, v, w, hv, hw, hnan => by
    obtain ⟨a, rfl, _, hitems⟩ := isOf_tuple.mp hv
    obtain ⟨b, rfl, _, hitems'⟩ := isOf_tuple.mp hw
    obtain ⟨hlength, halike⟩ := forall₂_iff_getElem?.mp (AreOf.alike hitems hitems' hnan.2)
    exact .array hlength halike
  | mapping entries, v, w, hv, hw, hnan => by
    obtain ⟨a, rfl, _, _, hentries⟩ := isOf_mapping.mp hv
    obtain ⟨b, rfl, _, _, hentries'⟩ := isOf_mapping.mp hw
    obtain ⟨hlength, halike⟩ := forall₂_iff_getElem?.mp (EntriesAreOf.alike hentries hentries' hnan.2)
    exact .hash hlength (fun i p q hp hq => (halike i p q hp hq).1) fun i p q hp hq => (halike i p q hp hq).2

theorem AreOf.alike : ∀ {xs : List Data} {vs ws : List Value}, AreOf Eq s low xs vs → AreOf Eq s low' xs ws →
    EverywhereAll NotNaN xs → List.Forall₂ (Value.Alike s) vs ws
  | [], [], [], _, _, _ => .nil
  | _ :: _, _ :: _, _ :: _, hv, hw, hnan => .cons (IsOf.alike hv.1 hw.1 hnan.1) (AreOf.alike hv.2 hw.2 hnan.2)
  | [], _ :: _, _, h, _, _ => h.elim
  | [], _, _ :: _, _, h, _ => h.elim
  | _ :: _, [], _, h, _, _ => h.elim
  | _ :: _, _, [], _, h, _ => h.elim

theorem EntriesAreOf.alike : ∀ {xs : List (Data × Data)} {es fs : List (Key × Entry)}, EntriesAreOf Eq s low xs es →
    EntriesAreOf Eq s low' xs fs → EverywhereEntries NotNaN xs →
    List.Forall₂ (fun p q => (p.1 == q.1) = true ∧ p.2.value.Alike s q.2.value) es fs
  | [], [], [], _, _, _ => .nil
  | (k, v) :: xs, e :: es, f :: fs, he, hf, hnan => by
    have hkey : (e.1 == f.1) = true := by
      rw [he.1, hf.1]
      exact Key.same_self (withoutNaN_key hnan.1)
    exact .cons ⟨hkey, IsOf.alike he.2.2.1 hf.2.2.1 hnan.2.1⟩ (EntriesAreOf.alike he.2.2.2 hf.2.2.2 hnan.2.2)
  | [], _ :: _, _, h, _, _ => h.elim
  | [], _, _ :: _, _, h, _ => h.elim
  | _ :: _, [], _, h, _, _ => h.elim
  | _ :: _, _, [], _, h, _ => h.elim

end

/-! ### Changes of the store -/

section

variable {kept : Address → Prop}

mutual

/-- What a value is made of stays while the store grows and the hashes in it stay as they are. -/
theorem IsOf.grows (hs : s.Grows kept s') (hkept : ∀ a, low ≤ a → kept a) (hlow : low' ≤ low) :
    ∀ {x : Data} {v : Value}, IsOf filed s low x v → IsOf filed s' low' x v
  | null, _, hv => isOf_null.mpr (isOf_null.mp hv)
  | bool _, _, hv => isOf_bool.mpr (isOf_bool.mp hv)
  | int _, _, hv => isOf_int.mpr (isOf_int.mp hv)
  | float _, _, hv => isOf_float.mpr (isOf_float.mp hv)
  | str _, _, hv => isOf_str.mpr (isOf_str.mp hv)
  | list items, v, hv => by
    obtain ⟨a, rfl, ha, hitems⟩ := isOf_list.mp hv
    refine isOf_list.mpr ⟨a, rfl, Nat.lt_of_lt_of_le ha hs.arrays_le, ?_⟩
    rw [hs.array_eq a ha]
    exact AreOf.grows hs hkept hlow hitems
  | tuple items, v, hv => by
    obtain ⟨a, rfl, ha, hitems⟩ := isOf_tuple.mp hv
    refine isOf_tuple.mpr ⟨a, rfl, Nat.lt_of_lt_of_le ha hs.arrays_le, ?_⟩
    rw [hs.array_eq a ha]
    exact AreOf.grows hs hkept hlow hitems
  | mapping entries, v, hv => by
    obtain ⟨a, rfl, ha, hsize, hentries⟩ := isOf_mapping.mp hv
    refine isOf_mapping.mpr ⟨a, rfl, Nat.le_trans hlow ha, Nat.lt_of_lt_of_le hsize hs.hashes_le, ?_⟩
    rw [hs.hash_eq a hsize (hkept a ha)]
    exact EntriesAreOf.grows hs hkept hlow hentries

theorem AreOf.grows (hs : s.Grows kept s') (hkept : ∀ a, low ≤ a → kept a) (hlow : low' ≤ low) :
    ∀ {xs : List Data} {vs : List Value}, AreOf filed s low xs vs → AreOf filed s' low' xs vs
  | [], [], _ => trivial
  | _ :: _, _ :: _, h => ⟨IsOf.grows hs hkept hlow h.1, AreOf.grows hs hkept hlow h.2⟩
  | [], _ :: _, h => h.elim
  | _ :: _, [], h => h.elim

theorem EntriesAreOf.grows (hs : s.Grows kept s') (hkept : ∀ a, low ≤ a → kept a) (hlow : low' ≤ low) :
    ∀ {xs : List (Data × Data)} {es : List (Key × Entry)}, EntriesAreOf filed s low xs es →
      EntriesAreOf filed s' low' xs es
  | [], [], _ => trivial
  | (_, _) :: _, _ :: _, h => ⟨h.1, IsOf.grows hs hkept hlow h.2.1, IsOf.grows hs hkept hlow h.2.2.1,
      EntriesAreOf.grows hs hkept hlow h.2.2.2⟩
  | [], _ :: _, h => h.elim
  | _ :: _, [], h => h.elim

end

end

/-! ### From data to values -/

theorem EntriesAreOf.append : ∀ {xs ys : List (Data × Data)} {es fs : List (Key × Entry)},
    EntriesAreOf filed s low xs es → EntriesAreOf filed s low ys fs → EntriesAreOf filed s low (xs ++ ys) (es ++ fs)
  | [], _, [], _, _, h' => h'
  | (_, _) :: _, _, _ :: _, _, h, h' => ⟨h.1, h.2.1, h.2.2.1, EntriesAreOf.append h.2.2.2 h'⟩
  | [], _, _ :: _, _, h, _ => h.elim
  | _ :: _, _, [], _, h, _ => h.elim

/-- The store after one more entry of the hash at `a`. -/
theorem EntriesAreOf.store {a : Address} {done : List (Data × Data)} {k x : Data} {v w : Value}
    (hdone : EntriesAreOf Eq s (a + 1) done (s.hash a).entries) (ha : a < s.hashes.size) (hext : s.Extends s')
    (hnew : ∀ e ∈ done, Key.same e.1.key k.key = false) (hv : IsOf Eq s' (a + 1) k v) (hw : IsOf Eq s' (a + 1) x w) :
    EntriesAreOf Eq (s'.updateHash a (·.insert k.key ⟨v, w⟩)) (a + 1) (done ++ [(k, x)])
      ((s'.updateHash a (·.insert k.key ⟨v, w⟩)).hash a).entries := by
  have habove (b : Address) (hb : a + 1 ≤ b) : b ≠ a := Nat.ne_of_gt hb
  have hstore : s'.Grows (· ≠ a) (s'.updateHash a (·.insert k.key ⟨v, w⟩)) := .updateHash s' a _
  have hold : ∀ p ∈ (s.hash a).entries, Key.same k.key p.1 = false := by
    intro p hp
    obtain ⟨e, he, hkey⟩ := List.mem_map.mp (hdone.keys_eq ▸ List.mem_map_of_mem hp)
    exact Content.same_eq_false_symm (hkey ▸ hnew e he)
  have hentries : ((s'.updateHash a (·.insert k.key ⟨v, w⟩)).hash a).entries = (s.hash a).entries ++ [(k.key, ⟨v, w⟩)] := by
    rw [Store.hash_updateHash (Nat.lt_of_lt_of_le ha hext.hashes_le), hext.hash_eq a ha trivial]
    exact OrderedTable.insertInto_of_new hold
  rw [hentries]
  refine EntriesAreOf.append ?_ ⟨rfl, hv.grows hstore habove (Nat.le_refl _), hw.grows hstore habove (Nat.le_refl _), trivial⟩
  have hkept := hdone.grows hext (fun _ _ => trivial) (Nat.le_refl _)
  exact hkept.grows hstore habove (Nat.le_refl _)

mutual

/-- Data is converted to a value that is made of the same parts, in new places of the store. -/
theorem exists_ofData : ∀ {x : Data} {d : Nat}, x.Everywhere Unmerged → x.height ≤ d → ∀ s : Store,
    ∃ w s', Value.ofData d x s = .ok w s' ∧ s.Extends s' ∧ IsOf Eq s' s.hashes.size x w
  | null, d, _, _, s => ⟨.nil, s, rfl, .refl s, isOf_null.mpr rfl⟩
  | bool b, d, _, _, s => ⟨.bool b, s, rfl, .refl s, isOf_bool.mpr rfl⟩
  | int n, d, _, _, s => ⟨.int n, s, rfl, .refl s, isOf_int.mpr rfl⟩
  | float x, d, _, _, s => ⟨.float x, s, rfl, .refl s, isOf_float.mpr rfl⟩
  | str t, d, _, _, s => ⟨.str t, s, rfl, .refl s, isOf_str.mpr rfl⟩
  | list items, d, hkeys, hd, s => by
    obtain ⟨a, s', hrun, hext, ha, hitems⟩ := exists_newArray hkeys.2 (Nat.le_of_succ_le hd) s
    exact ⟨.array a, s', hrun, hext, isOf_list.mpr ⟨a, rfl, ha, hitems⟩⟩
  | tuple items, d, hkeys, hd, s => by
    obtain ⟨a, s', hrun, hext, ha, hitems⟩ := exists_newArray hkeys.2 (Nat.le_of_succ_le hd) s
    exact ⟨.array a, s', hrun, hext, isOf_tuple.mpr ⟨a, rfl, ha, hitems⟩⟩
  | mapping entries, d, hkeys, hd, s => by
    let a := s.hashes.size
    let s₁ := (s.newHash .empty).2
    have hnew : s.Extends s₁ := .newHash s .empty
    have hsize : a < s₁.hashes.size := by simp [s₁, a, Store.newHash]
    have hempty : (s₁.hash a).entries = [] := by simp [s₁, a, Store.newHash, Store.hash, OrderedTable.empty]
    obtain ⟨s', hrun, hgrows, hentries⟩ := run_assignEntries [] hkeys.2 (Nat.le_of_succ_le hd) hkeys.1 hsize
      (by rw [hempty]; trivial)
    refine ⟨.hash a, s', ?_, ?_, ?_⟩
    · show (do
        let table ← modifyGet (·.newHash .empty)
        Value.assignEntries d table entries
        return table : StoreM Value) s = _
      rw [run_bind (show (modifyGet (·.newHash .empty) : StoreM Value) s = .ok (.hash a) s₁ from rfl), run_bind hrun]
      rfl
    · exact hnew.trans_ne hgrows
    · exact isOf_mapping.mpr ⟨a, rfl, Nat.le_refl a, Nat.lt_of_lt_of_le hsize hgrows.hashes_le,
        hentries.grows (.refl s') (fun _ _ => trivial) (Nat.le_succ a)⟩

/-- A sequence is converted to an array, once its members are. -/
theorem exists_newArray {items : List Data} {d : Nat} (hkeys : EverywhereAll Unmerged items) (hd : heightAll items ≤ d)
    (s : Store) : ∃ a s', (do
        let items ← Value.ofDataAll d items
        modifyGet (·.newArray items.toArray) : StoreM Value) s = .ok (.array a) s' ∧ s.Extends s' ∧
      a < s'.arrays.size ∧ AreOf Eq s' s.hashes.size items (s'.array a).toList := by
  obtain ⟨ws, s₁, hrun, hext, hws⟩ := exists_ofDataAll hkeys hd s
  have hnew : s₁.Extends (s₁.newArray ws.toArray).2 := .newArray s₁ ws.toArray
  refine ⟨s₁.arrays.size, (s₁.newArray ws.toArray).2, ?_, hext.trans hnew, by simp [Store.newArray], ?_⟩
  · rw [run_bind hrun]
    rfl
  · have hstored : ((s₁.newArray ws.toArray).2.array s₁.arrays.size).toList = ws := by simp [Store.newArray, Store.array]
    rw [hstored]
    exact hws.grows hnew (fun _ _ => trivial) (Nat.le_refl _)

theorem exists_ofDataAll : ∀ {xs : List Data} {d : Nat}, EverywhereAll Unmerged xs → heightAll xs ≤ d → ∀ s : Store,
    ∃ ws s', Value.ofDataAll d xs s = .ok ws s' ∧ s.Extends s' ∧ AreOf Eq s' s.hashes.size xs ws
  | [], _, _, _, s => ⟨[], s, rfl, .refl s, trivial⟩
  | x :: xs, d, hkeys, hd, s => by
    have hd : max x.height (heightAll xs) ≤ d := hd
    obtain ⟨w, s₁, hrun, hext, hw⟩ := exists_ofData hkeys.1 (by omega : x.height ≤ d) s
    obtain ⟨ws, s₂, hrun', hext', hws⟩ := exists_ofDataAll hkeys.2 (by omega : heightAll xs ≤ d) s₁
    refine ⟨w :: ws, s₂, ?_, hext.trans hext', hw.grows hext' (fun _ _ => trivial) (Nat.le_refl _),
      hws.grows (.refl s₂) (fun _ _ => trivial) hext.hashes_le⟩
    rw [Value.ofDataAll, run_bind hrun, run_bind hrun']
    rfl

/-- The entries of a mapping are stored one after the other; nothing but the hash itself changes. -/
theorem run_assignEntries {a : Address} : ∀ {xs : List (Data × Data)} {d : Nat} (done : List (Data × Data)) {s : Store},
    EverywhereEntries Unmerged xs → heightEntries xs ≤ d →
    (done ++ xs).Pairwise (fun e f => Key.same e.1.key f.1.key = false) → a < s.hashes.size →
    EntriesAreOf Eq s (a + 1) done (s.hash a).entries →
    ∃ s', Value.assignEntries d (.hash a) xs s = .ok () s' ∧ s.Grows (· ≠ a) s' ∧
      EntriesAreOf Eq s' (a + 1) (done ++ xs) (s'.hash a).entries
  | [], d, done, s, _, _, _, _, hdone => ⟨s, rfl, .refl _, by rwa [List.append_nil]⟩
  | (k, x) :: xs, d, done, s, hkeys, hd, hne, ha, hdone => by
    have hd : max (max k.height x.height) (heightEntries xs) ≤ d := hd
    obtain ⟨v, s₁, hrun₁, hext₁, hv⟩ := exists_ofData hkeys.1 (by omega : k.height ≤ d) s
    obtain ⟨w, s₂, hrun₂, hext₂, hw⟩ := exists_ofData hkeys.2.1 (by omega : x.height ≤ d) s₁
    have hext := hext₁.trans hext₂
    have hv₂ := hv.grows hext₂ (fun _ _ => trivial) (Nat.le_refl _)
    let s₃ := s₂.updateHash a (·.insert k.key ⟨v, w⟩)
    have hrun₃ : Value.assign d (.hash a) v w s₂ = .ok () s₃ :=
      Value.assign_of_fingerprint (hv₂.fingerprint_eq (by omega : k.height ≤ d))
    have hgrows : s.Grows (· ≠ a) s₃ := (hext.mono fun _ _ _ => trivial).trans (.updateHash s₂ a _)
    have hstored : EntriesAreOf Eq s₃ (a + 1) (done ++ [(k, x)]) (s₃.hash a).entries :=
      hdone.store ha hext (fun e he => (List.pairwise_append.mp hne).2.2 e he (k, x) List.mem_cons_self)
        (hv₂.grows (.refl s₂) (fun _ _ => trivial) ha)
        (hw.grows (.refl s₂) (fun _ _ => trivial) (Nat.le_trans ha hext₁.hashes_le))
    obtain ⟨s', hrun, hgrows', hall⟩ := run_assignEntries (done ++ [(k, x)]) hkeys.2.2 (by omega : heightEntries xs ≤ d)
      (by simpa using hne) (Nat.lt_of_lt_of_le ha hgrows.hashes_le) hstored
    refine ⟨s', ?_, hgrows.trans hgrows', by simpa using hall⟩
    rw [Value.assignEntries, run_bind hrun₁, run_bind hrun₂, run_bind hrun₃, hrun]

end

end

end Data

end MinRuby
