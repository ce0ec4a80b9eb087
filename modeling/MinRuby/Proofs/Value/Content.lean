import MinRuby.Value.Equality
import MinRuby.Value.Inspect

/-!
# What a value holds

`Content` is what a value holds that is made of nil, truth values, integers, strings, arrays and hashes.
`Content.IsOf` says that a value in a store has a content. From the content alone come the text of the value,
its fingerprint, and whether it equals another value.

* `Content.IsOf.inspect_eq` — the text of a value.
* `Content.IsOf.equal_eq` — values with the same content are equal, if their hashes are filed by content.
-/

namespace MinRuby

/-! ## Growing stores -/

namespace Store

/-- The second store has all that the first one has; of its hashes only those that are kept need be the same. -/
structure Grows (kept : Address → Prop) (s s' : Store) : Prop where
  arrays_le : s.arrays.size ≤ s'.arrays.size
  hashes_le : s.hashes.size ≤ s'.hashes.size
  array_eq : ∀ a, a < s.arrays.size → s'.array a = s.array a
  hash_eq : ∀ a, a < s.hashes.size → kept a → s'.hash a = s.hash a

/-- The second store has all that the first one has. -/
abbrev Extends : Store → Store → Prop := Grows fun _ => True

namespace Grows

variable {kept kept' : Address → Prop} {s s' s'' : Store}

theorem refl (s : Store) : s.Grows kept s := ⟨Nat.le_refl _, Nat.le_refl _, fun _ _ => rfl, fun _ _ _ => rfl⟩

theorem mono (h : s.Grows kept s') (hkept : ∀ a, a < s.hashes.size → kept' a → kept a) : s.Grows kept' s' :=
  ⟨h.arrays_le, h.hashes_le, h.array_eq, fun a ha hk => h.hash_eq a ha (hkept a ha hk)⟩

theorem trans (h : s.Grows kept s') (h' : s'.Grows kept s'') : s.Grows kept s'' where
  arrays_le := Nat.le_trans h.arrays_le h'.arrays_le
  hashes_le := Nat.le_trans h.hashes_le h'.hashes_le
  array_eq a ha := (h'.array_eq a (Nat.lt_of_lt_of_le ha h.arrays_le)).trans (h.array_eq a ha)
  hash_eq a ha hk := (h'.hash_eq a (Nat.lt_of_lt_of_le ha h.hashes_le) hk).trans (h.hash_eq a ha hk)

/-- A hash that is not in the first store may change later. -/
theorem trans_ne (h : s.Extends s') (h' : s'.Grows (· ≠ s.hashes.size) s'') : s.Extends s'' :=
  ((h.mono fun _ _ _ => trivial).trans h').mono fun _ ha _ => Nat.ne_of_lt ha

theorem newArray (s : Store) (items : Array Value) : s.Grows kept (s.newArray items).2 where
  arrays_le := by simp [Store.newArray]
  hashes_le := Nat.le_refl _
  array_eq a ha := by simp [Store.newArray, Store.array, Array.getElem?_push, Nat.ne_of_lt ha]
  hash_eq _ _ _ := rfl

theorem newHash (s : Store) (table : HashTable) : s.Grows kept (s.newHash table).2 where
  arrays_le := Nat.le_refl _
  hashes_le := by simp [Store.newHash]
  array_eq _ _ := rfl
  hash_eq a ha _ := by simp [Store.newHash, Store.hash, Array.getElem?_push, Nat.ne_of_lt ha]

theorem updateHash (s : Store) (a : Address) (f : HashTable → HashTable) : s.Grows (· ≠ a) (s.updateHash a f) where
  arrays_le := Nat.le_refl _
  hashes_le := by simp [Store.updateHash]
  array_eq _ _ := rfl
  hash_eq b _ hb := by simp [Store.updateHash, Store.hash, Array.getElem?_modify, Ne.symm hb]

end Grows

theorem hash_updateHash {s : Store} {a : Address} {f : HashTable → HashTable} (ha : a < s.hashes.size) :
    (s.updateHash a f).hash a = f (s.hash a) := by
  simp [updateHash, hash, Array.getElem_modify, ha]

end Store

/-! ## Contents -/

/-- What a value holds. -/
inductive Content where
  | nil
  | bool (b : Bool)
  | int (n : Int)
  | str (s : String)
  | array (items : List Content)
  /-- The keys with their values, in order. -/
  | hash (entries : List (Content × Content))

namespace Content

/-- The texts one after the other, a comma and a blank between them. -/
def separated (texts : List (List Char)) : List Char := [',', ' '].intercalate texts

mutual

/-- The text of a value. -/
def text : Content → List Char
  | nil => "nil".toList
  | bool b => if b then "true".toList else "false".toList
  | int n => (toString n).toList
  | str s => '"' :: (Syntax.escape s.toList ++ ['"'])
  | array items => '[' :: (separated (itemTexts items) ++ [']'])
  | hash entries => '\x7b' :: (separated (entryTexts entries) ++ ['\x7d'])
termination_by structural c => c

/-- The texts of the elements of an array. -/
def itemTexts : List Content → List (List Char)
  | [] => []
  | c :: rest => c.text :: itemTexts rest
termination_by structural l => l

/-- The texts of the entries of a hash. -/
def entryTexts : List (Content × Content) → List (List Char)
  | [] => []
  | (k, v) :: rest => (k.text ++ " => ".toList ++ v.text) :: entryTexts rest
termination_by structural l => l

end

mutual

/-- How deep arrays and hashes nest. -/
def height : Content → Nat
  | array items => heightAll items + 1
  | hash entries => heightEntries entries + 1
  | _ => 0
termination_by structural c => c

/-- The height of the highest element. -/
def heightAll : List Content → Nat
  | [] => 0
  | c :: rest => max c.height (heightAll rest)
termination_by structural l => l

/-- The height of the highest key or value. -/
def heightEntries : List (Content × Content) → Nat
  | [] => 0
  | (k, v) :: rest => max (max k.height v.height) (heightEntries rest)
termination_by structural l => l

end

mutual

/-- The fingerprint of a value whose hashes are filed by content. -/
def key : Content → Key
  | nil => .nil
  | bool b => .bool b
  | int n => .int n
  | str s => .str s
  | array items => .array (keyAll items)
  | hash entries => .hash (keyEntries entries)
termination_by structural c => c

/-- The fingerprints of the elements of an array. -/
def keyAll : List Content → List Key
  | [] => []
  | c :: rest => c.key :: keyAll rest
termination_by structural l => l

/-- The fingerprints of the keys and values of a hash. -/
def keyEntries : List (Content × Content) → List (Key × Key)
  | [] => []
  | (k, v) :: rest => (k.key, v.key) :: keyEntries rest
termination_by structural l => l

end

mutual

/-- All integers can be written, and the keys of each hash are pairwise different. -/
def Readable : Content → Prop
  | int n => isLongNumeral n = false
  | array items => ReadableAll items
  | hash entries =>
    entries.Pairwise (fun e e' => Key.same e.1.key e'.1.key = false) ∧ ReadableEntries entries
  | _ => True
termination_by structural c => c

/-- The same of each element of an array. -/
def ReadableAll : List Content → Prop
  | [] => True
  | c :: rest => c.Readable ∧ ReadableAll rest
termination_by structural l => l

/-- The same of each key and value of a hash. -/
def ReadableEntries : List (Content × Content) → Prop
  | [] => True
  | (k, v) :: rest => k.Readable ∧ v.Readable ∧ ReadableEntries rest
termination_by structural l => l

end

section

variable (filed : Key → Key → Prop) (s : Store) (low : Address)

mutual

/-- The value has the content. Its hashes stand at `low` or above, and `filed` relates the fingerprint under
which an entry is stored to the one that its key has by content. -/
def IsOf : Content → Value → Prop
  | nil, .nil => True
  | bool b, .bool b' => b' = b
  | int n, .int n' => n' = n
  | str t, .str t' => t' = t
  | array items, .array a => a < s.arrays.size ∧ AreOf items (s.array a).toList
  | hash entries, .hash a => low ≤ a ∧ a < s.hashes.size ∧ EntriesAreOf entries (s.hash a).entries
  | _, _ => False
termination_by structural c => c

/-- The elements of an array have the contents. -/
def AreOf : List Content → List Value → Prop
  | [], [] => True
  | c :: cs, v :: vs => c.IsOf v ∧ AreOf cs vs
  | _, _ => False
termination_by structural l => l

/-- The entries of a hash have the contents. -/
def EntriesAreOf : List (Content × Content) → List (Key × Entry) → Prop
  | [], [] => True
  | (k, v) :: cs, e :: es => filed e.1 k.key ∧ k.IsOf e.2.key ∧ v.IsOf e.2.value ∧ EntriesAreOf cs es
  | _, _ => False
termination_by structural l => l

end

end

/-! ## Values with a content -/

section

variable {filed filed' : Key → Key → Prop} {s s' : Store} {low low' : Address} {v w : Value}

theorem isOf_nil : IsOf filed s low nil v ↔ v = .nil := by cases v <;> simp [IsOf]

theorem isOf_bool {b : Bool} : IsOf filed s low (bool b) v ↔ v = .bool b := by cases v <;> simp [IsOf]

theorem isOf_int {n : Int} : IsOf filed s low (int n) v ↔ v = .int n := by cases v <;> simp [IsOf]

theorem isOf_str {t : String} : IsOf filed s low (str t) v ↔ v = .str t := by cases v <;> simp [IsOf]

theorem isOf_array {items : List Content} : IsOf filed s low (array items) v ↔
    ∃ a, v = .array a ∧ a < s.arrays.size ∧ AreOf filed s low items (s.array a).toList := by
  cases v <;> simp [IsOf]

theorem isOf_hash {entries : List (Content × Content)} : IsOf filed s low (hash entries) v ↔
    ∃ a, v = .hash a ∧ low ≤ a ∧ a < s.hashes.size ∧ EntriesAreOf filed s low entries (s.hash a).entries := by
  cases v <;> simp [IsOf]

theorem AreOf.length_eq : ∀ {cs : List Content} {vs : List Value}, AreOf filed s low cs vs → vs.length = cs.length
  | [], [], _ => rfl
  | _ :: _, _ :: _, h => congrArg (· + 1) (AreOf.length_eq h.2)
  | [], _ :: _, h => h.elim
  | _ :: _, [], h => h.elim

theorem EntriesAreOf.length_eq : ∀ {cs : List (Content × Content)} {es : List (Key × Entry)},
    EntriesAreOf filed s low cs es → es.length = cs.length
  | [], [], _ => rfl
  | (_, _) :: _, _ :: _, h => congrArg (· + 1) (EntriesAreOf.length_eq h.2.2.2)
  | [], _ :: _, h => h.elim
  | _ :: _, [], h => h.elim

/-! ### The text -/

mutual

/-- The text of a value is the text of its content. -/
theorem IsOf.inspect_eq : ∀ {c : Content} {v : Value} {d : Nat}, IsOf filed s low c v → c.Readable → c.height ≤ d →
    v.inspect s d = .ok (String.ofList c.text)
  | nil, v, d, hv, _, _ => by
    obtain rfl := isOf_nil.mp hv
    cases d <;> rfl
  | bool b, v, d, hv, _, _ => by
    obtain rfl := isOf_bool.mp hv
    have written : Value.inspect s d (.bool b) = .ok (if b then "true" else "false") := by cases d <;> rfl
    cases b <;> rw [written, text] <;> rfl
  | int n, v, d, hv, hc, _ => by
    obtain rfl := isOf_int.mp hv
    have hshort : isLongNumeral n = false := hc
    have written : Value.inspect s d (.int n) = decimal n := by cases d <;> rfl
    rw [written, decimal, hshort, if_neg Bool.false_ne_true, text, String.ofList_toList]
  | str t, v, d, hv, _, _ => by
    obtain rfl := isOf_str.mp hv
    cases d <;> rfl
  | array items, v, d, hv, hc, hd => by
    obtain ⟨a, rfl, _, hitems⟩ := isOf_array.mp hv
    obtain ⟨d, rfl⟩ := Nat.exists_eq_add_one_of_ne_zero (Nat.ne_zero_of_lt hd)
    have texts := AreOf.mapM_inspect hitems hc (Nat.le_of_succ_le_succ hd)
    rw [Value.inspect.eq_def]
    simp only
    rw [texts]
    refine congrArg Except.ok (String.toList_inj.mp ?_)
    simp [text, separated, Function.comp_def]
  | hash entries, v, d, hv, hc, hd => by
    obtain ⟨a, rfl, _, _, hentries⟩ := isOf_hash.mp hv
    obtain ⟨d, rfl⟩ := Nat.exists_eq_add_one_of_ne_zero (Nat.ne_zero_of_lt hd)
    have texts := EntriesAreOf.mapM_inspect hentries hc.2 (Nat.le_of_succ_le_succ hd)
    rw [Value.inspect.eq_def]
    simp only [Store.entries, OrderedTable.values]
    rw [texts]
    refine congrArg Except.ok (String.toList_inj.mp ?_)
    simp [text, separated, Function.comp_def]

theorem AreOf.mapM_inspect : ∀ {cs : List Content} {vs : List Value} {d : Nat}, AreOf filed s low cs vs →
    ReadableAll cs → heightAll cs ≤ d → vs.mapM (Value.inspect s d) = .ok ((itemTexts cs).map String.ofList)
  | [], [], _, _, _, _ => rfl
  | c :: cs, v :: vs, d, hv, hc, hd => by
    have hd : max c.height (heightAll cs) ≤ d := hd
    rw [List.mapM_cons, IsOf.inspect_eq hv.1 hc.1 (by omega), AreOf.mapM_inspect hv.2 hc.2 (by omega)]
    rfl
  | [], _ :: _, _, h, _, _ => h.elim
  | _ :: _, [], _, h, _, _ => h.elim

theorem EntriesAreOf.mapM_inspect : ∀ {cs : List (Content × Content)} {es : List (Key × Entry)} {d : Nat},
    EntriesAreOf filed s low cs es → ReadableEntries cs → heightEntries cs ≤ d →
    (es.map (·.2)).mapM (fun e => do
      return (← Value.inspect s d e.key) ++ " => " ++ (← Value.inspect s d e.value)) =
      .ok ((entryTexts cs).map String.ofList)
  | [], [], _, _, _, _ => rfl
  | (k, v) :: cs, e :: es, d, he, hc, hd => by
    have hd : max (max k.height v.height) (heightEntries cs) ≤ d := hd
    rw [List.map_cons, List.mapM_cons, IsOf.inspect_eq he.2.1 hc.1 (by omega),
      IsOf.inspect_eq he.2.2.1 hc.2.1 (by omega), EntriesAreOf.mapM_inspect he.2.2.2 hc.2.2 (by omega)]
    refine congrArg Except.ok (congrArg (· :: _) (String.toList_inj.mp ?_))
    simp
  | [], _ :: _, _, h, _, _ => h.elim
  | _ :: _, [], _, h, _, _ => h.elim

end

/-! ### Fingerprints -/

mutual

/-- A fingerprint by content is the same as itself. -/
theorem same_key : ∀ c : Content, Key.same c.key c.key = true
  | nil => rfl
  | bool b => by simp [key, Key.same]
  | int n => by simp [key, Key.same]
  | str s => by simp [key, Key.same]
  | array items => by simp [key, Key.same, sameAll_keyAll items]
  | hash entries => by simp [key, Key.same, sameEntries_keyEntries entries]

theorem sameAll_keyAll : ∀ cs : List Content, Key.sameAll (keyAll cs) (keyAll cs) = true
  | [] => by simp [keyAll, Key.sameAll]
  | c :: rest => by simp [keyAll, Key.sameAll, same_key c, sameAll_keyAll rest]

theorem sameEntries_keyEntries : ∀ cs : List (Content × Content),
    Key.sameEntries (keyEntries cs) (keyEntries cs) = true
  | [] => by simp [keyEntries, Key.sameEntries]
  | (k, v) :: rest => by simp [keyEntries, Key.sameEntries, same_key k, same_key v, sameEntries_keyEntries rest]

end

theorem same_eq_false_symm {a b : Key} (h : Key.same a b = false) : Key.same b a = false := by
  cases h' : Key.same b a with
  | false => rfl
  | true => exact (Key.same_symm h').symm.trans h

mutual

/-- The fingerprint of a value is the fingerprint of its content. -/
theorem IsOf.fingerprint_eq : ∀ {c : Content} {v : Value} {d : Nat}, IsOf Eq s low c v → c.height ≤ d →
    v.fingerprint s d = .ok c.key
  | nil, v, d, hv, _ => by
    obtain rfl := isOf_nil.mp hv
    cases d <;> rfl
  | bool b, v, d, hv, _ => by
    obtain rfl := isOf_bool.mp hv
    cases d <;> rfl
  | int n, v, d, hv, _ => by
    obtain rfl := isOf_int.mp hv
    cases d <;> rfl
  | str t, v, d, hv, _ => by
    obtain rfl := isOf_str.mp hv
    cases d <;> rfl
  | array items, v, d, hv, hd => by
    obtain ⟨a, rfl, _, hitems⟩ := isOf_array.mp hv
    obtain ⟨d, rfl⟩ := Nat.exists_eq_add_one_of_ne_zero (Nat.ne_zero_of_lt hd)
    rw [Value.fingerprint, AreOf.mapM_fingerprint hitems (Nat.le_of_succ_le_succ hd)]
    rfl
  | hash entries, v, d, hv, hd => by
    obtain ⟨a, rfl, _, _, hentries⟩ := isOf_hash.mp hv
    obtain ⟨d, rfl⟩ := Nat.exists_eq_add_one_of_ne_zero (Nat.ne_zero_of_lt hd)
    rw [Value.fingerprint, EntriesAreOf.mapM_fingerprint hentries (Nat.le_of_succ_le_succ hd)]
    rfl

theorem AreOf.mapM_fingerprint : ∀ {cs : List Content} {vs : List Value} {d : Nat}, AreOf Eq s low cs vs →
    heightAll cs ≤ d → vs.mapM (Value.fingerprint s d) = .ok (keyAll cs)
  | [], [], _, _, _ => rfl
  | c :: cs, v :: vs, d, hv, hd => by
    have hd : max c.height (heightAll cs) ≤ d := hd
    rw [List.mapM_cons, IsOf.fingerprint_eq hv.1 (by omega), AreOf.mapM_fingerprint hv.2 (by omega)]
    rfl
  | [], _ :: _, _, h, _ => h.elim
  | _ :: _, [], _, h, _ => h.elim

theorem EntriesAreOf.mapM_fingerprint : ∀ {cs : List (Content × Content)} {es : List (Key × Entry)} {d : Nat},
    EntriesAreOf Eq s low cs es → heightEntries cs ≤ d →
    es.mapM (fun e => do return (e.1, ← Value.fingerprint s d e.2.value)) = .ok (keyEntries cs)
  | [], [], _, _, _ => rfl
  | (k, v) :: cs, e :: es, d, he, hd => by
    have hd : max (max k.height v.height) (heightEntries cs) ≤ d := hd
    rw [List.mapM_cons, IsOf.fingerprint_eq he.2.2.1 (by omega), EntriesAreOf.mapM_fingerprint he.2.2.2 (by omega),
      he.1]
    rfl
  | [], _ :: _, _, h, _ => h.elim
  | _ :: _, [], _, h, _ => h.elim

end

/-- The fingerprints under which the entries are stored. -/
theorem EntriesAreOf.keys_eq : ∀ {cs : List (Content × Content)} {es : List (Key × Entry)},
    EntriesAreOf Eq s low cs es → es.map (·.1) = cs.map (·.1.key)
  | [], [], _ => rfl
  | (k, v) :: cs, e :: es, h => by rw [List.map_cons, List.map_cons, h.1, EntriesAreOf.keys_eq h.2.2.2]
  | [], _ :: _, h => h.elim
  | _ :: _, [], h => h.elim

/-! ### Equality -/

mutual

/-- Values with the same content are equal. -/
theorem IsOf.equal_eq : ∀ {c : Content} {v w : Value} {d : Nat}, IsOf Eq s low c v → IsOf Eq s low' c w →
    c.Readable → c.height ≤ d → v.equal s d w = .ok true
  | nil, v, w, d, hv, hw, _, _ => by
    obtain rfl := isOf_nil.mp hv
    obtain rfl := isOf_nil.mp hw
    cases d <;> rfl
  | bool b, v, w, d, hv, hw, _, _ => by
    obtain rfl := isOf_bool.mp hv
    obtain rfl := isOf_bool.mp hw
    cases d <;> simp [Value.equal]
  | int n, v, w, d, hv, hw, _, _ => by
    obtain rfl := isOf_int.mp hv
    obtain rfl := isOf_int.mp hw
    cases d <;> simp [Value.equal, Value.number?, Numeric.Number.equal]
  | str t, v, w, d, hv, hw, _, _ => by
    obtain rfl := isOf_str.mp hv
    obtain rfl := isOf_str.mp hw
    cases d <;> simp [Value.equal]
  | array items, v, w, d, hv, hw, hc, hd => by
    obtain ⟨a, rfl, _, hitems⟩ := isOf_array.mp hv
    obtain ⟨b, rfl, _, hitems'⟩ := isOf_array.mp hw
    obtain ⟨d, rfl⟩ := Nat.exists_eq_add_one_of_ne_zero (Nat.ne_zero_of_lt hd)
    rw [Value.equal, if_pos (hitems.length_eq.trans hitems'.length_eq.symm)]
    exact AreOf.allM_equal hitems hitems' hc (Nat.le_of_succ_le_succ hd)
  | hash entries, v, w, d, hv, hw, hc, hd => by
    obtain ⟨a, rfl, _, _, hentries⟩ := isOf_hash.mp hv
    obtain ⟨b, rfl, _, _, hentries'⟩ := isOf_hash.mp hw
    obtain ⟨d, rfl⟩ := Nat.exists_eq_add_one_of_ne_zero (Nat.ne_zero_of_lt hd)
    have hkeys : (s.hash a).keys = (s.hash b).keys := hentries.keys_eq.trans hentries'.keys_eq.symm
    have hall : (s.hash a).keys.all (s.hash b).contains = true := by
      refine List.all_eq_true.mpr fun k hk => List.any_eq_true.mpr ?_
      obtain ⟨e, he, rfl⟩ := List.mem_map.mp (hkeys ▸ hk)
      obtain ⟨c, _, hc⟩ := List.mem_map.mp (hentries'.keys_eq ▸ List.mem_map_of_mem he)
      exact ⟨e, he, hc ▸ same_key c.1⟩
    rw [Value.equal, if_pos ⟨hentries.length_eq.trans hentries'.length_eq.symm, hall⟩]
    exact EntriesAreOf.allM_equal [] hentries hentries' hc.1 hc.2 (Nat.le_of_succ_le_succ hd) (by simp)

theorem AreOf.allM_equal : ∀ {cs : List Content} {vs ws : List Value} {d : Nat}, AreOf Eq s low cs vs →
    AreOf Eq s low' cs ws → ReadableAll cs → heightAll cs ≤ d →
    (vs.zip ws).allM (fun p => Value.equal s d p.1 p.2) = .ok true
  | [], [], [], _, _, _, _, _ => rfl
  | c :: cs, v :: vs, w :: ws, d, hv, hw, hc, hd => by
    have hd : max c.height (heightAll cs) ≤ d := hd
    rw [List.zip_cons_cons, List.allM, IsOf.equal_eq hv.1 hw.1 hc.1 (by omega)]
    exact AreOf.allM_equal hv.2 hw.2 hc.2 (by omega)
  | [], _ :: _, _, _, h, _, _, _ => h.elim
  | [], _, _ :: _, _, _, h, _, _ => h.elim
  | _ :: _, [], _, _, h, _, _, _ => h.elim
  | _ :: _, _, [], _, _, h, _, _ => h.elim

theorem EntriesAreOf.allM_equal : ∀ {cs : List (Content × Content)} {es fs : List (Key × Entry)} {d : Nat}
    (before : List (Key × Entry)), EntriesAreOf Eq s low cs es → EntriesAreOf Eq s low' cs fs →
    cs.Pairwise (fun e e' => Key.same e.1.key e'.1.key = false) → ReadableEntries cs → heightEntries cs ≤ d →
    (∀ p ∈ before, ∀ c ∈ cs, Key.same p.1 c.1.key = false) →
    es.allM (fun e =>
      match (before ++ fs).lookup e.1 with
      | some e' => Value.equal s d e.2.value e'.value
      | none => .ok false) = .ok true
  | [], [], [], _, _, _, _, _, _, _, _ => rfl
  | (k, v) :: cs, e :: es, f :: fs, d, before, he, hf, hne, hc, hd, hbefore => by
    have hd : max (max k.height v.height) (heightEntries cs) ≤ d := hd
    obtain ⟨hfirst, hothers⟩ := List.pairwise_cons.mp hne
    have hmissing : before.lookup e.1 = none := by
      refine List.lookup_eq_none_iff.mpr fun p hp => ?_
      have hne : (k.key == p.1) = false := same_eq_false_symm (hbefore p hp (k, v) List.mem_cons_self)
      rw [he.1, bne, hne, Bool.not_false]
    have hfound : (before ++ f :: fs).lookup e.1 = some f.2 := by
      rw [List.lookup_append, hmissing, Option.none_or, List.lookup_cons, he.1, hf.1,
        show (k.key == k.key) = true from same_key k]
    have hbefore' : ∀ p ∈ before ++ [f], ∀ c ∈ cs, Key.same p.1 c.1.key = false := by
      intro p hp c hmem
      rcases List.mem_append.mp hp with hp | hp
      · exact hbefore p hp c (List.mem_cons_of_mem _ hmem)
      · rw [List.mem_singleton.mp hp, hf.1]
        exact hfirst c hmem
    have hrest := EntriesAreOf.allM_equal (before ++ [f]) he.2.2.2 hf.2.2.2 hothers hc.2.2
      (by omega : heightEntries cs ≤ d) hbefore'
    rw [List.append_assoc] at hrest
    rw [List.allM, hfound]
    simp only
    rw [IsOf.equal_eq he.2.2.1 hf.2.2.1 hc.2.1 (by omega)]
    exact hrest
  | [], _ :: _, _, _, _, h, _, _, _, _, _ => h.elim
  | [], _, _ :: _, _, _, _, h, _, _, _, _ => h.elim
  | _ :: _, [], _, _, _, h, _, _, _, _, _ => h.elim
  | _ :: _, _, [], _, _, _, h, _, _, _, _ => h.elim

end

/-! ### Changes of the store -/

section

variable {kept : Address → Prop}

mutual

/-- A value keeps its content while the store grows and the hashes in it stay as they are. -/
theorem IsOf.grows (hs : s.Grows kept s') (hkept : ∀ a, low ≤ a → kept a) (hlow : low' ≤ low) :
    ∀ {c : Content} {v : Value}, IsOf filed s low c v → IsOf filed s' low' c v
  | nil, _, hv => isOf_nil.mpr (isOf_nil.mp hv)
  | bool _, _, hv => isOf_bool.mpr (isOf_bool.mp hv)
  | int _, _, hv => isOf_int.mpr (isOf_int.mp hv)
  | str _, _, hv => isOf_str.mpr (isOf_str.mp hv)
  | array items, v, hv => by
    obtain ⟨a, rfl, ha, hitems⟩ := isOf_array.mp hv
    refine isOf_array.mpr ⟨a, rfl, Nat.lt_of_lt_of_le ha hs.arrays_le, ?_⟩
    rw [hs.array_eq a ha]
    exact AreOf.grows hs hkept hlow hitems
  | hash entries, v, hv => by
    obtain ⟨a, rfl, ha, hsize, hentries⟩ := isOf_hash.mp hv
    refine isOf_hash.mpr ⟨a, rfl, Nat.le_trans hlow ha, Nat.lt_of_lt_of_le hsize hs.hashes_le, ?_⟩
    rw [hs.hash_eq a hsize (hkept a ha)]
    exact EntriesAreOf.grows hs hkept hlow hentries

theorem AreOf.grows (hs : s.Grows kept s') (hkept : ∀ a, low ≤ a → kept a) (hlow : low' ≤ low) :
    ∀ {cs : List Content} {vs : List Value}, AreOf filed s low cs vs → AreOf filed s' low' cs vs
  | [], [], _ => trivial
  | _ :: _, _ :: _, h => ⟨IsOf.grows hs hkept hlow h.1, AreOf.grows hs hkept hlow h.2⟩
  | [], _ :: _, h => h.elim
  | _ :: _, [], h => h.elim

theorem EntriesAreOf.grows (hs : s.Grows kept s') (hkept : ∀ a, low ≤ a → kept a) (hlow : low' ≤ low) :
    ∀ {cs : List (Content × Content)} {es : List (Key × Entry)}, EntriesAreOf filed s low cs es →
      EntriesAreOf filed s' low' cs es
  | [], [], _ => trivial
  | (_, _) :: _, _ :: _, h => ⟨h.1, IsOf.grows hs hkept hlow h.2.1, IsOf.grows hs hkept hlow h.2.2.1,
      EntriesAreOf.grows hs hkept hlow h.2.2.2⟩
  | [], _ :: _, h => h.elim
  | _ :: _, [], h => h.elim

end

end

end

end Content

end MinRuby
