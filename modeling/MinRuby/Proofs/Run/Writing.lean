import MinRuby.Proofs.Run.Untouched
import MinRuby.Proofs.Value.Holding

/-!
# Writing an element

A value is written into a container under an index. Either the write is refused, and nothing has changed, or exactly one
place holds the value, and the gap before it is filled; whoever has the container has it as it is now. A hash finds the
value under the key that it was written with, unless the key holds the hash itself: then the write has changed the
fingerprint of the key, and nothing is found.

* `Store.ArrayWritten`, `Store.HashWritten` — what becomes of the container.
* `Place` — what can refer to a container.
* `element_write` — the write as a whole.
-/

namespace MinRuby

/-- The value is no address beyond the store. -/
def Value.Exists (s : Store) : Value → Prop
  | .array a => a < s.arrays.size
  | .hash a => a < s.hashes.size
  | _ => True

/-- A value can be written into the container under the index: a position of an array that does not count from the end, or
a key of a hash that has a fingerprint. -/
inductive Value.Accepts (s : Store) (d : Nat) : Value → Value → Prop where
  | position (a : Address) {i : Int} (h : 0 ≤ i) : Accepts s d (.array a) (.int i)
  | key (a : Address) {index : Value} {k : Key} (h : index.fingerprint s d = .ok k) : Accepts s d (.hash a) index

/-- What the write of a value at a position makes of an array. -/
structure Store.ArrayWritten (s s' : Store) (a : Address) (i : Nat) (v : Value) : Prop where
  size : (s'.array a).size = max (s.array a).size (i + 1)
  here : (s'.array a)[i]? = some v
  old : ∀ j < (s.array a).size, j ≠ i → (s'.array a)[j]? = (s.array a)[j]?
  gap : ∀ j, (s.array a).size ≤ j → j < i → (s'.array a)[j]? = some .nil

/-- What the write of a value under a key makes of a hash; `k` is the fingerprint that the key had. -/
structure Store.HashWritten (s s' : Store) (d : Nat) (a : Address) (index : Value) (k : Key) (v : Value) : Prop where
  /-- A look-up goes by the fingerprint that a key has now. -/
  lookup : ∀ d' key, Value.lookup? s' d' a key = (do
    let k' ← key.fingerprint s' d'
    return if k' == k then some v else ((s.hash a).find? k').map (·.value))
  fingerprint : ∀ d' key, ¬ s.IsHeldIn (.hash a) key → key.fingerprint s' d' = key.fingerprint s d'
  here : ¬ s.IsHeldIn (.hash a) index → k.WithoutNaN → ∀ d' ≥ d, Value.fetch s' d' (.hash a) index = .ok v
  lost : s.IsHeldIn (.hash a) index → ∀ d' w, Value.fetch s' d' (.hash a) index ≠ .ok w
  /-- Under another fingerprint there is what there was. -/
  other : ∀ d' key, (∀ k', key.fingerprint s d' = .ok k' → (k' == k) = false) →
    ∀ w, Value.fetch s' d' (.hash a) key = .ok w ↔ Value.fetch s d' (.hash a) key = .ok w
  /-- So there is if there was nothing; but the failure shows the key. -/
  missing : ∀ d' key, (∀ k', key.fingerprint s d' = .ok k' → (k' == k) = false) → ¬ s.IsWithin (.hash a) key →
    Value.fetch s' d' (.hash a) key = Value.fetch s d' (.hash a) key

/-! ## Success and failure -/

namespace Value

variable {s s' : Store} {d : Nat} {a : Address} {container index v : Value}

theorem assign_position (d : Nat) (a : Address) {i : Int} (h : 0 ≤ i) (v : Value) (s : Store) :
    assign d (array a) (int i) v s = .ok () (s.updateArray a (putAt · i.toNat v)) := by
  unfold assign
  simp only [if_neg (Int.not_lt.mpr h)]
  rfl

/-- A write that is refused leaves the store as it was. -/
theorem assign_eq_error (h : ¬ container.Accepts s d index) (v : Value) : ∃ e, assign d container index v s = .error e s := by
  unfold assign
  split
  · next a i =>
    have hi : i < 0 := Int.not_le.mp fun hi => h (.position a hi)
    simp only [if_pos hi]
    generalize decimal i = text
    cases text with
    | ok t => exact ⟨_, rfl⟩
    | error e => exact ⟨_, rfl⟩
  · exact ⟨_, rfl⟩
  · next a =>
    show ∃ e, (do
      let k ← (index.fingerprint s d : Except Failure Key)
      modify (·.updateHash a (·.insert k ⟨index, v⟩)) : StoreM Unit) s = _
    cases hk : index.fingerprint s d with
    | ok k => exact absurd (.key a hk) h
    | error e => exact ⟨e, rfl⟩
  · exact ⟨_, rfl⟩

theorem assign_of_accepts (h : container.Accepts s d index) (v : Value) : ∃ s', assign d container index v s = .ok () s' := by
  cases h with
  | position a h => exact ⟨_, assign_position d a h v s⟩
  | key a h => exact ⟨_, assign_of_fingerprint h⟩

/-- What a write does that is not refused. -/
theorem assign_cases (h : assign d container index v s = .ok () s') :
    (∃ a i, container = array a ∧ index = int i ∧ 0 ≤ i ∧ s' = s.updateArray a (putAt · i.toNat v)) ∨
      ∃ a k, container = hash a ∧ index.fingerprint s d = .ok k ∧ s' = s.updateHash a (·.insert k ⟨index, v⟩) := by
  by_cases haccepts : container.Accepts s d index
  · cases haccepts with
    | @position a i hi =>
      rw [assign_position d a hi] at h
      exact .inl ⟨a, i, rfl, rfl, hi, (EStateM.Result.ok.inj h).2.symm⟩
    | @key a _ k hk =>
      rw [assign_of_fingerprint hk] at h
      exact .inr ⟨a, k, rfl, hk, (EStateM.Result.ok.inj h).2.symm⟩
  · obtain ⟨e, he⟩ := assign_eq_error haccepts v
    cases h.symm.trans he

/-- No other container has changed. -/
theorem sameIn_of_assign (h : assign d container index v s = .ok () s') {x : Value} (hx : x ≠ container) : x.SameIn s s' := by
  rcases assign_cases h with ⟨a, i, rfl, -, -, rfl⟩ | ⟨a, k, rfl, -, rfl⟩
  · cases x with
    | array b =>
      have hne : a ≠ b := fun heq => hx (heq ▸ rfl)
      simp [SameIn, Store.updateArray, Store.array, Array.getElem?_modify, hne]
    | _ => trivial
  · cases x with
    | hash b =>
      have hne : a ≠ b := fun heq => hx (heq ▸ rfl)
      simp [SameIn, Store.updateHash, Store.hash, Array.getElem?_modify, hne]
    | _ => trivial

/-- No key that is a definition or holds one is accepted. -/
theorem not_accepts_of_procedure {p : Address} (h : s.IsHeldIn (procedure p) index) : ¬ (hash a).Accepts s d index := by
  rintro ⟨⟩
  next k hk =>
    obtain ⟨j, hj, -⟩ := (hasFingerprint_of_fingerprint hk).height_le h
    cases hj

/-! ## Arrays -/

theorem size_putAt (items : Array Value) (i : Nat) (v : Value) : (putAt items i v).size = max items.size (i + 1) := by
  unfold putAt
  split
  · rw [Array.size_set]
    omega
  · simp only [Array.size_push, Array.size_append, Array.size_replicate]
    omega

theorem getElem?_putAt (items : Array Value) (i j : Nat) (v : Value) : (putAt items i v)[j]? =
    if j = i then some v else if j < items.size then items[j]? else if j < i then some nil else none := by
  unfold putAt
  split
  · next h =>
    rw [Array.getElem?_set]
    grind
  · next h =>
    rw [Array.getElem?_push, Array.size_append, Array.size_replicate, Array.getElem?_append, Array.getElem?_replicate]
    grind

theorem arrayWritten_updateArray (ha : a < s.arrays.size) (i : Nat) (v : Value) :
    s.ArrayWritten (s.updateArray a (putAt · i v)) a i v := by
  have harray : (s.updateArray a (putAt · i v)).array a = putAt (s.array a) i v := by
    simp [Store.updateArray, Store.array, Array.getElem_modify, ha]
  constructor
  · rw [harray, size_putAt]
  · rw [harray, getElem?_putAt, if_pos rfl]
  · intro j hj hne
    rw [harray, getElem?_putAt, if_neg hne, if_pos hj]
  · intro j hj hlt
    rw [harray, getElem?_putAt, if_neg hlt.ne, if_neg (Nat.not_lt.mpr hj), if_pos hlt]

/-! ## Hashes -/

theorem fetch_hash (s : Store) (d : Nat) (a : Address) (key : Value) : fetch s d (hash a) key = (do
    match ← lookup? s d a key with
    | some v => return v
    | none => blame (.keyNotFound (← key.inspect s d))) := rfl

theorem fetch_hash_eq_ok_iff {key w : Value} : fetch s d (hash a) key = .ok w ↔
    ∃ k e, key.fingerprint s d = .ok k ∧ (s.hash a).find? k = some e ∧ e.value = w := by
  rw [fetch_hash]
  cases hk : key.fingerprint s d with
  | error e => simp [lookup?, hk, bind, Except.bind]
  | ok k =>
    rw [lookup?_of_fingerprint hk]
    cases he : (s.hash a).find? k with
    | none =>
      generalize key.inspect s d = text
      cases text <;> simp [he, bind, Except.bind, liftM, monadLift, MonadLift.monadLift, Except.mapError, blame]
    | some e => simp [he, bind, Except.bind, pure, Except.pure]

/-- A value that holds a hash still does so when the hash has changed. -/
theorem isHeldIn_of_sameIn (h : s.IsHeldIn (hash a) v) (hsame : ∀ x, x ≠ hash a → x.SameIn s s') :
    s'.IsHeldIn (hash a) v := by
  induction h with
  | refl => exact .refl
  | @tail y z _ hz ih =>
    by_cases hne : z = hash a
    · rw [hne]
      exact .refl
    · refine ih.tail ?_
      have hz' := hsame z hne
      cases z with
      | array b =>
        have hz' : s'.array b = s.array b := hz'
        rwa [Store.IsHeldBy, hz']
      | hash b =>
        have hz' : s'.hash b = s.hash b := hz'
        rwa [Store.IsHeldBy, hz']
      | _ => exact hz.elim

theorem hashWritten_updateHash {k : Key} (ha : a < s.hashes.size) (hk : index.fingerprint s d = .ok k) (v : Value) :
    s.HashWritten (s.updateHash a (·.insert k ⟨index, v⟩)) d a index k v := by
  have hhash : (s.updateHash a (·.insert k ⟨index, v⟩)).hash a = (s.hash a).insert k ⟨index, v⟩ := Store.hash_updateHash ha
  have hsame (x : Value) (hx : x ≠ hash a) : x.SameIn s (s.updateHash a (·.insert k ⟨index, v⟩)) :=
    sameIn_of_assign (assign_of_fingerprint hk) hx
  have hprocedures : (s.updateHash a (·.insert k ⟨index, v⟩)).procedures = s.procedures := rfl
  generalize s.updateHash a (·.insert k ⟨index, v⟩) = s' at hhash hsame hprocedures
  have hfind (k' : Key) :
      ((s'.hash a).find? k').map (·.value) = if k' == k then some v else ((s.hash a).find? k').map (·.value) := by
    rw [hhash, OrderedTable.find?_insert]
    split <;> rfl
  have hlookup (d' : Nat) (key : Value) : lookup? s' d' a key = (do
      let k' ← key.fingerprint s' d'
      return if k' == k then some v else ((s.hash a).find? k').map (·.value)) := by
    simp only [lookup?, hfind]
  have hfingerprint (d' : Nat) (key : Value) (hkey : ¬ s.IsHeldIn (hash a) key) : key.fingerprint s' d' = key.fingerprint s d' :=
    fingerprint_congr (fun x hx => hsame x fun heq => hkey (heq ▸ hx)) d'
  -- nothing is found under a key that holds the hash, neither before nor after
  have hlost (key : Value) (hkey : s.IsHeldIn (hash a) key) (d' : Nat) (w : Value) :
      fetch s' d' (hash a) key ≠ .ok w ∧ fetch s d' (hash a) key ≠ .ok w := by
    constructor
    · intro h
      obtain ⟨k', e, hk', he, -⟩ := fetch_hash_eq_ok_iff.mp h
      rw [find?_eq_none_of_isHeldIn (hasFingerprint_of_fingerprint hk') (isHeldIn_of_sameIn hkey hsame)] at he
      cases he
    · intro h
      obtain ⟨k', e, hk', he, -⟩ := fetch_hash_eq_ok_iff.mp h
      rw [find?_eq_none_of_isHeldIn (hasFingerprint_of_fingerprint hk') hkey] at he
      cases he
  refine ⟨hlookup, hfingerprint, fun hkey hnan d' hd => ?_, fun hkey d' w => (hlost index hkey d' w).1,
    fun d' key hother w => ?_, fun d' key hother hwithin => ?_⟩
  · have hk' : index.fingerprint s' d' = .ok k := (hfingerprint d' index hkey).trans (fingerprint_mono hk hd)
    have hself : (k == k) = true := Key.same_self hnan
    refine fetch_hash_eq_ok_iff.mpr ⟨k, ⟨index, v⟩, hk', ?_, rfl⟩
    rw [hhash, OrderedTable.find?_insert, hself, if_pos rfl]
  · by_cases hkey : s.IsHeldIn (hash a) key
    · exact iff_of_false (hlost key hkey d' w).1 (hlost key hkey d' w).2
    · rw [fetch_hash_eq_ok_iff, fetch_hash_eq_ok_iff, hfingerprint d' key hkey, hhash]
      refine exists_congr fun k' => exists_congr fun e => and_congr_right fun hk' => ?_
      rw [OrderedTable.find?_insert, hother k' hk', if_neg Bool.false_ne_true]
  · have hkey : ¬ s.IsHeldIn (hash a) key := fun h => hwithin h.isWithin
    have hunmodified : key.Unmodified s s' := fun x hx => hsame x fun heq => hwithin (heq ▸ hx)
    have hsamelookup : lookup? s' d' a key = lookup? s d' a key := by
      rw [hlookup, hfingerprint d' key hkey, lookup?]
      cases hk' : key.fingerprint s d' with
      | error e => rfl
      | ok k' =>
        show Except.ok _ = Except.ok _
        rw [hother k' hk', if_neg Bool.false_ne_true]
    rw [fetch_hash, fetch_hash, inspect_congr hunmodified hprocedures, hsamelookup]

end Value

/-! ## Places -/

/-- What holds a value: a variable of the frame, an element of an array, or an entry of a hash. -/
inductive Place where
  | binding (name : String)
  | element (a : Address) (i : Nat)
  | entry (a : Address) (k : Key)

namespace Place

/-- The value that the place holds, if it holds one. -/
def value? (m : Machine) : Place → Option Value
  | binding name => m.frame.find? name
  | element a i => (m.store.array a)[i]?
  | entry a k => ((m.store.hash a).find? k).map (·.value)

/-- The place that a write into the container under the index fills. -/
def IsTarget (s : Store) (d : Nat) (container index : Value) : Place → Prop
  | binding _ => False
  | element a i => container = .array a ∧ index = .int i
  | entry a k => container = .hash a ∧ ∃ k', index.fingerprint s d = .ok k' ∧ (k == k') = true

end Place

/-! ## The write -/

section

variable {d : Nat} {container index v : Value} {m m' : Machine}

theorem write_of_accepts (h : container.Accepts m.store d index) (v : Value) :
    ∃ s', container.assign d index v m.store = .ok () s' ∧
      Eval.onStore (container.assign d index v) m = .ok () { m with store := s' } := by
  obtain ⟨s', hs'⟩ := Value.assign_of_accepts h v
  refine ⟨s', hs', ?_⟩
  simp only [Eval.onStore, hs']

theorem write_eq_error (h : ¬ container.Accepts m.store d index) (v : Value) :
    ∃ e, Eval.onStore (container.assign d index v) m = .error e m := by
  obtain ⟨e, he⟩ := Value.assign_eq_error h v
  refine ⟨e, ?_⟩
  simp only [Eval.onStore, he]

/-- Every place but the one that is written holds what it held. -/
theorem Place.value?_of_write {s' : Store} (hexists : container.Exists m.store)
    (hwrite : container.assign d index v m.store = .ok () s')
    {place : Place} {w : Value} (h : place.value? m = some w) :
    place.value? { m with store := s' } = some w ∨
      place.IsTarget m.store d container index ∧ place.value? { m with store := s' } = some v := by
  cases place with
  | binding name => exact .inl h
  | element b j =>
    by_cases hb : Value.array b = container
    · rcases Value.assign_cases hwrite with ⟨a, i, rfl, rfl, hi, rfl⟩ | ⟨a, k, rfl, -⟩
      · cases hb
        have hwritten := Value.arrayWritten_updateArray hexists i.toNat v
        by_cases hj : j = i.toNat
        · subst hj
          exact .inr ⟨⟨rfl, by rw [Int.toNat_of_nonneg hi]⟩, hwritten.here⟩
        · obtain ⟨hlt, -⟩ := Array.getElem?_eq_some_iff.mp h
          exact .inl ((hwritten.old j hlt hj).trans h)
      · cases hb
    · have hsame : s'.array b = m.store.array b := Value.sameIn_of_assign hwrite hb
      exact .inl ((congrArg (·[j]?) hsame).trans h)
  | entry b k =>
    by_cases hb : Value.hash b = container
    · rcases Value.assign_cases hwrite with ⟨a, i, rfl, -⟩ | ⟨a, k', rfl, hk', rfl⟩
      · cases hb
      · cases hb
        simp only [value?, Store.hash_updateHash hexists, OrderedTable.find?_insert]
        split
        · next hsame => exact .inr ⟨⟨rfl, k', hk', hsame⟩, rfl⟩
        · exact .inl h
    · have hsame : s'.hash b = m.store.hash b := Value.sameIn_of_assign hwrite hb
      exact .inl ((congrArg (fun t : HashTable => (t.find? k).map Entry.value) hsame).trans h)

end

end MinRuby
