import MinRuby.Value.Conversion
import MinRuby.Value.Operators

/-!
# Steps that only allocate

All that a program does to arrays and hashes, if it assigns to no element, is this: it makes an array of values that it has,
it makes a hash and fills it before anyone else has it, and it takes a value out of a container that it has.
`KeptByAllocation I V` lists these steps as laws of a property `I` of stores and a property `V` of values, both of which may
depend on the hashes that are being filled. What obeys the laws is kept by operators and by the conversion of data.

* `Allocates` — the judgement on steps, with one rule for each way to put steps together.
* `allocates_apply`, `allocates_ofData` — the steps on the store.
-/

namespace MinRuby

/-! ## The laws -/

/-- A value without parts. -/
def Value.IsScalar : Value → Prop
  | .array _ | .hash _ => False
  | _ => True

/-- The first value is an element of the second one, or a key or a value in it. -/
def Store.IsIn (s : Store) (x : Value) : Value → Prop
  | .array a => x ∈ s.array a
  | .hash a => ∃ e ∈ s.entries a, x = e.key ∨ x = e.value
  | _ => False

/-- The steps of a run that only allocates. `I O` is the property of the store and `V O` the one of the values that the run
has, while it fills the hashes in `O`. -/
structure KeptByAllocation (I : List Address → Store → Prop) (V : List Address → Store → Value → Prop) : Prop where
  scalar : ∀ {O s v}, v.IsScalar → V O s v
  part : ∀ {O s x y}, I O s → V O s y → s.IsIn x y → V O s x
  /-- An array is made of values at hand. -/
  newArray : ∀ {O s} {items : Array Value}, I O s → (∀ v ∈ items, V O s v) →
    I O (s.newArray items).2 ∧ V O (s.newArray items).2 (s.newArray items).1 ∧ ∀ v, V O s v → V O (s.newArray items).2 v
  /-- A hash is empty when it is made; the run does not have it yet. -/
  newHash : ∀ {O s}, I O s →
    I (s.hashes.size :: O) (s.newHash .empty).2 ∧ ∀ v, V O s v → V (s.hashes.size :: O) (s.newHash .empty).2 v
  /-- An entry is stored in a hash that is being filled. -/
  store : ∀ {O s a k v} {key : Key}, a ∈ O → I O s → V O s k → V O s v →
    I O (s.updateHash a (·.insert key ⟨k, v⟩)) ∧ ∀ w, V O s w → V O (s.updateHash a (·.insert key ⟨k, v⟩)) w
  newProcedure : ∀ {O s p}, I O s → I O (s.newProcedure p).2 ∧ ∀ v, V O s v → V O (s.newProcedure p).2 v
  /-- A hash is filled, and the run has it. -/
  filled : ∀ {O s a}, I (a :: O) s → I O s ∧ V O s (.hash a) ∧ ∀ v, V (a :: O) s v → V O s v

namespace Value

theorem isIn_array_of_fetch {s : Store} {depth : Nat} {a : Address} {index v : Value}
    (h : (array a).fetch s depth index = .ok v) : s.IsIn v (.array a) := by
  cases index
  case int i =>
    unfold fetch at h
    simp only at h
    split at h
    · next w hw =>
      cases h
      split at hw
      · exact Array.mem_of_getElem? hw
      · cases hw
    · generalize decimal i = d at h
      cases d <;> cases h
  all_goals cases h

theorem isIn_hash_of_lookup? {s : Store} {depth : Nat} {a : Address} {key v : Value}
    (h : lookup? s depth a key = .ok (some v)) : s.IsIn v (.hash a) := by
  have hentry {k : Key} {e : Entry} : ∀ {l : List (Key × Entry)}, l.lookup k = some e → ∃ p ∈ l, p.2 = e := by
    intro l hl
    induction l with
    | nil => cases hl
    | cons p l ih =>
      rw [List.lookup_cons] at hl
      split at hl
      · exact ⟨p, List.mem_cons_self, Option.some.inj hl⟩
      · obtain ⟨q, hq, he⟩ := ih hl
        exact ⟨q, List.mem_cons_of_mem _ hq, he⟩
  unfold lookup? at h
  cases hk : key.fingerprint s depth with
  | error e =>
    rw [hk] at h
    cases h
  | ok k =>
    rw [hk] at h
    obtain ⟨e, hfound, rfl⟩ := Option.map_eq_some_iff.mp (Except.ok.inj h)
    obtain ⟨p, hp, rfl⟩ := hentry hfound
    exact ⟨p.2, List.mem_map_of_mem hp, .inr rfl⟩

theorem isIn_hash_of_fetch {s : Store} {depth : Nat} {a : Address} {index v : Value}
    (h : (hash a).fetch s depth index = .ok v) : s.IsIn v (.hash a) := by
  unfold fetch at h
  simp only at h
  cases hfound : lookup? s depth a index with
  | error e =>
    rw [hfound] at h
    cases h
  | ok v? =>
    rw [hfound] at h
    cases v? with
    | some w =>
      cases h
      exact isIn_hash_of_lookup? hfound
    | none =>
      generalize index.inspect s depth = d at h
      cases d <;> cases h

/-- What is found in a container is in it. -/
theorem isIn_of_fetch {s : Store} {depth : Nat} {container index v : Value}
    (h : container.fetch s depth index = .ok v) : s.IsIn v container := by
  cases container with
  | array a => exact isIn_array_of_fetch h
  | hash a => exact isIn_hash_of_fetch h
  | _ => cases h

theorem isScalar_ofNumber (n : Numeric.Number) : (ofNumber n).IsScalar := by
  cases n <;> trivial

theorem isScalar_onNumbers {op : Syntax.BinaryOp} {a b : Numeric.Number} {v : Value} (h : onNumbers op a b = .ok v) :
    v.IsScalar := by
  have hmap {x : Except Numeric.ArithmeticError Numeric.Number} (h : ofNumber <$> x = .ok v) : v.IsScalar := by
    cases x with
    | ok n =>
      cases h
      exact isScalar_ofNumber n
    | error e => cases h
  cases op
  case div => exact hmap h
  case mod => exact hmap h
  case pow => exact hmap h
  all_goals
    cases h
    first | exact isScalar_ofNumber _ | trivial

theorem mem_of_mem_repeated {items result : List Value} {n : Int} (h : repeated items n = .ok result) {v : Value}
    (hv : v ∈ result) : v ∈ items := by
  unfold repeated at h
  split at h
  · cases h
  · split at h
    · cases h
    · split at h
      · cases h
        exact absurd hv List.not_mem_nil
      · cases h
        obtain ⟨l, hl, hv⟩ := List.mem_flatten.mp hv
        exact List.eq_of_mem_replicate hl ▸ hv

end Value

/-! ## The judgement -/

section

variable {σ α β : Type} {I : List Address → σ → Prop} {V : List Address → σ → Value → Prop} {O : List Address}
  {ins ins' : List Value} {out : α → List Value} {out' : β → List Value}

/-- The values that a step makes: its result. -/
abbrev itself (v : Value) : List Value := [v]

/-- The values that a step makes: none. -/
abbrev noValue (_ : α) : List Value := []

/-- What a step leaves if it only allocates. -/
def Allocated (I : List Address → σ → Prop) (V : List Address → σ → Value → Prop) (O : List Address)
    (out : α → List Value) (s : σ) : EStateM.Result Failure σ α → Prop
  | .ok a s' => I O s' ∧ (∀ v, V O s v → V O s' v) ∧ ∀ v ∈ out a, V O s' v
  | .error _ s' => I O s' ∧ ∀ v, V O s v → V O s' v

/-- From the values `ins` the step makes the values `out`, and while it does so it only allocates. -/
def Allocates (I : List Address → σ → Prop) (V : List Address → σ → Value → Prop) (O : List Address) (ins : List Value)
    (out : α → List Value) (step : EStateM Failure σ α) : Prop :=
  ∀ s, I O s → (∀ v ∈ ins, V O s v) → Allocated I V O out s (step s)

/-- What follows on a step. -/
theorem Allocated.trans {s s' : σ} {r : EStateM.Result Failure σ α} (h : ∀ v, V O s v → V O s' v)
    (hr : Allocated I V O out s' r) : Allocated I V O out s r := by
  cases r with
  | ok a s'' => exact ⟨hr.1, fun v hv => hr.2.1 v (h v hv), hr.2.2⟩
  | error e s'' => exact ⟨hr.1, fun v hv => hr.2 v (h v hv)⟩

/-- A step that starts by reading the state. -/
theorem Allocated.get {f : σ → EStateM Failure σ α} {s : σ} (h : Allocated I V O out s (f s s)) :
    Allocated I V O out s ((MonadState.get >>= f) s) := h

namespace Allocates

theorem pure {a : α} (h : out a ⊆ ins) : Allocates I V O ins out (Pure.pure a : EStateM Failure σ α) :=
  fun _ hs hins => ⟨hs, fun _ hv => hv, fun v hv => hins v (h hv)⟩

theorem throw {e : Failure} : Allocates I V O ins out (throw e : EStateM Failure σ α) := fun _ hs _ => ⟨hs, fun _ hv => hv⟩

theorem lift (x : Except Failure α) : Allocates I V O ins noValue (liftM x : EStateM Failure σ α) := by
  cases x with
  | ok a => exact pure (List.nil_subset _)
  | error e => exact throw

theorem liftLimit (x : Except Limit α) : Allocates I V O ins noValue (liftM x : EStateM Failure σ α) := by
  cases x with
  | ok a => exact pure (List.nil_subset _)
  | error l => exact throw

theorem bind {x : EStateM Failure σ α} {f : α → EStateM Failure σ β} (hx : Allocates I V O ins out x)
    (hf : ∀ a, Allocates I V O (out a ++ ins) out' (f a)) : Allocates I V O ins out' (x >>= f) := by
  intro s hs hins
  have h := hx s hs hins
  change Allocated I V O out' s (EStateM.bind x f s)
  unfold EStateM.bind
  cases hxs : x s with
  | ok a s' =>
    rw [hxs] at h
    obtain ⟨hs', hkept, hout⟩ := h
    refine Allocated.trans hkept (hf a s' hs' fun v hv => ?_)
    rcases List.mem_append.mp hv with hv | hv
    · exact hout v hv
    · exact hkept v (hins v hv)
  | error e s' =>
    rw [hxs] at h
    exact h

/-- A value that may be had in every state need not be given. -/
theorem having {x : EStateM Failure σ α} {v : Value} (hv : ∀ s, V O s v) (hx : Allocates I V O (v :: ins) out x) :
    Allocates I V O ins out x :=
  fun s hs hins => hx s hs (List.forall_mem_cons.mpr ⟨hv s, hins⟩)

/-- A step may have more values than it needs. -/
theorem weaken {x : EStateM Failure σ α} (hx : Allocates I V O ins out x) (h : ins ⊆ ins') : Allocates I V O ins' out x :=
  fun s hs hins => hx s hs fun v hv => hins v (h hv)

theorem get {f : σ → EStateM Failure σ α} (h : ∀ s, Allocates I V O ins out (f s)) : Allocates I V O ins out (get >>= f) :=
  fun s => h s s

/-- A hash is made, filled, and the result. -/
theorem building {make : EStateM Failure σ Value} {fill : Value → EStateM Failure σ PUnit}
    (hmake : ∀ s, I O s → ∃ a s', make s = .ok (.hash a) s' ∧ I (a :: O) s' ∧ ∀ v, V O s v → V (a :: O) s' v)
    (hfilled : ∀ a s, I (a :: O) s → I O s ∧ V O s (.hash a) ∧ ∀ v, V (a :: O) s v → V O s v)
    (hfill : ∀ a, Allocates I V (a :: O) ins noValue (fill (.hash a))) :
    Allocates I V O ins itself (do
      let table ← make
      fill table
      return table) := by
  intro s hs hins
  obtain ⟨a, s₁, hrun, hs₁, hkept₁⟩ := hmake s hs
  have h := hfill a s₁ hs₁ fun v hv => hkept₁ v (hins v hv)
  show Allocated I V O itself s (EStateM.bind make (fun table => EStateM.bind (fill table) fun _ => Pure.pure table) s)
  unfold EStateM.bind
  simp only [hrun]
  cases hr : fill (.hash a) s₁ with
  | ok _ s₂ =>
    rw [hr] at h
    obtain ⟨hs₂, hkept₂, -⟩ := h
    obtain ⟨hs', hnew, hkept⟩ := hfilled a s₂ hs₂
    exact ⟨hs', fun v hv => hkept v (hkept₂ v (hkept₁ v hv)), List.forall_mem_singleton.mpr hnew⟩
  | error e s₂ =>
    rw [hr] at h
    obtain ⟨hs', -, hkept⟩ := hfilled a s₂ h.1
    exact ⟨hs', fun v hv => hkept v (h.2 v (hkept₁ v hv))⟩

theorem mapM {γ : Type} {f : γ → EStateM Failure σ Value} (l : List γ)
    (h : ∀ a ∈ l, Allocates I V O ins itself (f a)) : Allocates I V O ins (fun vs => vs) (l.mapM f) := by
  induction l with
  | nil => exact pure (List.nil_subset _)
  | cons a l ih =>
    rw [List.mapM_cons]
    have hrest := ih fun a ha => h a (List.mem_cons_of_mem _ ha)
    refine (h a List.mem_cons_self).bind fun v => (hrest.weaken (List.subset_append_right _ _)).bind fun vs => pure ?_
    simp

theorem forM {γ : Type} {f : γ → EStateM Failure σ PUnit} (l : List γ)
    (h : ∀ a ∈ l, Allocates I V O ins noValue (f a)) : Allocates I V O ins noValue (l.forM f) := by
  induction l with
  | nil => exact pure (List.nil_subset _)
  | cons a l ih => exact (h a List.mem_cons_self).bind fun _ => ih fun a ha => h a (List.mem_cons_of_mem _ ha)

theorem foldlM {γ : Type} {f : Value → γ → EStateM Failure σ Value} (l : List γ) {v : Value} (hv : v ∈ ins)
    (h : ∀ v, ∀ a ∈ l, Allocates I V O ins itself (f v a)) :
    Allocates I V O ins itself (l.foldlM f v) := by
  induction l generalizing v ins with
  | nil => exact pure (List.cons_subset.mpr ⟨hv, List.nil_subset _⟩)
  | cons a l ih =>
    rw [List.foldlM_cons]
    refine (h v a List.mem_cons_self).bind fun w => ih List.mem_cons_self fun w a ha => ?_
    exact (h w a (List.mem_cons_of_mem _ ha)).weaken (List.subset_append_right _ _)

end Allocates

end

/-! ## Steps on the store -/

section

variable {I : List Address → Store → Prop} {V : List Address → Store → Value → Prop} {O : List Address} {ins : List Value}

namespace KeptByAllocation

theorem allocates_scalar (laws : KeptByAllocation I V) {v : Value} (hv : v.IsScalar) :
    Allocates I V O ins itself (Pure.pure v : StoreM Value) :=
  .having (fun _ => laws.scalar hv) (.pure (List.cons_subset.mpr ⟨List.mem_cons_self, List.nil_subset _⟩))

theorem allocates_newArray (laws : KeptByAllocation I V) {items : Array Value} (h : items.toList ⊆ ins) :
    Allocates I V O ins itself (modifyGet (·.newArray items) : StoreM Value) := by
  intro s hs hins
  have hitems (v : Value) (hv : v ∈ items) : V O s v := hins v (h (Array.mem_toList_iff.mpr hv))
  obtain ⟨hs', hnew, hkept⟩ := laws.newArray hs hitems
  exact ⟨hs', hkept, List.forall_mem_singleton.mpr hnew⟩

/-- A hash is made and filled. -/
theorem allocates_newHash (laws : KeptByAllocation I V) {fill : Value → StoreM Unit}
    (h : ∀ a, Allocates I V (a :: O) ins noValue (fill (.hash a))) :
    Allocates I V O ins itself (do
      let table ← modifyGet (·.newHash .empty)
      fill table
      return table) :=
  .building (fun s hs => ⟨s.hashes.size, (s.newHash .empty).2, rfl, laws.newHash hs⟩) (fun _ _ hs => laws.filled hs) h

theorem allocates_assign (laws : KeptByAllocation I V) {a : Address} (ha : a ∈ O) (depth : Nat) {key v : Value}
    (hkey : key ∈ ins) (hv : v ∈ ins) :
    Allocates I V O ins noValue (Value.assign depth (.hash a) key v) := by
  intro s hs hins
  refine Allocated.get ?_
  cases hk : key.fingerprint s depth with
  | error e => exact ⟨hs, fun _ hw => hw⟩
  | ok k =>
    have hstored : I O (s.updateHash a (·.insert k ⟨key, v⟩)) ∧
        ∀ w, V O s w → V O (s.updateHash a (·.insert k ⟨key, v⟩)) w :=
      laws.store ha hs (hins key hkey) (hins v hv)
    exact ⟨hstored.1, hstored.2, fun _ h => absurd h List.not_mem_nil⟩

mutual

theorem allocates_ofData (laws : KeptByAllocation I V) (O : List Address) (depth : Nat) :
    ∀ d : Data, Allocates I V O [] itself (Value.ofData depth d)
  | .null | .bool _ | .int _ | .float _ | .str _ => laws.allocates_scalar trivial
  | .list items => (allocates_ofDataAll laws O depth items).bind fun vs =>
    laws.allocates_newArray (List.subset_append_left vs [])
  | .tuple items => (allocates_ofDataAll laws O depth items).bind fun vs =>
    laws.allocates_newArray (List.subset_append_left vs [])
  | .mapping entries => laws.allocates_newHash fun _ => allocates_assignEntries laws List.mem_cons_self depth entries

theorem allocates_ofDataAll (laws : KeptByAllocation I V) (O : List Address) (depth : Nat) :
    ∀ ds : List Data, Allocates I V O [] (fun vs => vs) (Value.ofDataAll depth ds)
  | [] => .pure (List.nil_subset _)
  | d :: rest => (allocates_ofData laws O depth d).bind fun v =>
    ((allocates_ofDataAll laws O depth rest).weaken (List.nil_subset _)).bind fun vs => .pure (by simp)

theorem allocates_assignEntries (laws : KeptByAllocation I V) {O : List Address} {a : Address} (ha : a ∈ O) (depth : Nat) :
    ∀ es : List (Data × Data), Allocates I V O [] noValue (Value.assignEntries depth (.hash a) es)
  | [] => .pure (List.nil_subset _)
  | (k, v) :: rest => (allocates_ofData laws O depth k).bind fun key =>
    ((allocates_ofData laws O depth v).weaken (List.nil_subset _)).bind fun value =>
      (laws.allocates_assign ha depth (by simp) (by simp)).bind fun _ =>
        (allocates_assignEntries laws ha depth rest).weaken (List.nil_subset _)

end

/-- An operator on other values than two numbers gives a scalar, or an array with elements of its operands. -/
theorem allocates_onOthers (laws : KeptByAllocation I V) (op : Syntax.BinaryOp) {x y : Value} (hx : x ∈ ins)
    (hy : y ∈ ins) : Allocates I V O ins itself (Value.onOthers op x y) := by
  unfold Value.onOthers
  split
  · exact laws.allocates_scalar trivial
  · next a b =>
    intro s hs hins
    refine laws.allocates_newArray (fun _ h => h) s hs fun v hv => ?_
    rcases List.mem_append.mp (Array.toList_append ▸ hv) with hv | hv
    · exact laws.part hs (hins _ hx) (Array.mem_toList_iff.mp hv)
    · exact laws.part hs (hins _ hy) (Array.mem_toList_iff.mp hv)
  · exact (Allocates.lift _).bind fun _ => laws.allocates_scalar (v := .str _) trivial
  · next a n =>
    intro s hs hins
    refine Allocated.get ?_
    cases hr : Value.repeated (s.array a).toList n with
    | ok items =>
      refine laws.allocates_newArray (fun _ h => h) s hs fun v hv => ?_
      exact laws.part hs (hins _ hx) (Array.mem_toList_iff.mp (Value.mem_of_mem_repeated hr hv))
    | error e => exact ⟨hs, fun _ hv => hv⟩
  · exact laws.allocates_scalar trivial
  · exact laws.allocates_scalar trivial
  · exact laws.allocates_scalar trivial
  · exact laws.allocates_scalar trivial
  · exact .throw

theorem allocates_apply (laws : KeptByAllocation I V) (depth : Nat) (op : Syntax.BinaryOp) {x y : Value} (hx : x ∈ ins)
    (hy : y ∈ ins) : Allocates I V O ins itself (Value.apply depth op x y) := by
  unfold Value.apply
  split
  · exact .get fun s => (Allocates.liftLimit _).bind fun b => laws.allocates_scalar (v := .bool b) trivial
  · split
    · next a b _ _ =>
      cases hr : Value.onNumbers op a b with
      | ok v => exact laws.allocates_scalar (Value.isScalar_onNumbers hr)
      | error e => exact .throw
    · exact laws.allocates_onOthers op hx hy

end KeptByAllocation

end

end MinRuby
