import MinRuby.Proofs.Run.Assignless
import MinRuby.Proofs.Value.Content

/-!
# What a run leaves of arrays and hashes

Only the assignment to an element changes an array or a hash. Operators, builtins, calls and literals make new ones and
read old ones, so what was there before a run without such assignments is there afterwards as it was, however the run ends.

* `keptByAllocation_extends` — allocation leaves alone what was there.
* `containers_untouched` — evaluation, and its steps one by one.
-/

namespace MinRuby

open Syntax (Node)

/-- The arrays and hashes of the first store have in the second one the elements, the entries and the order that they had. -/
def Store.Untouched (s s' : Store) : Prop :=
  (∀ a < s.arrays.size, s'.array a = s.array a) ∧ ∀ a < s.hashes.size, s'.hash a = s.hash a

/-- The second store has all that the first one has, and the hashes that are being filled are new. -/
structure Store.ExtendsBut (s : Store) (O : List Address) (s' : Store) : Prop where
  grows : s.Extends s'
  new : ∀ a ∈ O, s.hashes.size ≤ a

theorem keptByAllocation_extends (s₀ : Store) : KeptByAllocation s₀.ExtendsBut fun _ _ _ => True where
  scalar _ := trivial
  part _ _ _ := trivial
  newArray {O s items} hs _ := ⟨⟨hs.grows.trans (.newArray s items), hs.new⟩, trivial, fun _ _ => trivial⟩
  newHash {O s} hs := by
    refine ⟨⟨hs.grows.trans (.newHash s .empty), ?_⟩, fun _ _ => trivial⟩
    exact List.forall_mem_cons.mpr ⟨hs.grows.hashes_le, hs.new⟩
  store {O s a k v key} ha hs _ _ := by
    have hupdate := Store.Grows.updateHash s a (·.insert key ⟨k, v⟩)
    have hne (b : Address) (hb : b < s₀.hashes.size) : b ≠ a := Nat.ne_of_lt (Nat.lt_of_lt_of_le hb (hs.new a ha))
    have hold : s₀.Grows (· ≠ a) s := hs.grows.mono fun _ _ _ => trivial
    exact ⟨⟨(hold.trans hupdate).mono fun b hb _ => hne b hb, hs.new⟩, fun _ _ => trivial⟩
  newProcedure {O s p} hs := ⟨⟨⟨hs.grows.arrays_le, hs.grows.hashes_le, hs.grows.array_eq, hs.grows.hash_eq⟩, hs.new⟩,
    fun _ _ => trivial⟩
  filled {O s a} hs := ⟨⟨hs.grows, (List.forall_mem_cons.mp hs.new).2⟩, trivial, fun _ _ => trivial⟩

/-! ## Single steps -/

namespace Value

/-- An array that the step gives stands behind those that were there. -/
def GivesNewArray (step : StoreM Value) : Prop := ∀ s c s', step s = .ok (.array c) s' → s.arrays.size ≤ c

theorem givesNewArray_pure {v : Value} (hv : v.IsScalar) : GivesNewArray (pure v) := by
  rintro s c s' ⟨⟩
  exact hv.elim

theorem givesNewArray_lift {α : Type} {x : Except Failure α} {f : α → StoreM Value} (h : ∀ a, GivesNewArray (f a)) :
    GivesNewArray (liftM x >>= f) := by
  cases x with
  | ok a => exact h a
  | error e => rintro s c s' ⟨⟩

theorem givesNewArray_new (items : Store → Array Value) : GivesNewArray (modifyGet fun s => s.newArray (items s)) := by
  rintro s c s' ⟨⟩
  exact Nat.le_refl _

theorem givesNewArray_onOthers (op : Syntax.BinaryOp) (x y : Value) : GivesNewArray (onOthers op x y) := by
  unfold onOthers
  split
  case h_2 a b => exact givesNewArray_new fun s => s.array a ++ s.array b
  case h_3 => exact givesNewArray_lift fun _ => givesNewArray_pure trivial
  case h_4 a n =>
    intro s
    exact givesNewArray_lift (f := fun items : List Value => modifyGet fun s => s.newArray items.toArray)
      (fun items => givesNewArray_new fun _ => items.toArray) s
  case h_9 => rintro s c s' ⟨⟩
  all_goals exact givesNewArray_pure trivial

theorem givesNewArray_apply (depth : Nat) (op : Syntax.BinaryOp) (x y : Value) : GivesNewArray (apply depth op x y) := by
  unfold apply
  split
  · intro s
    exact givesNewArray_lift (x := (x.equal s depth y).mapError .limit) (f := fun b => pure (bool b))
      (fun _ => givesNewArray_pure trivial) s
  · split
    · next a b _ _ =>
      cases hr : onNumbers op a b with
      | ok v => exact givesNewArray_pure (isScalar_onNumbers hr)
      | error e => rintro s c s' ⟨⟩
    · exact givesNewArray_onOthers op x y

/-- An assignment to an element changes no other array. -/
theorem keeps_assign_array {depth : Nat} {container index v : Value} {b : Address} {items : Array Value}
    (h : container ≠ array b) : Keeps (fun s => s.array b = items) AnyFailure (assign depth container index v) := by
  unfold assign
  split
  · next a i =>
    have hne : a ≠ b := fun heq => h (heq ▸ rfl)
    generalize decimal i = d
    split
    · exact (Keeps.liftLimit fun _ _ => trivial).bind fun _ => Keeps.lift fun _ _ => trivial
    · refine Keeps.modify fun s hs => ?_
      rw [← hs]
      simp [Store.updateArray, Store.array, Array.getElem?_modify, hne]
  · exact Keeps.lift fun _ _ => trivial
  · exact Keeps.get fun s _ => (Keeps.lift fun _ _ => trivial).bind fun _ => Keeps.modify fun _ hs => hs
  · exact Keeps.lift fun _ _ => trivial

/-- An assignment to an element changes no other hash. -/
theorem keeps_assign_hash {depth : Nat} {container index v : Value} {b : Address} {table : HashTable}
    (h : container ≠ hash b) : Keeps (fun s => s.hash b = table) AnyFailure (assign depth container index v) := by
  unfold assign
  split
  · next i =>
    generalize decimal i = d
    split
    · exact (Keeps.liftLimit fun _ _ => trivial).bind fun _ => Keeps.lift fun _ _ => trivial
    · exact Keeps.modify fun _ hs => hs
  · exact Keeps.lift fun _ _ => trivial
  · next a =>
    have hne : a ≠ b := fun heq => h (heq ▸ rfl)
    refine Keeps.get fun s _ => (Keeps.lift fun _ _ => trivial).bind fun k => Keeps.modify fun s hs => ?_
    rw [← hs]
    simp [Store.updateHash, Store.hash, Array.getElem?_modify, hne]
  · exact Keeps.lift fun _ _ => trivial

end Value

theorem run_of_onStore {α : Type} {step : StoreM α} {m m' : Machine} {a : α} (h : Eval.onStore step m = .ok a m') :
    ∃ s, step m.store = .ok a s := by
  unfold Eval.onStore at h
  simp only at h
  cases hr : step m.store with
  | ok b s =>
    rw [hr] at h
    cases h
    exact ⟨s, rfl⟩
  | error e s =>
    rw [hr] at h
    cases h

/-- A step that only allocates leaves alone what was there. -/
theorem untouched_of_allocates {α : Type} {ins : List Value} {out : α → List Value} {step : Eval α} {m : Machine}
    (hm : m.Assignless) (h : RunAllocates m.store.ExtendsBut (fun _ _ _ => True) [] ins out step) :
    m.store.Untouched (after step m).store := by
  have hstart : OnMachine m.store.ExtendsBut (fun _ _ _ => True) [] m :=
    ⟨⟨.refl _, fun _ ha => absurd ha List.not_mem_nil⟩, fun _ _ _ => trivial, hm⟩
  have hgrows : m.store.Extends (after step m).store := (h.onMachine_after hstart fun _ _ => trivial).store.grows
  exact ⟨hgrows.array_eq, fun a ha => hgrows.hash_eq a ha trivial⟩

/-- An evaluation of a tree without assignments to elements, on a machine whose functions have none either, leaves every
array and every hash as it was, and so do its steps: operators, builtins, and calls with whatever arguments. An assignment
to an element changes the container that it is to and no other, and so an assignment to an element of an array that an
operator has given changes no array that was there before. -/
theorem containers_untouched (rounds depth : Nat) {tree : Node} {m : Machine} (htree : tree.assignsElement = false)
    (hm : m.Assignless) :
    m.store.Untouched (after (evaluate rounds depth tree) m).store ∧
    (∀ op x y, m.store.Untouched (after (Eval.onStore (Value.apply depth op x y)) m).store) ∧
    (∀ name args, m.store.Untouched (after (callBuiltin depth name args) m).store) ∧
    (∀ name args, m.store.Untouched (after (Eval.call depth (evaluate rounds depth) name args) m).store) ∧
    (∀ (container index v : Value) (m : Machine),
      let m' := after (Eval.onStore (container.assign depth index v)) m
      (∀ b, container ≠ .array b → m'.store.array b = m.store.array b) ∧
        ∀ b, container ≠ .hash b → m'.store.hash b = m.store.hash b) ∧
    ∀ op x y c m', Eval.onStore (Value.apply depth op x y) m = .ok (.array c) m' →
      ∀ (d : Nat) (index v : Value) (later : Machine), ∀ a < m.store.arrays.size,
        (after (Eval.onStore (Value.assign d (.array c) index v)) later).store.array a = later.store.array a := by
  have laws := keptByAllocation_extends m.store
  have assigned (d : Nat) (container index v : Value) (m : Machine) (b : Address) (h : container ≠ .array b) :
      (after (Eval.onStore (container.assign d index v)) m).store.array b = m.store.array b :=
    (Keeps.onStore (Value.keeps_assign_array h) m rfl).after (I := fun m' => m'.store.array b = m.store.array b)
  refine ⟨untouched_of_allocates hm (laws.allocates_evaluate rounds depth htree []), fun op x y => ?_, fun name args => ?_,
    fun name args => ?_, fun container index v m => ⟨assigned depth container index v m, fun b h => ?_⟩,
    fun op x y c m' hrun d index v later a ha => assigned d _ index v later a ?_⟩
  · have happly := laws.allocates_apply (O := []) depth op (List.mem_cons_self (a := x) (l := [y]))
      (List.mem_cons_of_mem x List.mem_cons_self)
    exact untouched_of_allocates hm
      (KeptByAllocation.allocates_onStore (fun _ => Value.keeps_apply_changes depth op x y) happly)
  · exact untouched_of_allocates hm (laws.runAllocates_callBuiltin depth name args)
  · refine untouched_of_allocates hm (laws.runAllocates_call (fun _ hn => ?_) name (List.Subset.refl args))
    exact laws.allocates_evaluate rounds depth hn []
  · exact (Keeps.onStore (Value.keeps_assign_hash h) m rfl).after (I := fun m' => m'.store.hash b = m.store.hash b)
  · -- the array is newer than those that were there
    obtain ⟨s, hs⟩ := run_of_onStore hrun
    have hnew : m.store.arrays.size ≤ c := Value.givesNewArray_apply depth op x y _ _ _ hs
    rintro ⟨⟩
    exact absurd ha (Nat.not_lt.mpr hnew)

/-- An array is added to itself, used as a key, given to a function and printed; and when the sum is assigned to, the array
still has the element that it had. -/
theorem operand_untouched :
    let body : Node := .funcCall "p" [.varRef "x"]
    let tree : Node := .stmts [.varAssign "b" (.binary .add (.varRef "a") (.varRef "a")),
      .hashNew [.varRef "a", .funcCall "f" [.varRef "a"]], .varRef "b"]
    let m : Machine :=
      { store := { arrays := #[#[.int 1]], procedures := #[⟨"f", ["x"], body⟩] }
        functions := initialFunctions.insert "f" (.procedure 0)
        frame := .ofList [("a", .array 0)] }
    (after (evaluate 1 9 tree) m).store.array 0 = #[.int 1] ∧
      ∀ later : Machine,
        (after (Eval.onStore (Value.assign 9 (.array 1) (.int 0) .nil)) later).store.array 0 = later.store.array 0 := by
  intro body tree m
  have hm : m.Assignless := by
    rintro p ⟨f, a, -, ha⟩
    obtain ⟨hlt, rfl⟩ := Array.getElem?_eq_some_iff.mp ha
    obtain rfl : a = 0 := Nat.lt_one_iff.mp hlt
    rfl
  have hnone : tree.assignsElement = false := rfl
  obtain ⟨hevaluate, -, -, -, -, hlater⟩ := containers_untouched 1 9 hnone hm
  exact ⟨hevaluate.1 0 Nat.zero_lt_one,
    fun later => hlater .add (.array 0) (.array 0) 1 _ rfl 9 (.int 0) .nil later 0 Nat.zero_lt_one⟩

end MinRuby
