import Mathlib.Algebra.GroupWithZero.Nat
import MinRuby.Proofs.Run.Depth
import MinRuby.Syntax.Desugar

/-!
# What the reduced constructs mean

The constructs that the reduction spells out, over operands of any kind. `Construct.tree` is the tree that is
built for one, with its hidden temporaries; `Construct.meaning` says directly what it does, without any. Run
on machines that differ in the temporaries only, the two are in step.
-/

namespace MinRuby

open Syntax (Fresh Modifier Node Term)

/-- A construct over operands and bodies in `α`; `τ` is what it keeps for each hidden temporary. -/
inductive Construct (τ α : Type) where
  /-- Operands with `&&` between them. -/
  | both (first : α) (more : List (τ × α))
  /-- Operands with `||` between them. -/
  | either (first : α) (more : List (τ × α))
  | caseOf (temporary : τ) (subject : α) (clauses : List (List α × α)) (otherwise : Option α)
  /-- A condition and its body, then those of each `elsif`. -/
  | choices (test body : α) (clauses : List (α × α)) (otherwise : Option α)
  | unlessOf (test body : α) (otherwise : Option α)
  /-- A statement and the modifiers behind it; `runsFirst` says that it is a `begin` block. -/
  | modified (statement : α) (runsFirst : Bool) (modifiers : List (Modifier × α))

namespace Construct

/-! ## The tree -/

/-- The tree that is built for a construct. -/
def tree : Construct String Node → Node
  | both first more => more.foldl (fun left r => .bothOf r.1 left r.2) first
  | either first more => more.foldl (fun left r => .eitherOf r.1 left r.2) first
  | caseOf temporary subject clauses otherwise =>
    .stmts [.varAssign temporary subject,
      clauses.foldr (fun c rest => .choice (.matchesAny temporary c.1) c.2 rest) (otherwise.getD .nothing)]
  | choices test body clauses otherwise =>
    .choice test body (clauses.foldr (fun c rest => .choice c.1 c.2 rest) (otherwise.getD .nothing))
  | unlessOf test body otherwise => .choice test (otherwise.getD .nothing) body
  | modified statement _ [] => statement
  | modified statement runsFirst (m :: rest) =>
    rest.foldl (fun s m => m.1.apply false s m.2) (m.1.apply runsFirst statement m.2)

/-- The hidden temporaries of a construct. -/
def temporaries : Construct String Node → List String
  | both _ more => more.map (·.1)
  | either _ more => more.map (·.1)
  | caseOf temporary _ _ _ => [temporary]
  | choices _ _ _ _ => []
  | unlessOf _ _ _ => []
  | modified _ _ _ => []

/-- The operands and bodies of a construct. -/
def operands {τ α : Type} : Construct τ α → List α
  | both first more => first :: more.map (·.2)
  | either first more => first :: more.map (·.2)
  | caseOf _ subject clauses otherwise => subject :: clauses.flatMap (fun c => c.1 ++ [c.2]) ++ otherwise.toList
  | choices test body clauses otherwise => test :: body :: clauses.flatMap (fun c => [c.1, c.2]) ++ otherwise.toList
  | unlessOf test body otherwise => test :: body :: otherwise.toList
  | modified statement _ modifiers => statement :: modifiers.map (·.2)

/-- How many levels of the tree stand above the operands at most. -/
def levels {τ α : Type} : Construct τ α → Nat
  | both _ more => 2 * more.length
  | either _ more => 2 * more.length
  | caseOf _ _ clauses _ => (clauses.map (·.1.length + 2)).sum + 2
  | choices _ _ clauses _ => clauses.length + 1
  | unlessOf _ _ _ => 1
  | modified _ _ modifiers => modifiers.length

/-- No operand mentions a hidden temporary of the construct. -/
def Apart (c : Construct String Node) : Prop := ∀ n ∈ c.operands, n.Avoids c.temporaries

/-! ## The meaning -/

section

variable {τ α : Type} (eval : α → Eval Value) (equal : Value → Value → Eval Bool) (rounds : Nat)

/-- The value `v` if it is falsy or there are no more operands, else that of the operands behind it. -/
def allOf (v : Value) : List α → Eval Value
  | [] => return v
  | a :: rest => do
    if v.truthy then allOf (← eval a) rest else return v

/-- The value `v` if it is truthy or there are no more operands, else that of the operands behind it. -/
def anyOf (v : Value) : List α → Eval Value
  | [] => return v
  | a :: rest => do
    if v.truthy then return v else anyOf (← eval a) rest

/-- Whether the subject equals one of the values; those behind the first that it equals are not evaluated. -/
def matchesOne (subject : Value) : List α → Eval Bool
  | [] => return false
  | a :: rest => do
    if ← equal subject (← eval a) then return true else matchesOne subject rest

/-- The value of an else branch, which is nil if there is none. -/
def orNil : Option α → Eval Value
  | some body => eval body
  | none => return .nil

/-- The body of the first clause with a value that the subject equals, else the else branch. -/
def firstMatch (subject : Value) (otherwise : Option α) : List (List α × α) → Eval Value
  | [] => orNil eval otherwise
  | c :: rest => do
    if ← matchesOne eval equal subject c.1 then eval c.2 else firstMatch subject otherwise rest

/-- The body behind the first condition that holds, else the else branch. -/
def firstTrue (otherwise : Option α) : List (α × α) → Eval Value
  | [] => orNil eval otherwise
  | c :: rest => do
    if (← eval c.1).truthy then eval c.2 else firstTrue otherwise rest

/-- A step under a modifier. A loop has the value nil, and `runsFirst` lets its body run before the first
test. -/
def under (runsFirst : Bool) (step : Eval Value) (modifier : Modifier) (test : α) : Eval Value :=
  match modifier with
  | .whenTrue => do
    if (← eval test).truthy then step else return .nil
  | .unlessTrue => do
    if (← eval test).truthy then return .nil else step
  | .whileTrue => do
    if runsFirst then let _ ← step
    Eval.whileTrue (do return (← eval test).truthy) (do let _ ← step) rounds
    return .nil

/-- What a construct does, given how operands are evaluated and values are compared. -/
def meaning : Construct τ α → Eval Value
  | both first more => do allOf eval (← eval first) (more.map (·.2))
  | either first more => do anyOf eval (← eval first) (more.map (·.2))
  | caseOf _ subject clauses otherwise => do firstMatch eval equal (← eval subject) otherwise clauses
  | choices test body clauses otherwise => firstTrue eval otherwise ((test, body) :: clauses)
  | unlessOf test body otherwise => do
    if (← eval test).truthy then orNil eval otherwise else eval body
  | modified statement _ [] => eval statement
  | modified statement runsFirst (m :: rest) =>
    rest.foldl (fun step m => under eval rounds false step m.1 m.2)
      (under eval rounds runsFirst (eval statement) m.1 m.2)

end

/-- What a construct does when operands are evaluated at a depth. -/
def run (rounds depth : Nat) (c : Construct String Node) : Eval Value :=
  c.meaning (evaluate rounds depth) (fun x y => Eval.reading (x.equal · depth y)) rounds

theorem allOf_of_falsy {α : Type} {eval : α → Eval Value} {v : Value} (h : v.truthy = false) :
    ∀ rest : List α, allOf eval v rest = return v
  | [] => rfl
  | _ :: _ => by rw [allOf, h, if_neg Bool.false_ne_true]

theorem anyOf_of_truthy {α : Type} {eval : α → Eval Value} {v : Value} (h : v.truthy = true) :
    ∀ rest : List α, anyOf eval v rest = return v
  | [] => rfl
  | _ :: _ => by rw [anyOf, if_pos h]

end Construct

/-! ## Steps of a tree -/

section

variable {side : Side} {rounds : Nat} {hidden : List String} {kept : List (String × Value)}

theorem lookup_insertInto (x : String) (v : Value) (entries : List (String × Value)) :
    (OrderedTable.insertInto x v entries).lookup x = some v :=
  OrderedTable.find?_insert_self ⟨entries⟩ x v

/-- A hidden variable is read back. -/
theorem inStep_varRef_hidden {x : String} {v : Value} (hx : x ∈ hidden) (hkept : kept.lookup x = some v)
    (j : Nat) :
    InStep side (Keeping hidden kept) (Keeping hidden kept) (evaluate rounds (j + 1) (.varRef x)) (pure v) := by
  rw [evaluate]
  refine InStep.traceNode_left rfl ?_
  rintro m _ ⟨frame, output, hp, hF⟩
  have hfind : m.frame.find? x = some v := (hF.find?_hidden hx).trans hkept
  have hget (f : Machine → Eval Value) : (get >>= f) m = f m m := rfl
  rw [hget, hfind]
  exact .inl ⟨rfl, .mk frame output hp hF⟩

/-- A hidden variable is set, and what follows may read it. -/
theorem inStep_assign_hidden {x : String} {node tail : Node} {r : Eval Value} {k : Value → Eval Value} {j : Nat}
    (hx : x ∈ hidden) (h : InStep side (Alike hidden) (Alike hidden) (evaluate rounds j node) r)
    (htail : ∀ v kept, kept.lookup x = some v →
      InStep side (Keeping hidden kept) (Alike hidden) (evaluate rounds (j + 1) tail) (k v)) :
    InStep side (Alike hidden) (Alike hidden) (evaluate rounds (j + 2) (.stmts [.varAssign x node, tail]))
      (do k (← r)) := by
  have hrun : evaluate rounds (j + 2) (.stmts [.varAssign x node, tail]) = (do
      Eval.traceNode (.stmts [.varAssign x node, tail])
      Eval.traceNode (.varAssign x node)
      let v ← evaluate rounds j node
      modify fun m => { m with frame := m.frame.insert x v }
      evaluate rounds (j + 1) tail) := by
    rw [evaluate]
    simp only [List.foldlM_cons, List.foldlM_nil, bind_pure]
    rw [evaluate]
    simp only [bind_assoc, pure_bind]
  rw [hrun]
  refine InStep.traceNode_left rfl (InStep.traceNode_left rfl (h.bind fun v => ?_))
  rintro m _ ⟨frame, output, hp, hF⟩
  have hset : Hiding hidden (OrderedTable.insertInto x v (concealed hidden m.frame)) (m.frame.insert x v) frame :=
    Hiding.insert_hidden ⟨hF, rfl⟩ hx v
  exact htail v _ (lookup_insertInto x v _) _ _ (.mk frame output hp hset)

/-- The test that the reduction makes of two values is the comparison of the two. -/
theorem inStep_equal {F : Frame → Frame → Prop} {j e : Nat} (h : side.Below j e) (x y : Value) :
    InStep side (Abreast F) (Abreast F) (Eval.onStore (Value.apply j .eq x y))
      (do return .bool (← Eval.reading (x.equal · e y))) := by
  have hleft : Eval.onStore (Value.apply j .eq x y) =
      (do return Value.bool (← Eval.reading (x.equal · j y)) : Eval Value) := by
    funext m
    have hmachine : (get : Eval Machine) m = .ok m m := rfl
    have hstore : (get : StoreM Store) m.store = .ok m.store m.store := rfl
    simp only [Eval.onStore, Value.apply, Eval.reading, bind, EStateM.bind, hmachine, hstore]
    cases x.equal m.store j y <;> rfl
  rw [hleft]
  exact (InStep.reading fun s => Value.equal_sameUnless s h x y).bind fun b => .pure (Value.bool b)

end

/-! ## Trees between two depths -/

/-- At every depth above `d + k` and up to `top` the tree is in step with the direct run. -/
def Tracks (side : Side) (rounds d top : Nat) (R S : Machine → Machine → Prop) (k : Nat) (n : Node)
    (r : Eval Value) : Prop :=
  ∀ j, d + k < j → j ≤ top → InStep side R S (evaluate rounds j n) r

namespace Tracks

variable {side : Side} {rounds d top e : Nat} {hidden : List String} {kept : List (String × Value)}
  {R S T : Machine → Machine → Prop} {F : Frame → Frame → Prop} {k k' : Nat} {n : Node} {r : Eval Value}

theorem mono (h : Tracks side rounds d top R S k n r) (hk : k ≤ k') (hST : ∀ m m', S m m' → T m m') :
    Tracks side rounds d top R T k' n r :=
  fun j hd ht => (h j (by omega) ht).mono (fun _ _ h => h) hST

/-- A tree that does not mention the hidden variables is in step with itself at the depth `e`. -/
theorem keeping (hB : ∀ j, d < j → j ≤ top → side.Below j e) (hn : n.Avoids hidden) :
    Tracks side rounds d top (Keeping hidden kept) (Keeping hidden kept) 0 n (evaluate rounds e n) :=
  fun j hd ht => evaluate_inStep rounds (hB j hd ht) kept hn

theorem alike (hB : ∀ j, d < j → j ≤ top → side.Below j e) (hn : n.Avoids hidden) :
    Tracks side rounds d top (Alike hidden) (Alike hidden) 0 n (evaluate rounds e n) :=
  fun j hd ht => InStep.alike fun _ => keeping hB hn j hd ht

/-- A tree that does not mention the hidden variables need not keep them. -/
theorem forgetting (hB : ∀ j, d < j → j ≤ top → side.Below j e) (hn : n.Avoids hidden) :
    Tracks side rounds d top (Keeping hidden kept) (Alike hidden) 0 n (evaluate rounds e n) :=
  (keeping hB hn).mono (Nat.le_refl 0) fun _ _ => Keeping.alike

/-- The empty block is nil. -/
theorem nothing (h : ∀ m m', Abreast F m m' → S m m') :
    Tracks side rounds d top (Abreast F) S 0 .nothing (pure .nil) := by
  intro j hd _
  obtain ⟨i, rfl⟩ : ∃ i, j = i + 1 := ⟨j - 1, by omega⟩
  unfold evaluate
  exact InStep.traceNode_left rfl ((InStep.pure Value.nil).mono (fun _ _ h => h) h)

theorem varRef {x : String} {v : Value} (hx : x ∈ hidden) (hkept : kept.lookup x = some v) :
    Tracks side rounds d top (Keeping hidden kept) (Keeping hidden kept) 0 (.varRef x) (pure v) := by
  intro j hd _
  obtain ⟨i, rfl⟩ : ∃ i, j = i + 1 := ⟨j - 1, by omega⟩
  exact inStep_varRef_hidden hx hkept i

theorem lit (b : Bool) :
    Tracks side rounds d top (Abreast F) (Abreast F) 0 (.lit (.bool b)) (pure (.bool b)) := by
  intro j hd _
  obtain ⟨i, rfl⟩ : ∃ i, j = i + 1 := ⟨j - 1, by omega⟩
  unfold evaluate
  exact InStep.traceNode_left rfl (InStep.onStore_refl _)

theorem choice {test yes no : Node} {f g : Value → Eval Value}
    (h : Tracks side rounds d top (Abreast F) S k test r) (hST : ∀ m m', S m m' → T m m')
    (hyes : ∀ v, v.truthy = true → Tracks side rounds d top S T k yes (f v))
    (hno : ∀ v, v.truthy = false → Tracks side rounds d top S T k no (g v)) :
    Tracks side rounds d top (Abreast F) T (k + 1) (.choice test yes no)
      (do let v ← r; if v.truthy then f v else g v) := by
  intro j hd ht
  obtain ⟨i, rfl⟩ : ∃ i, j = i + 1 := ⟨j - 1, by omega⟩
  unfold evaluate
  refine InStep.traceNode_left rfl ((h i (by omega) (by omega)).bindTo hST fun v => ?_)
  cases hv : v.truthy with
  | true => exact hyes v hv i (by omega) (by omega)
  | false => exact hno v hv i (by omega) (by omega)

/-- A hidden variable is set, and what follows may read it. -/
theorem keep {x : String} {tail : Node} {f : Value → Eval Value} (hx : x ∈ hidden)
    (h : Tracks side rounds d top (Alike hidden) (Alike hidden) k n r)
    (htail : ∀ v kept, kept.lookup x = some v →
      Tracks side rounds d top (Keeping hidden kept) (Alike hidden) (k + 1) tail (f v)) :
    Tracks side rounds d top (Alike hidden) (Alike hidden) (k + 2) (.stmts [.varAssign x n, tail])
      (do f (← r)) := by
  intro j hd ht
  obtain ⟨i, rfl⟩ : ∃ i, j = i + 2 := ⟨j - 2, by omega⟩
  exact inStep_assign_hidden hx (h i (by omega) (by omega)) fun v kept hkept =>
    htail v kept hkept (i + 1) (by omega) (by omega)

/-! ### Values of a clause -/

/-- One comparison of a hidden variable with a value. -/
theorem compare {x : String} {v : Value} (hB : ∀ j, d < j → j ≤ top → side.Below j e) (hx : x ∈ hidden)
    (hkept : kept.lookup x = some v) (hn : n.Avoids hidden) :
    Tracks side rounds d top (Keeping hidden kept) (Keeping hidden kept) 1 (.binary .eq (.varRef x) n)
      (do let w ← evaluate rounds e n; return .bool (← Eval.reading (v.equal · e w))) := by
  intro j hd ht
  obtain ⟨i, rfl⟩ : ∃ i, j = i + 1 := ⟨j - 1, by omega⟩
  have hsubject : InStep side (Keeping hidden kept) (Keeping hidden kept) (evaluate rounds i (.varRef x)) (pure v) :=
    varRef hx hkept i (by omega : d + 0 < i) (by omega : i ≤ top)
  have hvalue : InStep side (Keeping hidden kept) (Keeping hidden kept) (evaluate rounds i n) (evaluate rounds e n) :=
    keeping hB hn i (by omega) (by omega)
  have operands : InStep side (Keeping hidden kept) (Keeping hidden kept)
      (do let s ← evaluate rounds i (.varRef x)
          let w ← evaluate rounds i n
          Eval.onStore (Value.apply i .eq s w))
      (do let s ← pure v
          let w ← evaluate rounds e n
          return Value.bool (← Eval.reading (s.equal · e w))) :=
    hsubject.bind fun s => hvalue.bind fun w => inStep_equal (hB i (by omega) (by omega)) s w
  rw [pure_bind] at operands
  rw [evaluate]
  exact InStep.traceNode_left rfl operands

/-- The test of a clause is in step with the search for a value that the subject equals. -/
theorem matchesAny {x : String} {v : Value} (hB : ∀ j, d < j → j ≤ top → side.Below j e) (hx : x ∈ hidden)
    (hkept : kept.lookup x = some v) : ∀ {values : List Node}, (∀ n ∈ values, n.Avoids hidden) →
      Tracks side rounds d top (Keeping hidden kept) (Keeping hidden kept) (values.length + 1)
        (.matchesAny x values)
        (do return .bool (← Construct.matchesOne (evaluate rounds e) (fun x y => Eval.reading (x.equal · e y)) v values))
  | [], _ => (lit false).mono (by simp) fun _ _ h => h
  | [n], hn => by
    have single : Tracks side rounds d top (Keeping hidden kept) (Keeping hidden kept) 1 _ _ :=
      compare hB hx hkept (hn n (by simp))
    have same : (do return .bool (← Construct.matchesOne (evaluate rounds e)
          (fun x y => Eval.reading (x.equal · e y)) v [n]) : Eval Value) =
        (do let w ← evaluate rounds e n; return .bool (← Eval.reading (v.equal · e w))) := by
      simp only [Construct.matchesOne, bind_assoc]
      refine bind_congr fun w => bind_congr fun b => ?_
      cases b <;> rfl
    rw [same]
    exact single.mono (by simp) fun _ _ h => h
  | n :: n' :: rest, hn => by
    have first : Tracks side rounds d top (Keeping hidden kept) (Keeping hidden kept) 1 _ _ :=
      compare hB hx hkept (hn n (by simp))
    have others : Tracks side rounds d top _ _ ((n' :: rest).length + 1) (.matchesAny x (n' :: rest)) _ :=
      matchesAny hB hx hkept fun m hm => hn m (List.mem_cons_of_mem n hm)
    have chain := choice (first.mono (by simp : 1 ≤ (n' :: rest).length + 1) fun _ _ h => h) (fun _ _ h => h)
      (fun _ _ => (lit true).mono (by simp) fun _ _ h => h) (fun _ _ => others)
    have same : (do return .bool (← Construct.matchesOne (evaluate rounds e)
          (fun x y => Eval.reading (x.equal · e y)) v (n :: n' :: rest)) : Eval Value) =
        (do let w ← evaluate rounds e n
            let b ← Eval.reading (v.equal · e w)
            if b then return .bool true
            else return .bool (← Construct.matchesOne (evaluate rounds e)
              (fun x y => Eval.reading (x.equal · e y)) v (n' :: rest))) := by
      rw [Construct.matchesOne]
      simp only [bind_assoc]
      refine bind_congr fun w => bind_congr fun b => ?_
      cases b <;> rfl
    rw [same]
    simp only [bind_assoc, pure_bind] at chain
    exact chain

/-! ### Chains -/

/-- An else branch is in step with its body, or with nil. -/
theorem orNil {otherwise : Option Node} (hS : ∀ m m', Abreast F m m' → S m m')
    (h : ∀ n ∈ otherwise, Tracks side rounds d top (Abreast F) S 0 n (evaluate rounds e n)) :
    Tracks side rounds d top (Abreast F) S 0 (otherwise.getD .nothing)
      (Construct.orNil (evaluate rounds e) otherwise) := by
  cases otherwise with
  | none => exact nothing hS
  | some body => exact h body rfl

/-- The chain of comparisons is in step with the search for a clause. -/
theorem firstMatch {x : String} {v : Value} {otherwise : Option Node} (hB : ∀ j, d < j → j ≤ top → side.Below j e)
    (hx : x ∈ hidden) (hkept : kept.lookup x = some v) (ho : ∀ n ∈ otherwise, n.Avoids hidden)
    {clauses : List (List Node × Node)} (hvalues : ∀ c ∈ clauses, ∀ n ∈ c.1, n.Avoids hidden)
    (hbody : ∀ c ∈ clauses, c.2.Avoids hidden) :
    Tracks side rounds d top (Keeping hidden kept) (Alike hidden) (clauses.map (·.1.length + 2)).sum
      (clauses.foldr (fun c rest => .choice (.matchesAny x c.1) c.2 rest) (otherwise.getD .nothing))
      (Construct.firstMatch (evaluate rounds e) (fun x y => Eval.reading (x.equal · e y)) v otherwise clauses) := by
  induction clauses with
  | nil => exact orNil (fun _ _ => Keeping.alike) fun n hn => forgetting hB (ho n hn)
  | cons c rest ih =>
    have test : Tracks side rounds d top _ _ (c.1.length + 1) (.matchesAny x c.1) _ :=
      matchesAny hB hx hkept (hvalues c List.mem_cons_self)
    have body : Tracks side rounds d top (Keeping hidden kept) (Alike hidden) 0 c.2 _ :=
      forgetting hB (hbody c List.mem_cons_self)
    have others := ih (fun c hc => hvalues c (List.mem_cons_of_mem _ hc)) fun c hc => hbody c (List.mem_cons_of_mem _ hc)
    have chain := choice (k := c.1.length + 1 + (rest.map (·.1.length + 2)).sum)
      (test.mono (by omega) fun _ _ h => h) (fun _ _ => Keeping.alike)
      (fun _ _ => body.mono (by omega) fun _ _ h => h) (fun _ _ => others.mono (by omega) fun _ _ h => h)
    simp only [bind_assoc, pure_bind, Value.truthy] at chain
    exact chain.mono (by simp only [List.map_cons, List.sum_cons]; omega) fun _ _ h => h

/-- A chain of conditionals is in step with the search for a condition that holds. -/
theorem firstTrue {otherwise : Option Node} (hB : ∀ j, d < j → j ≤ top → side.Below j e)
    (ho : ∀ n ∈ otherwise, n.Avoids hidden) {clauses : List (Node × Node)}
    (htest : ∀ c ∈ clauses, c.1.Avoids hidden) (hbody : ∀ c ∈ clauses, c.2.Avoids hidden) :
    Tracks side rounds d top (Alike hidden) (Alike hidden) clauses.length
      (clauses.foldr (fun c rest => .choice c.1 c.2 rest) (otherwise.getD .nothing))
      (Construct.firstTrue (evaluate rounds e) otherwise clauses) := by
  induction clauses with
  | nil => exact orNil (fun _ _ h => h) fun n hn => alike hB (ho n hn)
  | cons c rest ih =>
    have test : Tracks side rounds d top _ _ 0 c.1 (evaluate rounds e c.1) := alike hB (htest c List.mem_cons_self)
    have body : Tracks side rounds d top _ _ 0 c.2 (evaluate rounds e c.2) := alike hB (hbody c List.mem_cons_self)
    have others := ih (fun c hc => htest c (List.mem_cons_of_mem _ hc)) fun c hc => hbody c (List.mem_cons_of_mem _ hc)
    exact choice (test.mono (Nat.zero_le _) fun _ _ h => h) (fun _ _ h => h)
      (fun _ _ => body.mono (Nat.zero_le _) fun _ _ h => h) (fun _ _ => others)

theorem bothOf {x : String} {right : Node} (hB : ∀ j, d < j → j ≤ top → side.Below j e) (hx : x ∈ hidden)
    (h : Tracks side rounds d top (Alike hidden) (Alike hidden) k n r) (hright : right.Avoids hidden) :
    Tracks side rounds d top (Alike hidden) (Alike hidden) (k + 2) (.bothOf x n right)
      (do let v ← r; if v.truthy then evaluate rounds e right else return v) := by
  refine keep (f := fun v => if v.truthy then evaluate rounds e right else return v) hx h fun v kept hkept => ?_
  have left : Tracks side rounds d top (Keeping hidden kept) (Keeping hidden kept) 0 (.varRef x) (pure v) :=
    varRef hx hkept
  have test := choice (left.mono (Nat.zero_le k) fun _ _ h => h) (fun _ _ => Keeping.alike)
    (fun _ _ => (forgetting hB hright).mono (Nat.zero_le k) fun _ _ h => h)
    (fun _ _ => left.mono (Nat.zero_le k) fun _ _ => Keeping.alike)
  rwa [pure_bind] at test

theorem eitherOf {x : String} {right : Node} (hB : ∀ j, d < j → j ≤ top → side.Below j e) (hx : x ∈ hidden)
    (h : Tracks side rounds d top (Alike hidden) (Alike hidden) k n r) (hright : right.Avoids hidden) :
    Tracks side rounds d top (Alike hidden) (Alike hidden) (k + 2) (.eitherOf x n right)
      (do let v ← r; if v.truthy then return v else evaluate rounds e right) := by
  refine keep (f := fun v => if v.truthy then return v else evaluate rounds e right) hx h fun v kept hkept => ?_
  have left : Tracks side rounds d top (Keeping hidden kept) (Keeping hidden kept) 0 (.varRef x) (pure v) :=
    varRef hx hkept
  have test := choice (left.mono (Nat.zero_le k) fun _ _ h => h) (fun _ _ => Keeping.alike)
    (fun _ _ => left.mono (Nat.zero_le k) fun _ _ => Keeping.alike)
    (fun _ _ => (forgetting hB hright).mono (Nat.zero_le k) fun _ _ h => h)
  rwa [pure_bind] at test

/-- Operands with `&&` between them, of which the first has been read. -/
theorem allOf (hB : ∀ j, d < j → j ≤ top → side.Below j e) {more : List (String × Node)}
    (hx : ∀ p ∈ more, p.1 ∈ hidden) (hn : ∀ p ∈ more, p.2.Avoids hidden)
    (h : Tracks side rounds d top (Alike hidden) (Alike hidden) k n r) :
    Tracks side rounds d top (Alike hidden) (Alike hidden) (k + 2 * more.length)
      (more.foldl (fun left p => .bothOf p.1 left p.2) n)
      (do Construct.allOf (evaluate rounds e) (← r) (more.map (·.2))) := by
  induction more generalizing k n r with
  | nil => simpa [Construct.allOf] using h
  | cons p rest ih =>
    have chain := ih (fun q hq => hx q (List.mem_cons_of_mem p hq)) (fun q hq => hn q (List.mem_cons_of_mem p hq))
      (bothOf hB (hx p List.mem_cons_self) h (hn p List.mem_cons_self))
    have same : (do Construct.allOf (evaluate rounds e) (← r) ((p :: rest).map (·.2)) : Eval Value) =
        (do let w ← (do let v ← r; if v.truthy then evaluate rounds e p.2 else return v)
            Construct.allOf (evaluate rounds e) w (rest.map (·.2))) := by
      rw [bind_assoc]
      refine bind_congr fun v => ?_
      rw [List.map_cons, Construct.allOf]
      cases hv : v.truthy with
      | true => rfl
      | false => exact (Construct.allOf_of_falsy hv _).symm
    rw [same]
    exact chain.mono (by simp only [List.length_cons]; omega) fun _ _ h => h

/-- Operands with `||` between them, of which the first has been read. -/
theorem anyOf (hB : ∀ j, d < j → j ≤ top → side.Below j e) {more : List (String × Node)}
    (hx : ∀ p ∈ more, p.1 ∈ hidden) (hn : ∀ p ∈ more, p.2.Avoids hidden)
    (h : Tracks side rounds d top (Alike hidden) (Alike hidden) k n r) :
    Tracks side rounds d top (Alike hidden) (Alike hidden) (k + 2 * more.length)
      (more.foldl (fun left p => .eitherOf p.1 left p.2) n)
      (do Construct.anyOf (evaluate rounds e) (← r) (more.map (·.2))) := by
  induction more generalizing k n r with
  | nil => simpa [Construct.anyOf] using h
  | cons p rest ih =>
    have chain := ih (fun q hq => hx q (List.mem_cons_of_mem p hq)) (fun q hq => hn q (List.mem_cons_of_mem p hq))
      (eitherOf hB (hx p List.mem_cons_self) h (hn p List.mem_cons_self))
    have same : (do Construct.anyOf (evaluate rounds e) (← r) ((p :: rest).map (·.2)) : Eval Value) =
        (do let w ← (do let v ← r; if v.truthy then return v else evaluate rounds e p.2)
            Construct.anyOf (evaluate rounds e) w (rest.map (·.2))) := by
      rw [bind_assoc]
      refine bind_congr fun v => ?_
      rw [List.map_cons, Construct.anyOf]
      cases hv : v.truthy with
      | true => exact (Construct.anyOf_of_truthy hv _).symm
      | false => rfl
    rw [same]
    exact chain.mono (by simp only [List.length_cons]; omega) fun _ _ h => h

/-! ### Modifiers -/

theorem under (modifier : Modifier) (runsFirst : Bool) {test : Node} (hB : ∀ j, d < j → j ≤ top → side.Below j e)
    (h : Tracks side rounds d top (Alike hidden) (Alike hidden) k n r) (htest : test.Avoids hidden) :
    Tracks side rounds d top (Alike hidden) (Alike hidden) (k + 1) (modifier.apply runsFirst n test)
      (Construct.under (evaluate rounds e) rounds runsFirst r modifier test) := by
  have reads : Tracks side rounds d top (Alike hidden) (Alike hidden) k test (evaluate rounds e test) :=
    (alike hB htest).mono (Nat.zero_le k) fun _ _ h => h
  have none : Tracks side rounds d top (Alike hidden) (Alike hidden) k .nothing (pure .nil) :=
    (nothing fun _ _ h => h).mono (Nat.zero_le k) fun _ _ h => h
  cases modifier with
  | whenTrue => exact choice reads (fun _ _ h => h) (fun _ _ => h) (fun _ _ => none)
  | unlessTrue => exact choice reads (fun _ _ h => h) (fun _ _ => none) (fun _ _ => h)
  | whileTrue =>
    intro j hd ht
    obtain ⟨i, rfl⟩ : ∃ i, j = i + 1 := ⟨j - 1, by omega⟩
    have body := h i (by omega) (by omega)
    have rounds := (InStep.whileTrue ((reads i (by omega) (by omega)).bind fun v => .pure v.truthy)
      (body.bind fun _ => .pure ()) rounds).bind fun _ => .pure Value.nil
    cases runsFirst with
    | false =>
      show InStep side _ _ (evaluate _ (i + 1) (.loop test n)) _
      rw [evaluate]
      exact InStep.traceNode_left rfl rounds
    | true =>
      show InStep side _ _ (evaluate _ (i + 1) (.loopAfter test n)) _
      rw [evaluate]
      exact InStep.traceNode_left rfl (body.bind fun _ => rounds)

/-- A statement under modifiers, of which the first has been applied. -/
theorem modified (hB : ∀ j, d < j → j ≤ top → side.Below j e) {modifiers : List (Modifier × Node)}
    (hn : ∀ p ∈ modifiers, p.2.Avoids hidden)
    (h : Tracks side rounds d top (Alike hidden) (Alike hidden) k n r) :
    Tracks side rounds d top (Alike hidden) (Alike hidden) (k + modifiers.length)
      (modifiers.foldl (fun s m => m.1.apply false s m.2) n)
      (modifiers.foldl (fun step m => Construct.under (evaluate rounds e) rounds false step m.1 m.2) r) := by
  induction modifiers generalizing k n r with
  | nil => exact h
  | cons p rest ih =>
    have chain := ih (fun q hq => hn q (List.mem_cons_of_mem p hq)) (under p.1 false hB h (hn p List.mem_cons_self))
    exact chain.mono (by simp only [List.length_cons]; omega) fun _ _ h => h

end Tracks

namespace Construct

/-- The tree of a construct, evaluated between two depths, is in step with its meaning at the depth `e`. -/
theorem tracks {side : Side} {d top e : Nat} (rounds : Nat) (hB : ∀ j, d < j → j ≤ top → side.Below j e)
    {c : Construct String Node} (hc : c.Apart) :
    Tracks side rounds d top (Alike c.temporaries) (Alike c.temporaries) c.levels c.tree (c.run rounds e) := by
  cases c with
  | both first more =>
    have head : Tracks side rounds d top _ _ 0 first (evaluate rounds e first) :=
      Tracks.alike hB (hc first List.mem_cons_self)
    have chain := Tracks.allOf hB (fun p hp => List.mem_map_of_mem hp)
      (fun p hp => hc p.2 (List.mem_cons_of_mem _ (List.mem_map_of_mem hp))) head
    exact chain.mono (by simp [levels]) fun _ _ h => h
  | either first more =>
    have head : Tracks side rounds d top _ _ 0 first (evaluate rounds e first) :=
      Tracks.alike hB (hc first List.mem_cons_self)
    have chain := Tracks.anyOf hB (fun p hp => List.mem_map_of_mem hp)
      (fun p hp => hc p.2 (List.mem_cons_of_mem _ (List.mem_map_of_mem hp))) head
    exact chain.mono (by simp [levels]) fun _ _ h => h
  | caseOf temporary subject clauses otherwise =>
    have hoperands (n : Node) (hn : n = subject ∨ (∃ c ∈ clauses, n ∈ c.1 ∨ n = c.2) ∨ n ∈ otherwise) :
        n.Avoids [temporary] := hc n (by simpa [operands, or_assoc] using hn)
    have hsubject : Tracks side rounds d top _ _ 0 subject (evaluate rounds e subject) :=
      Tracks.alike hB (hoperands subject (.inl rfl))
    refine Tracks.keep List.mem_cons_self (hsubject.mono (Nat.zero_le _) fun _ _ h => h) fun v kept hkept => ?_
    refine Tracks.mono ?_ (Nat.le_succ _) fun _ _ h => h
    exact Tracks.firstMatch hB List.mem_cons_self hkept (fun n hn => hoperands n (.inr (.inr hn)))
      (fun c hc n hn => hoperands n (.inr (.inl ⟨c, hc, .inl hn⟩)))
      (fun c hc => hoperands c.2 (.inr (.inl ⟨c, hc, .inr rfl⟩)))
  | choices test body clauses otherwise =>
    exact Tracks.firstTrue hB (fun n _ => Node.avoids_nil n)
      (fun c (_ : c ∈ (test, body) :: clauses) => Node.avoids_nil c.1) fun c _ => Node.avoids_nil c.2
  | unlessOf test body otherwise =>
    exact Tracks.choice (Tracks.alike hB (Node.avoids_nil test)) (fun _ _ h => h)
      (fun _ _ => Tracks.orNil (fun _ _ h => h) fun n _ => Tracks.alike hB (Node.avoids_nil n))
      (fun _ _ => Tracks.alike hB (Node.avoids_nil body))
  | modified statement runsFirst modifiers =>
    have first : Tracks side rounds d top _ _ 0 statement (evaluate rounds e statement) :=
      Tracks.alike hB (Node.avoids_nil statement)
    cases modifiers with
    | nil => exact first
    | cons m rest =>
      have chain := Tracks.modified hB (fun p (_ : p ∈ rest) => Node.avoids_nil p.2)
        (Tracks.under m.1 runsFirst hB first (Node.avoids_nil m.2))
      exact chain.mono (by simp only [levels, List.length_cons]; omega) fun _ _ h => h

end Construct

/-! ## Constructs of a program -/

namespace Construct

/-- The term that is read for a construct over terms. -/
def term {τ : Type} : Construct τ Term → Term
  | both first more => more.foldl (fun left r => .binary .both left r.2) first
  | either first more => more.foldl (fun left r => .binary .either left r.2) first
  | caseOf _ subject clauses otherwise => .caseOf subject (.ofList clauses (otherwise.getD .nothing))
  | choices test body clauses otherwise => .choices test body clauses (otherwise.getD .nothing)
  | unlessOf test body otherwise => .choiceUnless test body (otherwise.getD .nothing)
  | modified statement _ modifiers => modifiers.foldl (fun s m => .modified s m.1 m.2) statement

/-- The construct over the trees of its operands, each operator with a temporary of its own. -/
def desugar {τ : Type} : Construct τ Term → Fresh (Construct String Node)
  | both first more => do
    let first ← first.desugar
    return both first (← more.mapM fun r => do
      let right ← r.2.desugar
      return (← Syntax.freshName "and", right))
  | either first more => do
    let first ← first.desugar
    return either first (← more.mapM fun r => do
      let right ← r.2.desugar
      return (← Syntax.freshName "or", right))
  | caseOf _ subject clauses otherwise => do
    let subject ← subject.desugar
    let temporary ← Syntax.freshName "case"
    let clauses ← clauses.mapM fun c => do
      let values ← Syntax.desugarAll c.1
      return (values, ← c.2.desugar)
    return caseOf temporary subject clauses (← otherwise.mapM Term.desugar)
  | choices test body clauses otherwise => do
    let test ← test.desugar
    let body ← body.desugar
    let clauses ← clauses.mapM fun c => do
      let test ← c.1.desugar
      return (test, ← c.2.desugar)
    return choices test body clauses (← otherwise.mapM Term.desugar)
  | unlessOf test body otherwise => do
    let test ← test.desugar
    let body ← body.desugar
    return unlessOf test body (← otherwise.mapM Term.desugar)
  | modified statement _ modifiers => do
    let s ← statement.desugar
    return modified s statement.isBegin (← modifiers.mapM fun m => do return (m.1, ← m.2.desugar))

section

variable {τ : Type}

theorem desugar_otherwise (otherwise : Option Term) :
    (otherwise.getD .nothing).desugar = (do return (← otherwise.mapM Term.desugar).getD .nothing) := by
  cases otherwise with
  | none => rfl
  | some body => simp

theorem desugar_foldl_both (first : Term) (more : List (τ × Term)) :
    (more.foldl (fun left r => .binary .both left r.2) first).desugar = (do
      let n ← first.desugar
      let rs ← more.mapM fun r => do
        let right ← r.2.desugar
        return (← Syntax.freshName "and", right)
      return rs.foldl (fun left r => .bothOf r.1 left r.2) n) := by
  induction more generalizing first with
  | nil => simp
  | cons r rest ih =>
    rw [List.foldl_cons, ih, List.mapM_cons]
    simp [Term.desugar]

theorem desugar_foldl_either (first : Term) (more : List (τ × Term)) :
    (more.foldl (fun left r => .binary .either left r.2) first).desugar = (do
      let n ← first.desugar
      let rs ← more.mapM fun r => do
        let right ← r.2.desugar
        return (← Syntax.freshName "or", right)
      return rs.foldl (fun left r => .eitherOf r.1 left r.2) n) := by
  induction more generalizing first with
  | nil => simp
  | cons r rest ih =>
    rw [List.foldl_cons, ih, List.mapM_cons]
    simp [Term.desugar]

theorem desugar_clauses (temporary : String) (clauses : List (List Term × Term)) (otherwise : Term) :
    (Syntax.Clauses.ofList clauses otherwise).desugar temporary = (do
      let cs ← clauses.mapM fun c => do
        let values ← Syntax.desugarAll c.1
        return (values, ← c.2.desugar)
      let last ← otherwise.desugar
      return cs.foldr (fun c rest => .choice (.matchesAny temporary c.1) c.2 rest) last) := by
  induction clauses with
  | nil => simp [Syntax.Clauses.ofList, Syntax.Clauses.desugar]
  | cons c rest ih =>
    unfold Syntax.Clauses.ofList at ih ⊢
    rw [List.foldr_cons, Syntax.Clauses.desugar, ih, List.mapM_cons]
    simp

theorem desugar_choices (clauses : List (Term × Term)) (otherwise : Term) :
    (clauses.foldr (fun c rest => .choice c.1 c.2 rest) otherwise).desugar = (do
      let cs ← clauses.mapM fun c => do
        let test ← c.1.desugar
        return (test, ← c.2.desugar)
      let last ← otherwise.desugar
      return cs.foldr (fun c rest => .choice c.1 c.2 rest) last) := by
  induction clauses with
  | nil => simp
  | cons c rest ih =>
    rw [List.foldr_cons, Term.desugar, ih, List.mapM_cons]
    simp

/-- Behind the first modifier the statement is no `begin` block any more. -/
theorem desugar_foldl_modified {s : Term} (hs : s.isBegin = false) (modifiers : List (Modifier × Term)) :
    (modifiers.foldl (fun s m => .modified s m.1 m.2) s).desugar = (do
      let n ← s.desugar
      let ms ← modifiers.mapM fun m => do return (m.1, ← m.2.desugar)
      return ms.foldl (fun s m => m.1.apply false s m.2) n) := by
  induction modifiers generalizing s with
  | nil => simp
  | cons m rest ih =>
    rw [List.foldl_cons, ih rfl, List.mapM_cons]
    simp [Term.desugar, hs]

/-- The reduction of what is read for a construct is its tree over the reduced operands. -/
theorem desugar_term (c : Construct τ Term) : c.term.desugar = (do return (← c.desugar).tree) := by
  cases c with
  | both first more =>
    rw [term, desugar_foldl_both]
    simp [desugar, tree]
  | either first more =>
    rw [term, desugar_foldl_either]
    simp [desugar, tree]
  | caseOf _ subject clauses otherwise =>
    simp [term, desugar, Term.desugar, desugar_clauses, desugar_otherwise, tree]
  | choices test body clauses otherwise =>
    simp [term, Syntax.Term.choices, desugar, Term.desugar, desugar_choices, desugar_otherwise, tree]
  | unlessOf test body otherwise =>
    simp [term, desugar, Term.desugar, desugar_otherwise, tree]
  | modified statement _ modifiers =>
    cases modifiers with
    | nil => simp [term, desugar, tree]
    | cons m rest =>
      rw [term, List.foldl_cons, desugar_foldl_modified rfl]
      simp [desugar, Term.desugar, tree]

end

end Construct

/-! ## The main result -/

/-- Reduction keeps what a construct means. What is read for it is reduced to its tree; and if no operand
mentions a hidden temporary, the tree and the meaning, run on machines that are alike but for the temporaries,
come to the same value or failure, print the same and leave machines that are alike. Each of the two runs may
be the one that stops at the limit of depth, if it has less depth than the other. -/
theorem construct_keeps_meaning (rounds : Nat) :
    (∀ c : Construct Unit Term, c.term.desugar = (do return (← c.desugar).tree)) ∧
    ∀ c : Construct String Node, c.Apart → ∀ depth,
      InStep .left (Alike c.temporaries) (Alike c.temporaries)
        (evaluate rounds depth c.tree) (c.run rounds (depth + c.levels + 1)) ∧
      InStep .right (Alike c.temporaries) (Alike c.temporaries)
        (evaluate rounds (depth + c.levels + 1) c.tree) (c.run rounds depth) := by
  refine ⟨Construct.desugar_term, fun c hc depth => ⟨?_, ?_⟩⟩
  · have deeper : InStep .left (Keeping [] []) (Keeping [] []) (evaluate rounds depth c.tree)
        (evaluate rounds (depth + c.levels + 1) c.tree) :=
      evaluate_inStep rounds (by show depth ≤ _; omega : Side.Below .left depth _) [] (Node.avoids_nil c.tree)
    have core : Tracks .left rounds depth (depth + c.levels + 1) _ _ c.levels c.tree _ :=
      Construct.tracks rounds (fun _ _ ht => ht) hc
    refine deeper.trans (core _ (Nat.lt_succ_self _) (Nat.le_refl _)) (fun m _ _ => ?_) fun m m' m'' h h' => ?_
    · exact Abreast.refl ⟨rfl, by simp [concealed]⟩
    · refine Abreast.trans h h' fun f f' f'' hf hf' => ?_
      have entries : f.entries = f'.entries := by simpa [visible_nil] using hf.visible_eq
      simpa [visible, entries] using hf'
  · have below (j : Nat) (hd : depth < j) (_ : j ≤ depth + c.levels + 1) : Side.Below .right j depth :=
      Nat.le_of_lt hd
    exact Construct.tracks rounds below hc _ (Nat.lt_succ_self _) (Nat.le_refl _)

/-- The operands `f()` and `x` with `||` between them. -/
theorem either_of_call_and_name_keeps_meaning :
    (Construct.either (.funcCall "f" []) [("%or1", .varRef "x")]).Apart ∧
    InStep .right (Alike ["%or1"]) (Alike ["%or1"])
      (evaluate 9 10 (.stmts [.varAssign "%or1" (.funcCall "f" []),
        .choice (.varRef "%or1") (.varRef "%or1") (.varRef "x")]))
      (do
        let v ← evaluate 9 7 (.funcCall "f" [])
        if v.truthy then return v else evaluate 9 7 (.varRef "x")) := by
  have apart : (Construct.either (.funcCall "f" []) [("%or1", .varRef "x")]).Apart := by
    simp [Construct.Apart, Construct.operands, Construct.temporaries, Node.Avoids, Node.AvoidsAll]
  have step := ((construct_keeps_meaning 9).2 _ apart 7).2
  simp only [Construct.run, Construct.meaning, Construct.anyOf, List.map, bind_pure] at step
  exact ⟨apart, step⟩

end MinRuby
