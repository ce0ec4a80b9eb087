import MinRuby.Proofs.Run.Depth
import MinRuby.Proofs.Run.Upkeep
import MinRuby.Syntax.Desugar

/-!
# Updating an element

An assignment `c[i] op= e` is reduced to `c[i] = c[i] op e`, so that the container and the index are evaluated twice.
If both only read, the second time comes before any effect of `e`: it gives the same values and changes nothing, and
the update does what it would do if they were evaluated once.

* `Node.OnlyReads` — trees of literals, variables and elements.
* `keeps_alike_of_onlyReads` — they leave the machine as it is.
* `InStep.read`, `InStep.read_left` — a tree is read on both sides, and once more on one of them.
* `updateIndex_keeps_meaning` — the update of an element.
-/

namespace MinRuby

open Syntax (Fresh Literal Node Term)

/-- The tree is made of literal scalars, variables and elements. -/
inductive Syntax.Node.OnlyReads : Node → Prop where
  | lit (value : Literal) : OnlyReads (.lit value.toData)
  | varRef (name : String) : OnlyReads (.varRef name)
  | aryRef {container position : Node} (hcontainer : OnlyReads container) (hposition : OnlyReads position) :
    OnlyReads (.aryRef container position)

/-- The value of an element is replaced by the result of an operator on it; the container and the position are
evaluated once, before the other operand. -/
def updateElement (rounds depth : Nat) (op : Syntax.BinaryOp) (container position value : Node) : Eval Value := do
  let c ← evaluate rounds depth container
  let p ← evaluate rounds depth position
  let x ← c.fetch (← get).store depth p
  let y ← evaluate rounds depth value
  let v ← Eval.onStore (x.apply depth op y)
  Eval.onStore (c.assign depth p v)
  return v

/-! ## Trees that only read -/

section

variable {side : Side} {α : Type} {rounds d d' : Nat} {n : Node} {v : Value} {m m' : Machine}

theorem Alike.refl {hidden : List String} (m : Machine) : Alike hidden m m := Abreast.refl rfl

theorem Alike.trans {hidden : List String} {m'' : Machine} (h : Alike hidden m m') (h' : Alike hidden m' m'') :
    Alike hidden m m'' :=
  Abreast.trans h h' fun _ _ _ => Eq.trans

theorem Alike.symm {hidden : List String} (h : Alike hidden m m') : Alike hidden m' m := by
  obtain ⟨frame, output, hprinted, hvisible⟩ := h
  exact .mk m.frame m.output hprinted.symm hvisible.symm

theorem Alike.traced (m : Machine) (line : String) : Alike [] m { m with output := .traced line :: m.output } :=
  .mk m.frame _ (List.filter_cons_of_neg Bool.false_ne_true) rfl

theorem keeps_trace_alike (m₀ : Machine) (line : String) : Keeps (Alike [] m₀) (fun _ => True) (Eval.trace line) := by
  refine .get fun m _ => ?_
  split
  · exact .modify fun m hm => hm.trans (Alike.traced m _)
  · exact .pure ()

theorem keeps_traceNode_alike (m₀ : Machine) (n : Node) : Keeps (Alike [] m₀) (fun _ => True) (Eval.traceNode n) := by
  unfold Eval.traceNode
  split
  · exact .pure ()
  · exact .pure ()
  · refine .get fun m _ => ?_
    simp only
    split
    · split
      · exact (Keeps.throw trivial).bind fun _ => keeps_trace_alike m₀ _
      · exact keeps_trace_alike m₀ _
    · exact .pure ()

theorem Value.ofData_literal (depth : Nat) (value : Literal) : ∃ v : Value, Value.ofData depth value.toData = return v := by
  cases value <;> exact ⟨_, rfl⟩

theorem keeps_onStore_pure {I : Machine → Prop} {E : Failure → Prop} (v : Value) : Keeps I E (Eval.onStore (return v)) :=
  fun _ hm => hm

/-- A tree that only reads leaves the machine as it is, but for the trace. -/
theorem keeps_alike_of_onlyReads (h : n.OnlyReads) (m₀ : Machine) (rounds depth : Nat) :
    Keeps (Alike [] m₀) (fun _ => True) (evaluate rounds depth n) := by
  induction depth generalizing n with
  | zero => exact .throw trivial
  | succ depth ih =>
    unfold evaluate
    refine (keeps_traceNode_alike m₀ n).bind fun _ => ?_
    cases h with
    | lit value =>
      obtain ⟨v, hv⟩ := Value.ofData_literal depth value
      simp only [hv]
      exact keeps_onStore_pure v
    | varRef name =>
      refine .get fun m _ => ?_
      split
      · exact .pure _
      · exact .throw trivial
    | aryRef hcontainer hposition =>
      exact (ih hcontainer).bind fun c => (ih hposition).bind fun p => .get fun m _ => .lift fun _ _ => trivial

/-- The tree has the value at the given depth. -/
def Syntax.Node.Reads (rounds depth : Nat) (n : Node) (v : Value) (m : Machine) : Prop := ∃ m',
    evaluate rounds depth n m = .ok v m'

theorem evaluate_alike (rounds : Nat) (n : Node) (hdepth : side.Below d d') :
    InStep side (Alike []) (Alike []) (evaluate rounds d n) (evaluate rounds d' n) :=
  .alike fun kept => evaluate_inStep rounds hdepth kept n.avoids_nil

theorem reads_of_alike (h : n.Reads rounds d v m) (hm : Alike [] m m') : n.Reads rounds d v m' := by
  obtain ⟨m₁, h⟩ := h
  rcases evaluate_alike rounds n (show Side.left.Below d d from Nat.le_refl d) m m' hm with hmatched | ⟨m₂, hstop⟩
  · rw [h] at hmatched
    cases hm' : evaluate rounds d n m' with
    | ok w m₂ =>
      rw [hm'] at hmatched
      obtain ⟨rfl, -⟩ := hmatched
      exact ⟨m₂, hm'⟩
    | error e m₂ =>
      rw [hm'] at hmatched
      exact hmatched.elim
  · cases h.symm.trans hstop

/-! ## Reading again -/

/-- The machines are alike, and something is known of the second one. -/
def Knowing (known : Machine → Prop) (m m' : Machine) : Prop := Alike [] m m' ∧ known m'

/-- A tree that only reads is read on both sides: afterwards its value is known. -/
theorem InStep.read {known : Machine → Prop} {f g : Value → Eval α} (hn : n.OnlyReads) (hdepth : side.Below d d')
    (hknown : ∀ m m', Alike [] m m' → known m → known m')
    (h : ∀ v, InStep side (Knowing fun m => known m ∧ n.Reads rounds d' v m) (Alike []) (f v) (g v)) :
    InStep side (Knowing known) (Alike []) (evaluate rounds d n >>= f) (evaluate rounds d' n >>= g) := by
  rintro m m' ⟨hm, hm'⟩
  have hstep := evaluate_alike rounds n hdepth m m' hm
  have hkeeps := keeps_alike_of_onlyReads hn m' rounds d' m' (Alike.refl m')
  change Matched _ (EStateM.bind _ f m) (EStateM.bind _ g m') ∨ Stopped (side.pick (EStateM.bind _ f m) (EStateM.bind _ g m'))
  unfold EStateM.bind
  rcases hstep with hmatched | ⟨t, ht⟩
  · cases hx : evaluate rounds d n m <;> cases hy : evaluate rounds d' n m' <;> rw [hx, hy] at hmatched
    · obtain ⟨rfl, hafter⟩ := hmatched
      rw [hy] at hkeeps
      have hreads : n.Reads rounds d' _ m' := ⟨_, hy⟩
      exact h _ _ _ ⟨hafter, hknown _ _ hkeeps hm', reads_of_alike hreads hkeeps⟩
    · exact hmatched.elim
    · exact hmatched.elim
    · exact .inl hmatched
  · refine .inr ⟨t, ?_⟩
    cases side with
    | left => rw [show evaluate rounds d n m = _ from ht]; rfl
    | right => rw [show evaluate rounds d' n m' = _ from ht]; rfl

/-- A tree with a known value is read once more on the left side. -/
theorem InStep.read_left {known : Machine → Prop} {f : Value → Eval α} {y : Eval α} (hn : n.OnlyReads) (hdepth : side.Below d d')
    (hreads : ∀ m, known m → n.Reads rounds d' v m) (h : InStep side (Knowing known) (Alike []) (f v) y) :
    InStep side (Knowing known) (Alike []) (evaluate rounds d n >>= f) y := by
  rintro m m' ⟨hm, hm'⟩
  have hstep := evaluate_alike rounds n hdepth m m' hm
  have hkeeps := keeps_alike_of_onlyReads hn m rounds d m (Alike.refl m)
  obtain ⟨m₁', hy⟩ := hreads m' hm'
  change Matched _ (EStateM.bind _ f m) (y m') ∨ Stopped (side.pick (EStateM.bind _ f m) (y m'))
  unfold EStateM.bind
  rw [hy] at hstep
  cases hx : evaluate rounds d n m with
  | ok w m₁ =>
    rw [hx] at hstep hkeeps
    rcases hstep with ⟨rfl, -⟩ | ⟨t, ht⟩
    · exact h m₁ m' ⟨hkeeps.symm.trans hm, hm'⟩
    · cases side <;> cases ht
  | error e m₁ =>
    rw [hx] at hstep
    rcases hstep with hfalse | ⟨t, ht⟩
    · exact hfalse.elim
    · cases side with
      | left =>
        rw [show e = _ from (EStateM.Result.error.inj ht).1]
        exact .inr ⟨m₁, rfl⟩
      | right => cases ht

/-- The left side alone reaches a node. -/
theorem InStep.traceNode_knowing {known : Machine → Prop} {x y : Eval α} {tag : String} (htag : n.tag = .str tag)
    (h : InStep side (Knowing known) (Alike []) x y) : InStep side (Knowing known) (Alike []) (do Eval.traceNode n; x) y := by
  rintro m m' ⟨hm, hm'⟩
  rw [traceNode_eq_trace htag, run_trace_bind]
  refine h _ _ ⟨Alike.trans ?_ hm, hm'⟩
  split
  · exact (Alike.traced m _).symm
  · exact Alike.refl m

/-! ## The update -/

theorem evaluate_binary (op : Syntax.BinaryOp) (left right : Node) :
    evaluate rounds (d + 1) (.binary op left right) = (do
      Eval.traceNode (.binary op left right)
      let x ← evaluate rounds d left
      let y ← evaluate rounds d right
      Eval.onStore (x.apply d op y)) := by
  rw [evaluate]

theorem evaluate_aryRef (container position : Node) :
    evaluate rounds (d + 1) (.aryRef container position) = (do
      Eval.traceNode (.aryRef container position)
      let c ← evaluate rounds d container
      let p ← evaluate rounds d position
      c.fetch (← get).store d p) := by
  rw [evaluate]

theorem evaluate_aryAssign (container position value : Node) :
    evaluate rounds (d + 1) (.aryAssign container position value) = (do
      Eval.traceNode (.aryAssign container position value)
      let c ← evaluate rounds d container
      let p ← evaluate rounds d position
      let v ← evaluate rounds d value
      Eval.onStore (c.assign d p v)
      return v) := by
  rw [evaluate]

/-- At a depth that allows for the trees between the assignment and its operands. -/
theorem updateElement_inStep {container position : Node} (hcontainer : container.OnlyReads) (hposition : position.OnlyReads)
    (hdepth : ∀ j, d ≤ j → j ≤ d + 2 → side.Below j d') (op : Syntax.BinaryOp) (value : Node) :
    InStep side (Alike []) (Alike [])
      (evaluate rounds (d + 3) (.aryAssign container position (.binary op (.aryRef container position) value)))
      (updateElement rounds d' op container position value) := by
  have hd : side.Below d d' := hdepth d (Nat.le_refl d) (by omega)
  have hd1 : side.Below (d + 1) d' := hdepth _ (by omega) (by omega)
  have hd2 : side.Below (d + 2) d' := hdepth _ (by omega) (by omega)
  have start : InStep side (Knowing fun _ => True) (Alike [])
      (evaluate rounds (d + 3) (.aryAssign container position (.binary op (.aryRef container position) value)))
      (updateElement rounds d' op container position value) := by
    rw [evaluate_aryAssign, updateElement]
    refine .traceNode_knowing rfl (.read hcontainer hd2 (fun _ _ _ h => h) fun c => .read hposition hd2 ?_ fun p => ?_)
    · exact fun m m' hm h => ⟨trivial, reads_of_alike h.2 hm⟩
    simp only [evaluate_binary, evaluate_aryRef, bind_assoc]
    refine .traceNode_knowing rfl (.traceNode_knowing rfl ?_)
    refine .read_left hcontainer hd (fun _ h => h.1.2) (.read_left hposition hd (fun _ h => h.2) ?_)
    -- what is known of the operands has served its turn
    refine InStep.mono (R := Alike []) (.get ?_) (fun _ _ h => h.1) fun _ _ h => h
    rintro m _ ⟨frame, output, hprinted, hvisible⟩
    exact (InStep.lift (Value.fetch_sameUnless m.store hd c p)).bind fun x => (evaluate_alike rounds value hd1).bind fun y =>
      (InStep.onStore (Value.apply_inStep hd1 op x y)).bind fun v =>
        (InStep.onStore (Value.assign_inStep hd2 c p v)).bind fun _ => .pure v
  exact start.mono (fun _ _ hm => ⟨hm, trivial⟩) fun _ _ hm => hm

end

/-- The update of an element keeps its meaning. What is read for `c[i] op= e` is reduced to an assignment of `c[i] op e`;
and if `c` and `i` only read, the tree and the update that evaluates them once, run on machines that are alike, come to
the same value or failure, print the same and leave machines that are alike, with the same variables and containers,
whatever `e` does. Each of the two runs may be the one that stops at the limit of depth, if it has less depth than the
other. -/
theorem updateIndex_keeps_meaning (rounds : Nat) :
    (∀ (container position value : Term) (op : Syntax.BinaryOp),
      (Term.updateIndex container position op value).desugar = (do
        let c ← container.desugar
        let p ← position.desugar
        let e ← value.desugar
        return .aryAssign c p (.binary op (.aryRef c p) e))) ∧
    ∀ (container position value : Node) (op : Syntax.BinaryOp), container.OnlyReads → position.OnlyReads → ∀ depth,
      InStep .left (Alike []) (Alike [])
        (evaluate rounds depth (.aryAssign container position (.binary op (.aryRef container position) value)))
        (updateElement rounds (depth + 3) op container position value) ∧
      InStep .right (Alike []) (Alike [])
        (evaluate rounds (depth + 3) (.aryAssign container position (.binary op (.aryRef container position) value)))
        (updateElement rounds depth op container position value) := by
  refine ⟨fun container position value op => ?_, fun container position value op hcontainer hposition depth => ⟨?_, ?_⟩⟩
  · simp [Term.desugar]
  · have deeper := evaluate_alike rounds (.aryAssign container position (.binary op (.aryRef container position) value))
      (show Side.left.Below depth (depth + 3) by show depth ≤ _; omega)
    have below (j : Nat) (_ : depth ≤ j) (hj : j ≤ depth + 2) : Side.left.Below j (depth + 3) := show j ≤ _ by omega
    exact deeper.trans (updateElement_inStep hcontainer hposition below op value) (fun m _ _ => Alike.refl m)
      fun _ _ _ => Alike.trans
  · have below (j : Nat) (hj : depth ≤ j) (_ : j ≤ depth + 2) : Side.right.Below j depth := hj
    exact updateElement_inStep hcontainer hposition below op value

/-- In `a[0] += (a = 5)` the sum is written into the array that `a` held before. -/
theorem sum_with_assignment_keeps_meaning :
    (Node.varRef "a").OnlyReads ∧ (Node.lit (.int 0)).OnlyReads ∧
    InStep .right (Alike []) (Alike [])
      (evaluate 9 10 (.aryAssign (.varRef "a") (.lit (.int 0))
        (.binary .add (.aryRef (.varRef "a") (.lit (.int 0))) (.varAssign "a" (.lit (.int 5))))))
      (updateElement 9 7 .add (.varRef "a") (.lit (.int 0)) (.varAssign "a" (.lit (.int 5)))) := by
  have container : (Node.varRef "a").OnlyReads := .varRef "a"
  have position : (Node.lit (.int 0)).OnlyReads := .lit (.int 0)
  exact ⟨container, position, ((updateIndex_keeps_meaning 9).2 _ _ _ .add container position 7).2⟩

end MinRuby
