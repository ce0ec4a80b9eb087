import MinRuby.Run.Evaluate

/-!
# Runs in step

Two runs of one program at different depths do the same until the one with less depth hits the limit of
depth. `InStep side R S x y` says so of two steps: from states that are related by `R` they come to outcomes
with the same value or failure and states related by `S`, unless the step on the given side stops at that
limit. One rule for each way to put steps together carries such statements from the parts to the whole.

* `InStep.bind`, `InStep.mapM`, `InStep.foldlM` — sequence and lists.
* `Abreast` — machines that differ in their frames and in what has been traced only.
* `InStep.inFrame`, `InStep.onStore`, `InStep.whileTrue` — the steps of the machine.
-/

namespace MinRuby

/-- The side of two runs that has less depth. -/
inductive Side where
  | left | right

namespace Side

/-- What stands on the side. -/
def pick {α : Type} : Side → α → α → α
  | left, x, _ => x
  | right, _, y => y

/-- The depth on the side is not above the other one. -/
def Below : Side → Nat → Nat → Prop
  | left, d, d' => d ≤ d'
  | right, d, d' => d' ≤ d

variable {side : Side} {d d' : Nat}

theorem Below.pred (h : side.Below (d + 1) (d' + 1)) : side.Below d d' := by
  cases side <;> exact Nat.le_of_succ_le_succ h

/-- Induction on the smaller of two depths. -/
@[elab_as_elim]
theorem Below.induction {motive : ∀ d d', side.Below d d' → Prop}
    (spent : ∀ d d' (h : side.Below d d'), side.pick d d' = 0 → motive d d' h)
    (step : ∀ d d' (h : side.Below d d') (h' : side.Below (d + 1) (d' + 1)), motive d d' h →
      motive (d + 1) (d' + 1) h') {d d' : Nat} (h : side.Below d d') : motive d d' h := by
  induction d generalizing d' with
  | zero =>
    refine spent 0 d' h ?_
    cases side with
    | left => rfl
    | right => exact Nat.le_zero.mp h
  | succ d ih =>
    cases d' with
    | zero =>
      refine spent (d + 1) 0 h ?_
      cases side with
      | left => exact absurd h (Nat.not_succ_le_zero d)
      | right => rfl
    | succ d' => exact step d d' h.pred h (ih h.pred)

end Side

/-! ## Steps without state -/

section

variable {ε α β : Type} {side : Side} {stop : ε}

/-- The outcomes are the same unless the one on the side stops. -/
def SameUnless (side : Side) (stop : ε) (x y : Except ε α) : Prop := x = y ∨ side.pick x y = .error stop

namespace SameUnless

theorem refl (x : Except ε α) : SameUnless side stop x x := .inl rfl

/-- A step that stops at depth zero. -/
theorem spent {f : Nat → Except ε α} {d d' : Nat} (h : side.pick d d' = 0) (hf : f 0 = .error stop) :
    SameUnless side stop (f d) (f d') := by
  refine .inr ?_
  cases side with
  | left => rw [show d = 0 from h]; exact hf
  | right => rw [show d' = 0 from h]; exact hf

theorem bind {x y : Except ε α} {f g : α → Except ε β} (h : SameUnless side stop x y)
    (hf : ∀ a, SameUnless side stop (f a) (g a)) : SameUnless side stop (x >>= f) (y >>= g) := by
  rcases h with rfl | h
  · cases x with
    | ok a => exact hf a
    | error e => exact .inl rfl
  · cases side with
    | left => exact .inr (by rw [show x = .error stop from h]; rfl)
    | right => exact .inr (by rw [show y = .error stop from h]; rfl)

theorem mapM {f g : α → Except ε β} (l : List α) (h : ∀ a ∈ l, SameUnless side stop (f a) (g a)) :
    SameUnless side stop (l.mapM f) (l.mapM g) := by
  induction l with
  | nil => exact .refl _
  | cons a l ih =>
    rw [List.mapM_cons, List.mapM_cons]
    exact (h a List.mem_cons_self).bind fun b =>
      (ih fun a ha => h a (List.mem_cons_of_mem _ ha)).bind fun bs => .refl _

theorem allM {p q : α → Except ε Bool} (l : List α) (h : ∀ a ∈ l, SameUnless side stop (p a) (q a)) :
    SameUnless side stop (l.allM p) (l.allM q) := by
  induction l with
  | nil => exact .refl _
  | cons a l ih =>
    rw [List.allM, List.allM]
    refine (h a List.mem_cons_self).bind fun b => ?_
    cases b with
    | false => exact .refl _
    | true => exact ih fun a ha => h a (List.mem_cons_of_mem _ ha)

theorem mapError {ε' : Type} {x y : Except ε α} (f : ε → ε') (h : SameUnless side stop x y) :
    SameUnless side (f stop) (x.mapError f) (y.mapError f) := by
  rcases h with rfl | h
  · exact .refl _
  · cases side with
    | left => exact .inr (by rw [show x = .error stop from h]; rfl)
    | right => exact .inr (by rw [show y = .error stop from h]; rfl)

end SameUnless

end

/-! ## Steps with state -/

/-- The run has stopped at the limit of depth. -/
def Stopped {σ α : Type} (r : EStateM.Result Failure σ α) : Prop := ∃ s, r = .error (.limit .depth) s

/-- Both runs give the same value or failure, and related states. -/
def Matched {σ α : Type} (S : σ → σ → Prop) : EStateM.Result Failure σ α → EStateM.Result Failure σ α → Prop
  | .ok a s, .ok b s' => a = b ∧ S s s'
  | .error e s, .error e' s' => e = e' ∧ S s s'
  | _, _ => False

/-- From states related by `R` the steps come to matched outcomes, unless the one on the side stops. -/
def InStep {σ α : Type} (side : Side) (R S : σ → σ → Prop) (x y : EStateM Failure σ α) : Prop :=
  ∀ s s', R s s' → Matched S (x s) (y s') ∨ Stopped (side.pick (x s) (y s'))

section

variable {σ α β : Type} {side : Side} {R S T : σ → σ → Prop}

namespace InStep

theorem pure (a : α) : InStep side R R (Pure.pure a : EStateM Failure σ α) (Pure.pure a) :=
  fun _ _ h => .inl ⟨rfl, h⟩

theorem throw (e : Failure) : InStep side R R (MonadExcept.throw e : EStateM Failure σ α) (MonadExcept.throw e) :=
  fun _ _ h => .inl ⟨rfl, h⟩

/-- A step that stops at depth zero. -/
theorem spent {f : Nat → EStateM Failure σ α} {d d' : Nat} (h : side.pick d d' = 0)
    (hf : ∀ s, Stopped (f 0 s)) : InStep side R S (f d) (f d') := by
  intro s s' _
  refine .inr ?_
  cases side with
  | left => rw [show d = 0 from h]; exact hf s
  | right => rw [show d' = 0 from h]; exact hf s'

theorem mono {R' S' : σ → σ → Prop} {x y : EStateM Failure σ α} (h : InStep side R S x y)
    (hR : ∀ s s', R' s s' → R s s') (hS : ∀ s s', S s s' → S' s s') : InStep side R' S' x y := by
  intro s s' hs
  rcases h s s' (hR s s' hs) with hm | hstop
  · refine .inl ?_
    cases hx : x s <;> cases hy : y s' <;> rw [hx, hy] at hm
    · exact ⟨hm.1, hS _ _ hm.2⟩
    · exact hm.elim
    · exact hm.elim
    · exact ⟨hm.1, hS _ _ hm.2⟩
  · exact .inr hstop

/-- What is in step with a longer run is in step with what that run is in step with. -/
theorem trans {R' S' : σ → σ → Prop} {x y z : EStateM Failure σ α} (h : InStep .left R S x y)
    (h' : InStep .left R' S' y z) (hR : ∀ s s', R' s s' → R s s)
    (hS : ∀ s s' s'', S s s' → S' s' s'' → S' s s'') : InStep .left R' S' x z := by
  intro s s' hs
  rcases h s s (hR s s' hs) with hm | hstop
  · rcases h' s s' hs with hm' | ⟨t, ht⟩
    · refine .inl ?_
      cases hx : x s <;> cases hy : y s <;> cases hz : z s' <;> rw [hx, hy] at hm <;> rw [hy, hz] at hm' <;>
        first
        | exact hm.elim
        | exact hm'.elim
        | exact ⟨hm.1.trans hm'.1, hS _ _ _ hm.2 hm'.2⟩
    · refine .inr ?_
      rw [show y s = _ from ht] at hm
      cases hx : x s with
      | ok a u => rw [hx] at hm; exact hm.elim
      | error e u =>
        rw [hx] at hm
        exact ⟨u, congrArg (EStateM.Result.error · u) hm.1⟩
  · exact .inr hstop

/-- A step that relates the states in another way. -/
theorem bindTo {x y : EStateM Failure σ α} {f g : α → EStateM Failure σ β} (h : InStep side R S x y)
    (hST : ∀ s s', S s s' → T s s') (hf : ∀ a, InStep side S T (f a) (g a)) :
    InStep side R T (x >>= f) (y >>= g) := by
  intro s s' hs
  change Matched T (EStateM.bind x f s) (EStateM.bind y g s') ∨
    Stopped (side.pick (EStateM.bind x f s) (EStateM.bind y g s'))
  unfold EStateM.bind
  rcases h s s' hs with hm | hstop
  · cases hx : x s <;> cases hy : y s' <;> rw [hx, hy] at hm
    · obtain ⟨rfl, hs'⟩ := hm
      exact hf _ _ _ hs'
    · exact hm.elim
    · exact hm.elim
    · exact .inl ⟨hm.1, hST _ _ hm.2⟩
  · obtain ⟨t, ht⟩ := hstop
    refine .inr ⟨t, ?_⟩
    cases side with
    | left => rw [show x s = _ from ht]; rfl
    | right => rw [show y s' = _ from ht]; rfl

theorem bind {x y : EStateM Failure σ α} {f g : α → EStateM Failure σ β} (h : InStep side R S x y)
    (hf : ∀ a, InStep side S S (f a) (g a)) : InStep side R S (x >>= f) (y >>= g) :=
  h.bindTo (fun _ _ hs => hs) hf

theorem get {f g : σ → EStateM Failure σ α} (h : ∀ s s', R s s' → InStep side R S (f s) (g s')) :
    InStep side R S (MonadState.get >>= f) (MonadState.get >>= g) :=
  fun s s' hs => h s s' hs s s' hs

theorem modify {f g : σ → σ} (h : ∀ s s', R s s' → S (f s) (g s')) :
    InStep side R S (modify f : EStateM Failure σ PUnit) (modify g) :=
  fun s s' hs => .inl ⟨rfl, h s s' hs⟩

theorem mapM {f g : α → EStateM Failure σ β} (l : List α) (h : ∀ a ∈ l, InStep side R R (f a) (g a)) :
    InStep side R R (l.mapM f) (l.mapM g) := by
  induction l with
  | nil => exact .pure []
  | cons a l ih =>
    rw [List.mapM_cons, List.mapM_cons]
    exact (h a List.mem_cons_self).bind fun b =>
      (ih fun a ha => h a (List.mem_cons_of_mem _ ha)).bind fun bs => .pure (b :: bs)

theorem forM {f g : α → EStateM Failure σ PUnit} (l : List α) (h : ∀ a ∈ l, InStep side R R (f a) (g a)) :
    InStep side R R (l.forM f) (l.forM g) := by
  induction l with
  | nil => exact .pure ()
  | cons a l ih =>
    exact (h a List.mem_cons_self).bind fun _ => ih fun a ha => h a (List.mem_cons_of_mem _ ha)

theorem foldlM {f g : β → α → EStateM Failure σ β} (l : List α) (b : β)
    (h : ∀ b, ∀ a ∈ l, InStep side R R (f b a) (g b a)) : InStep side R R (l.foldlM f b) (l.foldlM g b) := by
  induction l generalizing b with
  | nil => exact .pure b
  | cons a l ih =>
    rw [List.foldlM_cons, List.foldlM_cons]
    exact (h b a List.mem_cons_self).bind fun b' => ih b' fun b a ha => h b a (List.mem_cons_of_mem _ ha)

theorem lift {x y : Except Failure α} (h : SameUnless side (.limit .depth) x y) :
    InStep side R R (liftM x : EStateM Failure σ α) (liftM y) := by
  intro s s' hs
  rcases h with rfl | h
  · refine .inl ?_
    cases x with
    | ok a => exact ⟨rfl, hs⟩
    | error e => exact ⟨rfl, hs⟩
  · cases side with
    | left => exact .inr ⟨s, by rw [show x = _ from h]; rfl⟩
    | right => exact .inr ⟨s', by rw [show y = _ from h]; rfl⟩

theorem liftLimit {x y : Except Limit α} (h : SameUnless side .depth x y) :
    InStep side R R (liftM x : EStateM Failure σ α) (liftM y) :=
  lift (h.mapError Failure.limit)

end InStep

end

/-! ## Machines side by side -/

/-- Whether the program has printed it; otherwise it is part of the trace. -/
def Output.isPrinted : Output → Bool
  | printed _ => true
  | traced _ => false

/-- The machines differ in nothing but their frames, which are related by `F`, and their traces. -/
inductive Abreast (F : Frame → Frame → Prop) (m : Machine) : Machine → Prop where
  | mk (frame : Frame) (output : List Output)
    (printed : output.filter Output.isPrinted = m.output.filter Output.isPrinted) (frames : F m.frame frame) :
    Abreast F m { m with frame, output }

namespace Abreast

variable {F G : Frame → Frame → Prop} {m m' : Machine}

theorem refl (h : F m.frame m.frame) : Abreast F m m := .mk m.frame m.output rfl h

theorem frames (h : Abreast F m m') : F m.frame m'.frame := by
  obtain ⟨frame, output, -, hF⟩ := h
  exact hF

theorem mono (h : Abreast F m m') (hFG : ∀ f f', F f f' → G f f') : Abreast G m m' := by
  obtain ⟨frame, output, hp, hF⟩ := h
  exact .mk frame output hp (hFG _ _ hF)

theorem trans {m'' : Machine} (h : Abreast F m m') (h' : Abreast G m' m'')
    (hFG : ∀ f f' f'', F f f' → G f' f'' → G f f'') : Abreast G m m'' := by
  obtain ⟨frame, output, hp, hF⟩ := h
  obtain ⟨frame', output', hp', hG⟩ := h'
  exact .mk frame' output' (hp'.trans hp) (hFG _ _ _ hF hG)

end Abreast

section

variable {α : Type} {side : Side} {F G : Frame → Frame → Prop}

/-- What follows a trace runs on the same machine, but for what has been traced. -/
theorem run_trace_bind (line : String) (x : Eval α) (m : Machine) :
    (do Eval.trace line; x) m =
      x { m with output := if m.debug then .traced (line ++ "\n") :: m.output else m.output } := by
  have hrun : (do Eval.trace line; x) m = EStateM.bind (if m.debug then
      modify fun m => { m with output := .traced (line ++ "\n") :: m.output } else pure ())
      (fun _ => x) m := rfl
  rw [hrun]
  by_cases hdebug : m.debug = true
  · rw [if_pos hdebug, if_pos hdebug]
    rfl
  · rw [if_neg hdebug, if_neg hdebug]
    rfl

/-- A node whose tag is a text leaves its tag in the trace. -/
theorem traceNode_eq_trace {node : Syntax.Node} {tag : String} (htag : node.tag = .str tag) :
    Eval.traceNode node = Eval.trace ("Evaluating: " ++ tag) := by
  unfold Eval.traceNode
  split
  · cases htag
  · cases htag
  · rw [htag]
    funext m
    show (if m.debug = true then Eval.trace ("Evaluating: " ++ tag) else pure ()) m = _
    by_cases hdebug : m.debug = true
    · rw [if_pos hdebug]
    · show _ = (if m.debug = true then (_ : Eval Unit) else pure ()) m
      rw [if_neg hdebug, if_neg hdebug]

namespace InStep

theorem onStore {x y : StoreM α} (h : InStep side Eq Eq x y) :
    InStep side (Abreast F) (Abreast F) (Eval.onStore x) (Eval.onStore y) := by
  rintro m _ ⟨frame, output, hp, hF⟩
  unfold Eval.onStore
  simp only
  rcases h m.store m.store rfl with hm | ⟨t, ht⟩
  · refine .inl ?_
    cases hx : x m.store <;> cases hy : y m.store <;> rw [hx, hy] at hm
    · obtain ⟨rfl, rfl⟩ := hm
      exact ⟨rfl, .mk frame output hp hF⟩
    · exact hm.elim
    · exact hm.elim
    · obtain ⟨rfl, rfl⟩ := hm
      exact ⟨rfl, .mk frame output hp hF⟩
  · refine .inr ?_
    cases side with
    | left => exact ⟨{ m with store := t }, by rw [show x m.store = _ from ht]; rfl⟩
    | right => exact ⟨{ m with store := t, frame, output }, by rw [show y m.store = _ from ht]; rfl⟩

theorem reading {read read' : Store → Except Limit α} (h : ∀ s, SameUnless side .depth (read s) (read' s)) :
    InStep side (Abreast F) (Abreast F) (Eval.reading read) (Eval.reading read') := by
  refine .get ?_
  rintro m _ ⟨frame, output, hp, hF⟩
  exact .liftLimit (h m.store)

/-- A step in a frame of its own: it starts from one frame on both sides, and the callers' frames are back
afterwards. -/
theorem inFrame {x y : Eval α} (hG : ∀ f, G f f) (h : InStep side (Abreast G) (Abreast G) x y) (f : Frame) :
    InStep side (Abreast F) (Abreast F) (Eval.inFrame f x) (Eval.inFrame f y) := by
  rintro m _ ⟨frame, output, hp, hF⟩
  unfold Eval.inFrame
  simp only
  have hstart : Abreast G { m with frame := f } { m with frame := f, output } := .mk f output hp (hG f)
  rcases h _ _ hstart with hm | ⟨t, ht⟩
  · refine .inl ?_
    cases hx : x { m with frame := f } <;> cases hy : y { m with frame := f, output } <;> rw [hx, hy] at hm
    · obtain ⟨rfl, ⟨frame₁, output₁, hp₁, -⟩⟩ := hm
      exact ⟨rfl, .mk frame output₁ hp₁ hF⟩
    · exact hm.elim
    · exact hm.elim
    · obtain ⟨rfl, ⟨frame₁, output₁, hp₁, -⟩⟩ := hm
      exact ⟨rfl, .mk frame output₁ hp₁ hF⟩
  · refine .inr ?_
    cases side with
    | left => exact ⟨{ t with frame := m.frame }, by rw [show x _ = _ from ht]; rfl⟩
    | right => exact ⟨{ t with frame }, by rw [show y _ = _ from ht]; rfl⟩

theorem emit (text : String) : InStep side (Abreast F) (Abreast F) (Eval.emit text) (Eval.emit text) := by
  refine .modify ?_
  rintro m _ ⟨frame, output, hp, hF⟩
  refine .mk frame (.printed text :: output) ?_ hF
  rw [List.filter_cons_of_pos rfl, List.filter_cons_of_pos rfl, hp]

theorem trace (line : String) : InStep side (Abreast F) (Abreast F) (Eval.trace line) (Eval.trace line) := by
  refine .get ?_
  rintro m _ ⟨frame, output, hp, hF⟩
  simp only
  split
  · refine .modify ?_
    rintro m _ ⟨frame, output, hp, hF⟩
    exact .mk frame (.traced _ :: output) (by simpa [Output.isPrinted] using hp) hF
  · exact .pure ()

/-- A trace on the left side alone. -/
theorem trace_left {R : Machine → Machine → Prop} {x y : Eval α} (line : String)
    (h : InStep side (Abreast F) R x y) : InStep side (Abreast F) R (do Eval.trace line; x) y := by
  rintro m _ ⟨frame, output, hp, hF⟩
  rw [run_trace_bind]
  refine h _ _ (.mk frame output ?_ hF)
  by_cases hdebug : m.debug = true
  · rw [hp, if_pos hdebug, List.filter_cons_of_neg Bool.false_ne_true]
  · rw [hp, if_neg hdebug]

/-- The left side alone reaches a node. -/
theorem traceNode_left {R : Machine → Machine → Prop} {x y : Eval α} {node : Syntax.Node} {tag : String}
    (htag : node.tag = .str tag) (h : InStep side (Abreast F) R x y) :
    InStep side (Abreast F) R (do Eval.traceNode node; x) y := by
  rw [traceNode_eq_trace htag]
  exact trace_left _ h

theorem whileTrue {x y : Eval Bool} {x' y' : Eval Unit} (ht : InStep side (Abreast F) (Abreast F) x y)
    (hb : InStep side (Abreast F) (Abreast F) x' y') (rounds : Nat) :
    InStep side (Abreast F) (Abreast F) (Eval.whileTrue x x' rounds) (Eval.whileTrue y y' rounds) := by
  induction rounds with
  | zero => exact .throw _
  | succ rounds ih =>
    refine ht.bind fun b => ?_
    cases b with
    | false => exact .pure ()
    | true => exact hb.bind fun _ => ih

end InStep

end

end MinRuby
