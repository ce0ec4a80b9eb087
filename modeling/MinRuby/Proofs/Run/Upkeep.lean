import MinRuby.Run.Evaluate

/-!
# What a step keeps

`Keeps I E step` says that a step with state leaves the invariant `I` true, whether it succeeds or fails,
and that it fails in no way but those of `E`. `FailsOnly E x` is the same for a step without state. One rule
for each way to put steps together carries such statements from the parts of a step to the step.

* `Keeps.bind`, `Keeps.get`, `Keeps.mapM`, `Keeps.foldlM` — sequence, reading the state, and lists.
* `succeedsWith_iff` — what a computed test of an outcome tells.
* `Keeps.inFrame`, `Keeps.onStore`, `Keeps.whileTrue` — the steps of the machine.
-/

namespace MinRuby

/-! ## Steps without state -/

section

variable {ε α β : Type} {E : ε → Prop}

/-- A failure of the step is one of `E`. -/
def FailsOnly (E : ε → Prop) (x : Except ε α) : Prop := ∀ e, x = .error e → E e

namespace FailsOnly

theorem ok (a : α) : FailsOnly E (.ok a) := fun e h => by cases h

theorem error {e : ε} (h : E e) : FailsOnly E (.error e : Except ε α) := by
  rintro e' h'
  cases h'
  exact h

theorem bind {x : Except ε α} {f : α → Except ε β} (hx : FailsOnly E x) (hf : ∀ a, FailsOnly E (f a)) :
    FailsOnly E (x >>= f) := by
  cases x with
  | ok a => exact hf a
  | error e => exact error (hx e rfl)

theorem mapError {ε' : Type} {E' : ε' → Prop} {x : Except ε α} {f : ε → ε'} (hx : FailsOnly E x)
    (hf : ∀ e, E e → E' (f e)) : FailsOnly E' (x.mapError f) := by
  cases x with
  | ok a => exact ok a
  | error e => exact error (hf e (hx e rfl))

theorem mapM {f : α → Except ε β} (l : List α) (h : ∀ a ∈ l, FailsOnly E (f a)) :
    FailsOnly E (l.mapM f) := by
  induction l with
  | nil => exact ok []
  | cons a l ih =>
    rw [List.mapM_cons]
    exact (h a List.mem_cons_self).bind fun b =>
      (ih fun a ha => h a (List.mem_cons_of_mem _ ha)).bind fun bs => ok (b :: bs)

theorem allM {p : α → Except ε Bool} (l : List α) (h : ∀ a ∈ l, FailsOnly E (p a)) :
    FailsOnly E (l.allM p) := by
  induction l with
  | nil => exact ok true
  | cons a l ih =>
    rw [List.allM]
    refine (h a List.mem_cons_self).bind fun b => ?_
    cases b with
    | false => exact ok false
    | true => exact ih fun a ha => h a (List.mem_cons_of_mem _ ha)

end FailsOnly

end

/-! ## Steps with state -/

section

variable {ε σ α β : Type} {I : σ → Prop} {E : ε → Prop}

/-- What stands behind a step that succeeds goes on from its value and its state. -/
theorem run_bind {x : EStateM ε σ α} {f : α → EStateM ε σ β} {a : α} {s s' : σ} (h : x s = .ok a s') :
    (x >>= f) s = f a s' := by
  show EStateM.bind x f s = _
  rw [EStateM.bind, h]

theorem run_get_bind {f : σ → EStateM ε σ α} (s : σ) : (get >>= f) s = f s s := rfl

/-- The state of an outcome satisfies `I`, and a failure satisfies `E`. -/
def Upheld (I : σ → Prop) (E : ε → Prop) : EStateM.Result ε σ α → Prop
  | .ok _ s => I s
  | .error e s => I s ∧ E e

theorem Upheld.imp {I' : σ → Prop} {E' : ε → Prop} {r : EStateM.Result ε σ α} (h : Upheld I E r)
    (hI : ∀ s, I s → I' s) (hE : ∀ e, E e → E' e) : Upheld I' E' r := by
  cases r with
  | ok a s => exact hI s h
  | error e s => exact ⟨hI s h.1, hE e h.2⟩

/-- A step from a state that satisfies `I` ends in one, and fails only as `E` says. -/
def Keeps (I : σ → Prop) (E : ε → Prop) (step : EStateM ε σ α) : Prop := ∀ s, I s → Upheld I E (step s)

namespace Keeps

theorem mono {E' : ε → Prop} {step : EStateM ε σ α} (h : Keeps I E step) (hE : ∀ e, E e → E' e) : Keeps I E' step :=
  fun s hs => (h s hs).imp (fun _ hs' => hs') hE

theorem pure (a : α) : Keeps I E (Pure.pure a : EStateM ε σ α) := fun _ hs => hs

theorem throw {e : ε} (h : E e) : Keeps I E (throw e : EStateM ε σ α) := fun _ hs => ⟨hs, h⟩

theorem bind {x : EStateM ε σ α} {f : α → EStateM ε σ β} (hx : Keeps I E x) (hf : ∀ a, Keeps I E (f a)) :
    Keeps I E (x >>= f) := by
  intro s hs
  have h := hx s hs
  change Upheld I E (EStateM.bind x f s)
  unfold EStateM.bind
  cases hxs : x s with
  | ok a s' =>
    rw [hxs] at h
    exact hf a s' h
  | error e s' =>
    rw [hxs] at h
    exact h

theorem get {f : σ → EStateM ε σ α} (h : ∀ s, I s → Keeps I E (f s)) : Keeps I E (get >>= f) :=
  fun s hs => h s hs s hs

theorem modify {f : σ → σ} (h : ∀ s, I s → I (f s)) : Keeps I E (modify f : EStateM ε σ PUnit) :=
  fun s hs => h s hs

theorem modifyGet {f : σ → α × σ} (h : ∀ s, I s → I (f s).2) :
    Keeps I E (modifyGet f : EStateM ε σ α) :=
  fun s hs => h s hs

theorem mapM {f : α → EStateM ε σ β} (l : List α) (h : ∀ a ∈ l, Keeps I E (f a)) : Keeps I E (l.mapM f) := by
  induction l with
  | nil => exact pure []
  | cons a l ih =>
    rw [List.mapM_cons]
    exact (h a List.mem_cons_self).bind fun b =>
      (ih fun a ha => h a (List.mem_cons_of_mem _ ha)).bind fun bs => pure (b :: bs)

theorem forM {f : α → EStateM ε σ PUnit} (l : List α) (h : ∀ a ∈ l, Keeps I E (f a)) :
    Keeps I E (l.forM f) := by
  induction l with
  | nil => exact pure ()
  | cons a l ih =>
    exact (h a List.mem_cons_self).bind fun _ => ih fun a ha => h a (List.mem_cons_of_mem _ ha)

theorem foldlM {f : β → α → EStateM ε σ β} (l : List α) (b : β) (h : ∀ b, ∀ a ∈ l, Keeps I E (f b a)) :
    Keeps I E (l.foldlM f b) := by
  induction l generalizing b with
  | nil => exact pure b
  | cons a l ih =>
    rw [List.foldlM_cons]
    exact (h b a List.mem_cons_self).bind fun b' => ih b' fun b a ha => h b a (List.mem_cons_of_mem _ ha)

end Keeps

/-- Whether the step succeeds with a result and a state that pass the test. -/
def succeedsWith (test : α → σ → Bool) : EStateM.Result ε σ α → Bool
  | .ok a s => test a s
  | .error _ _ => false

theorem succeedsWith_iff {test : α → σ → Bool} {r : EStateM.Result ε σ α} :
    succeedsWith test r = true ↔ ∃ a s, r = .ok a s ∧ test a s = true := by
  cases r with
  | ok a s => exact ⟨fun h => ⟨a, s, rfl, h⟩, by rintro ⟨_, _, ⟨⟩, h⟩; exact h⟩
  | error e s => exact ⟨by rintro ⟨⟩, by rintro ⟨_, _, ⟨⟩, _⟩⟩

end

/-! ## Steps of the machine -/

section

variable {α : Type} {I : Machine → Prop} {E : Failure → Prop}

namespace Keeps

theorem lift {σ : Type} {J : σ → Prop} {x : Except Failure α} (h : FailsOnly E x) :
    Keeps J E (liftM x : EStateM Failure σ α) := by
  cases x with
  | ok a => exact pure a
  | error e => exact throw (h e rfl)

theorem liftLimit {σ : Type} {J : σ → Prop} {x : Except Limit α} (h : FailsOnly (fun l => E (.limit l)) x) :
    Keeps J E (liftM x : EStateM Failure σ α) := by
  cases x with
  | ok a => exact pure a
  | error l => exact throw (h l rfl)

theorem liftRuntime {σ : Type} {J : σ → Prop} {x : Except RuntimeError α}
    (h : FailsOnly (fun e => E (.runtime e)) x) : Keeps J E (liftM x : EStateM Failure σ α) := by
  cases x with
  | ok a => exact pure a
  | error e => exact throw (h e rfl)

/-- What a step on the store keeps of the store. -/
theorem onStore {J : Store → Prop} {step : StoreM α} (h : Keeps J E step) :
    Keeps (fun m => J m.store) E (Eval.onStore step) := by
  intro m hm
  have hs := h m.store hm
  unfold Eval.onStore
  simp only
  cases hstep : step m.store with
  | ok a s =>
    rw [hstep] at hs
    exact hs
  | error e s =>
    rw [hstep] at hs
    exact hs

theorem reading {read : Store → Except Limit α} (h : ∀ s, FailsOnly (fun l => E (.limit l)) (read s)) :
    Keeps I E (Eval.reading read) :=
  get fun m _ => liftLimit (h m.store)

/-- An invariant that does not look at the frame is kept in a frame of its own. -/
theorem inFrame {frame : Frame} {step : Eval α} (hI : ∀ m f, I m → I { m with frame := f })
    (h : Keeps I E step) : Keeps I E (Eval.inFrame frame step) := by
  intro m hm
  have hstep := h { m with frame } (hI m frame hm)
  unfold Eval.inFrame
  simp only
  cases hr : step { m with frame } with
  | ok a m' =>
    rw [hr] at hstep
    exact hI m' m.frame hstep
  | error e m' =>
    rw [hr] at hstep
    exact ⟨hI m' m.frame hstep.1, hstep.2⟩

/-- An invariant that does not look at the output is kept when something is written. -/
theorem emit (hI : ∀ m o, I m → I { m with output := o }) (text : String) : Keeps I E (Eval.emit text) :=
  modify fun m hm => hI m _ hm

theorem trace (hI : ∀ m o, I m → I { m with output := o }) (line : String) : Keeps I E (Eval.trace line) := by
  refine get fun m _ => ?_
  split
  · exact modify fun m hm => hI m _ hm
  · exact pure ()

theorem whileTrue {test : Eval Bool} {body : Eval Unit} (ht : Keeps I E test) (hb : Keeps I E body)
    (hE : E (.limit .rounds)) (rounds : Nat) : Keeps I E (Eval.whileTrue test body rounds) := by
  induction rounds with
  | zero => exact throw hE
  | succ rounds ih =>
    refine ht.bind fun b => ?_
    cases b with
    | false => exact pure ()
    | true => exact hb.bind fun _ => ih

end Keeps

end

end MinRuby
