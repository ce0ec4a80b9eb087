import MinRuby.Proofs.Run.Renaming

/-!
# What builtins leave alone

A builtin writes, loads, parses and makes arrays and hashes, but it touches no name: the variables of the frame, the table
of functions and the definitions in the store are afterwards what they were before. Nor does its failure name a variable.
The same holds of every step of a run on the store but that of a definition.

* `SameNames` — two machines with the same names, the second of which has written on.
* `keeps_callBuiltin_sameNames` — the builtins.
-/

namespace MinRuby

/-- A failure that names no variable. -/
abbrev Nameless (e : Failure) : Prop := ∀ ρ, Anonymous ρ e

theorem Nameless.ne_unboundVariable {e : Failure} (h : Nameless e) (x : String) : e ≠ .runtime (.unboundVariable x) := by
  rintro rfl
  have hrenamed : Failure.runtime (.unboundVariable "") = .runtime (.unboundVariable x) := h fun _ => ""
  have hother : Failure.runtime (.unboundVariable "x") = .runtime (.unboundVariable x) := h fun _ => "x"
  have heq := hrenamed.trans hother.symm
  simp at heq

theorem Failure.IsImpersonal.nameless {e : Failure} (h : e.IsImpersonal) : Nameless e := h.anonymous

/-! ## Machines with the same names -/

/-- The second machine has the variables, the functions and the definitions of the first one, is traced if that is, and
has written on. -/
structure SameNames (m m' : Machine) : Prop where
  frame_eq : m'.frame = m.frame
  functions_eq : m'.functions = m.functions
  procedures_eq : m'.store.procedures = m.store.procedures
  debug_eq : m'.debug = m.debug
  written : m.output <:+ m'.output

namespace SameNames

theorem refl (m : Machine) : SameNames m m := ⟨rfl, rfl, rfl, rfl, List.suffix_rfl⟩

theorem trans {m m' m'' : Machine} (h : SameNames m m') (h' : SameNames m' m'') : SameNames m m'' :=
  ⟨h'.frame_eq.trans h.frame_eq, h'.functions_eq.trans h.functions_eq, h'.procedures_eq.trans h.procedures_eq,
    h'.debug_eq.trans h.debug_eq, h.written.trans h'.written⟩

end SameNames

section

variable {α : Type} {m₀ : Machine}

/-- What follows a step starts from a state that the step has left. -/
theorem Upheld.bind {σ ε β : Type} {I J : σ → Prop} {E : ε → Prop} {x : EStateM ε σ α} {f : α → EStateM ε σ β} {s : σ}
    (hx : Upheld J E (x s)) (hJ : ∀ s', J s' → I s') (hf : ∀ a s', J s' → Upheld I E (f a s')) :
    Upheld I E ((x >>= f) s) := by
  change Upheld I E (EStateM.bind x f s)
  unfold EStateM.bind
  cases hr : x s with
  | ok a s' =>
    rw [hr] at hx
    exact hf a s' hx
  | error e s' =>
    rw [hr] at hx
    exact ⟨hJ s' hx.1, hx.2⟩

/-- A step that starts by reading the state. -/
theorem Upheld.get {σ ε : Type} {I : σ → Prop} {E : ε → Prop} {f : σ → EStateM ε σ α} {s : σ} (h : Upheld I E (f s s)) :
    Upheld I E ((MonadState.get >>= f) s) := h

/-- What a step does from every machine is kept along a run. -/
theorem Keeps.of_reaches {R : Machine → Machine → Prop} (htrans : ∀ {m m' m''}, R m m' → R m' m'' → R m m'')
    {E : Failure → Prop} {step : Eval α} (h : ∀ m, Upheld (R m) E (step m)) : Keeps (R m₀) E step :=
  fun m hm => (h m).imp (fun _ hm' => htrans hm hm') fun _ he => he

/-- A step on the store that changes arrays and hashes only. -/
theorem keeps_onStore_sameNames {step : StoreM α} (h : ∀ s : Store, Keeps s.Changes Impersonal step) :
    Keeps (SameNames m₀) Nameless (Eval.onStore step) := by
  refine Keeps.of_reaches (R := SameNames) SameNames.trans fun m => ?_
  have hs := h m.store m.store .refl
  unfold Eval.onStore
  simp only
  cases hstep : step m.store with
  | ok a s =>
    rw [hstep] at hs
    exact ⟨rfl, rfl, Store.Changes.procedures_eq hs, rfl, List.suffix_rfl⟩
  | error e s =>
    rw [hstep] at hs
    exact ⟨⟨rfl, rfl, Store.Changes.procedures_eq hs.1, rfl, List.suffix_rfl⟩, hs.2.nameless⟩

theorem keeps_emit_sameNames (text : String) : Keeps (SameNames m₀) Nameless (Eval.emit text) :=
  Keeps.modify fun _ hm => hm.trans ⟨rfl, rfl, rfl, rfl, List.suffix_cons _ _⟩

theorem keeps_trace_sameNames (line : String) : Keeps (SameNames m₀) Nameless (Eval.trace line) := by
  refine Keeps.get fun m _ => ?_
  split
  · exact Keeps.modify fun _ hm => hm.trans ⟨rfl, rfl, rfl, rfl, List.suffix_cons _ _⟩
  · exact Keeps.pure ()

theorem keeps_traceNode_sameNames (node : Syntax.Node) : Keeps (SameNames m₀) Nameless (Eval.traceNode node) := by
  unfold Eval.traceNode
  split
  · exact Keeps.pure _
  · exact Keeps.pure _
  · refine Keeps.get fun m _ => ?_
    simp only
    split
    · split
      · exact (Keeps.throw fun _ => rfl).bind fun _ => keeps_trace_sameNames _
      · exact keeps_trace_sameNames _
    · exact Keeps.pure _

end

/-! ## Builtins -/

section

variable {m₀ : Machine}

theorem keeps_parseProgram_sameNames (source filename : String) (known : List String) :
    Keeps (SameNames m₀) Nameless (Eval.parseProgram source filename known) := by
  have hfails (n : Nat) : FailsOnly Nameless (Syntax.parseProgram source filename known n) :=
    fun e he => (failsOnly_parseProgram source filename known n e he).nameless
  refine Keeps.get fun m _ => (Keeps.lift (hfails _)).bind fun r => ?_
  simp only
  split
  · exact (keeps_trace_sameNames _).bind fun _ => Keeps.pure _
  · exact Keeps.bind (Keeps.modify fun _ hm => hm.trans ⟨rfl, rfl, rfl, rfl, List.suffix_rfl⟩) fun _ => Keeps.pure _

theorem keeps_newArray_sameNames (items : Array Value) :
    Keeps (SameNames m₀) Nameless (Eval.onStore (modifyGet (·.newArray items))) :=
  keeps_onStore_sameNames fun _ => keeps_newArray_changes items

theorem keeps_newHash_sameNames : Keeps (SameNames m₀) Nameless (Eval.onStore (modifyGet (·.newHash .empty))) :=
  keeps_onStore_sameNames fun _ => keeps_newHash_changes

theorem keeps_ofData_sameNames (depth : Nat) (value : Data) :
    Keeps (SameNames m₀) Nameless (Eval.onStore (Value.ofData depth value)) :=
  keeps_onStore_sameNames fun _ => Value.keeps_ofData_changes depth value

theorem keeps_apply_sameNames (depth : Nat) (op : Syntax.BinaryOp) (x y : Value) :
    Keeps (SameNames m₀) Nameless (Eval.onStore (Value.apply depth op x y)) :=
  keeps_onStore_sameNames fun _ => Value.keeps_apply_changes depth op x y

theorem keeps_assign_sameNames (depth : Nat) (container position value : Value) :
    Keeps (SameNames m₀) Nameless (Eval.onStore (container.assign depth position value)) :=
  keeps_onStore_sameNames fun _ => Value.keeps_assign_changes depth container position value

/-- The steps that builtins are made of touch no name. -/
theorem keptByBuiltins_sameNames : KeptByBuiltins (SameNames m₀) Nameless where
  fails _ he := he.nameless
  emit := keeps_emit_sameNames
  trace := keeps_trace_sameNames
  toLoad _ _ hm := hm.trans ⟨rfl, rfl, rfl, rfl, List.suffix_rfl⟩
  newArray := keeps_newArray_sameNames
  parse depth _ := (keeps_parseProgram_sameNames _ _ _).bind fun _ => keeps_ofData_sameNames depth _

/-- A builtin leaves the names of the machine as they are, and its failure names no variable. -/
theorem keeps_callBuiltin_sameNames (depth : Nat) (name : String) (args : List Value) :
    Keeps (SameNames m₀) Nameless (callBuiltin depth name args) :=
  keptByBuiltins_sameNames.keeps_callBuiltin depth name args

end

end MinRuby
