import MinRuby.Proofs.Run.Lockstep

/-!
# Depth and hidden variables

A tree evaluated at two depths, on machines whose frames differ in variables that it does not mention: the
runs are in step until the one with less depth hits the limit of depth. So a larger depth changes nothing in a
run that ends, and neither does a variable that the tree does not mention.

* `evaluate_inStep` — the step lemma, by induction on the smaller depth.
-/

namespace MinRuby

variable {side : Side} {d d' : Nat}

/-! ## Values -/

namespace Value

theorem inspect_sameUnless (s : Store) (h : side.Below d d') (v : Value) :
    SameUnless side .depth (v.inspect s d) (v.inspect s d') := by
  induction h using Side.Below.induction generalizing v with
  | spent d d' _ h0 =>
    cases v with
    | array a => exact .spent (f := fun d => (array a).inspect s d) h0 rfl
    | hash a => exact .spent (f := fun d => (hash a).inspect s d) h0 rfl
    | _ => exact .inl (by cases d <;> cases d' <;> rfl)
  | step d d' _ _ ih =>
    cases v with
    | array a => exact (SameUnless.mapM _ fun v _ => ih v).bind fun _ => .refl _
    | hash a =>
      exact (SameUnless.mapM _ fun e _ => (ih e.key).bind fun _ => (ih e.value).bind fun _ => .refl _).bind
        fun _ => .refl _
    | _ => exact .refl _

theorem display_sameUnless (s : Store) (h : side.Below d d') (v : Value) :
    SameUnless side .depth (v.display s d) (v.display s d') := by
  cases v with
  | nil => exact .refl _
  | str t => exact .refl _
  | _ => exact inspect_sameUnless s h _

theorem displayLines_sameUnless (s : Store) (h : side.Below d d') (v : Value) :
    SameUnless side .depth (v.displayLines s d) (v.displayLines s d') := by
  induction h using Side.Below.induction generalizing v with
  | spent d d' h h0 =>
    cases v with
    | array a => exact .spent (f := fun d => (array a).displayLines s d) h0 rfl
    | hash a => exact .spent (f := fun d => (hash a).displayLines s d) h0 rfl
    | _ => exact .inl (by cases d <;> cases d' <;> rfl)
  | step d d' _ h ih =>
    cases v with
    | array a => exact (SameUnless.mapM _ fun v _ => ih v).bind fun _ => .refl _
    | _ => exact (display_sameUnless s h _).bind fun _ => .refl _

theorem equal_sameUnless (s : Store) (h : side.Below d d') (x y : Value) :
    SameUnless side .depth (x.equal s d y) (x.equal s d' y) := by
  induction h using Side.Below.induction generalizing x y with
  | spent d d' _ h0 =>
    cases x <;> cases y <;> first
      | exact .spent (f := fun d => equal s d _ _) h0 rfl
      | exact .inl (by cases d <;> cases d' <;> rfl)
  | step d d' _ _ ih =>
    cases x <;> cases y <;> try exact .refl _
    · unfold equal
      simp only
      split
      · exact SameUnless.allM _ fun p _ => ih p.1 p.2
      · exact .refl _
    · unfold equal
      simp only
      split
      · refine SameUnless.allM _ fun e _ => ?_
        split
        · exact ih _ _
        · exact .refl _
      · exact .refl _

theorem fingerprint_sameUnless (s : Store) (h : side.Below d d') (v : Value) :
    SameUnless side (.limit .depth) (v.fingerprint s d) (v.fingerprint s d') := by
  induction h using Side.Below.induction generalizing v with
  | spent d d' _ h0 =>
    cases v with
    | array a => exact .spent (f := fun d => (array a).fingerprint s d) h0 rfl
    | hash a => exact .spent (f := fun d => (hash a).fingerprint s d) h0 rfl
    | _ => exact .inl (by cases d <;> cases d' <;> rfl)
  | step d d' _ _ ih =>
    cases v with
    | array a => exact (SameUnless.mapM _ fun v _ => ih v).bind fun _ => .refl _
    | hash a =>
      exact (SameUnless.mapM _ fun e _ => (ih e.2.value).bind fun _ => .refl _).bind fun _ => .refl _
    | _ => exact .refl _

theorem fetch_sameUnless (s : Store) (h : side.Below d d') (container index : Value) :
    SameUnless side (.limit .depth) (container.fetch s d index) (container.fetch s d' index) := by
  cases container with
  | hash a =>
    have lookup : SameUnless side (.limit .depth) (lookup? s d a index) (lookup? s d' a index) :=
      (fingerprint_sameUnless s h index).bind fun _ => .refl _
    refine lookup.bind fun v? => ?_
    cases v? with
    | some v => exact .refl _
    | none => exact ((inspect_sameUnless s h index).mapError Failure.limit).bind fun _ => .refl _
  | array a => exact .inl (by cases index <;> rfl)
  | _ => exact .refl _

/-! ## Stores -/

theorem inStep_refl {α : Type} (x : StoreM α) : InStep side Eq Eq x x := by
  rintro s _ rfl
  refine .inl ?_
  cases x s with
  | ok a s' => exact ⟨rfl, rfl⟩
  | error e s' => exact ⟨rfl, rfl⟩

theorem assign_inStep (h : side.Below d d') (container index v : Value) :
    InStep side Eq Eq (assign d container index v) (assign d' container index v) := by
  cases container with
  | hash a =>
    refine .get ?_
    rintro s _ rfl
    exact (InStep.lift (fingerprint_sameUnless s h index)).bind fun _ => inStep_refl _
  | array a =>
    have same : assign d (array a) index v = assign d' (array a) index v := by cases index <;> rfl
    rw [same]
    exact inStep_refl _
  | _ => exact inStep_refl _

mutual

theorem ofData_inStep (h : side.Below d d') : ∀ x : Data, InStep side Eq Eq (ofData d x) (ofData d' x)
  | .null | .bool _ | .int _ | .float _ | .str _ => inStep_refl _
  | .list items => (ofDataAll_inStep h items).bind fun _ => inStep_refl _
  | .tuple items => (ofDataAll_inStep h items).bind fun _ => inStep_refl _
  | .mapping entries => (inStep_refl _).bind fun table => (assignEntries_inStep h table entries).bind fun _ =>
    inStep_refl _

theorem ofDataAll_inStep (h : side.Below d d') :
    ∀ xs : List Data, InStep side Eq Eq (ofDataAll d xs) (ofDataAll d' xs)
  | [] => inStep_refl _
  | x :: rest => (ofData_inStep h x).bind fun _ => (ofDataAll_inStep h rest).bind fun _ => inStep_refl _

theorem assignEntries_inStep (h : side.Below d d') (table : Value) : ∀ es : List (Data × Data),
    InStep side Eq Eq (assignEntries d table es) (assignEntries d' table es)
  | [] => inStep_refl _
  | (k, v) :: rest => (ofData_inStep h k).bind fun key => (ofData_inStep h v).bind fun value =>
    (assign_inStep h table key value).bind fun _ => assignEntries_inStep h table rest

end

theorem apply_inStep (h : side.Below d d') (op : Syntax.BinaryOp) (x y : Value) :
    InStep side Eq Eq (apply d op x y) (apply d' op x y) := by
  cases op with
  | eq =>
    refine .get ?_
    rintro s _ rfl
    exact (InStep.liftLimit (equal_sameUnless s h x y)).bind fun _ => inStep_refl _
  | _ => exact inStep_refl _

end Value

/-! ## Builtins -/

variable {F : Frame → Frame → Prop}

theorem InStep.onStore_refl {α : Type} (x : StoreM α) :
    InStep side (Abreast F) (Abreast F) (Eval.onStore x) (Eval.onStore x) :=
  .onStore (Value.inStep_refl x)

theorem parseProgram_inStep (source filename : String) (known : List String) :
    InStep side (Abreast F) (Abreast F) (Eval.parseProgram source filename known)
      (Eval.parseProgram source filename known) := by
  refine .get ?_
  rintro m _ ⟨frame, output, hp, hF⟩
  refine (InStep.lift (.refl _)).bind fun r => ?_
  simp only
  split
  · exact (InStep.trace _).bind fun _ => .pure _
  · refine InStep.bind (.modify ?_) fun _ => .pure _
    rintro m _ ⟨frame, output, hp, hF⟩
    exact .mk frame output hp hF

namespace Builtin

theorem runP_inStep (h : side.Below d d') (args : List Value) :
    InStep side (Abreast F) (Abreast F) (runP d args) (runP d' args) := by
  refine (InStep.forM args fun v _ => ?_).bind fun _ => ?_
  · exact (InStep.reading fun s => v.inspect_sameUnless s h).bind fun _ => .emit _
  · split
    · exact .pure _
    · exact .pure _
    · exact .onStore_refl _

theorem runPrint_inStep (h : side.Below d d') (args : List Value) :
    InStep side (Abreast F) (Abreast F) (runPrint d args) (runPrint d' args) :=
  (InStep.reading fun s => SameUnless.mapM args fun v _ => v.display_sameUnless s h).bind fun _ =>
    (InStep.emit _).bind fun _ => .pure _

theorem runPuts_inStep (h : side.Below d d') (args : List Value) :
    InStep side (Abreast F) (Abreast F) (runPuts d args) (runPuts d' args) := by
  have lines : InStep side (Abreast F) (Abreast F)
      (do args.forM fun v => do (← Eval.reading (v.displayLines · d)).forM fun line => Eval.emit (asLine line)
          return Value.nil)
      (do args.forM fun v => do (← Eval.reading (v.displayLines · d')).forM fun line => Eval.emit (asLine line)
          return Value.nil) := by
    refine (InStep.forM args fun v _ => ?_).bind fun _ => .pure _
    exact (InStep.reading fun s => v.displayLines_sameUnless s h).bind fun _ =>
      InStep.forM _ fun _ _ => .emit _
  unfold runPuts
  split
  · exact (InStep.emit _).bind fun _ => lines
  · exact lines

theorem runLoad_inStep : InStep side (Abreast F) (Abreast F) runLoad runLoad := by
  refine .get ?_
  rintro m _ ⟨frame, output, hp, hF⟩
  simp only
  split
  · exact .throw _
  · refine InStep.bind (.modify ?_) fun _ => .get ?_
    · rintro m _ ⟨frame, output, hp, hF⟩
      exact .mk frame output hp hF
    · rintro m _ ⟨frame, output, hp, hF⟩
      simp only
      split
      · exact .pure _
      · exact .throw _

theorem runParse_inStep (h : side.Below d d') (source : Value) :
    InStep side (Abreast F) (Abreast F) (runParse d source) (runParse d' source) := by
  cases source with
  | str t => exact (parseProgram_inStep _ _ _).bind fun tree => .onStore (Value.ofData_inStep h _)
  | _ => exact .throw _

theorem runCall_inStep {call call' : String → List Value → Eval Value}
    (hcall : ∀ name args, InStep side (Abreast F) (Abreast F) (call name args) (call' name args))
    (name args : Value) :
    InStep side (Abreast F) (Abreast F) (runCall call name args) (runCall call' name args) := by
  unfold runCall
  split
  · refine .get ?_
    rintro m _ ⟨frame, output, hp, hF⟩
    exact hcall _ _
  · exact .throw _
  · exact .throw _

theorem runRequire_inStep (name : Value) :
    InStep side (Abreast F) (Abreast F) (runRequire name) (runRequire name) := by
  unfold runRequire
  split
  · split
    · exact .pure _
    · exact .throw _
  · exact .throw _

theorem run_inStep {call call' : String → List Value → Eval Value} (h : side.Below d d')
    (hcall : ∀ name args, InStep side (Abreast F) (Abreast F) (call name args) (call' name args))
    (b : Builtin) (args : List Value) :
    InStep side (Abreast F) (Abreast F) (b.run d call args) (b.run d' call' args) := by
  unfold run
  split
  · exact runP_inStep h _
  · exact runPrint_inStep h _
  · exact runPuts_inStep h _
  · exact runRequire_inStep _
  · exact runLoad_inStep
  · exact runParse_inStep h _
  · exact runCall_inStep hcall _ _
  · exact .throw _

end Builtin

theorem callBuiltin_inStep (h : side.Below d d') (name : String) (args : List Value) :
    InStep side (Abreast F) (Abreast F) (callBuiltin d name args) (callBuiltin d' name args) := by
  induction h using Side.Below.induction generalizing name args with
  | spent d d' _ h0 => exact .spent (f := fun d => callBuiltin d name args) h0 fun s => ⟨s, rfl⟩
  | step d d' h _ ih =>
    unfold callBuiltin
    split
    · exact .throw _
    · next b _ =>
      have rest : InStep side (Abreast F) (Abreast F)
          (do Eval.trace s!"Calling builtin {name} with {args.length} arguments"
              b.run d (callBuiltin d) args)
          (do Eval.trace s!"Calling builtin {name} with {args.length} arguments"
              b.run d' (callBuiltin d') args) :=
        (InStep.trace _).bind fun _ => b.run_inStep h ih args
      split
      · split
        · exact (InStep.throw _).bind fun _ => rest
        · exact rest
      · exact rest

/-! ## Trees -/

namespace Eval

theorem traceNode_inStep (node : Syntax.Node) :
    InStep side (Abreast F) (Abreast F) (traceNode node) (traceNode node) := by
  unfold traceNode
  split
  · exact .pure _
  · exact .pure _
  · refine .get ?_
    rintro m _ ⟨frame, output, hp, hF⟩
    simp only
    split
    · split
      · exact (InStep.throw _).bind fun _ => .trace _
      · exact .trace _
    · exact .pure _

theorem define_inStep (name : String) (params : List String) (body : Syntax.Node) :
    InStep side (Abreast F) (Abreast F) (define name params body) (define name params body) := by
  refine (InStep.onStore_refl _).bind fun a => InStep.bind (.modify ?_) fun _ => .pure _
  rintro m _ ⟨frame, output, hp, hF⟩
  exact .mk frame output hp hF

theorem fillHash_inStep (h : side.Below d d') {table : Value} {eval eval' : Syntax.Node → Eval Value} :
    ∀ {items : List Syntax.Node}, (∀ n ∈ items, InStep side (Abreast F) (Abreast F) (eval n) (eval' n)) →
      InStep side (Abreast F) (Abreast F) (fillHash d table eval items) (fillHash d' table eval' items)
  | [], _ => .pure ()
  | [_], _ => .pure ()
  | key :: value :: rest, heval => by
    have hkey := heval key (by simp)
    have hvalue := heval value (by simp)
    refine hkey.bind fun k => hvalue.bind fun v => ?_
    exact (InStep.onStore (Value.assign_inStep h table k v)).bind fun _ =>
      fillHash_inStep h fun n hn => heval n (by simp [hn])

end Eval

/-! ## Hidden variables -/

/-- The variables of a frame that are not hidden. -/
def visible (hidden : List String) (f : Frame) : List (String × Value) := f.entries.filter fun e => e.1 ∉ hidden

/-- The variables of a frame that are hidden. -/
def concealed (hidden : List String) (f : Frame) : List (String × Value) := f.entries.filter fun e => e.1 ∈ hidden

/-- The frames have the same variables but for hidden ones, and of these the first frame has `kept`. -/
structure Hiding (hidden : List String) (kept : List (String × Value)) (f f' : Frame) : Prop where
  visible_eq : visible hidden f = visible hidden f'
  concealed_eq : concealed hidden f = kept

/-- The machines differ in hidden variables of their frames and in their traces only. -/
abbrev Alike (hidden : List String) : Machine → Machine → Prop :=
  Abreast fun f f' => visible hidden f = visible hidden f'

/-- The machines are alike, and of the hidden variables the first one has `kept`. -/
abbrev Keeping (hidden : List String) (kept : List (String × Value)) : Machine → Machine → Prop :=
  Abreast (Hiding hidden kept)

section

variable {hidden : List String} {x : String}

theorem visible_nil (f : Frame) : visible [] f = f.entries := List.filter_eq_self.mpr (by simp)

theorem lookup_filter (p : String → Bool) (h : p x = true) (entries : List (String × Value)) :
    (entries.filter fun e => p e.1).lookup x = entries.lookup x := by
  induction entries with
  | nil => rfl
  | cons e rest ih =>
    by_cases he : p e.1 = true
    · rw [List.filter_cons_of_pos (by exact he), List.lookup_cons, List.lookup_cons, ih]
    · have hne : (x == e.1) = false := by
        rw [beq_eq_false_iff_ne]
        rintro rfl
        exact he h
      rw [List.filter_cons_of_neg (by exact he), List.lookup_cons, hne, ih]

theorem filter_insertInto_of_neg (p : String → Bool) (h : ¬ p x = true) (v : Value)
    (entries : List (String × Value)) :
    ((OrderedTable.insertInto x v entries).filter fun e => p e.1) = entries.filter fun e => p e.1 := by
  induction entries with
  | nil => simp [OrderedTable.insertInto, h]
  | cons e rest ih =>
    by_cases hx : x = e.1
    · simp [OrderedTable.insertInto, ← hx, h]
    · simp only [OrderedTable.insertInto, beq_eq_false_iff_ne.mpr hx, Bool.false_eq_true, ↓reduceIte,
        List.filter_cons, ih]

theorem filter_insertInto_of_pos (p : String → Bool) (h : p x = true) (v : Value)
    (entries : List (String × Value)) :
    ((OrderedTable.insertInto x v entries).filter fun e => p e.1) =
      OrderedTable.insertInto x v (entries.filter fun e => p e.1) := by
  induction entries with
  | nil => simp [OrderedTable.insertInto, h]
  | cons e rest ih =>
    by_cases hx : x = e.1
    · simp [OrderedTable.insertInto, ← hx, h]
    · by_cases he : p e.1 = true
      · simp [OrderedTable.insertInto, beq_eq_false_iff_ne.mpr hx, he, ih]
      · simp [OrderedTable.insertInto, beq_eq_false_iff_ne.mpr hx, he, ih]

variable {kept : List (String × Value)} {f f' : Frame}

namespace Hiding

theorem find? (h : Hiding hidden kept f f') (hx : x ∉ hidden) : f.find? x = f'.find? x := by
  have hf := lookup_filter (fun y => y ∉ hidden) (decide_eq_true hx) f.entries
  have hf' := lookup_filter (fun y => y ∉ hidden) (decide_eq_true hx) f'.entries
  exact hf.symm.trans ((congrArg (List.lookup x) h.visible_eq).trans hf')

theorem insert (h : Hiding hidden kept f f') (hx : x ∉ hidden) (v : Value) :
    Hiding hidden kept (f.insert x v) (f'.insert x v) := by
  have shown := filter_insertInto_of_pos (fun y => y ∉ hidden) (decide_eq_true hx) v
  have kept_same := filter_insertInto_of_neg (fun y => y ∈ hidden) (by simpa using hx) v f.entries
  constructor
  · exact (shown f.entries).trans
      ((congrArg (OrderedTable.insertInto x v) h.visible_eq).trans (shown f'.entries).symm)
  · exact kept_same.trans h.concealed_eq

/-- The first frame may set a hidden variable. -/
theorem insert_hidden (h : Hiding hidden kept f f') (hx : x ∈ hidden) (v : Value) :
    Hiding hidden (OrderedTable.insertInto x v kept) (f.insert x v) f' := by
  have shown := filter_insertInto_of_neg (fun y => y ∉ hidden) (by simpa using hx) v f.entries
  have kept_new := filter_insertInto_of_pos (fun y => y ∈ hidden) (decide_eq_true hx) v f.entries
  constructor
  · exact shown.trans h.visible_eq
  · exact kept_new.trans (congrArg (OrderedTable.insertInto x v) h.concealed_eq)

/-- What the first frame holds of a hidden variable. -/
theorem find?_hidden (h : Hiding hidden kept f f') (hx : x ∈ hidden) : f.find? x = kept.lookup x := by
  have hf := lookup_filter (fun y => y ∈ hidden) (decide_eq_true hx) f.entries
  exact hf.symm.trans (congrArg (List.lookup x) h.concealed_eq)

end Hiding

theorem Keeping.alike {m m' : Machine} (h : Keeping hidden kept m m') : Alike hidden m m' :=
  h.mono fun _ _ h => h.visible_eq

/-- What is in step whatever the hidden variables are. -/
theorem InStep.alike {α : Type} {x y : Eval α}
    (h : ∀ kept, InStep side (Keeping hidden kept) (Keeping hidden kept) x y) :
    InStep side (Alike hidden) (Alike hidden) x y := by
  intro m m' hm
  have hkept : Keeping hidden (concealed hidden m.frame) m m' := by
    obtain ⟨frame, output, hp, hF⟩ := hm
    exact .mk frame output hp ⟨hF, rfl⟩
  exact (h _).mono (fun _ _ h => h) (fun _ _ => Keeping.alike) m m' hkept

end

namespace Syntax.Node

mutual

/-- The tree neither reads nor assigns one of the names in the frame in which it is evaluated. -/
def Avoids (names : List String) : Node → Prop
  | lit _ => True
  | binary _ left right => left.Avoids names ∧ right.Avoids names
  | stmts body => AvoidsAll names body
  | varAssign x value => x ∉ names ∧ value.Avoids names
  | varRef x => x ∉ names
  | choice test yes no => test.Avoids names ∧ yes.Avoids names ∧ no.Avoids names
  | loop test body => test.Avoids names ∧ body.Avoids names
  | loopAfter test body => test.Avoids names ∧ body.Avoids names
  | funcDef _ _ _ => True
  | funcCall _ args => AvoidsAll names args
  | aryNew items => AvoidsAll names items
  | aryRef container position => container.Avoids names ∧ position.Avoids names
  | aryAssign container position value => container.Avoids names ∧ position.Avoids names ∧ value.Avoids names
  | hashNew items => AvoidsAll names items
  | unknown _ => True
  | scalar => True
  | broken => True
termination_by structural n => n

/-- The same of every tree of a sequence. -/
def AvoidsAll (names : List String) : List Node → Prop
  | [] => True
  | n :: rest => n.Avoids names ∧ AvoidsAll names rest
termination_by structural l => l

end

theorem avoidsAll_iff {names : List String} {ns : List Node} : AvoidsAll names ns ↔ ∀ n ∈ ns, n.Avoids names := by
  induction ns with
  | nil => simp [AvoidsAll]
  | cons n rest ih => simp [AvoidsAll, ih]

mutual

theorem avoids_nil : ∀ n : Node, n.Avoids []
  | lit _ => trivial
  | binary _ left right => ⟨avoids_nil left, avoids_nil right⟩
  | stmts body => avoidsAll_nil body
  | varAssign _ value => ⟨List.not_mem_nil, avoids_nil value⟩
  | varRef _ => List.not_mem_nil
  | choice test yes no => ⟨avoids_nil test, avoids_nil yes, avoids_nil no⟩
  | loop test body => ⟨avoids_nil test, avoids_nil body⟩
  | loopAfter test body => ⟨avoids_nil test, avoids_nil body⟩
  | funcDef _ _ _ => trivial
  | funcCall _ args => avoidsAll_nil args
  | aryNew items => avoidsAll_nil items
  | aryRef container position => ⟨avoids_nil container, avoids_nil position⟩
  | aryAssign container position value => ⟨avoids_nil container, avoids_nil position, avoids_nil value⟩
  | hashNew items => avoidsAll_nil items
  | unknown _ => trivial
  | scalar => trivial
  | broken => trivial

theorem avoidsAll_nil : ∀ ns : List Node, AvoidsAll [] ns
  | [] => trivial
  | n :: rest => ⟨avoids_nil n, avoidsAll_nil rest⟩

end

end Syntax.Node

/-! ## Evaluation -/

variable {F : Frame → Frame → Prop}

theorem Eval.call_inStep (h : side.Below d d') {eval eval' : Syntax.Node → Eval Value}
    (heval : ∀ body, InStep side (Keeping [] []) (Keeping [] []) (eval body) (eval' body))
    (name : String) (args : List Value) :
    InStep side (Abreast F) (Abreast F) (call d eval name args) (call d' eval' name args) := by
  refine .get ?_
  rintro m _ ⟨frame, output, hp, hF⟩
  simp only
  split
  · exact .throw _
  · exact callBuiltin_inStep h _ _
  · refine .get ?_
    rintro m _ ⟨frame, output, hp, hF⟩
    simp only
    split
    · exact .throw _
    · next p _ =>
      have enter : InStep side (Abreast F) (Abreast F)
          (do Eval.trace s!"Entering frame for {name}"
              Eval.inFrame (.ofList (p.params.zip args)) (eval p.body))
          (do Eval.trace s!"Entering frame for {name}"
              Eval.inFrame (.ofList (p.params.zip args)) (eval' p.body)) :=
        (InStep.trace _).bind fun _ => InStep.inFrame (fun f => ⟨rfl, by simp [concealed]⟩) (heval p.body) _
      split
      · exact (InStep.throw _).bind fun _ => enter
      · exact enter

/-- A tree is evaluated in step at two depths, on machines that differ in variables which it does not mention;
and these variables stay as they are. -/
theorem evaluate_inStep (rounds : Nat) (h : side.Below d d') {hidden : List String}
    (kept : List (String × Value)) {node : Syntax.Node} (hn : node.Avoids hidden) :
    InStep side (Keeping hidden kept) (Keeping hidden kept) (evaluate rounds d node) (evaluate rounds d' node) := by
  induction h using Side.Below.induction generalizing hidden kept node with
  | spent d d' _ h0 => exact .spent (f := fun d => evaluate rounds d node) h0 fun s => ⟨s, rfl⟩
  | step d d' h _ ih =>
    unfold evaluate
    refine (Eval.traceNode_inStep node).bind fun _ => ?_
    cases node with
    | lit value => exact .onStore (Value.ofData_inStep h value)
    | binary op left right =>
      exact (ih kept hn.1).bind fun x => (ih kept hn.2).bind fun y => .onStore (Value.apply_inStep h op x y)
    | stmts body =>
      exact InStep.foldlM body _ fun _ n hb => ih kept (Syntax.Node.avoidsAll_iff.mp hn n hb)
    | varAssign x value =>
      refine (ih kept hn.2).bind fun v => InStep.bind (.modify ?_) fun _ => .pure v
      rintro m _ ⟨frame, output, hp, hF⟩
      exact .mk _ output hp (hF.insert hn.1 v)
    | varRef x =>
      refine .get ?_
      rintro m _ ⟨frame, output, hp, hF⟩
      simp only
      rw [hF.find? hn]
      split
      · exact .pure _
      · exact .throw _
    | choice test yes no =>
      refine (ih kept hn.1).bind fun v => ?_
      split
      · exact ih kept hn.2.1
      · exact ih kept hn.2.2
    | loop test body =>
      exact (InStep.whileTrue ((ih kept hn.1).bind fun _ => .pure _) ((ih kept hn.2).bind fun _ => .pure _)
        rounds).bind fun _ => .pure _
    | loopAfter test body =>
      exact (ih kept hn.2).bind fun _ => (InStep.whileTrue ((ih kept hn.1).bind fun _ => .pure _)
        ((ih kept hn.2).bind fun _ => .pure _) rounds).bind fun _ => .pure _
    | funcDef name params body => exact Eval.define_inStep name params body
    | funcCall name args =>
      refine (InStep.mapM args fun n ha => ih kept (Syntax.Node.avoidsAll_iff.mp hn n ha)).bind fun vs => ?_
      exact Eval.call_inStep h (fun body => ih [] (Syntax.Node.avoids_nil body)) name vs
    | aryNew items =>
      exact (InStep.mapM items fun n hi => ih kept (Syntax.Node.avoidsAll_iff.mp hn n hi)).bind fun vs =>
        .onStore_refl _
    | aryRef container position =>
      refine (ih kept hn.1).bind fun c => (ih kept hn.2).bind fun p => .get ?_
      rintro m _ ⟨frame, output, hp, hF⟩
      exact .lift (Value.fetch_sameUnless m.store h c p)
    | aryAssign container position value =>
      exact (ih kept hn.1).bind fun c => (ih kept hn.2.1).bind fun p => (ih kept hn.2.2).bind fun v =>
        (InStep.onStore (Value.assign_inStep h c p v)).bind fun _ => .pure v
    | hashNew items =>
      exact (InStep.onStore_refl _).bind fun table =>
        (Eval.fillHash_inStep h fun n hi => ih kept (Syntax.Node.avoidsAll_iff.mp hn n hi)).bind fun _ =>
          .pure table
    | unknown tag => exact (InStep.lift (.refl _)).bind fun _ => .throw _
    | scalar => exact .throw _
    | broken => exact .throw _

end MinRuby
