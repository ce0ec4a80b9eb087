import MinRuby.Proofs.Run.WellFormed
import MinRuby.Proofs.Syntax.Parts

/-!
# Runs under other names

What a run does is not changed when all its variables get other names, nor when its temporaries are numbered further on
and the run parses no text that needs one. `Moves ρ d x y` says so of two steps: from the machine that is renamed by `ρ`
and numbered `d` further on, the second one does what the first one does. One rule for each way to put steps together
carries it from the parts of a step to the step.

* `Moves.bind`, `Moves.inFrame`, `Moves.onStore` — the rules.
* `moves_evaluate` — the step lemma, by induction on the depth.
-/

namespace MinRuby

open Syntax (Node)

variable {ρ : String → String} {d : Nat}

/-! ## Machines under other names -/

/-- The procedure with other names for its variables. -/
def Procedure.rename (ρ : String → String) (p : Procedure) : Procedure :=
  { p with params := p.params.map ρ, body := p.body.rename ρ }

/-- The store with other names for the variables of its procedures. -/
def Store.rename (ρ : String → String) (s : Store) : Store :=
  { s with procedures := s.procedures.map (Procedure.rename ρ) }

/-- The frame with other names for its variables. -/
def renameFrame (ρ : String → String) (f : Frame) : Frame := ⟨f.entries.map fun e => (ρ e.1, e.2)⟩

/-- The machine with other names for its variables and its temporaries numbered `d` further on. -/
def Machine.moved (ρ : String → String) (d : Nat) (m : Machine) : Machine :=
  { m with store := m.store.rename ρ, frame := renameFrame ρ m.frame, nextTemporary := m.nextTemporary + d }

/-- The failure with other names for variables: the only one to name a variable is that of an unbound one. -/
def Failure.rename (ρ : String → String) : Failure → Failure
  | .runtime (.unboundVariable x) => .runtime (.unboundVariable (ρ x))
  | e => e

theorem Failure.rename_eq_self {e : Failure} (h : ∀ x, e = .runtime (.unboundVariable x) → ρ x = x) :
    e.rename ρ = e := by
  unfold rename
  split
  · next x => rw [h x rfl]
  · rfl

/-- The outcome with another state and other names in its failure. -/
def moveResult {σ α : Type} (ρ : String → String) (move : σ → σ) : EStateM.Result Failure σ α → EStateM.Result Failure σ α
  | .ok a s => .ok a (move s)
  | .error e s => .error (e.rename ρ) (move s)

/-- A failure that names no variable. -/
abbrev Anonymous (ρ : String → String) (e : Failure) : Prop := e.rename ρ = e

theorem Failure.IsImpersonal.anonymous {e : Failure} (h : e.IsImpersonal) (ρ : String → String) : Anonymous ρ e :=
  rename_eq_self fun x hx => absurd hx (h.ne_unboundVariable x)

/-- A machine on which nothing has run has no names. -/
theorem moved_fresh (ρ : String → String) (toLoad : List String) (files : Files) (n : Nat) (debug : Bool) :
    Machine.moved ρ 0 { toLoad, files, nextTemporary := n, debug } = { toLoad, files, nextTemporary := n, debug } := by
  have hstore : Store.rename ρ {} = {} := congrArg (Store.mk #[] #[]) Array.map_empty
  rw [Machine.moved, hstore]
  rfl

/-- Under the same names only the numbers are moved. -/
theorem moved_id (m : Machine) : m.moved id d = { m with nextTemporary := m.nextTemporary + d } := by
  have hprocedure : Procedure.rename id = id := by
    funext p
    rw [Procedure.rename, List.map_id, Node.rename_id]
    rfl
  have hstore : m.store.rename id = m.store := by rw [Store.rename, hprocedure, Array.map_id]
  have hframe : renameFrame id m.frame = m.frame := congrArg OrderedTable.mk (List.map_id m.frame.entries)
  rw [Machine.moved, hstore, hframe]

section

variable (hρ : Function.Injective ρ)
include hρ

theorem find?_renameFrame (f : Frame) (x : String) : (renameFrame ρ f).find? (ρ x) = f.find? x := by
  obtain ⟨entries⟩ := f
  show List.lookup (ρ x) (entries.map fun e => (ρ e.1, e.2)) = entries.lookup x
  induction entries with
  | nil => rfl
  | cons e rest ih =>
    rw [List.map_cons, List.lookup_cons, List.lookup_cons, ih]
    by_cases h : x = e.1
    · simp [h]
    · have hne : (x == e.1) = false := beq_eq_false_iff_ne.mpr h
      have hne' : (ρ x == ρ e.1) = false := beq_eq_false_iff_ne.mpr fun heq => h (hρ heq)
      rw [hne, hne']

theorem insert_renameFrame (f : Frame) (x : String) (v : Value) :
    (renameFrame ρ f).insert (ρ x) v = renameFrame ρ (f.insert x v) := by
  obtain ⟨entries⟩ := f
  refine congrArg OrderedTable.mk ?_
  show OrderedTable.insertInto (ρ x) v (entries.map fun e => (ρ e.1, e.2)) =
    (OrderedTable.insertInto x v entries).map fun e => (ρ e.1, e.2)
  induction entries with
  | nil => rfl
  | cons e rest ih =>
    rw [List.map_cons, OrderedTable.insertInto, OrderedTable.insertInto]
    by_cases h : x = e.1
    · simp [h]
    · have hne : (x == e.1) = false := beq_eq_false_iff_ne.mpr h
      have hne' : (ρ x == ρ e.1) = false := beq_eq_false_iff_ne.mpr fun heq => h (hρ heq)
      simp [hne, hne', ih]

theorem ofList_renameFrame (params : List String) (args : List Value) :
    OrderedTable.ofList ((params.map ρ).zip args) = renameFrame ρ (.ofList (params.zip args)) := by
  have hfold (f : Frame) : ((params.map ρ).zip args).foldl (fun t e => t.insert e.1 e.2) (renameFrame ρ f) =
      renameFrame ρ ((params.zip args).foldl (fun t e => t.insert e.1 e.2) f) := by
    induction params generalizing args f with
    | nil => rfl
    | cons x params ih =>
      cases args with
      | nil => rfl
      | cons v args =>
        simp only [List.map_cons, List.zip_cons_cons, List.foldl_cons]
        rw [insert_renameFrame hρ, ih]
  exact hfold .empty

end

theorem procedure?_rename (s : Store) (a : Address) : (s.rename ρ).procedure? a = (s.procedure? a).map (Procedure.rename ρ) :=
  Array.getElem?_map

/-! ## Values -/

namespace Value

variable (ρ) (s : Store)

theorem inspect_procedure_rename (depth : Nat) (a : Address) :
    (procedure a).inspect (s.rename ρ) depth = (procedure a).inspect s depth := by
  have hname : ((s.rename ρ).procedure? a).map (·.name) = (s.procedure? a).map (·.name) := by
    rw [procedure?_rename, Option.map_map]
    rfl
  have htext := congrArg (fun name : Option String =>
    (.ok ("#<" ++ Kind.userDefined.name ++ " " ++ name.getD "" ++ ">") : Except Limit String)) hname
  cases depth with
  | zero => exact htext
  | succ depth => exact htext

theorem inspect_rename (depth : Nat) : inspect (s.rename ρ) depth = inspect s depth := by
  induction depth with
  | zero =>
    funext v
    cases v with
    | procedure a => exact inspect_procedure_rename ρ s 0 a
    | _ => rfl
  | succ depth ih =>
    funext v
    cases v with
    | procedure a => exact inspect_procedure_rename ρ s _ a
    | array a =>
      have hitems := congrArg (fun shown => do
        let items ← (s.array a).toList.mapM shown
        return "[" ++ ", ".intercalate items ++ "]") ih
      exact hitems
    | hash a =>
      have hentries := congrArg (fun shown => do
        let entries ← (s.entries a).mapM fun (e : Entry) => do
          return (← shown e.key) ++ " => " ++ (← shown e.value)
        return "\x7b" ++ ", ".intercalate entries ++ "\x7d") ih
      exact hentries
    | _ => rfl

theorem display_rename (depth : Nat) (v : Value) : v.display (s.rename ρ) depth = v.display s depth := by
  cases v with
  | nil => rfl
  | str t => rfl
  | _ => exact congrFun (inspect_rename ρ s depth) _

theorem displayLines_rename (depth : Nat) : displayLines (s.rename ρ) depth = displayLines s depth := by
  induction depth with
  | zero =>
    funext v
    cases v with
    | array a => rfl
    | _ => simp only [displayLines, display_rename]
  | succ depth ih =>
    funext v
    cases v with
    | array a => simp only [displayLines, ih]; rfl
    | _ => simp only [displayLines, display_rename]

theorem equal_rename (depth : Nat) : equal (s.rename ρ) depth = equal s depth := by
  induction depth with
  | zero =>
    funext x y
    cases x <;> cases y <;> rfl
  | succ depth ih =>
    funext x y
    cases x <;> cases y <;> first | rfl | (simp only [equal, ih]; rfl)

theorem fingerprint_rename (depth : Nat) : fingerprint (s.rename ρ) depth = fingerprint s depth := by
  induction depth with
  | zero =>
    funext v
    cases v <;> rfl
  | succ depth ih =>
    funext v
    cases v <;> first | rfl | (simp only [fingerprint, ih]; rfl)

theorem fetch_rename (depth : Nat) (container index : Value) :
    fetch (s.rename ρ) depth container index = fetch s depth container index := by
  cases container with
  | array a => cases index <;> rfl
  | hash a => simp only [fetch, lookup?, fingerprint_rename, inspect_rename]; rfl
  | _ => rfl

theorem failsOnly_fingerprint_anonymous (depth : Nat) (v : Value) : FailsOnly (Anonymous ρ) (v.fingerprint s depth) :=
  fun e he => (failsOnly_fingerprint s depth v e he).anonymous ρ

theorem failsOnly_fetch_anonymous (depth : Nat) (container index : Value) :
    FailsOnly (Anonymous ρ) (container.fetch s depth index) :=
  fun e he => (failsOnly_fetch s depth container index e he).anonymous ρ

end Value

/-! ## Steps on the store -/

/-- The step does the same whatever the variables of the procedures are called, and its failures name none. -/
def Blind (ρ : String → String) {α : Type} (x : StoreM α) : Prop :=
  ∀ s, x (s.rename ρ) = moveResult ρ (Store.rename ρ) (x s)

namespace Blind

variable {α β : Type}

theorem pure (a : α) : Blind ρ (Pure.pure a) := fun _ => rfl

theorem bind {x : StoreM α} {f : α → StoreM β} (hx : Blind ρ x) (hf : ∀ a, Blind ρ (f a)) : Blind ρ (x >>= f) := by
  intro s
  change EStateM.bind x f (s.rename ρ) = moveResult ρ _ (EStateM.bind x f s)
  unfold EStateM.bind
  rw [hx s]
  cases hxs : x s with
  | ok a s' => exact hf a s'
  | error e s' => rfl

theorem get {f : Store → StoreM α} (hf : ∀ s, f (s.rename ρ) = f s) (h : ∀ s, Blind ρ (f s)) :
    Blind ρ (MonadState.get >>= f) := by
  intro s
  show f (s.rename ρ) (s.rename ρ) = moveResult ρ _ (f s s)
  rw [hf, h s s]

theorem modifyGet {f : Store → α × Store} (h : ∀ s, f (s.rename ρ) = ((f s).1, (f s).2.rename ρ)) :
    Blind ρ (MonadStateOf.modifyGet f : StoreM α) := by
  intro s
  show (match f (s.rename ρ) with | (a, s') => EStateM.Result.ok a s') = moveResult ρ _ (match f s with | (a, s') => .ok a s')
  rw [h s]
  rfl

theorem lift {x : Except Failure α} (h : FailsOnly (Anonymous ρ) x) : Blind ρ (liftM x : StoreM α) := by
  intro s
  cases x with
  | ok a => rfl
  | error e =>
    show EStateM.Result.error e (s.rename ρ) = .error (e.rename ρ) (s.rename ρ)
    rw [h e rfl]

theorem liftLimit (x : Except Limit α) : Blind ρ (liftM x : StoreM α) := by
  intro s
  cases x <;> rfl

theorem blame {e : RuntimeError} (h : Anonymous ρ (.runtime e)) : Blind ρ
    (liftM (MinRuby.blame e : Except Failure α) : StoreM α) :=
  lift (.error h)

end Blind

namespace Value

theorem blind_newArray (items : Array Value) : Blind ρ (modifyGet (·.newArray items)) := .modifyGet fun _ => rfl

theorem blind_newHash (table : HashTable) : Blind ρ (modifyGet (·.newHash table)) := .modifyGet fun _ => rfl

theorem blind_assign (depth : Nat) (container index v : Value) : Blind ρ (assign depth container index v) := by
  unfold assign
  split
  · split
    · exact (Blind.liftLimit _).bind fun _ => .blame rfl
    · exact .modifyGet fun _ => rfl
  · exact .blame rfl
  · refine .get (fun s => ?_) fun s => (Blind.lift (failsOnly_fingerprint_anonymous ρ s depth _)).bind fun k =>
      .modifyGet fun _ => rfl
    rw [fingerprint_rename]
  · exact .blame rfl

mutual

theorem blind_ofData (depth : Nat) : ∀ x : Data, Blind ρ (ofData depth x)
  | .null | .bool _ | .int _ | .float _ | .str _ => .pure _
  | .list items => (blind_ofDataAll depth items).bind fun _ => blind_newArray _
  | .tuple items => (blind_ofDataAll depth items).bind fun _ => blind_newArray _
  | .mapping entries => (blind_newHash _).bind fun table => (blind_assignEntries depth table entries).bind fun _ => .pure _

theorem blind_ofDataAll (depth : Nat) : ∀ xs : List Data, Blind ρ (ofDataAll depth xs)
  | [] => .pure _
  | x :: rest => (blind_ofData depth x).bind fun _ => (blind_ofDataAll depth rest).bind fun _ => .pure _

theorem blind_assignEntries (depth : Nat) (table : Value) : ∀ es : List (Data × Data), Blind ρ (assignEntries depth table es)
  | [] => .pure _
  | (k, v) :: rest => (blind_ofData depth k).bind fun key => (blind_ofData depth v).bind fun value =>
    (blind_assign depth table key value).bind fun _ => blind_assignEntries depth table rest

end

theorem failsOnly_repeated_anonymous {α : Type} (items : List α) (count : Int) :
    FailsOnly (Anonymous ρ) (repeated items count) :=
  fun e he => (failsOnly_repeated items count e he).anonymous ρ

theorem blind_onOthers (op : Syntax.BinaryOp) (x y : Value) : Blind ρ (onOthers op x y) := by
  unfold onOthers
  split
  · exact .pure _
  · exact .modifyGet fun _ => rfl
  · exact (Blind.lift (failsOnly_repeated_anonymous _ _)).bind fun _ => .pure _
  · exact .get (fun _ => rfl) fun s => (Blind.lift (failsOnly_repeated_anonymous _ _)).bind fun items => blind_newArray _
  · exact .pure _
  · exact .pure _
  · exact .pure _
  · exact .pure _
  · exact .blame rfl

theorem blind_apply (depth : Nat) (op : Syntax.BinaryOp) (x y : Value) : Blind ρ (apply depth op x y) := by
  have numbers (op : Syntax.BinaryOp) (a b : Numeric.Number) : Blind ρ
      (liftM ((onNumbers op a b).mapError (arithmeticError op) : Except RuntimeError Value) : StoreM Value) := by
    intro s
    cases onNumbers op a b with
    | ok v => rfl
    | error e => cases e <;> rfl
  unfold apply
  split
  · refine .get (fun s => ?_) fun s => (Blind.liftLimit _).bind fun _ => .pure _
    rw [equal_rename]
  · split
    · exact numbers _ _ _
    · exact blind_onOthers _ _ _

end Value

/-! ## Steps of the machine -/

/-- Between the machines no number was drawn, or none was moved. -/
def Calm (d : Nat) (m m' : Machine) : Prop := d = 0 ∨ m'.nextTemporary = m.nextTemporary

/-- From the moved machine the second step does what the first one does from the machine itself, unless numbers are moved
and some are drawn. Numbers are never given back, and tracing is not switched. -/
structure MovesFrom (ρ : String → String) (d : Nat) {α : Type} (x y : Eval α) (m : Machine) : Prop where
  grows : m.nextTemporary ≤ (after x m).nextTemporary
  traced : (after x m).debug = m.debug
  same : Calm d m (after x m) → y (m.moved ρ d) = moveResult ρ (Machine.moved ρ d) (x m)

/-- The same from every machine. -/
def Moves (ρ : String → String) (d : Nat) {α : Type} (x y : Eval α) : Prop := ∀ m, MovesFrom ρ d x y m

theorem after_bind {α β : Type} (x : Eval α) (f : α → Eval β) (m : Machine) :
    after (x >>= f) m = match x m with | .ok a m' => after (f a) m' | .error _ m' => m' := by
  change (match EStateM.bind x f m with | .ok _ m => m | .error _ m => m) = _
  unfold EStateM.bind
  cases x m <;> rfl

namespace Moves

variable {α β : Type}

theorem pure (a : α) : Moves ρ d (Pure.pure a) (Pure.pure a) := fun _ => ⟨Nat.le_refl _, rfl, fun _ => rfl⟩

theorem throw {e e' : Failure} (h : e.rename ρ = e') : Moves ρ d (MonadExcept.throw e : Eval α) (MonadExcept.throw e') :=
  fun _ => ⟨Nat.le_refl _, rfl, fun _ => congrArg (EStateM.Result.error · _) h.symm⟩

theorem bind {x y : Eval α} {f g : α → Eval β} (h : Moves ρ d x y) (hf : ∀ a, Moves ρ d (f a) (g a)) :
    Moves ρ d (x >>= f) (y >>= g) := by
  intro m
  obtain ⟨hgrows, htraced, hsame⟩ := h m
  have hrun : (x >>= f) m = EStateM.bind x f m := rfl
  have hrun' : (y >>= g) (m.moved ρ d) = EStateM.bind y g (m.moved ρ d) := rfl
  cases hx : x m with
  | ok a m' =>
    have hmid : after x m = m' := by rw [after, hx]
    have hend : after (x >>= f) m = after (f a) m' := by rw [after_bind, hx]
    obtain ⟨hgrows', htraced', hsame'⟩ := hf a m'
    rw [hmid] at hgrows htraced hsame
    refine ⟨hend ▸ hgrows.trans hgrows', hend ▸ htraced'.trans htraced, fun hcalm => ?_⟩
    -- what grows and comes out as it was has not grown in between
    rw [hend] at hcalm
    have hfirst : Calm d m m' := hcalm.imp_right fun h => Nat.le_antisymm (Nat.le_trans hgrows' (Nat.le_of_eq h)) hgrows
    have hsecond : Calm d m' (after (f a) m') := hcalm.imp_right fun h =>
      Nat.le_antisymm (Nat.le_trans (Nat.le_of_eq h) hgrows) hgrows'
    rw [hrun, hrun', EStateM.bind, EStateM.bind, hsame hfirst, hx]
    exact hsame' hsecond
  | error e m' =>
    have hmid : after x m = m' := by rw [after, hx]
    have hend : after (x >>= f) m = m' := by rw [after_bind, hx]
    rw [hmid] at hgrows htraced hsame
    refine ⟨hend ▸ hgrows, hend ▸ htraced, fun hcalm => ?_⟩
    rw [hrun, hrun', EStateM.bind, EStateM.bind, hsame (hend ▸ hcalm), hx]
    rfl

theorem get {f g : Machine → Eval α} (h : ∀ m, Moves ρ d (f m) (g (m.moved ρ d))) :
    Moves ρ d (MonadState.get >>= f) (MonadState.get >>= g) :=
  fun m => ⟨(h m m).grows, (h m m).traced, (h m m).same⟩

theorem modify {f g : Machine → Machine} (hnext : ∀ m, (f m).nextTemporary = m.nextTemporary)
    (hdebug : ∀ m, (f m).debug = m.debug)
    (h : ∀ m, g (m.moved ρ d) = (f m).moved ρ d) : Moves ρ d (modify f : Eval PUnit) (modify g) :=
  fun m => ⟨Nat.le_of_eq (hnext m).symm, hdebug m, fun _ => congrArg (EStateM.Result.ok ()) (h m)⟩

theorem mapM {γ : Type} (r : γ → γ) {f g : γ → Eval α} (l : List γ) (h : ∀ c ∈ l, Moves ρ d (f c) (g (r c))) :
    Moves ρ d (l.mapM f) ((l.map r).mapM g) := by
  induction l with
  | nil => exact .pure []
  | cons c l ih =>
    rw [List.map_cons, List.mapM_cons, List.mapM_cons]
    exact (h c List.mem_cons_self).bind fun b =>
      (ih fun c hc => h c (List.mem_cons_of_mem _ hc)).bind fun bs => .pure (b :: bs)

theorem forM {γ : Type} {f g : γ → Eval PUnit} (l : List γ) (h : ∀ c ∈ l, Moves ρ d (f c) (g c)) :
    Moves ρ d (l.forM f) (l.forM g) := by
  induction l with
  | nil => exact .pure ()
  | cons c l ih =>
    exact (h c List.mem_cons_self).bind fun _ => ih fun c hc => h c (List.mem_cons_of_mem _ hc)

theorem foldlM {γ : Type} (r : γ → γ) {f g : α → γ → Eval α} (l : List γ) (a : α)
    (h : ∀ a, ∀ c ∈ l, Moves ρ d (f a c) (g a (r c))) :
    Moves ρ d (l.foldlM f a) ((l.map r).foldlM g a) := by
  induction l generalizing a with
  | nil => exact .pure a
  | cons c l ih =>
    rw [List.map_cons, List.foldlM_cons, List.foldlM_cons]
    exact (h a c List.mem_cons_self).bind fun a' => ih a' fun a c hc => h a c (List.mem_cons_of_mem _ hc)

theorem lift {x : Except Failure α} (h : FailsOnly (Anonymous ρ) x) : Moves ρ d (liftM x : Eval α) (liftM x) := by
  cases x with
  | ok a => exact pure a
  | error e => exact throw (h e rfl)

theorem liftLimit (x : Except Limit α) : Moves ρ d (liftM x : Eval α) (liftM x) := by
  cases x with
  | ok a => exact pure a
  | error e => exact throw rfl

theorem fail {e e' : RuntimeError} (h : (Failure.runtime e).rename ρ = .runtime e') :
    Moves ρ d (Eval.fail e : Eval α) (Eval.fail e') := throw h

theorem onStore {x y : StoreM α} (h : ∀ s, y (s.rename ρ) = moveResult ρ (Store.rename ρ) (x s)) :
    Moves ρ d (Eval.onStore x) (Eval.onStore y) := by
  intro m
  have hstore := h m.store
  have hafter : (after (Eval.onStore x) m).nextTemporary = m.nextTemporary ∧ (after (Eval.onStore x) m).debug = m.debug := by
    unfold after Eval.onStore
    simp only
    cases x m.store <;> exact ⟨rfl, rfl⟩
  refine ⟨Nat.le_of_eq hafter.1.symm, hafter.2, fun _ => ?_⟩
  unfold Eval.onStore
  simp only [show (m.moved ρ d).store = m.store.rename ρ from rfl, hstore]
  cases x m.store <;> rfl

theorem reading {read read' : Store → Except Limit α} (h : ∀ s, read' (s.rename ρ) = read s) :
    Moves ρ d (Eval.reading read) (Eval.reading read') := by
  refine get fun m => ?_
  rw [show read' (m.moved ρ d).store = read m.store from h m.store]
  exact liftLimit _

/-- A step in a frame of its own. -/
theorem inFrame {x y : Eval α} (h : Moves ρ d x y) {f f' : Frame} (hf : f' = renameFrame ρ f) :
    Moves ρ d (Eval.inFrame f x) (Eval.inFrame f' y) := by
  subst hf
  intro m
  obtain ⟨hgrows, htraced, hsame⟩ := h { m with frame := f }
  have hafter : after (Eval.inFrame f x) m = { after x { m with frame := f } with frame := m.frame } := by
    unfold after Eval.inFrame
    cases x { m with frame := f } <;> rfl
  refine ⟨by rw [hafter]; exact hgrows, by rw [hafter]; exact htraced, fun hcalm => ?_⟩
  rw [hafter] at hcalm
  show (match y (Machine.moved ρ d { m with frame := f }) with
    | .ok a m' => EStateM.Result.ok a { m' with frame := renameFrame ρ m.frame }
    | .error e m' => .error e { m' with frame := renameFrame ρ m.frame }) = moveResult ρ _ (Eval.inFrame f x m)
  rw [hsame hcalm]
  unfold Eval.inFrame
  cases x { m with frame := f } <;> rfl

theorem emit (text : String) : Moves ρ d (Eval.emit text) (Eval.emit text) :=
  modify (fun _ => rfl) (fun _ => rfl) fun _ => rfl

theorem trace (line : String) : Moves ρ d (Eval.trace line) (Eval.trace line) := by
  refine get fun m => ?_
  show Moves ρ d (if m.debug = true then _ else _) (if m.debug = true then _ else _)
  split
  · exact modify (fun _ => rfl) (fun _ => rfl) fun _ => rfl
  · exact pure _

theorem whileTrue {test test' : Eval Bool} {body body' : Eval Unit} (ht : Moves ρ d test test') (hb : Moves ρ d body body')
    (rounds : Nat) : Moves ρ d (Eval.whileTrue test body rounds) (Eval.whileTrue test' body' rounds) := by
  induction rounds with
  | zero => exact throw rfl
  | succ rounds ih =>
    refine ht.bind fun b => ?_
    cases b with
    | false => exact pure ()
    | true => exact hb.bind fun _ => ih

end Moves

/-! ## Parsing -/

theorem failsOnly_readProgram_anonymous (source filename : String) : FailsOnly (Anonymous ρ)
    (Syntax.readProgram source filename) := by
  unfold Syntax.readProgram Syntax.readWhole
  simp only
  split
  · exact .error rfl
  · exact .error rfl
  · split
    · exact .ok _
    · exact .error rfl

section

open Syntax (compile)

variable {source filename : String} {known : List String} {ts : List Syntax.Term}

theorem parseProgram_of_error {e : Failure} (h : Syntax.readProgram source filename = .error e) (m : Machine) :
    Eval.parseProgram source filename known m = .error e m := by
  have hparse (n : Nat) : Syntax.parseProgram source filename known n = .error e := by
    unfold Syntax.parseProgram
    rw [h]
    rfl
  show (liftM (Syntax.parseProgram source filename known _) >>= _ : Eval Node) m = _
  rw [hparse]
  rfl

/-- A traced run numbers the temporaries of each program from one. -/
theorem parseProgram_of_traced (h : Syntax.readProgram source filename = .ok (.block ts)) {m : Machine}
    (hdebug : m.debug = true) :
    Eval.parseProgram source filename known m = (do
      Eval.trace (parsedNote (.stmts (compile ts known 1).1) filename)
      return .stmts (compile ts known 1).1 : Eval Node) m := by
  show (liftM (Syntax.parseProgram source filename known (if m.debug then 1 else _)) >>= _ : Eval Node) m = _
  rw [if_pos hdebug, Syntax.parseProgram_of_readProgram h]
  exact congrFun (if_pos hdebug) m

/-- A run that is not traced numbers on. -/
theorem parseProgram_of_untraced (h : Syntax.readProgram source filename = .ok (.block ts)) {m : Machine}
    (hdebug : m.debug = false) :
    Eval.parseProgram source filename known m =
      .ok (.stmts (compile ts known m.nextTemporary).1) { m with nextTemporary := (compile ts known m.nextTemporary).2.2 } := by
  have hoff : ¬ m.debug = true := by rw [hdebug]; exact Bool.false_ne_true
  show (liftM (Syntax.parseProgram source filename known (if m.debug then 1 else _)) >>= _ : Eval Node) m = _
  rw [if_neg hoff, Syntax.parseProgram_of_readProgram h]
  exact congrFun (if_neg hoff) m

/-- What happens from one machine decides whether a step is moved from it. -/
theorem MovesFrom.congr {α : Type} {x x' y y' : Eval α} {m : Machine} (h : MovesFrom ρ d x y m) (hx : x' m = x m)
    (hy : y' (m.moved ρ d) = y (m.moved ρ d)) : MovesFrom ρ d x' y' m := by
  have hafter : after x' m = after x m := by rw [after, after, hx]
  exact ⟨by rw [hafter]; exact h.grows, by rw [hafter]; exact h.traced, by rw [hafter, hx, hy]; exact h.same⟩

theorem moves_parseProgram (source filename : String) (known : List String) :
    Moves ρ d (Eval.parseProgram source filename known) (Eval.parseProgram source filename known) := by
  intro m
  cases hread : Syntax.readProgram source filename with
  | error e =>
    have hthrow := Moves.throw (d := d) (α := Node) (failsOnly_readProgram_anonymous (ρ := ρ) source filename e hread) m
    exact hthrow.congr (parseProgram_of_error hread m) (parseProgram_of_error hread _)
  | ok t =>
    obtain ⟨ts, -, rfl, -⟩ := Syntax.readProgram_eq_ok_iff.mp hread
    by_cases hdebug : m.debug = true
    · have hnote := (Moves.trace (ρ := ρ) (d := d) (parsedNote (.stmts (compile ts known 1).1) filename)).bind
        fun _ => .pure (Node.stmts (compile ts known 1).1)
      exact (hnote m).congr (parseProgram_of_traced hread hdebug) (parseProgram_of_traced hread hdebug)
    · have hoff : m.debug = false := eq_false_of_ne_true hdebug
      have hparse (m : Machine) (hoff : m.debug = false) : Eval.parseProgram source filename known m = _ :=
        parseProgram_of_untraced hread hoff
      have hrun := hparse m hoff
      have hafter : after (Eval.parseProgram source filename known) m =
          { m with nextTemporary := (compile ts known m.nextTemporary).2.2 } := by rw [after, hrun]
      have hwords := Syntax.isIdentifier_of_readProgram hread
      obtain ⟨-, -, i, hi, -⟩ := Syntax.compile_renumber hwords (.refl known) m.nextTemporary m.nextTemporary
      refine ⟨by rw [hafter]; exact hi ▸ Nat.le_add_right _ _, by rw [hafter], fun hcalm => ?_⟩
      rw [hafter] at hcalm
      have hrun' := hparse (m.moved ρ d) hoff
      rw [hrun, hrun']
      -- the trees are the same ones, and the numbers behind them lie equally far apart
      have hsame : (compile ts known (m.nextTemporary + d)).1 = (compile ts known m.nextTemporary).1 ∧
          (compile ts known (m.nextTemporary + d)).2.2 = (compile ts known m.nextTemporary).2.2 + d := by
        rcases hcalm with rfl | hcount
        · exact ⟨rfl, rfl⟩
        · obtain ⟨htrees, hnext⟩ := Syntax.compile_of_count_eq hwords hcount (m.nextTemporary + d)
          exact ⟨htrees, hnext.trans (congrArg (· + d) hcount.symm)⟩
      show EStateM.Result.ok (Node.stmts (compile ts known (m.nextTemporary + d)).1)
        { m.moved ρ d with nextTemporary := (compile ts known (m.nextTemporary + d)).2.2 } = _
      rw [hsame.1, hsame.2]
      rfl

end

/-! ## Builtins -/

theorem moves_newArray (items : Array Value) :
    Moves ρ d (Eval.onStore (modifyGet (·.newArray items))) (Eval.onStore (modifyGet (·.newArray items))) :=
  .onStore (Value.blind_newArray items)

namespace Builtin

theorem moves_runP (depth : Nat) (args : List Value) : Moves ρ d (runP depth args) (runP depth args) := by
  refine (Moves.forM args fun v _ => ?_).bind fun _ => ?_
  · exact (Moves.reading fun s => congrFun (Value.inspect_rename ρ s depth) v).bind fun _ => .emit _
  · split
    · exact .pure _
    · exact .pure _
    · exact moves_newArray _

theorem moves_runPrint (depth : Nat) (args : List Value) : Moves ρ d (runPrint depth args) (runPrint depth args) := by
  refine (Moves.reading fun s => ?_).bind fun _ => (Moves.emit _).bind fun _ => .pure _
  rw [show (fun v => Value.display (s.rename ρ) depth v) = fun v => v.display s depth from
    funext (Value.display_rename ρ s depth)]

theorem moves_runPuts (depth : Nat) (args : List Value) : Moves ρ d (runPuts depth args) (runPuts depth args) := by
  have lines : Moves ρ d (do
      args.forM fun v => do
        (← Eval.reading (v.displayLines · depth)).forM fun line => Eval.emit (asLine line)
      return Value.nil) (do
      args.forM fun v => do
        (← Eval.reading (v.displayLines · depth)).forM fun line => Eval.emit (asLine line)
      return Value.nil) := by
    refine (Moves.forM args fun v _ => ?_).bind fun _ => .pure _
    exact (Moves.reading fun s => congrFun (Value.displayLines_rename ρ s depth) v).bind fun _ => .forM _ fun _ _ => .emit _
  unfold runPuts
  split
  · exact (Moves.emit _).bind fun _ => lines
  · exact lines

theorem moves_runRequire (name : Value) : Moves ρ d (runRequire name) (runRequire name) := by
  unfold runRequire
  split
  · split
    · exact .pure _
    · exact .fail rfl
  · exact .fail rfl

theorem moves_runLoad : Moves ρ d runLoad runLoad := by
  unfold runLoad
  refine .get fun m => ?_
  rw [show (m.moved ρ d).toLoad = m.toLoad from rfl]
  cases m.toLoad with
  | nil => exact .fail rfl
  | cons path rest =>
    refine Moves.bind (.modify (fun _ => rfl) (fun _ => rfl) fun _ => rfl) fun _ => .get fun m => ?_
    rw [show (m.moved ρ d).files = m.files from rfl]
    cases m.files.read path with
    | ok text => exact .pure _
    | error e => exact .fail rfl

theorem moves_runParse (depth : Nat) (source : Value) : Moves ρ d (runParse depth source) (runParse depth source) := by
  unfold runParse
  split
  · exact (moves_parseProgram _ _ _).bind fun _ => .onStore (Value.blind_ofData depth _)
  · exact .fail rfl

theorem moves_runCall {call call' : String → List Value → Eval Value}
    (hcall : ∀ name args, Moves ρ d (call name args) (call' name args))
    (name args : Value) : Moves ρ d (runCall call name args) (runCall call' name args) := by
  unfold runCall
  split
  · exact .get fun m => hcall _ _
  · exact .fail rfl
  · exact .fail rfl

theorem moves_run {call call' : String → List Value → Eval Value}
    (hcall : ∀ name args, Moves ρ d (call name args) (call' name args))
    (b : Builtin) (depth : Nat) (args : List Value) : Moves ρ d (b.run depth call args) (b.run depth call' args) := by
  unfold run
  split
  · exact moves_runP depth _
  · exact moves_runPrint depth _
  · exact moves_runPuts depth _
  · exact moves_runRequire _
  · exact moves_runLoad
  · exact moves_runParse depth _
  · exact moves_runCall hcall _ _
  · exact .fail rfl

end Builtin

theorem moves_callBuiltin (depth : Nat) (name : String) (args : List Value) :
    Moves ρ d (callBuiltin depth name args) (callBuiltin depth name args) := by
  induction depth generalizing name args with
  | zero => exact .throw rfl
  | succ depth ih =>
    unfold callBuiltin
    split
    · exact .fail rfl
    · next b _ =>
      have rest := (Moves.trace (ρ := ρ) (d := d) s!"Calling builtin {name} with {args.length} arguments").bind
        fun _ => b.moves_run ih depth args
      split
      · split
        · exact (Moves.fail rfl).bind fun _ => rest
        · exact rest
      · exact rest

/-! ## Trees -/

theorem traceNode_rename (node : Node) : Eval.traceNode (node.rename ρ) = Eval.traceNode node := by cases node <;> rfl

theorem moves_traceNode (node : Node) : Moves ρ d (Eval.traceNode node) (Eval.traceNode (node.rename ρ)) := by
  rw [traceNode_rename]
  unfold Eval.traceNode
  split
  · exact .pure _
  · exact .pure _
  · refine .get fun m => ?_
    show Moves ρ d (if m.debug = true then _ else _) (if m.debug = true then _ else _)
    split
    · simp only
      split
      · exact (Moves.throw rfl).bind fun _ => .trace _
      · exact .trace _
    · exact .pure _

theorem moves_define (name : String) (params : List String) (body : Node) :
    Moves ρ d (Eval.define name params body) (Eval.define name (params.map ρ) (body.rename ρ)) := by
  refine (Moves.onStore fun s => ?_).bind fun a => Moves.bind (.modify (fun _ => rfl) (fun _ => rfl) fun _ => rfl)
    fun _ => .pure _
  show EStateM.Result.ok (s.procedures.map _).size { s with procedures := (s.procedures.map _).push _ } =
    .ok s.procedures.size { s with procedures := (s.procedures.push _).map (Procedure.rename ρ) }
  rw [Array.size_map, Array.map_push]
  rfl

theorem moves_fillHash {depth : Nat} {table : Value} {eval eval' : Node → Eval Value} :
    ∀ {items : List Node}, (∀ n ∈ items, Moves ρ d (eval n) (eval' (n.rename ρ))) →
      Moves ρ d (Eval.fillHash depth table eval items) (Eval.fillHash depth table eval' (items.map (Node.rename ρ)))
  | [], _ => .pure ()
  | [_], _ => .pure ()
  | key :: value :: rest, heval => by
    have hkey := heval key (by simp)
    have hvalue := heval value (by simp)
    refine hkey.bind fun k => hvalue.bind fun v => ?_
    exact (Moves.onStore (Value.blind_assign depth table k v)).bind fun _ => moves_fillHash fun n hn => heval n (by simp [hn])

theorem moves_call (hρ : Function.Injective ρ) {depth : Nat} {eval eval' : Node → Eval Value}
    (heval : ∀ body, Moves ρ d (eval body) (eval' (body.rename ρ))) (name : String) (args : List Value) :
    Moves ρ d (Eval.call depth eval name args) (Eval.call depth eval' name args) := by
  unfold Eval.call
  refine .get fun m => ?_
  rw [show (m.moved ρ d).functions = m.functions from rfl]
  rcases m.functions.find? name with - | b | a
  · exact .fail rfl
  · exact moves_callBuiltin _ _ _
  · refine .get fun m => ?_
    rw [show (m.moved ρ d).store.procedure? a = (m.store.procedure? a).map (Procedure.rename ρ) from procedure?_rename _ _]
    cases m.store.procedure? a with
    | none => exact .fail rfl
    | some p =>
      have enter := (Moves.trace (ρ := ρ) (d := d) s!"Entering frame for {name}").bind fun _ =>
        (heval p.body).inFrame (ofList_renameFrame hρ p.params args)
      have hlength : (p.rename ρ).params.length = p.params.length := List.length_map ρ
      show Moves ρ d (if args.length ≠ p.params.length then _ else _) (if args.length ≠ (p.rename ρ).params.length then _ else _)
      rw [hlength]
      split
      · exact (Moves.fail rfl).bind fun _ => enter
      · exact enter

/-- The renamed tree does from the moved machine what the tree does from the machine itself. -/
theorem moves_evaluate (hρ : Function.Injective ρ) (rounds depth : Nat) (node : Node) :
    Moves ρ d (evaluate rounds depth node) (evaluate rounds depth (node.rename ρ)) := by
  induction depth generalizing node with
  | zero => exact .throw rfl
  | succ depth ih =>
    have test (t : Node) : Moves ρ d (do return (← evaluate rounds depth t).truthy)
        (do return (← evaluate rounds depth (t.rename ρ)).truthy) := (ih t).bind fun _ => .pure _
    have body (b : Node) : Moves ρ d (do let _ ← evaluate rounds depth b) (do let _ ← evaluate rounds depth (b.rename ρ)) :=
      (ih b).bind fun _ => .pure _
    unfold evaluate
    refine (moves_traceNode node).bind fun _ => ?_
    cases node with
    | lit value => exact .onStore (Value.blind_ofData depth value)
    | binary op left right => exact (ih left).bind fun x => (ih right).bind fun y => .onStore (Value.blind_apply depth op x y)
    | stmts ns =>
      simp only [Node.rename, Node.renameAll_eq_map]
      exact .foldlM _ ns _ fun _ n _ => ih n
    | varAssign x value =>
      exact (ih value).bind fun v => Moves.bind (.modify (fun _ => rfl) (fun _ => rfl) fun m =>
        congrArg (fun frame => { m.moved ρ d with frame }) (insert_renameFrame hρ m.frame x v)) fun _ => .pure v
    | varRef x =>
      refine .get fun m => ?_
      rw [show (m.moved ρ d).frame.find? (ρ x) = m.frame.find? x from find?_renameFrame hρ m.frame x]
      split
      · exact .pure _
      · exact .fail rfl
    | choice t yes no =>
      refine (ih t).bind fun v => ?_
      split
      · exact ih yes
      · exact ih no
    | loop t b => exact (Moves.whileTrue (test t) (body b) rounds).bind fun _ => .pure _
    | loopAfter t b => exact (ih b).bind fun _ => (Moves.whileTrue (test t) (body b) rounds).bind fun _ => .pure _
    | funcDef name params b => exact moves_define name params b
    | funcCall name args =>
      simp only [Node.rename, Node.renameAll_eq_map]
      exact (Moves.mapM _ args fun n _ => ih n).bind fun vs => moves_call hρ ih name vs
    | aryNew items =>
      simp only [Node.rename, Node.renameAll_eq_map]
      exact (Moves.mapM _ items fun n _ => ih n).bind fun vs => moves_newArray _
    | aryRef container position =>
      refine (ih container).bind fun c => (ih position).bind fun p => .get fun m => ?_
      rw [show c.fetch (m.moved ρ d).store depth p = c.fetch m.store depth p from Value.fetch_rename ρ m.store depth c p]
      exact .lift (Value.failsOnly_fetch_anonymous ρ m.store depth c p)
    | aryAssign container position value =>
      exact (ih container).bind fun c => (ih position).bind fun p => (ih value).bind fun v =>
        (Moves.onStore (Value.blind_assign depth c p v)).bind fun _ => .pure v
    | hashNew items =>
      simp only [Node.rename, Node.renameAll_eq_map]
      exact (Moves.onStore (Value.blind_newHash .empty)).bind fun table =>
        (moves_fillHash fun n _ => ih n).bind fun _ => .pure table
    | unknown tag => exact (Moves.liftLimit _).bind fun _ => .fail rfl
    | scalar => exact .throw rfl
    | broken => exact .throw rfl

end MinRuby
