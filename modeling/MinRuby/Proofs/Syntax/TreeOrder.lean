import MinRuby.Proofs.Syntax.SourceOrder
import MinRuby.Proofs.Syntax.Vocabulary

/-!
# Names in the order of the tree

What the resolution of names does to the tree that a term is reduced to. The tree that it gives is compared
with that of the term whose names are settled in source order: the two are the same exactly if the orders
agree on every name.

* `learns_desugar` — the names that are known behind the tree of a term.
* `settled_of_isIdentifier` — the two trees of a term, by induction on the term.
* `parseProgram_in_source_order_iff` — the same for a program.
-/

namespace MinRuby.Syntax

/-! ## Resolution of what is spelt out -/

namespace Node

/-- The names known before a step are known after it. -/
def Retains {α : Type} (step : Scoped α) : Prop := ∀ known, known ⊆ (step.run known).2

namespace Retains

variable {α β : Type}

theorem pure (a : α) : Retains (Pure.pure a) := fun _ _ hx => hx

theorem get {f : List String → Scoped α} (h : ∀ known, Retains (f known)) : Retains (MonadState.get >>= f) :=
  fun known => h known known

theorem add (x : String) : Retains (modify (x :: ·)) := fun _ _ hy => List.mem_cons_of_mem x hy

theorem bind {step : Scoped α} {f : α → Scoped β} (h : Retains step) (hf : ∀ a, Retains (f a)) :
    Retains (step >>= f) := fun known _ hx => hf _ _ (h known hx)

end Retains

mutual

theorem retains_resolve : ∀ n : Node, Retains n.resolve
  | lit _ => .pure _
  | binary _ left right => (retains_resolve left).bind fun _ => (retains_resolve right).bind fun _ => .pure _
  | stmts body => (retains_resolveAll body).bind fun _ => .pure _
  | varAssign x value => (retains_resolve value).bind fun _ => (Retains.add x).bind fun _ => .pure _
  | varRef _ => .get fun _ => .pure _
  | choice test yes no => (retains_resolve test).bind fun _ => (retains_resolve yes).bind fun _ =>
    (retains_resolve no).bind fun _ => .pure _
  | loop test body => (retains_resolve test).bind fun _ => (retains_resolve body).bind fun _ => .pure _
  | loopAfter test body => (retains_resolve body).bind fun _ => (retains_resolve test).bind fun _ => .pure _
  | funcDef _ _ _ => .pure _
  | funcCall _ args => (retains_resolveAll args).bind fun _ => .pure _
  | aryNew items => (retains_resolveAll items).bind fun _ => .pure _
  | aryRef container position =>
    (retains_resolve container).bind fun _ => (retains_resolve position).bind fun _ => .pure _
  | aryAssign container position value => (retains_resolve container).bind fun _ =>
    (retains_resolve position).bind fun _ => (retains_resolve value).bind fun _ => .pure _
  | hashNew items => (retains_resolveAll items).bind fun _ => .pure _
  | unknown _ => .pure _
  | scalar => .pure _
  | broken => .pure _

theorem retains_resolveAll : ∀ ns : List Node, Retains (resolveAll ns)
  | [] => .pure _
  | n :: rest => (retains_resolve n).bind fun _ => (retains_resolveAll rest).bind fun _ => .pure _

end

theorem resolve_bothOf (temporary : String) (left right : Node) (known : List String) :
    (bothOf temporary left right).resolve.run known =
      (let l := left.resolve.run known
      let r := right.resolve.run (temporary :: l.2)
      (bothOf temporary l.1 r.1, r.2)) := by
  let l := left.resolve.run known
  let r := right.resolve.run (temporary :: l.2)
  have h₁ : temporary ∈ temporary :: l.2 := List.mem_cons_self
  have h₂ : temporary ∈ r.2 := retains_resolve right _ h₁
  show (stmts [varAssign temporary l.1,
    choice (if temporary ∈ temporary :: l.2 then varRef temporary else funcCall temporary []) r.1
      (if temporary ∈ r.2 then varRef temporary else funcCall temporary [])], r.2) = _
  rw [if_pos h₁, if_pos h₂]
  rfl

theorem resolve_eitherOf (temporary : String) (left right : Node) (known : List String) :
    (eitherOf temporary left right).resolve.run known =
      (let l := left.resolve.run known
      let r := right.resolve.run (temporary :: l.2)
      (eitherOf temporary l.1 r.1, r.2)) := by
  let l := left.resolve.run known
  let r := right.resolve.run (temporary :: l.2)
  have h : temporary ∈ temporary :: l.2 := List.mem_cons_self
  show (stmts [varAssign temporary l.1,
    choice (if temporary ∈ temporary :: l.2 then varRef temporary else funcCall temporary [])
      (if temporary ∈ temporary :: l.2 then varRef temporary else funcCall temporary []) r.1], r.2) = _
  rw [if_pos h]
  rfl

theorem resolve_matchesAny {temporary : String} (values : List Node) {known : List String}
    (h : temporary ∈ known) :
    (matchesAny temporary values).resolve.run known =
      (let vs := (resolveAll values).run known
      (matchesAny temporary vs.1, vs.2)) := by
  induction values generalizing known with
  | nil => rfl
  | cons value rest ih =>
    let v := value.resolve.run known
    have hv : temporary ∈ v.2 := retains_resolve value _ h
    cases rest with
    | nil =>
      show (binary .eq (if temporary ∈ known then varRef temporary else funcCall temporary []) v.1, v.2) = _
      rw [if_pos h]
      rfl
    | cons w rest =>
      let vs := (resolveAll (w :: rest)).run v.2
      have hrest := ih hv
      show (choice (binary .eq (if temporary ∈ known then varRef temporary else funcCall temporary []) v.1)
        trueLit ((matchesAny temporary (w :: rest)).resolve.run v.2).1,
        ((matchesAny temporary (w :: rest)).resolve.run v.2).2) = _
      rw [if_pos h, hrest]
      rfl

/-- The negative of a tree resolved is the negative of the resolved tree. -/
theorem resolve_negative (n : Node) (known : List String) :
    (negative n).resolve.run known = (negative (n.resolve.run known).1, (n.resolve.run known).2) := by
  cases n with
  | lit value => cases value <;> rfl
  | varRef x =>
    show (binary .sub (lit (.int 0)) (if x ∈ known then varRef x else funcCall x []), known) =
      (negative (if x ∈ known then varRef x else funcCall x []), known)
    split <;> rfl
  | _ => rfl

theorem resolve_ne_lit {n : Node} (h : ∀ value, n ≠ lit value) (known : List String) (value : Data) :
    (n.resolve.run known).1 ≠ lit value := by
  cases n with
  | lit d => exact absurd rfl (h d)
  | varRef x =>
    show (if x ∈ known then varRef x else funcCall x []) ≠ lit value
    split <;> nofun
  | _ => nofun

theorem negative_of_ne_lit {n : Node} (h : ∀ value, n ≠ lit value) : negative n = binary .sub (lit (.int 0)) n := by
  cases n with
  | lit d => exact absurd rfl (h d)
  | _ => rfl

theorem negative_eq_iff {a b : Node} (h : ∀ value, a ≠ lit value) : negative a = negative b ↔ a = b := by
  rw [negative_of_ne_lit h]
  constructor
  · intro heq
    unfold negative at heq
    split at heq
    · cases heq
    · cases heq
    · exact (binary.inj heq).2.2
  · rintro rfl
    exact (negative_of_ne_lit h).symm

theorem assignThen_eq_iff {t t' : String} {l r l' r' : Node} (ht : t = t') :
    stmts [varAssign t l, r] = stmts [varAssign t' l', r'] ↔ l = l' ∧ r = r' := by
  refine ⟨fun h => ?_, fun h => by rw [ht, h.1, h.2]⟩
  obtain ⟨hassign, htail⟩ := List.cons.inj (stmts.inj h)
  exact ⟨(varAssign.inj hassign).2, (List.cons.inj htail).1⟩

theorem bothOf_eq_iff {t t' : String} {l r l' r' : Node} (ht : t = t') :
    bothOf t l r = bothOf t' l' r' ↔ l = l' ∧ r = r' := by
  subst ht
  exact (assignThen_eq_iff rfl).trans (and_congr_right fun _ => by
    rw [choice.injEq, and_iff_right rfl, and_iff_left rfl])

theorem eitherOf_eq_iff {t t' : String} {l r l' r' : Node} (ht : t = t') :
    eitherOf t l r = eitherOf t' l' r' ↔ l = l' ∧ r = r' := by
  subst ht
  exact (assignThen_eq_iff rfl).trans (and_congr_right fun _ => by
    rw [choice.injEq, and_iff_right rfl, and_iff_right rfl])

theorem negate_eq_iff {a b : Node} : negate a = negate b ↔ a = b :=
  ⟨fun h => (choice.inj h).1, fun h => by rw [h]⟩

/-- How a name is read is the same for two lists exactly if both or none hold it. -/
theorem read_eq_iff {x : String} {known known' : List String} :
    ((if x ∈ known then varRef x else funcCall x [] : Node) = if x ∈ known' then varRef x else funcCall x []) ↔
      (x ∈ known ↔ x ∈ known') := by
  by_cases h : x ∈ known <;> by_cases h' : x ∈ known' <;> simp [h, h']

theorem matchesAny_eq_iff {temporary : String} {vs ws : List Node} :
    matchesAny temporary vs = matchesAny temporary ws ↔ vs = ws := by
  refine ⟨fun h => ?_, fun h => by rw [h]⟩
  induction vs generalizing ws with
  | nil =>
    match ws with
    | [] => rfl
    | [w] => cases h
    | w :: w' :: ws => cases h
  | cons v vs ih =>
    match vs, ws with
    | [], [] => cases h
    | _ :: _, [] => cases h
    | [], [w] => rw [(binary.inj h).2.2]
    | [], w :: w' :: ws => cases h
    | v' :: vs, [w] => cases h
    | v' :: vs, w :: w' :: ws =>
      obtain ⟨htest, -, hrest⟩ := choice.inj h
      rw [(binary.inj htest).2.2, ih hrest]

end Node

/-! ## Names known in the order of the tree -/

theorem not_isIdentifier_of_isTemporary {x : String} (h : IsTemporary x) : ¬ IsIdentifier x := by
  obtain ⟨construct, -, n, rfl⟩ := h
  rintro ⟨first, more, mark, hs, hfirst, -⟩
  have hhead : ("%" ++ construct ++ toString n).toList.head? = some '%' := by simp
  rw [hs] at hhead
  obtain rfl : first = '%' := by simpa using hhead
  exact absurd hfirst (by decide)

/-- The lists hold the same names that a program can write. -/
def Follows (known tree : List String) : Prop := ∀ x, IsIdentifier x → (x ∈ known ↔ x ∈ tree)

namespace Follows

variable {known tree tree' : List String}

theorem refl (known : List String) : Follows known known := fun _ _ => Iff.rfl

theorem congr (h : Follows known tree) (hmem : ∀ x, x ∈ tree ↔ x ∈ tree') : Follows known tree' :=
  fun x hx => (h x hx).trans (hmem x)

theorem temporary {x : String} (hx : IsTemporary x) (h : Follows known tree) : Follows (x :: known) tree := by
  intro y hy
  have hne : y ≠ x := by
    rintro rfl
    exact not_isIdentifier_of_isTemporary hx hy
  rw [List.mem_cons, or_iff_right hne]
  exact h y hy

theorem add (x : String) (h : Follows known tree) : Follows (x :: known) (x :: tree) := by
  intro y hy
  rw [List.mem_cons, List.mem_cons, h y hy]

end Follows

/-- The step makes the names known. -/
def Learns {α : Type} (step : Scoped α) (names : List String) : Prop :=
  ∀ known tree, Follows known tree → Follows (step.run known).2 (names ++ tree)

namespace Learns

variable {α β : Type} {names more : List String}

theorem pure (a : α) : Learns (Pure.pure a) [] := fun _ _ h => h

theorem get {f : List String → Scoped α} (h : ∀ known, Learns (f known) names) : Learns (MonadState.get >>= f) names :=
  fun known => h known known

theorem add (x : String) : Learns (modify (x :: ·)) [x] := fun _ _ h => h.add x

theorem bind {step : Scoped α} {f : α → Scoped β} (h : Learns step names) (hf : ∀ a, Learns (f a) more) :
    Learns (step >>= f) (more ++ names) := by
  intro known tree hk
  rw [List.append_assoc]
  exact hf _ _ _ (h known tree hk)

/-- One step after another. -/
theorem after {second : Scoped β} {first : Scoped α} (h : Learns second more) (h' : Learns first names) :
    Learns (first >>= fun _ => second) (more ++ names) := h'.bind fun _ => h

theorem congr {step : Scoped α} (h : Learns step names) (hmem : ∀ x, x ∈ names ↔ x ∈ more) : Learns step more :=
  fun known tree hk => (h known tree hk).congr fun x => by rw [List.mem_append, List.mem_append, hmem]

end Learns

theorem isTemporary_and (n : Nat) : IsTemporary ("%" ++ "and" ++ toString n) := ⟨"and", by simp, n, rfl⟩

theorem isTemporary_or (n : Nat) : IsTemporary ("%" ++ "or" ++ toString n) := ⟨"or", by simp, n, rfl⟩

theorem isTemporary_case (n : Nat) : IsTemporary ("%" ++ "case" ++ toString n) := ⟨"case", by simp, n, rfl⟩

mutual

theorem learns_desugar : ∀ (t : Term) (n : Nat), Learns (t.desugar.run n).1.resolve t.assigned
  | .lit _, _ => .pure _
  | .name _, _ => .get fun _ => .pure _
  | .call _ args, n => (learns_desugarAll args n).bind fun _ => .pure _
  | .array items, n => (learns_desugarAll items n).bind fun _ => .pure _
  | .hash items, n => (learns_desugarAll items n).bind fun _ => .pure _
  | .index c p, n => (learns_desugar c n).bind fun _ => (learns_desugar p _).bind fun _ => .pure _
  | .negation operand, n => (learns_desugar operand n).bind fun _ => .pure _
  | .minus operand, n => by
    intro known tree h
    change Follows ((Node.negative (operand.desugar.run n).1).resolve.run known).2 _
    rw [Node.resolve_negative]
    exact learns_desugar operand n known tree h
  | .binary op left right, n => by
    have hl := learns_desugar left n
    have hr := learns_desugar right (left.desugar.run n).2
    cases op with
    | core op => exact fun known tree h => hr.after hl known tree h
    | notEqual => exact fun known tree h => hr.after hl known tree h
    | both =>
      intro known tree h
      change Follows ((Node.bothOf _ (left.desugar.run n).1 (right.desugar.run _).1).resolve.run known).2 _
      rw [Node.resolve_bothOf, Term.assigned, List.append_assoc]
      exact hr _ _ ((hl known tree h).temporary (isTemporary_and _))
    | either =>
      intro known tree h
      change Follows ((Node.eitherOf _ (left.desugar.run n).1 (right.desugar.run _).1).resolve.run known).2 _
      rw [Node.resolve_eitherOf, Term.assigned, List.append_assoc]
      exact hr _ _ ((hl known tree h).temporary (isTemporary_or _))
  | .choice test yes no, n => (learns_desugar test n).bind fun _ => (learns_desugar yes _).bind fun _ =>
    (learns_desugar no _).bind fun _ => .pure _
  | .choiceUnless test no yes, n => by
    have h : Learns ((Term.choiceUnless test no yes).desugar.run n).1.resolve
        (no.assigned ++ yes.assigned ++ test.assigned) :=
      (learns_desugar test n).bind fun _ => (learns_desugar yes _).bind fun _ =>
        (learns_desugar no _).bind fun _ => .pure _
    refine h.congr fun x => ?_
    simp only [Term.assigned, List.mem_append]
    grind
  | .assignName x value, n => (learns_desugar value n).bind fun _ => (Learns.add x).bind fun _ => .pure _
  | .assignIndex c p value, n => (learns_desugar c n).bind fun _ => (learns_desugar p _).bind fun _ =>
    (learns_desugar value _).bind fun _ => .pure _
  | .updateName x _ value, n => by
    exact fun known tree h => (learns_desugar value n known tree h).add x
  | .updateIndex c p _ value, n => by
    intro known tree h
    have hc := learns_desugar c n
    have hp := learns_desugar p (c.desugar.run n).2
    have hv := learns_desugar value (p.desugar.run (c.desugar.run n).2).2
    refine Follows.congr (hv _ _ (hp _ _ (hc _ _ (hp _ _ (hc known tree h))))) fun x => ?_
    simp only [Term.assigned, List.mem_append]
    grind
  | .loop test body, n => (learns_desugar test n).bind fun _ => (learns_desugar body _).bind fun _ => .pure _
  | .caseOf subject clauses, n => by
    intro known tree h
    have ht := isTemporary_case (subject.desugar.run n).2
    have hs := (learns_desugar subject n known tree h).temporary ht
    rw [Term.assigned, List.append_assoc]
    exact learns_desugarClauses clauses ht ((subject.desugar.run n).2 + 1) _ _ List.mem_cons_self hs
  | .definition _ _ _, _ => .pure _
  | .beginEnd body, n => learns_desugar body n
  | .block statements, n => (learns_desugarAll statements n).bind fun _ => .pure _
  | .modified statement modifier test, n => by
    have hs := learns_desugar statement n
    have ht := learns_desugar test (statement.desugar.run n).2
    have inTurn : Learns (do let _ ← (statement.desugar.run n).1.resolve; (test.desugar.run _).1.resolve)
        (test.assigned ++ statement.assigned) := hs.bind fun _ => ht
    have swapped : Learns (do let _ ← (test.desugar.run _).1.resolve; (statement.desugar.run n).1.resolve)
        (test.assigned ++ statement.assigned) :=
      (ht.bind fun _ => hs).congr fun x => by rw [List.mem_append, List.mem_append, or_comm]
    cases modifier with
    | whenTrue => exact swapped
    | unlessTrue => exact swapped
    | whileTrue =>
      change Learns (if statement.isBegin = true then Node.loopAfter (test.desugar.run _).1 (statement.desugar.run n).1
        else Node.loop (test.desugar.run _).1 (statement.desugar.run n).1).resolve _
      split
      · exact inTurn
      · exact swapped

theorem learns_desugarAll : ∀ (ts : List Term) (n : Nat),
    Learns (Node.resolveAll ((desugarAll ts).run n).1) (assignedAll ts)
  | [], _ => .pure _
  | t :: rest, n => (learns_desugar t n).bind fun _ => (learns_desugarAll rest _).bind fun _ => .pure _

theorem learns_desugarClauses : ∀ (c : Clauses) {temporary : String}, IsTemporary temporary →
    ∀ (n : Nat) (known tree : List String), temporary ∈ known → Follows known tree →
      Follows (((c.desugar temporary).run n).1.resolve.run known).2 (c.assigned ++ tree)
  | .otherwise body, _, _, n, known, tree, _, h => learns_desugar body n known tree h
  | .clause values body rest, temporary, ht, n, known, tree, hmem, h => by
    have hv := learns_desugarAll values n known tree h
    have hv' := Node.retains_resolveAll ((desugarAll values).run n).1 known hmem
    have hb := learns_desugar body ((desugarAll values).run n).2 _ _ hv
    have hb' := Node.retains_resolve (body.desugar.run ((desugarAll values).run n).2).1 _ hv'
    have hr := learns_desugarClauses rest ht (body.desugar.run ((desugarAll values).run n).2).2 _ _ hb' hb
    rw [Clauses.assigned, List.append_assoc, List.append_assoc]
    let vs := (desugarAll values).run n
    show Follows (((rest.desugar temporary).run _).1.resolve.run ((body.desugar.run vs.2).1.resolve.run
      ((Node.matchesAny temporary vs.1).resolve.run known).2).2).2 _
    rw [Node.resolve_matchesAny _ hmem]
    exact hr

end

/-! ## The two orders -/

/-- A term that is reduced to a literal reads no name. -/
theorem agrees_of_lit : ∀ {t : Term} {n : Nat} {value : Data}, (t.desugar.run n).1 = .lit value →
    ∀ tree source, t.Agrees tree source
  | .lit _, _, _, _, _, _ => trivial
  | .minus operand, n, _, h, tree, source => by
    by_cases hlit : ∃ d, (operand.desugar.run n).1 = .lit d
    · obtain ⟨d, hd⟩ := hlit
      exact agrees_of_lit (t := operand) hd tree source
    · have hne : ∀ d, (operand.desugar.run n).1 ≠ .lit d := fun d hd => hlit ⟨d, hd⟩
      have h' : (operand.desugar.run n).1.negative = .lit _ := h
      rw [Node.negative_of_ne_lit hne] at h'
      cases h'
  | .beginEnd body, _, _, h, tree, source => agrees_of_lit (t := body) h tree source
  | .binary op _ _, _, _, h, _, _ => by cases op <;> cases h
  | .modified statement modifier test, n, value, h, _, _ => by
    have h' : modifier.apply statement.isBegin (statement.desugar.run n).1
      (test.desugar.run (statement.desugar.run n).2).1 = .lit value := h
    cases modifier <;> cases hb : statement.isBegin <;> rw [hb] at h' <;> cases h'

/-- The names and counters at a place, met in the order of the tree and in source order. -/
structure Aligned (known tree marked source : List String) (n m : Nat) : Prop where
  follows : Follows known tree
  marked_eq : marked = source
  count_eq : m = n

namespace Aligned

variable {known tree marked source : List String} {n m : Nat}

theorem next (a : Aligned known tree marked source n m) (t : Term) :
    Aligned ((t.desugar.run n).1.resolve.run known).2 (t.assigned ++ tree) (t.inSourceOrder.run marked).2
      (t.assigned ++ source) (t.desugar.run n).2 ((t.inSourceOrder.run marked).1.desugar.run m).2 := by
  obtain ⟨h, rfl, rfl⟩ := a
  exact ⟨learns_desugar t m known tree h, adds_inSourceOrder t marked, sameCount_inSourceOrder marked t m⟩

theorem temporary {x : String} (hx : IsTemporary x) (a : Aligned known tree marked source n m) :
    Aligned (x :: known) tree marked source n m :=
  ⟨a.follows.temporary hx, a.marked_eq, a.count_eq⟩

theorem nextAll (a : Aligned known tree marked source n m) (ts : List Term) :
    Aligned ((Node.resolveAll ((desugarAll ts).run n).1).run known).2 (assignedAll ts ++ tree)
      ((inSourceOrderAll ts).run marked).2 (assignedAll ts ++ source) ((desugarAll ts).run n).2
      ((desugarAll ((inSourceOrderAll ts).run marked).1).run m).2 := by
  obtain ⟨h, rfl, rfl⟩ := a
  exact ⟨learns_desugarAll ts m known tree h, adds_inSourceOrderAll ts marked,
    sameCount_inSourceOrderAll marked ts m⟩

end Aligned

/-- At any place, the resolved tree of the term is the tree of the term whose names are settled in source order
exactly if the two orders agree on it. -/
def Settled (t : Term) : Prop :=
  ∀ {known tree marked source : List String} {n m : Nat}, Aligned known tree marked source n m →
    (((t.desugar.run n).1.resolve.run known).1 = ((t.inSourceOrder.run marked).1.desugar.run m).1 ↔
      t.Agrees tree source)

namespace Settled

theorem name {x : String} (hx : IsIdentifier x) : Settled (.name x) := by
  intro known tree marked source n m a
  obtain ⟨hknown, rfl, rfl⟩ := a
  have hm : ((if x ∈ marked then Term.name x else .call x []).desugar.run m).1 =
      if x ∈ marked then Node.varRef x else .funcCall x [] := by split <;> rfl
  show (if x ∈ known then Node.varRef x else .funcCall x []) =
    ((if x ∈ marked then Term.name x else .call x []).desugar.run m).1 ↔ _
  rw [hm, Node.read_eq_iff, hknown x hx, Term.Agrees]

theorem minus {operand : Term} (h : Settled operand) : Settled (.minus operand) := by
  intro known tree marked source n m a
  show ((Node.negative (operand.desugar.run n).1).resolve.run known).1 =
    Node.negative ((operand.inSourceOrder.run marked).1.desugar.run m).1 ↔ operand.Agrees tree source
  rw [Node.resolve_negative]
  by_cases hlit : ∃ value, (operand.desugar.run n).1 = .lit value
  · obtain ⟨value, hvalue⟩ := hlit
    have hagrees := agrees_of_lit hvalue tree source
    exact iff_of_true (congrArg Node.negative ((h a).mpr hagrees)) hagrees
  · have hne : ∀ value, (operand.desugar.run n).1 ≠ .lit value := fun value hv => hlit ⟨value, hv⟩
    exact (Node.negative_eq_iff (Node.resolve_ne_lit hne known)).trans (h a)

theorem binary (op : Connective) {left right : Term} (hl : Settled left) (hr : Settled right) :
    Settled (.binary op left right) := by
  intro known tree marked source n m a
  have al := a.next left
  have hcount := (al.next right).count_eq.symm
  cases op with
  | core op => exact (Node.binary.injEq ..).to_iff.trans ((and_iff_right rfl).trans (and_congr (hl a) (hr al)))
  | notEqual =>
    exact Node.negate_eq_iff.trans
      ((Node.binary.injEq ..).to_iff.trans ((and_iff_right rfl).trans (and_congr (hl a) (hr al))))
  | both =>
    have hr' := hr (al.temporary (isTemporary_and (right.desugar.run (left.desugar.run n).2).2))
    show ((Node.bothOf _ (left.desugar.run n).1 (right.desugar.run _).1).resolve.run known).1 = _ ↔ _
    rw [Node.resolve_bothOf]
    exact (Node.bothOf_eq_iff (congrArg (fun k : Nat => "%" ++ "and" ++ toString k) hcount)).trans
      (and_congr (hl a) hr')
  | either =>
    have hr' := hr (al.temporary (isTemporary_or (right.desugar.run (left.desugar.run n).2).2))
    show ((Node.eitherOf _ (left.desugar.run n).1 (right.desugar.run _).1).resolve.run known).1 = _ ↔ _
    rw [Node.resolve_eitherOf]
    exact (Node.eitherOf_eq_iff (congrArg (fun k : Nat => "%" ++ "or" ++ toString k) hcount)).trans
      (and_congr (hl a) hr')

/-- The body of an `unless` stands before the else branch but is walked after it. -/
theorem choiceUnless {test no yes : Term} (ht : Settled test) (hn : Settled no) (hy : Settled yes) :
    Settled (.choiceUnless test no yes) := by
  intro known tree marked source n m a
  have at' := a.next test
  have ayes := Aligned.mk at'.follows (at'.next no).marked_eq (at'.next no).count_eq
  have ano := Aligned.mk (learns_desugar yes (no.desugar.run (test.desugar.run n).2).2 _ _ at'.follows)
    at'.marked_eq at'.count_eq
  exact (Node.choice.injEq ..).to_iff.trans
    ((and_congr (ht a) (and_congr (hy ayes) (hn ano))).trans (and_congr_right fun _ => and_comm))

theorem updateName {x : String} (op : BinaryOp) {value : Term} (hx : IsIdentifier x) (hv : Settled value) :
    Settled (.updateName x op value) := by
  intro known tree marked source n m a
  have hvalue := hv a
  obtain ⟨hknown, rfl, rfl⟩ := a
  let mv := (value.inSourceOrder.run marked).1
  have hm : ((if x ∈ marked then Term.updateName x op mv
      else .assignName x (.binary (.core op) (.call x []) mv)).desugar.run m).1 =
      Node.varAssign x (.binary op (if x ∈ marked then .varRef x else .funcCall x []) (mv.desugar.run m).1) := by
    split <;> rfl
  show Node.varAssign x (.binary op (if x ∈ known then .varRef x else .funcCall x []) _) =
    ((if x ∈ marked then Term.updateName x op mv
      else .assignName x (.binary (.core op) (.call x []) mv)).desugar.run m).1 ↔ _
  rw [hm, Node.varAssign.injEq, and_iff_right rfl, Node.binary.injEq, and_iff_right rfl, Node.read_eq_iff,
    hknown x hx]
  exact and_congr Iff.rfl hvalue

/-- The container and the position of a compound assignment are walked twice. -/
theorem updateIndex {c p : Term} (op : BinaryOp) {value : Term} (hc : Settled c) (hp : Settled p)
    (hv : Settled value) : Settled (.updateIndex c p op value) := by
  intro known tree marked source n m a
  have ac := a.next c
  have ap := ac.next p
  have seen : ∀ x, x ∈ p.assigned ++ (c.assigned ++ tree) ↔ x ∈ p.assigned ++ c.assigned ++ tree := by simp
  have known₁ := ap.follows.congr seen
  have known₂ := learns_desugar c n _ _ known₁
  have known₂' : Follows _ (p.assigned ++ c.assigned ++ tree) := known₂.congr fun x => by
    simpa using fun h => Or.inr (Or.inl h)
  have known₃ := learns_desugar p (c.desugar.run n).2 _ _ known₂'
  have known₃' : Follows _ (p.assigned ++ c.assigned ++ tree) := known₃.congr fun x => by simp
  have hc' := hc (.mk known₁ a.marked_eq a.count_eq)
  have hp' := hp (.mk known₂' ac.marked_eq ac.count_eq)
  have hv' := hv (.mk known₃' (ap.marked_eq.trans (List.append_assoc ..).symm) ap.count_eq)
  refine (Node.aryAssign.injEq ..).to_iff.trans (.trans (and_congr (hc a) (and_congr (hp ac)
    ((Node.binary.injEq ..).to_iff.trans ((and_iff_right rfl).trans
      (and_congr ((Node.aryRef.injEq ..).to_iff.trans (and_congr hc' hp')) hv'))))) ?_)
  rw [Term.Agrees, and_assoc]

/-- The test of a modifier stands behind the statement but is walked before it, except where the loop runs its
body first. -/
theorem modified (modifier : Modifier) {statement test : Term} (hs : Settled statement) (ht : Settled test) :
    Settled (.modified statement modifier test) := by
  intro known tree marked source n m a
  have as := a.next statement
  let s := (statement.desugar.run n).1
  let t := (test.desugar.run (statement.desugar.run n).2).1
  have htest := learns_desugar test (statement.desugar.run n).2 known tree a.follows
  have hs' := hs (.mk htest a.marked_eq a.count_eq)
  have ht' := ht (.mk a.follows as.marked_eq as.count_eq)
  show ((modifier.apply statement.isBegin s t).resolve.run known).1 =
    modifier.apply (statement.inSourceOrder.run marked).1.isBegin _ _ ↔ _
  rw [isBegin_inSourceOrder, Term.Agrees]
  cases modifier with
  | whenTrue =>
    rw [if_neg (by simp)]
    exact (Node.choice.injEq ..).to_iff.trans
      ((and_congr ht' ((and_iff_left rfl).trans hs')).trans and_comm)
  | unlessTrue =>
    rw [if_neg (by simp)]
    exact (Node.choice.injEq ..).to_iff.trans
      ((and_congr ht' ((and_iff_right rfl).trans hs')).trans and_comm)
  | whileTrue =>
    cases hbegin : statement.isBegin with
    | true =>
      rw [if_pos ⟨rfl, rfl⟩]
      exact (Node.loopAfter.injEq ..).to_iff.trans ((and_congr (ht as) (hs a)).trans and_comm)
    | false =>
      rw [if_neg (by simp)]
      exact (Node.loop.injEq ..).to_iff.trans ((and_congr ht' hs').trans and_comm)

end Settled

mutual

theorem settled_of_isIdentifier : ∀ {t : Term}, (∀ x ∈ t.words, IsIdentifier x) → Settled t
  | .lit _, _, _, _, _, _, _, _, _ => iff_of_true rfl trivial
  | .name x, hw, _, _, _, _, _, _, a => Settled.name (hw x (by simp [Term.words])) a
  | .call f args, hw, _, _, _, _, _, _, a => by
    simp only [Term.words, List.forall_mem_cons] at hw
    exact (Node.funcCall.injEq ..).to_iff.trans ((and_iff_right rfl).trans (resolveAll_eq_iff hw.2 a))
  | .array items, hw, _, _, _, _, _, _, a =>
    (Node.aryNew.injEq ..).to_iff.trans (resolveAll_eq_iff (l := items) hw a)
  | .hash items, hw, _, _, _, _, _, _, a =>
    (Node.hashNew.injEq ..).to_iff.trans (resolveAll_eq_iff (l := items) hw a)
  | .index c p, hw, _, _, _, _, _, _, a => by
    simp only [Term.words, List.forall_mem_append] at hw
    have hc := settled_of_isIdentifier hw.1 a
    have hp := settled_of_isIdentifier hw.2 (a.next c)
    exact (Node.aryRef.injEq ..).to_iff.trans (and_congr hc hp)
  | .negation operand, hw, _, _, _, _, _, _, a =>
    Node.negate_eq_iff.trans (settled_of_isIdentifier (t := operand) hw a)
  | .minus operand, hw, _, _, _, _, _, _, a => Settled.minus (settled_of_isIdentifier (t := operand) hw) a
  | .binary op _ _, hw, _, _, _, _, _, _, a => by
    simp only [Term.words, List.forall_mem_append] at hw
    exact Settled.binary op (settled_of_isIdentifier hw.1) (settled_of_isIdentifier hw.2) a
  | .choice test yes no, hw, _, _, _, _, _, _, a => by
    simp only [Term.words, List.forall_mem_append] at hw
    have ht := settled_of_isIdentifier hw.1.1 a
    have hy := settled_of_isIdentifier hw.1.2 (a.next test)
    have hn := settled_of_isIdentifier hw.2 ((a.next test).next yes)
    exact (Node.choice.injEq ..).to_iff.trans (and_congr ht (and_congr hy hn))
  | .choiceUnless _ _ _, hw, _, _, _, _, _, _, a => by
    simp only [Term.words, List.forall_mem_append] at hw
    exact Settled.choiceUnless (settled_of_isIdentifier hw.1.1) (settled_of_isIdentifier hw.1.2)
      (settled_of_isIdentifier hw.2) a
  | .assignName x value, hw, _, _, _, _, _, _, a => by
    simp only [Term.words, List.forall_mem_cons] at hw
    exact (Node.varAssign.injEq ..).to_iff.trans ((and_iff_right rfl).trans (settled_of_isIdentifier hw.2 a))
  | .assignIndex c p value, hw, _, _, _, _, _, _, a => by
    simp only [Term.words, List.forall_mem_append] at hw
    have hc := settled_of_isIdentifier hw.1.1 a
    have hp := settled_of_isIdentifier hw.1.2 (a.next c)
    have hv := settled_of_isIdentifier hw.2 ((a.next c).next p)
    exact (Node.aryAssign.injEq ..).to_iff.trans (and_congr hc (and_congr hp hv))
  | .updateName _ op _, hw, _, _, _, _, _, _, a => by
    simp only [Term.words, List.forall_mem_cons] at hw
    exact Settled.updateName op hw.1 (settled_of_isIdentifier hw.2) a
  | .updateIndex _ _ op _, hw, _, _, _, _, _, _, a => by
    simp only [Term.words, List.forall_mem_append] at hw
    exact Settled.updateIndex op (settled_of_isIdentifier hw.1.1) (settled_of_isIdentifier hw.1.2)
      (settled_of_isIdentifier hw.2) a
  | .loop test body, hw, _, _, _, _, _, _, a => by
    simp only [Term.words, List.forall_mem_append] at hw
    have ht := settled_of_isIdentifier hw.1 a
    have hb := settled_of_isIdentifier hw.2 (a.next test)
    exact (Node.loop.injEq ..).to_iff.trans (and_congr ht hb)
  | .caseOf subject clauses, hw, known, _, _, _, n, _, a => by
    simp only [Term.words, List.forall_mem_append] at hw
    have as := a.next subject
    have htemporary := isTemporary_case (subject.desugar.run n).2
    have hs := settled_of_isIdentifier hw.1 a
    have hc := resolveClauses_eq_iff hw.2 htemporary (congrArg (fun k : Nat => "%" ++ "case" ++ toString k)
      as.count_eq.symm) List.mem_cons_self (.mk (as.follows.temporary htemporary) as.marked_eq
        (congrArg (· + 1) as.count_eq))
    exact (Node.assignThen_eq_iff (congrArg (fun k : Nat => "%" ++ "case" ++ toString k) as.count_eq.symm)).trans
      (and_congr hs hc)
  | .definition f params body, hw, _, _, _, _, _, _, a => by
    simp only [Term.words, List.cons_append, List.forall_mem_cons, List.forall_mem_append] at hw
    have hb := settled_of_isIdentifier hw.2.2 (.mk (.refl params) (Eq.refl params) a.count_eq)
    exact (Node.funcDef.injEq ..).to_iff.trans ((and_iff_right rfl).trans ((and_iff_right rfl).trans hb))
  | .beginEnd body, hw, _, _, _, _, _, _, a => settled_of_isIdentifier (t := body) hw a
  | .block statements, hw, _, _, _, _, _, _, a =>
    (Node.stmts.injEq ..).to_iff.trans (resolveAll_eq_iff (l := statements) hw a)
  | .modified _ modifier _, hw, _, _, _, _, _, _, a => by
    simp only [Term.words, List.forall_mem_append] at hw
    exact Settled.modified modifier (settled_of_isIdentifier hw.1) (settled_of_isIdentifier hw.2) a

theorem resolveAll_eq_iff : ∀ {l : List Term}, (∀ x ∈ wordsAll l, IsIdentifier x) →
    ∀ {known tree marked source : List String} {n m : Nat}, Aligned known tree marked source n m →
      (((Node.resolveAll ((desugarAll l).run n).1).run known).1 =
        ((desugarAll ((inSourceOrderAll l).run marked).1).run m).1 ↔ AgreesAll tree source l)
  | [], _, _, _, _, _, _, _, _ => iff_of_true rfl trivial
  | t :: rest, hw, _, _, _, _, _, _, a => by
    simp only [wordsAll, List.forall_mem_append] at hw
    have ht := settled_of_isIdentifier hw.1 a
    have hrest := resolveAll_eq_iff hw.2 (a.next t)
    exact List.cons_eq_cons.trans (and_congr ht hrest)

theorem resolveClauses_eq_iff : ∀ {c : Clauses}, (∀ x ∈ c.words, IsIdentifier x) →
    ∀ {temporary temporary' : String}, IsTemporary temporary → temporary = temporary' →
      ∀ {known tree marked source : List String} {n m : Nat}, temporary ∈ known →
        Aligned known tree marked source n m →
          ((((c.desugar temporary).run n).1.resolve.run known).1 =
            (((c.inSourceOrder.run marked).1.desugar temporary').run m).1 ↔ c.Agrees tree source)
  | .otherwise body, hw, _, _, _, _, _, _, _, _, _, _, _, a => settled_of_isIdentifier (t := body) hw a
  | .clause values body rest, hw, temporary, _, ht, rfl, known, _, _, _, n, _, hmem, a => by
    simp only [Clauses.words, List.forall_mem_append] at hw
    have hmem' := Node.retains_resolveAll ((desugarAll values).run n).1 known hmem
    have hmem'' := Node.retains_resolve (body.desugar.run ((desugarAll values).run n).2).1 _ hmem'
    have hv := resolveAll_eq_iff hw.1.1 a
    have hb := settled_of_isIdentifier hw.1.2 (a.nextAll values)
    have hr := resolveClauses_eq_iff hw.2 ht rfl hmem'' ((a.nextAll values).next body)
    let vs := (desugarAll values).run n
    let r := (Node.matchesAny temporary vs.1).resolve.run known
    let b := body.desugar.run vs.2
    let c := (rest.desugar temporary).run b.2
    show Node.choice r.1 (b.1.resolve.run r.2).1 (c.1.resolve.run (b.1.resolve.run r.2).2).1 = _ ↔ _
    have hr' : r = _ := Node.resolve_matchesAny vs.1 hmem
    rw [hr']
    exact (Node.choice.injEq ..).to_iff.trans
      (and_congr (Node.matchesAny_eq_iff.trans hv) (and_congr hb hr))

end

/-! ## Programs -/

/-- The tree of a program reads its names as the source order asks for exactly if the orders agree on each of
them, and so it does if the program keeps apart what is walked out of order. The names of its term stand in
the text one after the other. -/
theorem parseProgram_in_source_order_iff {source filename : String} {known : List String} {counter next : Nat}
    {tree : Node} (h : parseProgram source filename known counter = .ok (tree, next)) :
    ∃ t, readProgram source filename = .ok t ∧
      Spelled t.words (Text.expandTabs (prepare source.toList)) ∧
      (tree = t.sourceTree known counter ↔ t.Agrees known known) ∧
      (t.Apart → tree = t.sourceTree known counter) := by
  obtain ⟨t, hread, rfl⟩ := parseProgram_eq_ok h
  obtain ⟨hspelled, -⟩ := sound_of_readWhole hread
  have aligned : Aligned known known known known counter counter := ⟨.refl known, rfl, rfl⟩
  have hiff := settled_of_isIdentifier hspelled.isIdentifier aligned
  exact ⟨t, hread, hspelled, hiff, fun hapart => hiff.mpr (agrees_of_apart hapart known)⟩

/-- The program `x if (x = 1)`: its name is read before it is assigned, but the tree knows it. -/
theorem modified_read_out_of_order :
    let term : Term := .block [.modified (.name "x") .whenTrue (.assignName "x" (.lit (.int 1)))]
    let test : Node := .varAssign "x" (.lit (.int 1))
    readProgram "x if (x = 1)" anonymous = .ok term ∧
      parseProgram "x if (x = 1)" anonymous [] 1 = .ok (.stmts [.choice test (.varRef "x") .nothing], 1) ∧
      term.sourceTree [] 1 = .stmts [.choice test (.funcCall "x" []) .nothing] := by
  intro term test
  have hread : readProgram "x if (x = 1)" anonymous = .ok term := rfl
  exact ⟨hread, parseProgram_of_readProgram hread, rfl⟩

/-- The program `x = 2 if y`, on whose names the orders agree. -/
theorem modified_read_in_order :
    let term : Term := .block [.modified (.assignName "x" (.lit (.int 2))) .whenTrue (.name "y")]
    ∃ tree, parseProgram "x = 2 if y" anonymous [] 1 = .ok (tree, 1) ∧ tree = term.sourceTree [] 1 := by
  intro term
  have hread : readProgram "x = 2 if y" anonymous = .ok term := rfl
  have hparse : parseProgram "x = 2 if y" anonymous [] 1 = .ok (_, 1) := parseProgram_of_readProgram hread
  obtain ⟨t, ht, -, hiff, -⟩ := parseProgram_in_source_order_iff hparse
  obtain rfl : term = t := Except.ok.inj (hread.symm.trans ht)
  have hagrees : term.Agrees [] [] := by
    simp [term, Term.Agrees, AgreesAll, Term.assigned]
  exact ⟨_, hparse, hiff.mpr hagrees⟩

end MinRuby.Syntax
