import MinRuby.Proofs.Syntax.Spelling
import MinRuby.Syntax.Desugar
import MinRuby.Syntax.Scope

/-!
# Names in source order

A bare name reads a variable if its scope knows it, and is a call otherwise. `Term.inSourceOrder` decides so
in the order in which the names stand in the source text, which is the order of `Term.words`. The pass over
the reduced tree meets some parts of a program in another order, and `Term.Agrees` says that this makes no
difference to any name.

* `adds_inSourceOrder` — the names that a term makes known.
* `agrees_of_apart` — the orders agree on a term that keeps apart what is walked out of order.
-/

namespace MinRuby.Syntax

mutual

/-- The names that a term assigns in its own scope, the latest first. -/
def Term.assigned : Term → List String
  | .lit _ => []
  | .name _ => []
  | .call _ args => assignedAll args
  | .array items => assignedAll items
  | .hash items => assignedAll items
  | .index container position => position.assigned ++ container.assigned
  | .negation operand => operand.assigned
  | .minus operand => operand.assigned
  | .binary _ left right => right.assigned ++ left.assigned
  | .choice test yes no => no.assigned ++ yes.assigned ++ test.assigned
  | .choiceUnless test no yes => yes.assigned ++ no.assigned ++ test.assigned
  | .assignName x value => x :: value.assigned
  | .assignIndex container position value =>
    value.assigned ++ position.assigned ++ container.assigned
  | .updateName x _ value => x :: value.assigned
  | .updateIndex container position _ value =>
    value.assigned ++ position.assigned ++ container.assigned
  | .loop test body => body.assigned ++ test.assigned
  | .caseOf subject clauses => clauses.assigned ++ subject.assigned
  | .definition _ _ _ => []
  | .beginEnd body => body.assigned
  | .block statements => assignedAll statements
  | .modified statement _ test => test.assigned ++ statement.assigned
termination_by structural t => t

/-- The names that a sequence of terms assigns, the latest first. -/
def assignedAll : List Term → List String
  | [] => []
  | t :: rest => assignedAll rest ++ t.assigned
termination_by structural l => l

/-- The names that clauses assign, the latest first. -/
def Clauses.assigned : Clauses → List String
  | .otherwise body => body.assigned
  | .clause values body rest => rest.assigned ++ body.assigned ++ assignedAll values
termination_by structural c => c

end

mutual

/-- The term with each read of a name that is not known made a call. A name becomes known where its
assignment ends in the source text, and a definition is a scope of its own that knows its parameters. -/
def Term.inSourceOrder : Term → Scoped Term
  | .lit value => return .lit value
  | .name x => return if x ∈ (← get) then .name x else .call x []
  | .call function args => return .call function (← inSourceOrderAll args)
  | .array items => return .array (← inSourceOrderAll items)
  | .hash items => return .hash (← inSourceOrderAll items)
  | .index container position => return .index (← container.inSourceOrder) (← position.inSourceOrder)
  | .negation operand => return .negation (← operand.inSourceOrder)
  | .minus operand => return .minus (← operand.inSourceOrder)
  | .binary op left right => return .binary op (← left.inSourceOrder) (← right.inSourceOrder)
  | .choice test yes no =>
    return .choice (← test.inSourceOrder) (← yes.inSourceOrder) (← no.inSourceOrder)
  | .choiceUnless test no yes =>
    return .choiceUnless (← test.inSourceOrder) (← no.inSourceOrder) (← yes.inSourceOrder)
  | .assignName x value => do
    let value ← value.inSourceOrder
    modify (x :: ·)
    return .assignName x value
  | .assignIndex container position value =>
    return .assignIndex (← container.inSourceOrder) (← position.inSourceOrder) (← value.inSourceOrder)
  | .updateName x op value => do
    let known ← get
    let value ← value.inSourceOrder
    modify (x :: ·)
    return if x ∈ known then .updateName x op value
      else .assignName x (.binary (.core op) (.call x []) value)
  | .updateIndex container position op value =>
    return .updateIndex (← container.inSourceOrder) (← position.inSourceOrder) op (← value.inSourceOrder)
  | .loop test body => return .loop (← test.inSourceOrder) (← body.inSourceOrder)
  | .caseOf subject clauses => return .caseOf (← subject.inSourceOrder) (← clauses.inSourceOrder)
  | .definition name params body => return .definition name params (body.inSourceOrder.run params).1
  | .beginEnd body => return .beginEnd (← body.inSourceOrder)
  | .block statements => return .block (← inSourceOrderAll statements)
  | .modified statement modifier test =>
    return .modified (← statement.inSourceOrder) modifier (← test.inSourceOrder)
termination_by structural t => t

/-- The terms of a sequence with each read of a name that is not known made a call. -/
def inSourceOrderAll : List Term → Scoped (List Term)
  | [] => return []
  | t :: rest => return (← t.inSourceOrder) :: (← inSourceOrderAll rest)
termination_by structural l => l

/-- The clauses with each read of a name that is not known made a call. -/
def Clauses.inSourceOrder : Clauses → Scoped Clauses
  | .otherwise body => return .otherwise (← body.inSourceOrder)
  | .clause values body rest =>
    return .clause (← inSourceOrderAll values) (← body.inSourceOrder) (← rest.inSourceOrder)
termination_by structural c => c

end

/-- The tree of a term whose names become known in source order. -/
def Term.sourceTree (t : Term) (known : List String) (counter : Nat) : Node :=
  ((t.inSourceOrder.run known).1.desugar.run counter).1

/-! ## Source order -/

/-- The step adds the names to those that are known. -/
def Adds {α : Type} (step : Scoped α) (names : List String) : Prop := ∀ known, (step.run known).2 = names ++ known

namespace Adds

variable {α β : Type} {names more : List String}

theorem pure (a : α) : Adds (Pure.pure a) [] := fun _ => rfl

theorem get {f : List String → Scoped α} (h : ∀ known, Adds (f known) names) : Adds (MonadState.get >>= f) names :=
  fun known => h known known

theorem add (x : String) : Adds (modify (x :: ·)) [x] := fun _ => rfl

theorem bind {step : Scoped α} {f : α → Scoped β} (h : Adds step names) (hf : ∀ a, Adds (f a) more) :
    Adds (step >>= f) (more ++ names) := by
  intro known
  have h₁ := h known
  have h₂ := hf (step.run known).1 (step.run known).2
  rw [h₁] at h₂
  rw [List.append_assoc, ← h₂, ← h₁]
  rfl

end Adds

mutual

theorem adds_inSourceOrder : ∀ t : Term, Adds t.inSourceOrder t.assigned
  | .lit _ => .pure _
  | .name _ => .get fun _ => .pure _
  | .call _ args => (adds_inSourceOrderAll args).bind fun _ => .pure _
  | .array items => (adds_inSourceOrderAll items).bind fun _ => .pure _
  | .hash items => (adds_inSourceOrderAll items).bind fun _ => .pure _
  | .index c p => (adds_inSourceOrder c).bind fun _ => (adds_inSourceOrder p).bind fun _ => .pure _
  | .negation operand => (adds_inSourceOrder operand).bind fun _ => .pure _
  | .minus operand => (adds_inSourceOrder operand).bind fun _ => .pure _
  | .binary _ left right =>
    (adds_inSourceOrder left).bind fun _ => (adds_inSourceOrder right).bind fun _ => .pure _
  | .choice test yes no => (adds_inSourceOrder test).bind fun _ => (adds_inSourceOrder yes).bind fun _ =>
    (adds_inSourceOrder no).bind fun _ => .pure _
  | .choiceUnless test no yes => (adds_inSourceOrder test).bind fun _ => (adds_inSourceOrder no).bind fun _ =>
    (adds_inSourceOrder yes).bind fun _ => .pure _
  | .assignName x value => (adds_inSourceOrder value).bind fun _ => (Adds.add x).bind fun _ => .pure _
  | .assignIndex c p value => (adds_inSourceOrder c).bind fun _ => (adds_inSourceOrder p).bind fun _ =>
    (adds_inSourceOrder value).bind fun _ => .pure _
  | .updateName x _ value => .get fun _ => (adds_inSourceOrder value).bind fun _ => (Adds.add x).bind fun _ =>
    .pure _
  | .updateIndex c p _ value => (adds_inSourceOrder c).bind fun _ => (adds_inSourceOrder p).bind fun _ =>
    (adds_inSourceOrder value).bind fun _ => .pure _
  | .loop test body =>
    (adds_inSourceOrder test).bind fun _ => (adds_inSourceOrder body).bind fun _ => .pure _
  | .caseOf subject clauses =>
    (adds_inSourceOrder subject).bind fun _ => (adds_inSourceOrderClauses clauses).bind fun _ => .pure _
  | .definition _ _ _ => .pure _
  | .beginEnd body => (adds_inSourceOrder body).bind fun _ => .pure _
  | .block statements => (adds_inSourceOrderAll statements).bind fun _ => .pure _
  | .modified statement _ test =>
    (adds_inSourceOrder statement).bind fun _ => (adds_inSourceOrder test).bind fun _ => .pure _

theorem adds_inSourceOrderAll : ∀ ts : List Term, Adds (inSourceOrderAll ts) (assignedAll ts)
  | [] => .pure _
  | t :: rest => (adds_inSourceOrder t).bind fun _ => (adds_inSourceOrderAll rest).bind fun _ => .pure _

theorem adds_inSourceOrderClauses : ∀ c : Clauses, Adds c.inSourceOrder c.assigned
  | .otherwise body => (adds_inSourceOrder body).bind fun _ => .pure _
  | .clause values body rest => (adds_inSourceOrderAll values).bind fun _ => (adds_inSourceOrder body).bind fun _ =>
    (adds_inSourceOrderClauses rest).bind fun _ => .pure _

end

/-! ## Counters -/

/-- The steps take the same temporaries. -/
def SameCount {α β : Type} (x : Fresh α) (y : Fresh β) : Prop := ∀ n, (x.run n).2 = (y.run n).2

namespace SameCount

variable {α β γ δ : Type}

theorem pure (a : α) (b : β) : SameCount (Pure.pure a) (Pure.pure b) := fun _ => rfl

theorem refl (x : Fresh α) : SameCount x x := fun _ => rfl

theorem bind {x : Fresh α} {y : Fresh β} {f : α → Fresh γ} {g : β → Fresh δ} (h : SameCount x y)
    (hf : ∀ a b, SameCount (f a) (g b)) : SameCount (x >>= f) (y >>= g) := by
  intro n
  have h₁ := h n
  have h₂ := hf (x.run n).1 (y.run n).1 (y.run n).2
  rw [← h₁] at h₂
  show ((f (x.run n).1).run (x.run n).2).2 = ((g (y.run n).1).run (y.run n).2).2
  rw [h₂, h₁]

end SameCount

mutual

theorem sameCount_inSourceOrder (known : List String) : ∀ t : Term,
    SameCount (t.inSourceOrder.run known).1.desugar t.desugar
  | .lit _ => .pure _ _
  | .name x => by
    change SameCount (if x ∈ known then Term.name x else Term.call x [] : Term).desugar _
    split <;> exact .pure _ _
  | .call _ args => .bind (sameCount_inSourceOrderAll known args) fun _ _ => .pure _ _
  | .array items => .bind (sameCount_inSourceOrderAll known items) fun _ _ => .pure _ _
  | .hash items => .bind (sameCount_inSourceOrderAll known items) fun _ _ => .pure _ _
  | .index c p => .bind (sameCount_inSourceOrder known c) fun _ _ =>
    .bind (sameCount_inSourceOrder _ p) fun _ _ => .pure _ _
  | .negation operand => .bind (sameCount_inSourceOrder known operand) fun _ _ => .pure _ _
  | .minus operand => .bind (sameCount_inSourceOrder known operand) fun _ _ => .pure _ _
  | .binary op left right => .bind (sameCount_inSourceOrder known left) fun _ _ =>
    .bind (sameCount_inSourceOrder _ right) fun _ _ => by
      cases op with
      | core op => exact .pure _ _
      | notEqual => exact .pure _ _
      | both => exact .bind (.refl _) fun _ _ => .pure _ _
      | either => exact .bind (.refl _) fun _ _ => .pure _ _
  | .choice test yes no => .bind (sameCount_inSourceOrder known test) fun _ _ =>
    .bind (sameCount_inSourceOrder _ yes) fun _ _ => .bind (sameCount_inSourceOrder _ no) fun _ _ => .pure _ _
  | .choiceUnless test no yes => .bind (sameCount_inSourceOrder known test) fun _ _ =>
    .bind (sameCount_inSourceOrder _ no) fun _ _ => .bind (sameCount_inSourceOrder _ yes) fun _ _ => .pure _ _
  | .assignName x value => .bind (sameCount_inSourceOrder known value) fun _ _ => .pure _ _
  | .assignIndex c p value => .bind (sameCount_inSourceOrder known c) fun _ _ =>
    .bind (sameCount_inSourceOrder _ p) fun _ _ => .bind (sameCount_inSourceOrder _ value) fun _ _ => .pure _ _
  | .updateName x op value => by
    have hv := sameCount_inSourceOrder known value
    change SameCount (if x ∈ known then Term.updateName x op _ else
      .assignName x (.binary (.core op) (.call x []) _) : Term).desugar _
    split
    · exact .bind hv fun _ _ => .pure _ _
    · exact fun n => hv n
  | .updateIndex c p _ value => .bind (sameCount_inSourceOrder known c) fun _ _ =>
    .bind (sameCount_inSourceOrder _ p) fun _ _ => .bind (sameCount_inSourceOrder _ value) fun _ _ => .pure _ _
  | .loop test body => .bind (sameCount_inSourceOrder known test) fun _ _ =>
    .bind (sameCount_inSourceOrder _ body) fun _ _ => .pure _ _
  | .caseOf subject clauses => .bind (sameCount_inSourceOrder known subject) fun _ _ =>
    fun n => sameCount_inSourceOrderClauses _ _ _ clauses (n + 1)
  | .definition _ params body => .bind (sameCount_inSourceOrder params body) fun _ _ => .pure _ _
  | .beginEnd body => sameCount_inSourceOrder known body
  | .block statements => .bind (sameCount_inSourceOrderAll known statements) fun _ _ => .pure _ _
  | .modified statement _ test => .bind (sameCount_inSourceOrder known statement) fun _ _ =>
    .bind (sameCount_inSourceOrder _ test) fun _ _ => .pure _ _

theorem sameCount_inSourceOrderAll (known : List String) : ∀ ts : List Term,
    SameCount (desugarAll (inSourceOrderAll ts |>.run known).1) (desugarAll ts)
  | [] => .pure _ _
  | t :: rest => .bind (sameCount_inSourceOrder known t) fun _ _ =>
    .bind (sameCount_inSourceOrderAll _ rest) fun _ _ => .pure _ _

theorem sameCount_inSourceOrderClauses (x y : String) (known : List String) : ∀ c : Clauses,
    SameCount ((c.inSourceOrder.run known).1.desugar x) (c.desugar y)
  | .otherwise body => sameCount_inSourceOrder known body
  | .clause values body rest => .bind (sameCount_inSourceOrderAll known values) fun _ _ =>
    .bind (sameCount_inSourceOrder _ body) fun _ _ =>
      .bind (sameCount_inSourceOrderClauses x y _ rest) fun _ _ => .pure _ _

end

theorem isBegin_inSourceOrder (t : Term) (known : List String) :
    (t.inSourceOrder.run known).1.isBegin = t.isBegin := by
  cases t with
  | name x =>
    change (if x ∈ known then Term.name x else .call x []).isBegin = _
    split <;> rfl
  | updateName x op value =>
    change (if x ∈ known then Term.updateName x op _ else .assignName x _).isBegin = _
    split <;> rfl
  | _ => rfl

/-! ## The order of the tree -/

mutual

/-- At every read the name is known in the order of the tree exactly if it is known in source order; `tree`
and `source` are the names known before. The test of a modifier stands behind its statement but is walked
before it, unless it is that of a loop behind a `begin` block. Likewise the body of an `unless` is walked after
its else branch. The update of an element walks the container and the position twice. -/
def Term.Agrees (tree source : List String) : Term → Prop
  | .lit _ => True
  | .name x => x ∈ tree ↔ x ∈ source
  | .call _ args => AgreesAll tree source args
  | .array items => AgreesAll tree source items
  | .hash items => AgreesAll tree source items
  | .index container position =>
    container.Agrees tree source ∧ position.Agrees (container.assigned ++ tree) (container.assigned ++ source)
  | .negation operand => operand.Agrees tree source
  | .minus operand => operand.Agrees tree source
  | .binary _ left right =>
    left.Agrees tree source ∧ right.Agrees (left.assigned ++ tree) (left.assigned ++ source)
  | .choice test yes no =>
    test.Agrees tree source ∧ yes.Agrees (test.assigned ++ tree) (test.assigned ++ source) ∧
      no.Agrees (yes.assigned ++ (test.assigned ++ tree)) (yes.assigned ++ (test.assigned ++ source))
  | .choiceUnless test no yes =>
    test.Agrees tree source ∧
      no.Agrees (yes.assigned ++ (test.assigned ++ tree)) (test.assigned ++ source) ∧
      yes.Agrees (test.assigned ++ tree) (no.assigned ++ (test.assigned ++ source))
  | .assignName _ value => value.Agrees tree source
  | .assignIndex container position value =>
    container.Agrees tree source ∧
      position.Agrees (container.assigned ++ tree) (container.assigned ++ source) ∧
      value.Agrees (position.assigned ++ (container.assigned ++ tree))
        (position.assigned ++ (container.assigned ++ source))
  | .updateName x _ value => (x ∈ tree ↔ x ∈ source) ∧ value.Agrees tree source
  | .updateIndex container position _ value =>
    let both := position.assigned ++ container.assigned
    container.Agrees tree source ∧
      position.Agrees (container.assigned ++ tree) (container.assigned ++ source) ∧
      container.Agrees (both ++ tree) source ∧
      position.Agrees (both ++ tree) (container.assigned ++ source) ∧
      value.Agrees (both ++ tree) (both ++ source)
  | .loop test body =>
    test.Agrees tree source ∧ body.Agrees (test.assigned ++ tree) (test.assigned ++ source)
  | .caseOf subject clauses =>
    subject.Agrees tree source ∧ clauses.Agrees (subject.assigned ++ tree) (subject.assigned ++ source)
  | .definition _ params body => body.Agrees params params
  | .beginEnd body => body.Agrees tree source
  | .block statements => AgreesAll tree source statements
  | .modified statement modifier test =>
    if modifier = .whileTrue ∧ statement.isBegin then
      statement.Agrees tree source ∧
        test.Agrees (statement.assigned ++ tree) (statement.assigned ++ source)
    else
      statement.Agrees (test.assigned ++ tree) source ∧ test.Agrees tree (statement.assigned ++ source)
termination_by structural t => t

/-- The same of every term of a sequence. -/
def AgreesAll (tree source : List String) : List Term → Prop
  | [] => True
  | t :: rest => t.Agrees tree source ∧ AgreesAll (t.assigned ++ tree) (t.assigned ++ source) rest
termination_by structural l => l

/-- The same of clauses. -/
def Clauses.Agrees (tree source : List String) : Clauses → Prop
  | .otherwise body => body.Agrees tree source
  | .clause values body rest =>
    AgreesAll tree source values ∧
      body.Agrees (assignedAll values ++ tree) (assignedAll values ++ source) ∧
      rest.Agrees (body.assigned ++ (assignedAll values ++ tree))
        (body.assigned ++ (assignedAll values ++ source))
termination_by structural c => c

end

/-- The lists hold the same of the given names. -/
def SameOn (names known known' : List String) : Prop := ∀ x ∈ names, (x ∈ known ↔ x ∈ known')

namespace SameOn

variable {names more known known' : List String}

theorem refl (names known : List String) : SameOn names known known := fun _ _ => Iff.rfl

theorem left (h : SameOn (names ++ more) known known') : SameOn names known known' :=
  fun x hx => h x (List.mem_append_left more hx)

theorem right (h : SameOn (names ++ more) known known') : SameOn more known known' :=
  fun x hx => h x (List.mem_append_right names hx)

theorem tail {x : String} (h : SameOn (x :: names) known known') : SameOn names known known' :=
  fun y hy => h y (List.mem_cons_of_mem x hy)

theorem append (h : SameOn names known known') (added : List String) :
    SameOn names (added ++ known) (added ++ known') := fun x hx => by
  rw [List.mem_append, List.mem_append, h x hx]

/-- Names that are not among the given ones do not matter. -/
theorem of_apart {added : List String} (h : ∀ x ∈ added, x ∉ names) (known : List String) :
    SameOn names (added ++ known) known := fun x hx => by
  rw [List.mem_append, or_iff_right fun hadded => h x hadded hx]

end SameOn

mutual

/-- Whether the orders agree depends on the names that the term mentions only. -/
theorem agrees_congr : ∀ {t : Term} {tree tree' source source' : List String}, SameOn t.words tree tree' →
    SameOn t.words source source' → (t.Agrees tree source ↔ t.Agrees tree' source')
  | .lit _, _, _, _, _, _, _ => Iff.rfl
  | .name x, _, _, _, _, h, h' => iff_congr (h x List.mem_cons_self) (h' x List.mem_cons_self)
  | .call f args, _, _, _, _, h, h' =>
    agreesAll_congr (l := args) h.tail h'.tail
  | .array items, _, _, _, _, h, h' => agreesAll_congr (l := items) h h'
  | .hash items, _, _, _, _, h, h' => agreesAll_congr (l := items) h h'
  | .index _ _, _, _, _, _, h, h' =>
    and_congr (agrees_congr h.left h'.left) (agrees_congr (h.right.append _) (h'.right.append _))
  | .negation operand, _, _, _, _, h, h' => agrees_congr (t := operand) h h'
  | .minus operand, _, _, _, _, h, h' => agrees_congr (t := operand) h h'
  | .binary _ _ _, _, _, _, _, h, h' =>
    and_congr (agrees_congr h.left h'.left) (agrees_congr (h.right.append _) (h'.right.append _))
  | .choice _ _ _, _, _, _, _, h, h' =>
    and_congr (agrees_congr h.left.left h'.left.left)
      (and_congr (agrees_congr (h.left.right.append _) (h'.left.right.append _))
        (agrees_congr ((h.right.append _).append _) ((h'.right.append _).append _)))
  | .choiceUnless _ _ _, _, _, _, _, h, h' =>
    and_congr (agrees_congr h.left.left h'.left.left)
      (and_congr (agrees_congr ((h.left.right.append _).append _) (h'.left.right.append _))
        (agrees_congr (h.right.append _) ((h'.right.append _).append _)))
  | .assignName x value, _, _, _, _, h, h' =>
    agrees_congr (t := value) h.tail h'.tail
  | .assignIndex _ _ _, _, _, _, _, h, h' =>
    and_congr (agrees_congr h.left.left h'.left.left)
      (and_congr (agrees_congr (h.left.right.append _) (h'.left.right.append _))
        (agrees_congr ((h.right.append _).append _) ((h'.right.append _).append _)))
  | .updateName x _ value, _, _, _, _, h, h' =>
    and_congr (iff_congr (h x List.mem_cons_self) (h' x List.mem_cons_self))
      (agrees_congr (t := value) h.tail h'.tail)
  | .updateIndex _ _ _ _, _, _, _, _, h, h' =>
    and_congr (agrees_congr h.left.left h'.left.left)
      (and_congr (agrees_congr (h.left.right.append _) (h'.left.right.append _))
        (and_congr (agrees_congr (h.left.left.append _) h'.left.left)
          (and_congr (agrees_congr (h.left.right.append _) (h'.left.right.append _))
            (agrees_congr (h.right.append _) (h'.right.append _)))))
  | .loop _ _, _, _, _, _, h, h' =>
    and_congr (agrees_congr h.left h'.left) (agrees_congr (h.right.append _) (h'.right.append _))
  | .caseOf _ _, _, _, _, _, h, h' =>
    and_congr (agrees_congr h.left h'.left) (agreesClauses_congr (h.right.append _) (h'.right.append _))
  | .definition _ _ _, _, _, _, _, _, _ => Iff.rfl
  | .beginEnd body, _, _, _, _, h, h' => agrees_congr (t := body) h h'
  | .block statements, _, _, _, _, h, h' => agreesAll_congr (l := statements) h h'
  | .modified statement modifier test, _, _, _, _, h, h' => by
    rw [Term.Agrees, Term.Agrees]
    split
    · exact and_congr (agrees_congr h.left h'.left) (agrees_congr (h.right.append _) (h'.right.append _))
    · exact and_congr (agrees_congr (h.left.append _) h'.left) (agrees_congr h.right (h'.right.append _))

theorem agreesAll_congr : ∀ {l : List Term} {tree tree' source source' : List String},
    SameOn (wordsAll l) tree tree' → SameOn (wordsAll l) source source' →
      (AgreesAll tree source l ↔ AgreesAll tree' source' l)
  | [], _, _, _, _, _, _ => Iff.rfl
  | _ :: _, _, _, _, _, h, h' =>
    and_congr (agrees_congr h.left h'.left) (agreesAll_congr (h.right.append _) (h'.right.append _))

theorem agreesClauses_congr : ∀ {c : Clauses} {tree tree' source source' : List String},
    SameOn c.words tree tree' → SameOn c.words source source' →
      (c.Agrees tree source ↔ c.Agrees tree' source')
  | .otherwise body, _, _, _, _, h, h' => agrees_congr (t := body) h h'
  | .clause _ _ _, _, _, _, _, h, h' =>
    and_congr (agreesAll_congr h.left.left h'.left.left)
      (and_congr (agrees_congr (h.left.right.append _) (h'.left.right.append _))
        (agreesClauses_congr ((h.right.append _).append _) ((h'.right.append _).append _)))

end

mutual

/-- Where the parts of a construct are walked out of order, none assigns a name that another mentions. -/
def Term.Apart : Term → Prop
  | .lit _ => True
  | .name _ => True
  | .call _ args => ApartAll args
  | .array items => ApartAll items
  | .hash items => ApartAll items
  | .index container position => container.Apart ∧ position.Apart
  | .negation operand => operand.Apart
  | .minus operand => operand.Apart
  | .binary _ left right => left.Apart ∧ right.Apart
  | .choice test yes no => test.Apart ∧ yes.Apart ∧ no.Apart
  | .choiceUnless test no yes =>
    test.Apart ∧ no.Apart ∧ yes.Apart ∧ (∀ x ∈ yes.assigned, x ∉ no.words) ∧ ∀ x ∈ no.assigned, x ∉ yes.words
  | .assignName _ value => value.Apart
  | .assignIndex container position value => container.Apart ∧ position.Apart ∧ value.Apart
  | .updateName _ _ value => value.Apart
  | .updateIndex container position _ value =>
    container.Apart ∧ position.Apart ∧ value.Apart ∧ container.assigned = [] ∧ position.assigned = []
  | .loop test body => test.Apart ∧ body.Apart
  | .caseOf subject clauses => subject.Apart ∧ clauses.Apart
  | .definition _ _ body => body.Apart
  | .beginEnd body => body.Apart
  | .block statements => ApartAll statements
  | .modified statement modifier test =>
    statement.Apart ∧ test.Apart ∧ (¬ (modifier = .whileTrue ∧ statement.isBegin) →
      (∀ x ∈ test.assigned, x ∉ statement.words) ∧ ∀ x ∈ statement.assigned, x ∉ test.words)
termination_by structural t => t

/-- The same of every term of a sequence. -/
def ApartAll : List Term → Prop
  | [] => True
  | t :: rest => t.Apart ∧ ApartAll rest
termination_by structural l => l

/-- The same of clauses. -/
def Clauses.Apart : Clauses → Prop
  | .otherwise body => body.Apart
  | .clause values body rest => ApartAll values ∧ body.Apart ∧ rest.Apart
termination_by structural c => c

end

mutual

/-- The orders agree on a term that keeps apart what is walked out of order. -/
theorem agrees_of_apart : ∀ {t : Term}, t.Apart → ∀ known, t.Agrees known known
  | .lit _, _, _ => trivial
  | .name _, _, _ => Iff.rfl
  | .call _ args, h, known => agreesAll_of_apart (l := args) h known
  | .array items, h, known => agreesAll_of_apart (l := items) h known
  | .hash items, h, known => agreesAll_of_apart (l := items) h known
  | .index _ _, h, known => ⟨agrees_of_apart h.1 known, agrees_of_apart h.2 _⟩
  | .negation operand, h, known => agrees_of_apart (t := operand) h known
  | .minus operand, h, known => agrees_of_apart (t := operand) h known
  | .binary _ _ _, h, known => ⟨agrees_of_apart h.1 known, agrees_of_apart h.2 _⟩
  | .choice _ _ _, h, known =>
    ⟨agrees_of_apart h.1 known, agrees_of_apart h.2.1 _, agrees_of_apart h.2.2 _⟩
  | .choiceUnless _ _ _, h, known => by
    obtain ⟨ht, hn, hy, hyes, hno⟩ := h
    refine ⟨agrees_of_apart ht known, ?_, ?_⟩
    · exact (agrees_congr (.of_apart hyes _) (.refl _ _)).mpr (agrees_of_apart hn _)
    · exact (agrees_congr (.refl _ _) (.of_apart hno _)).mpr (agrees_of_apart hy _)
  | .assignName _ value, h, known => agrees_of_apart (t := value) h known
  | .assignIndex _ _ _, h, known =>
    ⟨agrees_of_apart h.1 known, agrees_of_apart h.2.1 _, agrees_of_apart h.2.2 _⟩
  | .updateName _ _ value, h, known => ⟨Iff.rfl, agrees_of_apart (t := value) h known⟩
  | .updateIndex c p _ value, h, known => by
    obtain ⟨hc, hp, hv, hcnone, hpnone⟩ := h
    rw [Term.Agrees, hcnone, hpnone]
    exact ⟨agrees_of_apart hc known, agrees_of_apart hp known, agrees_of_apart hc known,
      agrees_of_apart hp known, agrees_of_apart hv known⟩
  | .loop _ _, h, known => ⟨agrees_of_apart h.1 known, agrees_of_apart h.2 _⟩
  | .caseOf _ _, h, known => ⟨agrees_of_apart h.1 known, agreesClauses_of_apart h.2 _⟩
  | .definition _ params body, h, _ => agrees_of_apart (t := body) h params
  | .beginEnd body, h, known => agrees_of_apart (t := body) h known
  | .block statements, h, known => agreesAll_of_apart (l := statements) h known
  | .modified statement modifier test, h, known => by
    obtain ⟨hs, ht, hapart⟩ := h
    rw [Term.Agrees]
    split
    · exact ⟨agrees_of_apart hs known, agrees_of_apart ht _⟩
    · next hout =>
      obtain ⟨htest, hstatement⟩ := hapart hout
      constructor
      · exact (agrees_congr (.of_apart htest _) (.refl _ _)).mpr (agrees_of_apart hs known)
      · exact (agrees_congr (.refl _ _) (.of_apart hstatement _)).mpr (agrees_of_apart ht known)

theorem agreesAll_of_apart : ∀ {l : List Term}, ApartAll l → ∀ known, AgreesAll known known l
  | [], _, _ => trivial
  | _ :: _, h, known => ⟨agrees_of_apart h.1 known, agreesAll_of_apart h.2 _⟩

theorem agreesClauses_of_apart : ∀ {c : Clauses}, c.Apart → ∀ known, c.Agrees known known
  | .otherwise body, h, known => agrees_of_apart (t := body) h known
  | .clause _ _ _, h, known =>
    ⟨agreesAll_of_apart h.1 known, agrees_of_apart h.2.1 _, agreesClauses_of_apart h.2.2 _⟩

end

end MinRuby.Syntax
