import MinRuby.Proofs.Syntax.Definitions

/-!
# Assigned before it is read

Resolution takes a name for a variable from its first assignment on, in the order of evaluation, whether or not that
assignment is reached when the program runs. Where the first assignment of a name cannot be passed over, the two come to the
same: nothing is read that has not been assigned. What is kept in a temporary is assigned right before it is read, always.

* `Node.assignments` — the assignments of a tree in the order of evaluation.
* `Node.Covered` — every name that is read has been assigned.
* `covered_resolve` — resolution of a tree whose first assignments cannot be passed over.
* `supplied_of_parseProgram`, `covered_of_firstSure` — programs.
-/

namespace MinRuby.Syntax

/-- The assignments, where they may be passed over. -/
def skippable (as : List (String × Bool)) : List (String × Bool) := as.map fun a => (a.1, true)

/-- The names of the assignments that cannot be passed over. -/
def sure (as : List (String × Bool)) : List String := (as.filter fun a => !a.2).map (·.1)

theorem sure_append (as bs : List (String × Bool)) : sure (as ++ bs) = sure as ++ sure bs := by
  rw [sure, List.filter_append, List.map_append, sure, sure]

theorem sure_skippable (as : List (String × Bool)) : sure (skippable as) = [] := by simp [sure, skippable]

theorem sure_append_skippable (as bs : List (String × Bool)) : sure (as ++ skippable bs) = sure as := by
  rw [sure_append, sure_skippable, List.append_nil]

theorem mem_sure {x : String} {as : List (String × Bool)} : x ∈ sure as ↔ (x, false) ∈ as := by simp [sure]

theorem map_fst_skippable (as : List (String × Bool)) : (skippable as).map (·.1) = as.map (·.1) := by simp [skippable]

theorem mem_of_lookup {x : String} {skipped : Bool} {as : List (String × Bool)} (h : as.lookup x = some skipped) :
    (x, skipped) ∈ as := by
  obtain ⟨before, after, rfl, -⟩ := List.lookup_eq_some_iff.mp h
  exact List.mem_append_right _ List.mem_cons_self

theorem exists_lookup {x : String} {as : List (String × Bool)} (h : x ∈ as.map (·.1)) :
    ∃ skipped, as.lookup x = some skipped := by
  obtain ⟨a, ha, rfl⟩ := List.mem_map.mp h
  exact Option.isSome_iff_exists.mp (List.lookup_isSome_iff.mpr ⟨a, ha, beq_self_eq_true a.1⟩)

namespace Node

mutual

/-- The assignments outside of definitions in the order of evaluation, each with whether it may be passed over: because it
stands in a branch of a choice, or in the body of a loop that tests first. -/
def assignments : Node → List (String × Bool)
  | varAssign x value => value.assignments ++ [(x, false)]
  | binary _ left right => left.assignments ++ right.assignments
  | stmts body => assignmentsAll body
  | choice test yes no => test.assignments ++ skippable (yes.assignments ++ no.assignments)
  | loop test body => test.assignments ++ skippable body.assignments
  | loopAfter test body => body.assignments ++ test.assignments
  | funcCall _ args => assignmentsAll args
  | aryNew items => assignmentsAll items
  | aryRef container position => container.assignments ++ position.assignments
  | aryAssign container position value => container.assignments ++ (position.assignments ++ value.assignments)
  | hashNew items => assignmentsAll items
  | lit _ | varRef _ | funcDef _ _ _ | unknown _ | scalar | broken => []
termination_by structural n => n

/-- The assignments of the trees of a sequence. -/
def assignmentsAll : List Node → List (String × Bool)
  | [] => []
  | n :: rest => n.assignments ++ assignmentsAll rest
termination_by structural l => l

end

/-- The first assignment of each name of `P`, the parameters apart, cannot be passed over. -/
def FirstSure (P : String → Prop) (params : List String) (body : Node) : Prop :=
  ∀ x, P x → x ∉ params → body.assignments.lookup x ≠ some true

theorem FirstSure.of_all {P : String → Prop} {params : List String} {body : Node}
    (h : ∀ a ∈ body.assignments, body.assignments.lookup a.1 ≠ some true) : body.FirstSure P params :=
  fun _ _ _ hlookup => h _ (mem_of_lookup hlookup) hlookup

mutual

/-- Each name of `P` that the tree reads is one of the given ones or has been assigned. The body of a definition starts from
the parameters. -/
def Covered (P : String → Prop) : List String → Node → Prop
  | names, varRef x => P x → x ∈ names
  | names, varAssign _ value => Covered P names value
  | names, binary _ left right => Covered P names left ∧ Covered P (sure left.assignments ++ names) right
  | names, stmts body => CoveredAll P names body
  | names, choice test yes no => Covered P names test ∧ Covered P (sure test.assignments ++ names) yes ∧
    Covered P (sure test.assignments ++ names) no
  | names, loop test body => Covered P names test ∧ Covered P (sure test.assignments ++ names) body
  | names, loopAfter test body => Covered P names body ∧ Covered P (sure body.assignments ++ names) test
  | _, funcDef _ params body => Covered P params body
  | names, funcCall _ args => CoveredAll P names args
  | names, aryNew items => CoveredAll P names items
  | names, aryRef container position => Covered P names container ∧ Covered P (sure container.assignments ++ names) position
  | names, aryAssign container position value => Covered P names container ∧
    Covered P (sure container.assignments ++ names) position ∧
      Covered P (sure position.assignments ++ (sure container.assignments ++ names)) value
  | names, hashNew items => CoveredAll P names items
  | _, lit _ | _, unknown _ | _, scalar | _, broken => True
termination_by structural _ n => n

/-- The same of the trees of a sequence. -/
def CoveredAll (P : String → Prop) : List String → List Node → Prop
  | _, [] => True
  | names, n :: rest => Covered P names n ∧ CoveredAll P (sure n.assignments ++ names) rest
termination_by structural _ l => l

end

mutual

theorem mem_assigned_iff {x : String} : ∀ n : Node, x ∈ n.assigned ↔ x ∈ n.assignments.map (·.1)
  | lit _ | varRef _ | funcDef _ _ _ | unknown _ | scalar | broken => Iff.rfl
  | binary _ left right => by simp [assigned, assignments, mem_assigned_iff left, mem_assigned_iff right, or_comm]
  | stmts body => mem_assignedAll_iff body
  | varAssign y value => by simp [assigned, assignments, mem_assigned_iff value, or_comm]
  | choice test yes no => by
    simp [assigned, assignments, skippable, mem_assigned_iff test, mem_assigned_iff yes, mem_assigned_iff no]
    tauto
  | loop test body => by simp [assigned, assignments, skippable, mem_assigned_iff test, mem_assigned_iff body, or_comm]
  | loopAfter test body => by simp [assigned, assignments, mem_assigned_iff test, mem_assigned_iff body, or_comm]
  | funcCall _ args => mem_assignedAll_iff args
  | aryNew items => mem_assignedAll_iff items
  | aryRef container position => by
    simp [assigned, assignments, mem_assigned_iff container, mem_assigned_iff position, or_comm]
  | aryAssign container position value => by
    simp [assigned, assignments, mem_assigned_iff container, mem_assigned_iff position, mem_assigned_iff value]
    tauto
  | hashNew items => mem_assignedAll_iff items

theorem mem_assignedAll_iff {x : String} : ∀ ns : List Node, x ∈ assignedAll ns ↔ x ∈ (assignmentsAll ns).map (·.1)
  | [] => Iff.rfl
  | n :: rest => by simp [assignedAll, assignmentsAll, mem_assigned_iff n, mem_assignedAll_iff rest, or_comm]

end

mutual

/-- The resolved tree assigns the same names in the same order. -/
theorem gives_assignments : ∀ n : Node, Gives n.resolve fun m => m.assignments = n.assignments
  | lit _ => .pure rfl
  | binary _ left right => (gives_assignments left).bind fun _ hl => (gives_assignments right).bind fun _ hr =>
    .pure (by rw [assignments, assignments, hl, hr])
  | stmts body => (gives_assignmentsAll body).bind fun _ h => .pure (by rw [assignments, assignments, h])
  | varAssign x value => (gives_assignments value).bind fun _ h => fun _ => congrArg (· ++ [(x, false)]) h
  | varRef x => fun known => by
    change ((if x ∈ known then varRef x else funcCall x []) : Node).assignments = []
    split <;> rfl
  | choice test yes no => (gives_assignments test).bind fun _ ht => (gives_assignments yes).bind fun _ hy =>
    (gives_assignments no).bind fun _ hn => .pure (by rw [assignments, assignments, ht, hy, hn])
  | loop test body => (gives_assignments test).bind fun _ ht => (gives_assignments body).bind fun _ hb =>
    .pure (by rw [assignments, assignments, ht, hb])
  | loopAfter test body => (gives_assignments body).bind fun _ hb => (gives_assignments test).bind fun _ ht =>
    .pure (by rw [assignments, assignments, ht, hb])
  | funcDef _ _ _ => .pure rfl
  | funcCall _ args => (gives_assignmentsAll args).bind fun _ h => .pure (by rw [assignments, assignments, h])
  | aryNew items => (gives_assignmentsAll items).bind fun _ h => .pure (by rw [assignments, assignments, h])
  | aryRef container position => (gives_assignments container).bind fun _ hc => (gives_assignments position).bind fun _ hp =>
    .pure (by rw [assignments, assignments, hc, hp])
  | aryAssign container position value => (gives_assignments container).bind fun _ hc =>
    (gives_assignments position).bind fun _ hp => (gives_assignments value).bind fun _ hv =>
      .pure (by rw [assignments, assignments, hc, hp, hv])
  | hashNew items => (gives_assignmentsAll items).bind fun _ h => .pure (by rw [assignments, assignments, h])
  | unknown _ => .pure rfl
  | scalar => .pure rfl
  | broken => .pure rfl

theorem gives_assignmentsAll : ∀ ns : List Node, Gives (resolveAll ns) fun ms => assignmentsAll ms = assignmentsAll ns
  | [] => .pure rfl
  | n :: rest => (gives_assignments n).bind fun _ h => (gives_assignmentsAll rest).bind fun _ hs =>
    .pure (by rw [assignmentsAll, assignmentsAll, h, hs])

end

end Node

/-! ## Names that are known and names that are assigned -/

/-- The names of `Q` that are known have been assigned, and the first assignments of the others to come cannot be passed
over. -/
structure Fits (Q : String → Prop) (known names : List String) (as : List (String × Bool)) : Prop where
  assigned : ∀ x, Q x → x ∈ known → x ∈ names
  first : ∀ x, Q x → x ∉ names → as.lookup x ≠ some true

namespace Fits

variable {Q : String → Prop} {known known' names : List String} {as bs : List (String × Bool)}

theorem left (h : Fits Q known names (as ++ bs)) : Fits Q known names as where
  assigned := h.assigned
  first x hx hnames hlookup := h.first x hx hnames (by rw [List.lookup_append, hlookup]; rfl)

/-- A name that is assigned is assigned for sure or was assigned before. -/
theorem mem_sure (h : Fits Q known names as) {x : String} (hx : Q x) (hmem : x ∈ as.map (·.1)) : x ∈ sure as ++ names := by
  by_cases hnames : x ∈ names
  · exact List.mem_append_right _ hnames
  · obtain ⟨skipped, hlookup⟩ := exists_lookup hmem
    cases skipped with
    | false => exact List.mem_append_left _ (Syntax.mem_sure.mpr (mem_of_lookup hlookup))
    | true => exact absurd hlookup (h.first x hx hnames)

/-- Behind assignments their names are known and assigned. -/
theorem right (h : Fits Q known names (as ++ bs)) (hknown : ∀ x ∈ known', x ∈ as.map (·.1) ∨ x ∈ known) :
    Fits Q known' (sure as ++ names) bs where
  assigned x hx hmem := (hknown x hmem).elim (h.left.mem_sure hx) fun hbefore =>
    List.mem_append_right _ (h.assigned x hx hbefore)
  first x hx hmem hlookup := by
    have hnames : x ∉ names := fun hnames => hmem (List.mem_append_right _ hnames)
    -- a name that is assigned before would be assigned for sure
    have hnone : as.lookup x = none := by
      by_contra hsome
      obtain ⟨skipped, hfirst⟩ := Option.ne_none_iff_exists'.mp hsome
      exact hmem (h.left.mem_sure hx (List.mem_map_of_mem (mem_of_lookup hfirst)))
    exact h.first x hx hnames (by rw [List.lookup_append, hnone]; exact hlookup)

/-- In what may be passed over no name is assigned for the first time. -/
theorem branch (h : Fits Q known names (skippable as)) (hknown : ∀ x ∈ known', x ∈ as.map (·.1) ∨ x ∈ known)
    (hbs : bs ⊆ as) : Fits Q known' names bs := by
  have hold (x : String) (hx : Q x) (hmem : x ∈ as.map (·.1)) : x ∈ names := by
    have hsure := h.mem_sure hx (map_fst_skippable as ▸ hmem)
    rwa [sure_skippable, List.nil_append] at hsure
  constructor
  · exact fun x hx hmem => (hknown x hmem).elim (hold x hx) (h.assigned x hx)
  · exact fun x hx hnames hlookup => hnames (hold x hx (List.mem_map_of_mem (hbs (mem_of_lookup hlookup))))

end Fits

namespace Node

theorem Within.of_child {c n : Node} (hc : c ∈ n.children) {p : Procedure} (h : c.Within p) : n.Within p := by
  induction h with
  | outer hp => exact .outer (definitions_of_mem_children hc hp)
  | inner _ hp ih => exact .inner ih hp

theorem Within.of_body {f : String} {params : List String} {body : Node} {p : Procedure} (h : body.Within p) :
    (funcDef f params body).Within p := by
  induction h with
  | outer hp => exact .inner (.outer List.mem_cons_self) hp
  | inner _ hp ih => exact .inner ih hp

/-- What resolution knows behind a tree. -/
theorem mem_known_resolve {n : Node} {known : List String} :
    ∀ x ∈ (n.resolve.run known).2, x ∈ n.assignments.map (·.1) ∨ x ∈ known := by
  intro x hx
  rw [adds_resolve n known, List.mem_append] at hx
  exact hx.imp_left (mem_assigned_iff n).mp

/-- What a tree assigns for sure, it also does when it is resolved. -/
theorem Covered.behind {R : String → Prop} {names : List String} {n : Node} (l : Node) (known : List String)
    (h : n.Covered R (sure l.assignments ++ names)) : n.Covered R (sure (l.resolve.run known).1.assignments ++ names) := by
  have hsame : (l.resolve.run known).1.assignments = l.assignments := gives_assignments l known
  rwa [hsame]

section

variable {P Q R : String → Prop}

mutual

/-- In the resolved tree each name of `R` that is read has been assigned: a name of `P` because it has in the tree itself, a
name of `Q` because its first assignment cannot be passed over. -/
theorem covered_resolve (hR : ∀ x, R x → P x ∨ Q x) : ∀ (n : Node) {known names : List String}, n.Covered P names →
    Fits Q known names n.assignments → (∀ p, (n.resolve.run known).1.Within p → p.body.FirstSure Q p.params) →
      (n.resolve.run known).1.Covered R names
  | lit _, _, _, _, _, _ | unknown _, _, _, _, _, _ | scalar, _, _, _, _, _ | broken, _, _, _, _, _ => trivial
  | varRef x, known, names, hcovered, hfits, _ => by
    show Covered R names (if x ∈ known then varRef x else funcCall x [])
    split
    · next hknown => exact fun hx => (hR x hx).elim hcovered fun hq => hfits.assigned x hq hknown
    · exact trivial
  | varAssign x value, known, names, hcovered, hfits, hdefs =>
    show (value.resolve.run known).1.Covered R names from
      covered_resolve hR value hcovered hfits.left fun p hp => hdefs p (hp.of_child List.mem_cons_self)
  | binary op left right, known, names, hcovered, hfits, hdefs => by
    have hleft := covered_resolve hR left hcovered.1 hfits.left fun p hp => hdefs p (hp.of_child List.mem_cons_self)
    have hright := covered_resolve hR right hcovered.2 (hfits.right mem_known_resolve) fun p hp =>
      hdefs p (hp.of_child (List.mem_cons_of_mem _ List.mem_cons_self))
    exact ⟨hleft, hright.behind left known⟩
  | choice test yes no, known, names, hcovered, hfits, hdefs => by
    have hrest : Fits Q (test.resolve.run known).2 _ _ := hfits.right mem_known_resolve
    have htest := covered_resolve hR test hcovered.1 hfits.left fun p hp => hdefs p (hp.of_child List.mem_cons_self)
    have hyes := covered_resolve hR yes hcovered.2.1 (hrest.branch (fun _ => .inr) (List.subset_append_left _ _)) fun p hp =>
      hdefs p (hp.of_child (List.mem_cons_of_mem _ List.mem_cons_self))
    have hbranch : Fits Q (yes.resolve.run (test.resolve.run known).2).2 _ no.assignments :=
      hrest.branch (fun x hx => (mem_known_resolve x hx).imp_left (by rw [List.map_append]; exact List.mem_append_left _))
        (List.subset_append_right _ _)
    have hno := covered_resolve hR no hcovered.2.2 hbranch fun p hp =>
      hdefs p (hp.of_child (List.mem_cons_of_mem _ (List.mem_cons_of_mem _ List.mem_cons_self)))
    exact ⟨htest, hyes.behind test known, hno.behind test known⟩
  | loop test body, known, names, hcovered, hfits, hdefs => by
    have hrest : Fits Q (test.resolve.run known).2 _ _ := hfits.right mem_known_resolve
    have htest := covered_resolve hR test hcovered.1 hfits.left fun p hp => hdefs p (hp.of_child List.mem_cons_self)
    have hbody := covered_resolve hR body hcovered.2 (hrest.branch (fun _ => .inr) (List.Subset.refl _)) fun p hp =>
      hdefs p (hp.of_child (List.mem_cons_of_mem _ List.mem_cons_self))
    exact ⟨htest, hbody.behind test known⟩
  | loopAfter test body, known, names, hcovered, hfits, hdefs => by
    have hbody := covered_resolve hR body hcovered.1 hfits.left fun p hp =>
      hdefs p (hp.of_child (List.mem_cons_of_mem _ List.mem_cons_self))
    have htest := covered_resolve hR test hcovered.2 (hfits.right mem_known_resolve) fun p hp =>
      hdefs p (hp.of_child List.mem_cons_self)
    exact ⟨hbody, htest.behind body known⟩
  | funcDef f params body, _, _, hcovered, _, hdefs => by
    -- the body is a scope of its own, in which the parameters are known and assigned
    have hfirst : body.FirstSure Q params := by
      have hresolved : (body.resolve.run params).1.FirstSure Q params := hdefs ⟨f, params, _⟩ (.outer List.mem_cons_self)
      have hsame : (body.resolve.run params).1.assignments = body.assignments := gives_assignments body params
      rwa [FirstSure, hsame] at hresolved
    have hfits : Fits Q params params body.assignments := ⟨fun _ _ h => h, hfirst⟩
    exact covered_resolve hR body hcovered hfits fun p hp => hdefs p hp.of_body
  | funcCall _ args, _, _, hcovered, hfits, hdefs =>
    covered_resolveAll hR args hcovered hfits fun _ hn p hp => hdefs p (hp.of_child hn)
  | stmts body, _, _, hcovered, hfits, hdefs =>
    covered_resolveAll hR body hcovered hfits fun _ hn p hp => hdefs p (hp.of_child hn)
  | aryNew items, _, _, hcovered, hfits, hdefs =>
    covered_resolveAll hR items hcovered hfits fun _ hn p hp => hdefs p (hp.of_child hn)
  | hashNew items, _, _, hcovered, hfits, hdefs =>
    covered_resolveAll hR items hcovered hfits fun _ hn p hp => hdefs p (hp.of_child hn)
  | aryRef container position, known, _, hcovered, hfits, hdefs => by
    have hcontainer := covered_resolve hR container hcovered.1 hfits.left fun p hp => hdefs p (hp.of_child List.mem_cons_self)
    have hposition := covered_resolve hR position hcovered.2 (hfits.right mem_known_resolve) fun p hp =>
      hdefs p (hp.of_child (List.mem_cons_of_mem _ List.mem_cons_self))
    exact ⟨hcontainer, hposition.behind container known⟩
  | aryAssign container position value, known, names, hcovered, hfits, hdefs => by
    have hrest : Fits Q (container.resolve.run known).2 _ _ := hfits.right mem_known_resolve
    have hcontainer := covered_resolve hR container hcovered.1 hfits.left fun p hp => hdefs p (hp.of_child List.mem_cons_self)
    have hposition := covered_resolve hR position hcovered.2.1 hrest.left fun p hp =>
      hdefs p (hp.of_child (List.mem_cons_of_mem _ List.mem_cons_self))
    have hvalue := covered_resolve hR value hcovered.2.2 (hrest.right mem_known_resolve) fun p hp =>
      hdefs p (hp.of_child (List.mem_cons_of_mem _ (List.mem_cons_of_mem _ List.mem_cons_self)))
    have hsame : (container.resolve.run known).1.assignments = container.assignments := gives_assignments container known
    rw [← hsame] at hvalue
    exact ⟨hcontainer, hposition.behind container known, hvalue.behind position _⟩

theorem covered_resolveAll (hR : ∀ x, R x → P x ∨ Q x) : ∀ (ns : List Node) {known names : List String}, CoveredAll P names ns →
    Fits Q known names (assignmentsAll ns) →
    (∀ n ∈ ((resolveAll ns).run known).1, ∀ p, n.Within p → p.body.FirstSure Q p.params) →
      CoveredAll R names ((resolveAll ns).run known).1
  | [], _, _, _, _, _ => trivial
  | n :: rest, known, names, hcovered, hfits, hdefs => by
    have hfirst := covered_resolve hR n hcovered.1 hfits.left (hdefs _ List.mem_cons_self)
    have hrest := covered_resolveAll hR rest hcovered.2 (hfits.right mem_known_resolve) fun m hm =>
      hdefs m (List.mem_cons_of_mem _ hm)
    have hsame : (n.resolve.run known).1.assignments = n.assignments := gives_assignments n known
    exact ⟨hfirst, by rw [← hsame] at hrest; exact hrest⟩

end

end

/-! ## Temporaries -/

/-- A name that no program can write. -/
abbrev Unwritten (x : String) : Prop := ¬ IsIdentifier x

/-- Whatever has been assigned before, every name that no program can write is assigned before it is read. -/
abbrev Supplied (n : Node) : Prop := ∀ names, n.Covered Unwritten names

theorem suppliedAll {ns : List Node} (h : ∀ n ∈ ns, n.Supplied) : ∀ names, CoveredAll Unwritten names ns := by
  induction ns with
  | nil => exact fun _ => trivial
  | cons n ns ih => exact fun names => ⟨h n List.mem_cons_self names, ih (fun m hm => h m (List.mem_cons_of_mem _ hm)) _⟩

/-- What is kept in a temporary is assigned to it right before. -/
theorem Supplied.assignThen {x : String} {value n : Node} (hvalue : value.Supplied)
    (hn : ∀ names, x ∈ names → n.Covered Unwritten names) : (stmts [varAssign x value, n]).Supplied := by
  intro names
  have hx : x ∈ sure (varAssign x value).assignments := mem_sure.mpr (List.mem_append_right _ List.mem_cons_self)
  exact ⟨hvalue names, hn _ (List.mem_append_left _ hx), trivial⟩

theorem Supplied.bothOf {x : String} {left right : Node} (hleft : left.Supplied) (hright : right.Supplied) :
    (bothOf x left right).Supplied :=
  hleft.assignThen fun _ hx => ⟨fun _ => hx, hright _, fun _ => List.mem_append_right _ hx⟩

theorem Supplied.eitherOf {x : String} {left right : Node} (hleft : left.Supplied) (hright : right.Supplied) :
    (eitherOf x left right).Supplied :=
  hleft.assignThen fun _ hx => ⟨fun _ => hx, fun _ => List.mem_append_right _ hx, hright _⟩

theorem covered_matchesAny {x : String} {values : List Node} (h : ∀ n ∈ values, n.Supplied) :
    ∀ names, x ∈ names → (matchesAny x values).Covered Unwritten names := by
  fun_induction matchesAny x values with
  | case1 => exact fun _ _ => trivial
  | case2 value => exact fun names hx => ⟨fun _ => hx, h value List.mem_cons_self _⟩
  | case3 value rest _ ih =>
    refine fun names hx => ⟨⟨fun _ => hx, h value List.mem_cons_self _⟩, trivial, ?_⟩
    exact ih (fun n hn => h n (List.mem_cons_of_mem _ hn)) _ (List.mem_append_right _ hx)

end Node

/-- Whatever the reduction makes of terms assigns its temporaries before it reads them; the clauses of a `case` find the
subject in the temporary. -/
theorem composes_supplied :
    Composes Node.Supplied fun x n => ∀ names, x ∈ names → n.Covered Node.Unwritten names where
  lit _ := fun _ => trivial
  varRef hx := fun _ hunwritten => absurd hx hunwritten
  funcCall _ ha := Node.suppliedAll ha
  aryNew hi := Node.suppliedAll hi
  hashNew _ hi := Node.suppliedAll hi
  aryRef hc hp := fun _ => ⟨hc _, hp _⟩
  binary hl hr := fun _ => ⟨hl _, hr _⟩
  bothOf _ hl hr := hl.bothOf hr
  eitherOf _ hl hr := hl.eitherOf hr
  choice ht hy hn := fun _ => ⟨ht _, hy _, hn _⟩
  varAssign _ hv := hv
  aryAssign hc hp hv := fun _ => ⟨hc _, hp _, hv _⟩
  loop ht hb := fun _ => ⟨ht _, hb _⟩
  loopAfter ht hb := fun _ => ⟨hb _, ht _⟩
  stmts hb := Node.suppliedAll hb
  funcDef _ _ hb := fun _ => hb _
  caseOf _ hs hc := hs.assignThen hc
  otherwise hb := fun names _ => hb names
  clause _ hv hb hr := fun names hx => ⟨Node.covered_matchesAny hv names hx, hb _, hr _ (List.mem_append_right _ hx)⟩

/-! ## Programs -/

variable {source filename : String} {counter next : Nat} {tree : Node}

/-- In the tree of a program what is kept in a temporary is assigned before it is read. -/
theorem supplied_of_parseProgram {known : List String} (h : parseProgram source filename known counter = .ok (tree, next)) :
    tree.Supplied := by
  obtain ⟨t, hread, rfl⟩ := parseProgram_eq_ok h
  have hsupplied := composes_supplied.of_readProgram hread counter
  intro names
  have hfits : Fits (fun _ => False) known names (t.desugar.run counter).1.assignments :=
    ⟨fun _ => False.elim, fun _ => False.elim⟩
  exact Node.covered_resolve (fun _ => .inl) _ (hsupplied names) hfits fun _ _ _ => False.elim

/-- If no first assignment can be passed over, every name is assigned before it is read. -/
theorem covered_of_firstSure (h : parseProgram source filename [] counter = .ok (tree, next))
    (htop : tree.FirstSure IsIdentifier []) (hdefs : ∀ p, tree.Within p → p.body.FirstSure IsIdentifier p.params) :
    tree.Covered (fun _ => True) [] := by
  obtain ⟨t, hread, rfl⟩ := parseProgram_eq_ok h
  have hsupplied := composes_supplied.of_readProgram hread counter
  have hsame := Node.gives_assignments (t.desugar.run counter).1 []
  have hfits : Fits IsIdentifier [] [] (t.desugar.run counter).1.assignments := by
    refine ⟨fun _ _ h => h, ?_⟩
    rwa [Node.FirstSure, hsame] at htop
  exact Node.covered_resolve (fun x _ => (em (IsIdentifier x)).symm) _ (hsupplied []) hfits hdefs

end MinRuby.Syntax
