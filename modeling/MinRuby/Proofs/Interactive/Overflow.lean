import MinRuby.Proofs.Interactive.Session
import MinRuby.Proofs.Run.WellFormed

/-!
# How a session breaks off

A session that breaks off does so at the bound on depth, on rounds, on numerals or on repetition counts, since its
machine is proper at every prompt. At the bound on depth it breaks off only while it shows something: the value of an
entry, the variables, or the outline of a program. An entry whose evaluation goes too deep is reported.

* `sound_react` — the limits at which a reaction breaks off.
* `breakOff_depth_iff` — the reactions that break off at the bound on depth.
* `session_ends` — both for a whole session.
-/

namespace MinRuby

open Syntax (Node IsTree outlineLines innerLines linesAfter headLine isText)

/-! ## Outlines -/

theorem failsOnly_written (d : Data) : FailsOnly RegularLimit d.written := by
  unfold Data.written
  split
  · exact .error trivial
  · exact .ok _

theorem failsOnly_headLine (depth : Int) (tag : String) (beside : List Data) :
    FailsOnly RegularLimit (headLine depth tag beside) :=
  (FailsOnly.mapM _ fun d _ => failsOnly_written d).bind fun _ => .ok _

theorem failsOnly_innerLines {depth : Int} : ∀ {ds : List Data},
    (∀ d ∈ ds, isText d = true ∨ FailsOnly RegularLimit (outlineLines depth d)) →
    FailsOnly RegularLimit (innerLines depth ds)
  | [], _ => .ok _
  | d :: rest, h => by
    have hrest (lines : List Syntax.OutlineLine) :
        FailsOnly RegularLimit (do return lines ++ (← innerLines depth rest)) :=
      (failsOnly_innerLines fun d hd => h d (List.mem_cons_of_mem _ hd)).bind fun _ => .ok _
    rw [innerLines]
    split
    · exact hrest []
    · next htext =>
      rcases h d List.mem_cons_self with ht | hd
      · exact absurd ht htext
      · exact hd.bind hrest

/-- A node that is neither a literal nor a definition. -/
theorem failsOnly_node {depth : Int} {tag : String} {children : List Data} (htag : tag ∈ Node.tags)
    (hlit : tag ≠ "lit") (hdef : tag ≠ "func_def")
    (h : ∀ d ∈ children, isText d = true ∨ FailsOnly RegularLimit (outlineLines (depth + 1) d)) :
    FailsOnly RegularLimit (outlineLines depth (.list (.str tag :: children))) := by
  simp only [outlineLines, hlit, hdef, htag, if_true, if_false]
  exact (failsOnly_headLine _ _ _).bind fun _ => (failsOnly_innerLines h).bind fun _ => .ok _

/-- The outline of a tree fails only at a numeral that is too long. -/
theorem failsOnly_outlineLines {tree : Data} (h : IsTree tree) : ∀ depth, FailsOnly RegularLimit (outlineLines depth tree) := by
  have two {P : Data → Prop} {x y : Data} (hx : P x) (hy : P y) : ∀ d ∈ [x, y], P d := by
    simpa using ⟨hx, hy⟩
  have three {P : Data → Prop} {x y z : Data} (hx : P x) (hy : P y) (hz : P z) : ∀ d ∈ [x, y, z], P d := by
    simpa using ⟨hx, hy, hz⟩
  induction h with
  | lit _ =>
    intro depth
    rw [outlineLines, if_pos rfl]
    exact (failsOnly_headLine _ _ _).bind fun _ => .ok _
  | funcDef _ _ _ ih =>
    intro depth
    rw [outlineLines, if_neg (by decide), if_pos rfl]
    exact (failsOnly_headLine _ _ _).bind fun _ =>
      ((ih _).bind fun _ => (FailsOnly.ok _).bind fun _ => .ok _).bind fun _ => .ok _
  | binary op _ _ ihl ihr =>
    intro depth
    refine failsOnly_node ?_ ?_ ?_ (two (.inr (ihl _)) (.inr (ihr _))) <;> cases op <;> decide
  | stmts _ ih => exact fun depth => failsOnly_node (by decide) (by decide) (by decide) fun d hd => .inr (ih d hd _)
  | varAssign _ _ ih => exact fun depth => failsOnly_node (by decide) (by decide) (by decide) (two (.inl rfl) (.inr (ih _)))
  | varRef _ =>
    exact fun depth => failsOnly_node (by decide) (by decide) (by decide) fun d hd =>
      .inl (by rw [List.mem_singleton.mp hd]; rfl)
  | choice _ _ _ iht ihy ihn =>
    exact fun depth => failsOnly_node (by decide) (by decide) (by decide) (three (.inr (iht _)) (.inr (ihy _)) (.inr (ihn _)))
  | loop _ _ iht ihb =>
    exact fun depth => failsOnly_node (by decide) (by decide) (by decide) (two (.inr (iht _)) (.inr (ihb _)))
  | loopAfter _ _ iht ihb =>
    exact fun depth => failsOnly_node (by decide) (by decide) (by decide) (two (.inr (iht _)) (.inr (ihb _)))
  | funcCall _ _ ih =>
    refine fun depth => failsOnly_node (by decide) (by decide) (by decide) fun d hd => ?_
    rcases List.mem_cons.mp hd with rfl | hd
    · exact .inl rfl
    · exact .inr (ih d hd _)
  | aryNew _ ih => exact fun depth => failsOnly_node (by decide) (by decide) (by decide) fun d hd => .inr (ih d hd _)
  | aryRef _ _ ihc ihp =>
    exact fun depth => failsOnly_node (by decide) (by decide) (by decide) (two (.inr (ihc _)) (.inr (ihp _)))
  | aryAssign _ _ _ ihc ihp ihv =>
    exact fun depth => failsOnly_node (by decide) (by decide) (by decide) (three (.inr (ihc _)) (.inr (ihp _)) (.inr (ihv _)))
  | hashNew _ _ ih => exact fun depth => failsOnly_node (by decide) (by decide) (by decide) fun d hd => .inr (ih d hd _)

theorem failsOnly_programOutline (debug : Bool) (source filename : String) (counter : Nat) :
    FailsOnly Regular (programOutline debug source filename counter) := by
  unfold programOutline
  intro e he
  cases hparse : Syntax.parseProgram source filename [] counter with
  | error e' =>
    rw [hparse] at he
    obtain rfl : e' = e := Except.error.inj he
    exact (failsOnly_parseProgram _ _ _ _ e' hparse).regular
  | ok r =>
    have htree : IsTree r.1.toData := Node.isTree_toData (Syntax.proper_of_parseProgram hparse)
    have hlines : FailsOnly RegularLimit (Syntax.outline 0 r.1.toData) :=
      (failsOnly_outlineLines htree 0).bind fun _ => .ok _
    rw [hparse] at he
    have hlifted : FailsOnly Regular ((Syntax.outline 0 r.1.toData).mapError Failure.limit) := hlines.mapError fun _ hl => hl
    exact (hlifted.bind fun _ => .ok _) e he

/-! ## Listings -/

/-- Lists a variable. -/
def listVariable (depth : Nat) : String × Value → Eval Unit
  | (name, v) => do
    let text ← Eval.reading (v.inspect · depth)
    Eval.emit s!"  {name} = {abridged text}\n"

theorem keeps_listVariable (depth : Nat) (e : String × Value) : Keeps Machine.Proper Regular (listVariable depth e) :=
  (Keeps.reading fun s => Value.failsOnly_inspect s depth e.2).bind fun _ => keeps_emit _

theorem keeps_listVariables (depth : Nat) : Keeps Machine.Proper Regular (listVariables depth) := by
  have hlist (shown : List (String × Value)) : Keeps Machine.Proper Regular (shown.forM (listVariable depth)) :=
    Keeps.forM _ fun e _ => keeps_listVariable depth e
  refine Keeps.get fun m _ => ?_
  simp only
  split
  · exact (keeps_emit _).bind fun _ => hlist _
  · exact hlist _

/-- Functions are listed without failing. -/
theorem keeps_listFunctions {E : Failure → Prop} : Keeps Machine.Proper E listFunctions :=
  Keeps.get fun _ _ => Keeps.forM _ fun _ _ => Keeps.emit (fun _ _ hm => hm) _

/-- The texts of variables. -/
def textsOf (s : Store) (depth : Nat) (shown : List (String × Value)) : Except Limit (List String) :=
  shown.mapM fun e => e.2.inspect s depth

/-- Listing variables fails just as writing them one after the other does. -/
theorem forM_listVariable (depth : Nat) (l : Limit) : ∀ (shown : List (String × Value)) (m : Machine),
    (∃ m', shown.forM (listVariable depth) m = .error (.limit l) m') ↔ textsOf m.store depth shown = .error l
  | [], m => ⟨fun ⟨_, h⟩ => (nomatch h), fun h => (nomatch h)⟩
  | (name, v) :: rest, m => by
    have hcons : ((name, v) :: rest).forM (listVariable depth) m =
        EStateM.bind (listVariable depth (name, v)) (fun _ => rest.forM (listVariable depth)) m := rfl
    have hreading : Eval.reading (v.inspect · depth) m = (liftM (v.inspect m.store depth) : Eval String) m := rfl
    rw [hcons, textsOf, List.mapM_cons]
    cases htext : v.inspect m.store depth with
    | error l' =>
      have hstep : listVariable depth (name, v) m = .error (.limit l') m := by
        rw [htext] at hreading
        show EStateM.bind _ _ m = _
        rw [EStateM.bind, hreading]
        rfl
      rw [EStateM.bind, hstep]
      exact ⟨fun ⟨_, h⟩ => by cases h; rfl, fun h => ⟨m, by cases h; rfl⟩⟩
    | ok text =>
      obtain ⟨m', hstep, hstore⟩ : ∃ m', listVariable depth (name, v) m = .ok () m' ∧ m'.store = m.store := by
        rw [htext] at hreading
        refine ⟨{ m with output := .printed s!"  {name} = {abridged text}\n" :: m.output }, ?_, rfl⟩
        show EStateM.bind _ _ m = _
        rw [EStateM.bind, hreading]
        rfl
      rw [EStateM.bind, hstep]
      have ih := forM_listVariable depth l rest m'
      rw [hstore, textsOf] at ih
      refine ih.trans ?_
      cases hrest : rest.mapM fun e => e.2.inspect m.store depth with
      | error l' => exact ⟨fun h => by cases h; rfl, fun h => by cases h; rfl⟩
      | ok texts => exact ⟨fun h => (nomatch h), fun h => (nomatch h)⟩

/-- The variables of a machine that are listed. -/
def listedVariables (m : Machine) : List (String × Value) := m.frame.entries.filter fun e => !isTemporary e.1

theorem listVariables_error_iff {depth : Nat} {l : Limit} {m : Machine} :
    (∃ m', listVariables depth m = .error (.limit l) m') ↔ textsOf m.store depth (listedVariables m) = .error l := by
  have hlist : listVariables depth m =
      ((if (listedVariables m).isEmpty then Eval.emit "  (no local variables)\n" else pure ()) >>= fun _ =>
        (listedVariables m).forM (listVariable depth)) m := by
    show ((if (listedVariables m).isEmpty then _ else _ : Eval Unit)) m = _
    split <;> rfl
  rw [hlist]
  split
  · exact forM_listVariable depth l (listedVariables m) { m with output := .printed "  (no local variables)\n" :: m.output }
  · exact forM_listVariable depth l (listedVariables m) m

/-! ## One reaction -/

/-- The machine of the next prompt is proper, and a limit at which the session breaks off is regular. -/
def Next.IsSound : Next → Prop
  | .prompt d => d.machine.Proper
  | .leave => True
  | .breakOff l => RegularLimit l

namespace Dialogue

variable {budget : Budget} {d d' : Dialogue} {line : String} {typed : Typed} {l : Limit}

theorem sound_list {listing : Eval Unit} (hkeeps : Keeps Machine.Proper Regular listing) (h : d.machine.Proper) :
    (d.list listing).next.IsSound := by
  have hupheld := hkeeps d.machine h
  unfold list
  cases hr : listing d.machine with
  | ok u m =>
    rw [hr] at hupheld
    exact hupheld
  | error e m =>
    rw [hr] at hupheld
    cases e with
    | limit l => exact hupheld.2
    | runtime e => exact hupheld.1
    | parse e => exact hupheld.1

theorem sound_showOutline (code : String) (h : d.machine.Proper) : (d.showOutline code).next.IsSound := by
  unfold showOutline
  cases hr : programOutline d.machine.debug code Syntax.anonymous d.nextShown with
  | ok r => exact h
  | error e => cases e with
    | limit l => exact failsOnly_programOutline _ _ _ _ _ hr
    | runtime e => exact h
    | parse e => exact h

theorem sound_enter (h : d.machine.Proper) : (d.enter budget line).next.IsSound := by
  have hupheld := keeps_runSource budget (d.entryText line) Syntax.anonymous d.machine h
  rw [next_of_enter]
  cases hr : runSource budget (d.entryText line) Syntax.anonymous d.machine with
  | ok v m =>
    rw [hr] at hupheld
    cases hshow : v.inspect m.store budget.depth with
    | ok text =>
      simp only [hshow]
      exact hupheld
    | error l =>
      simp only [hshow]
      exact Value.failsOnly_inspect _ _ _ _ hshow
  | error e m =>
    rw [hr] at hupheld
    cases e with
    | parse e => exact hupheld.1
    | runtime e => exact hupheld.1
    | limit l =>
      simp only
      split
      · exact hupheld.1
      · exact hupheld.2

/-- The step lemma of a session. -/
theorem sound_react (budget : Budget) (typed : Typed) (h : d.machine.Proper) : (d.react budget typed).next.IsSound := by
  cases typed with
  | interrupt => exact h
  | endOfInput => exact trivial
  | line text =>
    rw [react]
    split
    · unfold obey
      cases Command.ofLine text with
      | nothing => exact h
      | leave => exact trivial
      | help => exact h
      | locals => exact sound_list (keeps_listVariables _) h
      | functions => exact sound_list keeps_listFunctions h
      | outline code => exact sound_showOutline code h
      | entry => exact sound_enter h
    · exact sound_enter h

/-- What is shown after a line nests too deep: the value of an entry, the variables, or the outline of a program. -/
inductive ShowsTooDeep (budget : Budget) (d : Dialogue) (line : String) : Prop where
  | result {v : Value} {m : Machine} (henters : d.enters line = true)
    (hrun : runSource budget (d.entryText line) Syntax.anonymous d.machine = .ok v m)
    (hshow : v.inspect m.store budget.depth = .error .depth)
  | locals (hpending : d.pending = []) (hline : Command.ofLine line = .locals)
    (hshow : textsOf d.machine.store budget.depth (listedVariables d.machine) = .error .depth)
  | outline {code : String} (hpending : d.pending = []) (hline : Command.ofLine line = .outline code)
    (hshow : programOutline d.machine.debug code Syntax.anonymous d.nextShown = .error (.limit .depth))

theorem list_breakOff_iff {listing : Eval Unit} :
    (d.list listing).next = .breakOff l ↔ ∃ m, listing d.machine = .error (.limit l) m := by
  unfold list
  cases hr : listing d.machine with
  | ok u m => exact ⟨fun h => (nomatch h), fun ⟨_, h⟩ => (nomatch h)⟩
  | error e m => cases e with
    | limit l' => exact ⟨fun h => ⟨m, by rw [Next.breakOff.inj h]⟩, fun ⟨_, h⟩ => by cases h; rfl⟩
    | runtime e => exact ⟨fun h => (nomatch h), fun ⟨_, h⟩ => (nomatch h)⟩
    | parse e => exact ⟨fun h => (nomatch h), fun ⟨_, h⟩ => (nomatch h)⟩

theorem showOutline_breakOff_iff {code : String} : (d.showOutline code).next = .breakOff l ↔
    programOutline d.machine.debug code Syntax.anonymous d.nextShown = .error (.limit l) := by
  unfold showOutline
  cases hr : programOutline d.machine.debug code Syntax.anonymous d.nextShown with
  | ok r => exact ⟨fun h => (nomatch h), fun h => (nomatch h)⟩
  | error e => cases e with
    | limit l' => exact ⟨fun h => by rw [Next.breakOff.inj h], fun h => by cases h; rfl⟩
    | runtime e => exact ⟨fun h => (nomatch h), fun h => (nomatch h)⟩
    | parse e => exact ⟨fun h => (nomatch h), fun h => (nomatch h)⟩

/-- An evaluation that goes too deep is reported; only a value that nests too deep ends the session. -/
theorem enter_breakOff_iff : (d.enter budget line).next = .breakOff .depth ↔ ∃ v m,
    runSource budget (d.entryText line) Syntax.anonymous d.machine = .ok v m ∧
      v.inspect m.store budget.depth = .error .depth := by
  rw [next_of_enter]
  cases hr : runSource budget (d.entryText line) Syntax.anonymous d.machine with
  | ok v m =>
    cases hshow : v.inspect m.store budget.depth with
    | ok text =>
      simp only [hshow]
      refine ⟨fun h => (nomatch h), fun ⟨v', m', hok, h⟩ => ?_⟩
      cases hok
      exact nomatch hshow.symm.trans h
    | error l =>
      simp only [hshow]
      refine ⟨fun h => ⟨v, m, rfl, ?_⟩, fun ⟨v', m', hok, h⟩ => ?_⟩
      · rw [hshow, Next.breakOff.inj h]
      · cases hok
        rw [Except.error.inj (hshow.symm.trans h)]
  | error e m =>
    refine ⟨fun h => ?_, fun ⟨_, _, h, _⟩ => (nomatch h)⟩
    cases e with
    | parse e => cases h
    | runtime e => cases h
    | limit l => cases l <;> cases h

/-- The reactions that break off at the bound on depth. -/
theorem breakOff_depth_iff (h : d.machine.Proper) :
    (d.react budget (.line line)).next = .breakOff .depth ↔ d.ShowsTooDeep budget line := by
  cases henters : d.enters line with
  | true =>
    rw [react_of_enters henters, enter_breakOff_iff]
    constructor
    · rintro ⟨v, m, hrun, hshow⟩
      exact .result henters hrun hshow
    · intro h
      cases h with
      | result _ hrun hshow => exact ⟨_, _, hrun, hshow⟩
      | locals hpending hline => simp [enters, hpending, hline] at henters
      | outline hpending hline => simp [enters, hpending, hline] at henters
  | false =>
    obtain ⟨hnone, hentry⟩ : d.pending = [] ∧ Command.ofLine line ≠ .entry := by simpa [enters] using henters
    rw [react, hnone, List.isEmpty_nil, if_pos rfl, obey]
    have other {x : Next} (hx : x ≠ .breakOff .depth) {command : Command} (hline : Command.ofLine line = command)
        (hlocals : command ≠ .locals) (houtline : ∀ code, command ≠ .outline code) :
        x = .breakOff .depth ↔ d.ShowsTooDeep budget line := by
      subst hline
      refine ⟨fun h => absurd h hx, fun h => ?_⟩
      cases h with
      | result henters' => exact absurd (henters.symm.trans henters') (by decide)
      | locals _ hline => exact absurd hline hlocals
      | outline _ hline => exact absurd hline (houtline _)
    cases hline : Command.ofLine line with
    | nothing => exact other Next.noConfusion hline Command.noConfusion fun _ => Command.noConfusion
    | leave => exact other Next.noConfusion hline Command.noConfusion fun _ => Command.noConfusion
    | help => exact other Next.noConfusion hline Command.noConfusion fun _ => Command.noConfusion
    | functions =>
      refine other (fun hnext => ?_) hline Command.noConfusion fun _ => Command.noConfusion
      obtain ⟨m, hfail⟩ := list_breakOff_iff.mp hnext
      have hupheld := (keeps_listFunctions : Keeps Machine.Proper (fun _ => False) _) d.machine h
      rw [hfail] at hupheld
      exact hupheld.2
    | locals =>
      simp only
      rw [list_breakOff_iff, listVariables_error_iff]
      refine ⟨fun hshow => .locals hnone hline hshow, fun h => ?_⟩
      cases h with
      | result henters' => exact absurd (henters.symm.trans henters') (by decide)
      | locals _ _ hshow => exact hshow
      | outline _ hline' => cases hline.symm.trans hline'
    | outline code =>
      simp only
      rw [showOutline_breakOff_iff]
      refine ⟨fun hshow => .outline hnone hline hshow, fun h => ?_⟩
      cases h with
      | result henters' => exact absurd (henters.symm.trans henters') (by decide)
      | locals _ hline' => cases hline.symm.trans hline'
      | outline _ hline' hshow =>
        rw [Command.outline.inj (hline.symm.trans hline')]
        exact hshow
    | entry => exact absurd hline hentry

/-! ## Whole sessions -/

variable {typeds : List Typed}

/-- The machine is proper at every prompt. -/
theorem proper_after : ∀ {typeds : List Typed} {d d' : Dialogue}, d.machine.Proper → d.after? budget typeds = some d' →
    d'.machine.Proper
  | [], d, d', h, hafter => by
    obtain rfl : d = d' := Option.some.inj hafter
    exact h
  | typed :: rest, d, d', h, hafter => by
    rw [after?_cons, Option.bind_eq_bind, Option.bind_eq_some_iff] at hafter
    obtain ⟨d₁, hreact, hafter⟩ := hafter
    have hsound := sound_react budget typed h
    rw [eq_prompt_of_dialogue? hreact] at hsound
    exact proper_after hsound hafter

/-- A session breaks off where one of its reactions does. -/
theorem converse_breaks_off_iff : ∀ {typeds : List Typed} {d : Dialogue},
    (d.converse budget typeds).2 = some l ↔ ∃ before typed rest d', typeds = before ++ typed :: rest ∧
      d.after? budget before = some d' ∧ (d'.react budget typed).next = .breakOff l
  | [], d => ⟨fun h => (nomatch h), fun ⟨before, _, _, _, h, _⟩ => by cases before <;> cases h⟩
  | typed :: rest, d => by
    -- the first reaction, or a later one
    have hsplit : (∃ before t rest' d', typed :: rest = before ++ t :: rest' ∧ d.after? budget before = some d' ∧
          (d'.react budget t).next = .breakOff l) ↔
        (d.react budget typed).next = .breakOff l ∨ ∃ d₁, (d.react budget typed).next = .prompt d₁ ∧
          ∃ before t rest' d', rest = before ++ t :: rest' ∧ d₁.after? budget before = some d' ∧
            (d'.react budget t).next = .breakOff l := by
      constructor
      · rintro ⟨before, t, rest', d', htyped, hafter, hbreak⟩
        cases before with
        | nil =>
          obtain ⟨rfl, rfl⟩ := List.cons.inj htyped
          obtain rfl : d = d' := Option.some.inj hafter
          exact .inl hbreak
        | cons t' before =>
          obtain ⟨rfl, rfl⟩ := List.cons.inj htyped
          rw [after?_cons, Option.bind_eq_bind, Option.bind_eq_some_iff] at hafter
          obtain ⟨d₁, hreact, hafter⟩ := hafter
          exact .inr ⟨d₁, eq_prompt_of_dialogue? hreact, before, t, rest', d', rfl, hafter, hbreak⟩
      · rintro (hbreak | ⟨d₁, hnext, before, t, rest', d', rfl, hafter, hbreak⟩)
        · exact ⟨[], typed, rest, d, rfl, rfl, hbreak⟩
        · refine ⟨typed :: before, t, rest', d', rfl, ?_, hbreak⟩
          rw [after?_cons, hnext]
          exact hafter
    rw [hsplit, converse]
    cases hnext : (d.react budget typed).next with
    | prompt d₁ =>
      refine converse_breaks_off_iff.trans ⟨fun h => .inr ⟨d₁, rfl, h⟩, fun h => ?_⟩
      rcases h with hbreak | ⟨d₁', hprompt, h⟩
      · cases hbreak
      · rw [Next.prompt.inj hprompt]
        exact h
    | leave => exact ⟨fun h => (nomatch h), fun h => h.elim (fun h => nomatch h) fun ⟨_, h, _⟩ => nomatch h⟩
    | breakOff l' =>
      refine ⟨fun h => .inl ?_, fun h => ?_⟩
      · rw [Option.some.inj h]
      · rcases h with hbreak | ⟨_, hprompt, _⟩
        · rw [Next.breakOff.inj hbreak]
        · cases hprompt

theorem proper_start (debug : Bool) : (start debug).machine.Proper := fun p hp => absurd hp (Array.not_mem_empty p)

/-- A session goes on until it is left or all has been typed, unless it comes to a bound on rounds, numerals or
repetition counts, or what it shows nests too deep. An evaluation that goes too deep does not end it. -/
theorem session_ends (budget : Budget) (debug : Bool) (typeds : List Typed) :
    (∀ l, ((start debug).converse budget typeds).2 = some l → l ∈ [.depth, .rounds, .numeral, .count]) ∧
    (((start debug).converse budget typeds).2 = some .depth ↔ ∃ before line rest d, typeds = before ++ .line line :: rest ∧
      (start debug).after? budget before = some d ∧ d.ShowsTooDeep budget line) := by
  constructor
  · intro l hbreak
    obtain ⟨before, typed, rest, d, -, hafter, hreact⟩ := converse_breaks_off_iff.mp hbreak
    have hsound := sound_react budget typed (proper_after (proper_start debug) hafter)
    rw [hreact] at hsound
    cases l <;> first | exact hsound.elim | decide
  · rw [converse_breaks_off_iff]
    constructor
    · rintro ⟨before, typed, rest, d, htyped, hafter, hreact⟩
      cases typed with
      | interrupt => cases hreact
      | endOfInput => cases hreact
      | line line =>
        have hproper := proper_after (proper_start debug) hafter
        exact ⟨before, line, rest, d, htyped, hafter, (breakOff_depth_iff hproper).mp hreact⟩
    · rintro ⟨before, line, rest, d, htyped, hafter, hshows⟩
      have hproper := proper_after (proper_start debug) hafter
      exact ⟨before, .line line, rest, d, htyped, hafter, (breakOff_depth_iff hproper).mpr hshows⟩

end Dialogue

/-! ## A container that holds itself -/

/-- At no depth is there a text of an array that holds only itself. -/
theorem Value.inspect_cycle {s : Store} {a : Address} (h : (s.array a).toList = [.array a]) (depth : Nat) :
    (Value.array a).inspect s depth = .error .depth := by
  induction depth with
  | zero => rw [inspect.eq_def]
  | succ depth ih =>
    rw [inspect.eq_def]
    simp only [h, List.mapM_cons, ih]
    rfl

/-- Whether the value is an array that holds only itself. -/
def Value.holdsItself (s : Store) : Value → Bool
  | .array a =>
    match (s.array a).toList with
    | [.array b] => a == b
    | _ => false
  | _ => false

theorem Value.exists_of_holdsItself {s : Store} {v : Value} (h : v.holdsItself s = true) :
    ∃ a, v = .array a ∧ (s.array a).toList = [.array a] := by
  unfold holdsItself at h
  split at h
  · next a =>
    split at h
    · next b hitems =>
      rw [← eq_of_beq h] at hitems
      exact ⟨a, rfl, hitems⟩
    · cases h
  · cases h

/-- An array that holds itself ends the session when it is shown, although more has been typed. -/
theorem Dialogue.cycle_ends_session :
    ((start false).converse .standard [.line "a = []", .line "a[0] = a", .line "1"]).2 = some .depth := by
  have htyped : (((start false).after? .standard [.line "a = []"]).any fun d => d.enters "a[0] = a" &&
      succeedsWith (fun v m => v.holdsItself m.store)
        (runSource .standard (d.entryText "a[0] = a") Syntax.anonymous d.machine)) = true := by decide +kernel
  obtain ⟨d, hafter, htyped⟩ := (Option.any_eq_true ..).mp htyped
  obtain ⟨henters, hrun⟩ := Bool.and_eq_true_iff.mp htyped
  obtain ⟨v, m, hok, hcycle⟩ := succeedsWith_iff.mp hrun
  obtain ⟨a, rfl, hitems⟩ := Value.exists_of_holdsItself hcycle
  refine converse_breaks_off_iff.mpr ⟨[.line "a = []"], .line "a[0] = a", [.line "1"], d, rfl, hafter, ?_⟩
  rw [react_of_enters henters, enter_breakOff_iff]
  exact ⟨.array a, m, hok, Value.inspect_cycle hitems _⟩

end MinRuby
