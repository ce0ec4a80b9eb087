import MinRuby.Proofs.Run.Course

/-!
# The program files of a run

A load takes the first of the paths that are left, whether the file can be read or not, and nothing else touches the paths. So
the paths that have been tried and those that are left are at any time the paths that were left at first. This holds along
every sequence of runs and calls on one machine, however loads are nested in calls and whatever fails on the way.

* `Leads.tried_append` — the invariant, by induction on the deeds of a run.
* `files_loaded_in_order` — every sequence of runs and calls.
-/

namespace MinRuby

open Syntax (Node)

/-! ## One load -/

/-- Reading the file at a path on a machine. -/
def attempt (path : String) (m : Machine) : EStateM.Result Failure Machine Value :=
  match m.files.read path with
  | .ok text => .ok (.str text) m
  | .error e => .error (.runtime (.unreadable path (e.message path))) m

/-- A load on the machine fails for want of a path. -/
def Refused (m : Machine) : Prop :=
  ∃ e m', Builtin.runLoad m = .error (.runtime e) m' ∧ e.description = "No program file left to load"

theorem runLoad_of_nil {m : Machine} (h : m.toLoad = []) : Builtin.runLoad m = .error (.runtime .noFileLeft) m := by
  rw [Builtin.runLoad, run_get_bind, h]
  rfl

/-- The first path is taken away, whether the file can be read or not. -/
theorem runLoad_of_cons {m : Machine} {path : String} {rest : List String} (h : m.toLoad = path :: rest) :
    Builtin.runLoad m = attempt path { m with toLoad := rest } := by
  have htake : (modify fun m => { m with toLoad := rest } : Eval Unit) m = .ok () { m with toLoad := rest } := rfl
  rw [Builtin.runLoad, run_get_bind, h]
  simp only
  rw [run_bind htake, run_get_bind, attempt]
  cases m.files.read path <;> rfl

theorem toLoad_after_runLoad (m : Machine) : (after Builtin.runLoad m).toLoad = m.toLoad.tail := by
  unfold after
  cases h : m.toLoad with
  | nil =>
    rw [runLoad_of_nil h]
    exact h
  | cons path rest =>
    rw [runLoad_of_cons h, attempt]
    cases Files.read m.files path <;> rfl

theorem description_unreadable_ne (path reason : String) :
    (RuntimeError.unreadable path reason).description ≠ "No program file left to load" := by
  intro h
  have htext : (RuntimeError.unreadable path reason).description = "Cannot read " ++ path ++ ": " ++ reason := rfl
  have hhead := congrArg (fun t => t.toList.head?) (htext.symm.trans h)
  simp [String.toList_append] at hhead

theorem refused_iff {m : Machine} : Refused m ↔ m.toLoad = [] := by
  refine ⟨fun h => ?_, fun h => ⟨_, m, runLoad_of_nil h, rfl⟩⟩
  obtain ⟨e, m', hrun, htext⟩ := h
  cases hpaths : m.toLoad with
  | nil => rfl
  | cons path rest =>
    rw [runLoad_of_cons hpaths, attempt] at hrun
    split at hrun
    · cases hrun
    · obtain rfl := Failure.runtime.inj (EStateM.Result.error.inj hrun).1
      exact absurd htext (description_unreadable_ne _ _)

/-! ## The loads of a run -/

/-- The path that a deed tries. -/
def Deed.path? : Deed → Option String
  | load m => m.toLoad.head?
  | other _ _ => none

/-- What has been tried and what is left is what was left at first. -/
theorem Leads.tried_append {m m' : Machine} {deeds : List Deed} (h : Leads m deeds m') :
    deeds.filterMap Deed.path? ++ m'.toLoad = m.toLoad := by
  induction h with
  | nil => rfl
  | @load m _ deeds _ ih =>
    rw [toLoad_after_runLoad] at ih
    cases hpaths : m.toLoad with
    | nil =>
      rw [hpaths] at ih
      rwa [List.filterMap_cons_none (by rw [Deed.path?, hpaths]; rfl)]
    | cons path rest =>
      rw [hpaths] at ih
      rw [List.filterMap_cons_some (b := path) (by rw [Deed.path?, hpaths]; rfl), List.cons_append, ih, List.tail_cons]
  | other htoLoad _ ih => rw [List.filterMap_cons_none rfl, ih, htoLoad]

/-- The deeds before one of them lead to where it is done, and those behind it lead on from what it leaves. -/
theorem Leads.split {past future : List Deed} {now : Deed} {m m' : Machine} (h : Leads m (past ++ now :: future) m') :
    Leads m past now.before ∧ Leads now.before [now] now.after ∧ Leads now.after future m' := by
  induction past generalizing m with
  | nil =>
    cases h with
    | load h => exact ⟨.nil _, .load (.nil _), h⟩
    | other htoLoad h => exact ⟨.nil _, .other htoLoad (.nil _), h⟩
  | cons d past ih =>
    cases h with
    | load h => exact ⟨.load (ih h).1, (ih h).2⟩
    | other htoLoad h => exact ⟨.other htoLoad (ih h).1, (ih h).2⟩

/-- The deeds take the paths in order. -/
structure InOrder (paths : List String) (deeds : List Deed) : Prop where
  /-- At any time the last of the paths are left. -/
  left : ∀ d ∈ deeds, d.before.toLoad <:+ paths ∧ d.after.toLoad <:+ paths
  /-- Nothing but a load touches them. -/
  untouched : ∀ m m', .other m m' ∈ deeds → m'.toLoad = m.toLoad
  /-- A load that finds some left, when `k` have been tried, tries the path in place `k`. -/
  tried : ∀ past m future, deeds = past ++ .load m :: future → m.toLoad ≠ [] →
    let k := (past.filterMap Deed.path?).length
    ∃ path, paths[k]? = some path ∧ Builtin.runLoad m = attempt path { m with toLoad := paths.drop (k + 1) }
  /-- A load is refused exactly if all have been tried. -/
  refused : ∀ past m future, deeds = past ++ .load m :: future → (Refused m ↔ past.filterMap Deed.path? = paths)

theorem Leads.inOrder {m m' : Machine} {deeds : List Deed} (h : Leads m deeds m') : InOrder m.toLoad deeds where
  left d hd := by
    obtain ⟨past, future, rfl⟩ := List.append_of_mem hd
    obtain ⟨hpast, hnow, -⟩ := h.split
    have hbefore : d.before.toLoad <:+ m.toLoad := ⟨_, hpast.tried_append⟩
    exact ⟨hbefore, List.IsSuffix.trans ⟨_, hnow.tried_append⟩ hbefore⟩
  untouched m₁ m₂ hd := by
    obtain ⟨past, future, rfl⟩ := List.append_of_mem hd
    exact h.split.2.1.tried_append
  tried past m₁ future heq hleft := by
    subst heq
    obtain ⟨hpast, -, -⟩ := h.split
    obtain ⟨path, rest, hpaths⟩ := List.exists_cons_of_ne_nil hleft
    have hall : past.filterMap Deed.path? ++ path :: rest = m.toLoad := by
      rw [← hpaths]
      exact hpast.tried_append
    refine ⟨path, ?_, ?_⟩
    · rw [← hall, List.getElem?_append_right (Nat.le_refl _), Nat.sub_self]
      rfl
    · rw [runLoad_of_cons hpaths, ← hall, ← List.drop_drop, List.drop_left]
      rfl
  refused past m₁ future heq := by
    subst heq
    have hall : past.filterMap Deed.path? ++ m₁.toLoad = m.toLoad := h.split.1.tried_append
    rw [refused_iff, ← hall]
    exact List.self_eq_append_right.symm

/-! ## Runs on one machine -/

/-- What a machine is asked to do from outside. -/
inductive Job where
  /-- To parse and evaluate a program. -/
  | run (budget : Budget) (source filename : String)
  | evaluate (budget : Budget) (tree : Node)
  /-- To call a builtin. -/
  | call (depth : Nat) (name : String) (args : List Value)

namespace Job

/-- The step that a job asks for. -/
def step : Job → Eval Value
  | run budget source filename => runSource budget source filename
  | evaluate budget tree => evaluateIn budget tree
  | call depth name args => callBuiltin depth name args

/-- The course of a job. -/
def course : (j : Job) → Course j.step
  | run budget source filename => .runSource budget source filename
  | evaluate budget tree => .evaluateIn budget tree
  | call depth name args => .callBuiltin depth name args

/-- The machine after one job and the next, each of which may have failed. -/
def afterAll : List Job → Machine → Machine
  | [], m => m
  | j :: jobs, m => afterAll jobs (MinRuby.after j.step m)

/-- The deeds of one job and the next. -/
def deeds : List Job → Machine → List Deed
  | [], _ => []
  | j :: jobs, m => j.course.deeds m ++ deeds jobs (MinRuby.after j.step m)

theorem leads_deeds (jobs : List Job) (m : Machine) : Leads m (deeds jobs m) (afterAll jobs m) := by
  induction jobs generalizing m with
  | nil => exact .nil m
  | cons j jobs ih => exact (j.course.leads m).append (ih _)

end Job

/-- On a machine that is given one job after the other, each from where the one before has ended or failed, the deeds of the
jobs lead to where the machine ends, and they take the program files in order: at every deed the paths that are left are the
last ones, no deed but a load changes them, the load that finds some left when `k` have been tried tries the path in place
`k`, whether it can be read or not, and a load fails for want of a path exactly if all have been tried. -/
theorem files_loaded_in_order (jobs : List Job) (m : Machine) :
    Leads m (Job.deeds jobs m) (Job.afterAll jobs m) ∧ InOrder m.toLoad (Job.deeds jobs m) :=
  ⟨Job.leads_deeds jobs m, (Job.leads_deeds jobs m).inOrder⟩

/-- A function that calls itself finds no file at the first path, and fails; the load that a later program calls by its name
tries the second path. -/
theorem second_file_tried :
    let m : Machine := { toLoad := ["", "b"] }
    let jobs : List Job :=
      [.run ⟨50, 9⟩ "def f(n)\n  if n < 1\n    minruby_load()\n  else\n    f(n - 1)\n  end\nend\nf(1)" Syntax.anonymous,
        .run ⟨50, 9⟩ "minruby_call(\"minruby_load\", [])" Syntax.anonymous]
    ∃ past m' future, Job.deeds jobs m = past ++ .load m' :: future ∧ past.filterMap Deed.path? = [""] ∧
      Builtin.runLoad m' = attempt "b" { m' with toLoad := [] } ∧ ¬ Refused m' := by
  intro m jobs
  obtain ⟨-, hinOrder⟩ := files_loaded_in_order jobs m
  have hpast : (((Job.deeds jobs m).take 18).filterMap Deed.path? == [""]) = true := by decide +kernel
  have hload : ((Job.deeds jobs m)[18]?.bind Deed.path? == some "b") = true := by decide +kernel
  obtain ⟨d, hd, hpath⟩ := Option.bind_eq_some_iff.mp (eq_of_beq hload)
  cases d with
  | other => cases hpath
  | load m' =>
    have hleft : m'.toLoad ≠ [] := by
      intro hnil
      rw [Deed.path?, hnil] at hpath
      cases hpath
    obtain ⟨hlt, hget⟩ := List.getElem?_eq_some_iff.mp hd
    have hdeeds : Job.deeds jobs m = (Job.deeds jobs m).take 18 ++ .load m' :: (Job.deeds jobs m).drop 19 := by
      rw [← hget, ← List.drop_eq_getElem_cons hlt, List.take_append_drop]
    have htried := eq_of_beq hpast
    obtain ⟨path, hplace, hrun⟩ := hinOrder.tried _ m' _ hdeeds hleft
    rw [htried] at hplace hrun
    obtain rfl : "b" = path := Option.some.inj hplace
    refine ⟨_, m', _, hdeeds, htried, hrun, fun hrefused => ?_⟩
    have hall := (hinOrder.refused _ m' _ hdeeds).mp hrefused
    rw [htried] at hall
    exact absurd hall (by decide)

end MinRuby
