import Mathlib.Data.List.Forall2
import MinRuby.Proofs.Syntax.Literals
import MinRuby.Proofs.Syntax.TreeOrder

/-!
# The numbers of temporaries

The tree of a program that is numbered from another number on is the same up to the names of its temporaries, whatever
other temporaries are known beforehand. Reduction and resolution are followed in step from both numbers, one rule a
construct.

* `renumber` — the temporaries counted from another number on.
* `Node.Alike` — trees that are resolved alike under the two numberings.
* `renames_desugar` — the trees of a term, by induction on the term.
-/

namespace MinRuby.Syntax

open MinRuby.Numeric (digitsValue)

/-! ## Temporaries -/

/-- The constructs that need temporaries. -/
def constructs : List String := ["and", "or", "case"]

/-- The temporary of a construct with the given number. -/
def temporary (construct : String) (n : Nat) : String := "%" ++ construct ++ toString n

/-- The construct and the number of a temporary. -/
def parts? (x : String) : Option (String × Nat) :=
  constructs.findSome? fun construct =>
    let n := digitsValue (x.toList.drop (construct.toList.length + 1))
    if x = temporary construct n then some (construct, n) else none

/-- The name of a temporary when numbers are counted from `next` on instead of `first`. Other names stay. -/
def renumber (first next : Nat) (x : String) : String :=
  match parts? x with
  | some (construct, n) => if first ≤ n then temporary construct (n - first + next) else x
  | none => x

theorem toList_temporary (construct : String) (n : Nat) :
    (temporary construct n).toList = '%' :: construct.toList ++ Nat.toDigits 10 n := by
  simp [temporary, Nat.toString_eq_repr, Nat.repr]

theorem isTemporary_iff {x : String} : IsTemporary x ↔ ∃ construct ∈ constructs, ∃ n, x = temporary construct n := Iff.rfl

theorem eq_of_parts? {x : String} {p : String × Nat} (h : parts? x = some p) : p.1 ∈ constructs ∧ x = temporary p.1 p.2 := by
  obtain ⟨construct, hmem, hfound⟩ := List.exists_of_findSome?_eq_some h
  simp only at hfound
  split at hfound
  · next heq =>
    obtain rfl := Option.some.inj hfound
    exact ⟨hmem, heq⟩
  · cases hfound

theorem parts?_temporary {construct : String} (h : construct ∈ constructs) (n : Nat) :
    parts? (temporary construct n) = some (construct, n) := by
  have hself (construct : String) : digitsValue ((temporary construct n).toList.drop (construct.toList.length + 1)) = n := by
    rw [toList_temporary, List.cons_append, List.drop_succ_cons, List.drop_left, digitsValue_toDigits]
  have hother {construct construct' : String} {k : Nat} (hstart : construct.toList.head? ≠ construct'.toList.head?)
      (hne : construct.toList ≠ []) (hne' : construct'.toList ≠ []) : temporary construct n ≠ temporary construct' k := by
    intro heq
    have hlist := congrArg (fun s => (s.toList.drop 1).head?) heq
    obtain ⟨y, w, hy⟩ := List.exists_cons_of_ne_nil hne
    obtain ⟨y', w', hy'⟩ := List.exists_cons_of_ne_nil hne'
    simp only [toList_temporary, List.cons_append, List.drop_succ_cons, List.drop_zero, hy, hy'] at hlist
    exact hstart (by rw [hy, hy']; exact hlist)
  simp only [constructs, List.mem_cons, List.not_mem_nil, or_false] at h
  unfold parts? constructs
  simp only [List.findSome?_cons, List.findSome?_nil]
  rcases h with rfl | rfl | rfl
  · rw [hself, if_pos rfl]
  · rw [if_neg (hother (by decide) (by decide) (by decide)), hself, if_pos rfl]
  · rw [if_neg (hother (by decide) (by decide) (by decide)), if_neg (hother (by decide) (by decide) (by decide)), hself,
      if_pos rfl]

theorem renumber_temporary {construct : String} (h : construct ∈ constructs) (first next j : Nat) :
    renumber first next (temporary construct (first + j)) = temporary construct (next + j) := by
  rw [renumber, parts?_temporary h]
  simp only
  rw [if_pos (Nat.le_add_right first j), Nat.add_sub_cancel_left, Nat.add_comm]

theorem renumber_of_not_isTemporary {x : String} (h : ¬ IsTemporary x) (first next : Nat) : renumber first next x = x := by
  unfold renumber
  cases hparts : parts? x with
  | none => rfl
  | some p =>
    obtain ⟨hmem, heq⟩ := eq_of_parts? hparts
    exact absurd ⟨p.1, hmem, p.2, heq⟩ h

theorem renumber_temporary_of_lt {construct : String} (h : construct ∈ constructs) {first j : Nat} (hj : j < first)
    (next : Nat) :
    renumber first next (temporary construct j) = temporary construct j := by
  rw [renumber, parts?_temporary h]
  exact if_neg (Nat.not_le_of_lt hj)

theorem isTemporary_renumber_iff {first next : Nat} {x : String} : IsTemporary (renumber first next x) ↔ IsTemporary x := by
  unfold renumber
  cases hparts : parts? x with
  | none => exact Iff.rfl
  | some p =>
    obtain ⟨hmem, heq⟩ := eq_of_parts? hparts
    simp only
    split
    · exact ⟨fun _ => ⟨p.1, hmem, p.2, heq⟩, fun _ => ⟨p.1, hmem, _, rfl⟩⟩
    · exact Iff.rfl

/-- Numbering further on keeps names apart. -/
theorem renumber_injective {first next : Nat} (h : first ≤ next) : Function.Injective (renumber first next) := by
  intro x y hxy
  by_cases hx : IsTemporary x
  · have hy : IsTemporary y := isTemporary_renumber_iff.mp (hxy ▸ isTemporary_renumber_iff.mpr hx)
    obtain ⟨construct, hmem, n, rfl⟩ := isTemporary_iff.mp hx
    obtain ⟨construct', hmem', n', rfl⟩ := isTemporary_iff.mp hy
    have hparts (construct : String) (hmem : construct ∈ constructs) (n : Nat) :
        parts? (renumber first next (temporary construct n)) = some (construct, if first ≤ n then n - first + next else n) := by
      rw [renumber, parts?_temporary hmem]
      simp only
      split <;> exact parts?_temporary hmem _
    have heq := (hparts construct hmem n).symm.trans (hxy ▸ hparts construct' hmem' n')
    obtain ⟨rfl, hn⟩ := Prod.mk.inj (Option.some.inj heq)
    have hnumber : n = n' := by
      split at hn <;> split at hn <;> omega
    rw [hnumber]
  · have hy : ¬ IsTemporary y := fun hy => hx (isTemporary_renumber_iff.mp (hxy ▸ isTemporary_renumber_iff.mpr hy))
    rwa [renumber_of_not_isTemporary hx, renumber_of_not_isTemporary hy] at hxy

theorem renumber_self (n : Nat) (x : String) : renumber n n x = x := by
  unfold renumber
  cases hparts : parts? x with
  | none => rfl
  | some p =>
    simp only
    split
    · next hle => rw [Nat.sub_add_cancel hle, (eq_of_parts? hparts).2]
    · rfl

/-! ## Trees -/

namespace Node

mutual

/-- The tree with other names for its variables and parameters. -/
def rename (ρ : String → String) : Node → Node
  | lit value => lit value
  | binary op left right => binary op (left.rename ρ) (right.rename ρ)
  | stmts body => stmts (renameAll ρ body)
  | varAssign x value => varAssign (ρ x) (value.rename ρ)
  | varRef x => varRef (ρ x)
  | choice test yes no => choice (test.rename ρ) (yes.rename ρ) (no.rename ρ)
  | loop test body => loop (test.rename ρ) (body.rename ρ)
  | loopAfter test body => loopAfter (test.rename ρ) (body.rename ρ)
  | funcDef f params body => funcDef f (params.map ρ) (body.rename ρ)
  | funcCall f args => funcCall f (renameAll ρ args)
  | aryNew items => aryNew (renameAll ρ items)
  | aryRef container position => aryRef (container.rename ρ) (position.rename ρ)
  | aryAssign container position value => aryAssign (container.rename ρ) (position.rename ρ) (value.rename ρ)
  | hashNew items => hashNew (renameAll ρ items)
  | unknown tag => unknown tag
  | scalar => scalar
  | broken => broken
termination_by structural n => n

/-- The trees of a sequence with other names for variables. -/
def renameAll (ρ : String → String) : List Node → List Node
  | [] => []
  | n :: rest => n.rename ρ :: renameAll ρ rest
termination_by structural l => l

end

theorem renameAll_eq_map (ρ : String → String) (ns : List Node) : renameAll ρ ns = ns.map (rename ρ) := by
  induction ns with
  | nil => rfl
  | cons n ns ih => rw [renameAll, ih, List.map_cons]

theorem rename_negative (ρ : String → String) (n : Node) : n.negative.rename ρ = (n.rename ρ).negative := by
  cases n with
  | lit value => cases value <;> rfl
  | _ => rfl

mutual

theorem rename_id : ∀ n : Node, n.rename id = n
  | lit _ => rfl
  | binary _ left right => by rw [rename, rename_id left, rename_id right]
  | stmts body => by rw [rename, renameAll_id body]
  | varAssign _ value => by rw [rename, rename_id value]; rfl
  | varRef _ => rfl
  | choice test yes no => by rw [rename, rename_id test, rename_id yes, rename_id no]
  | loop test body => by rw [rename, rename_id test, rename_id body]
  | loopAfter test body => by rw [rename, rename_id test, rename_id body]
  | funcDef _ params body => by rw [rename, rename_id body, List.map_id]
  | funcCall _ args => by rw [rename, renameAll_id args]
  | aryNew items => by rw [rename, renameAll_id items]
  | aryRef container position => by rw [rename, rename_id container, rename_id position]
  | aryAssign container position value => by rw [rename, rename_id container, rename_id position, rename_id value]
  | hashNew items => by rw [rename, renameAll_id items]
  | unknown _ => rfl
  | scalar => rfl
  | broken => rfl

theorem renameAll_id : ∀ ns : List Node, renameAll id ns = ns
  | [] => rfl
  | n :: rest => by rw [renameAll, rename_id n, renameAll_id rest]

end

end Node

/-! ## Resolution in step -/

theorem Follows.symm {known known' : List String} (h : Follows known known') : Follows known' known := fun x hx => (h x hx).symm

/-- Two resolving steps that give values in the given relation, if they know the same names that a program can write
and both know the temporaries `given`. They forget no name. -/
def Corresponds (ρ : String → String) (given : List String) {α β : Type} (R : α → β → Prop) (x : Scoped α)
    (y : Scoped β) : Prop :=
  ∀ known known', Follows known known' → (∀ t ∈ given, t ∈ known ∧ ρ t ∈ known') →
    R (x.run known).1 (y.run known').1 ∧ Follows (x.run known).2 (y.run known').2 ∧
      known ⊆ (x.run known).2 ∧ known' ⊆ (y.run known').2

namespace Corresponds

variable {ρ : String → String} {given given' : List String} {α β γ δ : Type} {R : α → β → Prop} {S : γ → δ → Prop}

theorem pure {a : α} {b : β} (h : R a b) : Corresponds ρ given R (Pure.pure a) (Pure.pure b) :=
  fun _ _ hfollows _ => ⟨h, hfollows, List.Subset.refl _, List.Subset.refl _⟩

theorem bind {x : Scoped α} {y : Scoped β} {f : α → Scoped γ} {g : β → Scoped δ} (h : Corresponds ρ given R x y)
    (hf : ∀ a b, R a b → Corresponds ρ given S (f a) (g b)) : Corresponds ρ given S (x >>= f) (y >>= g) := by
  intro known known' hfollows hgiven
  obtain ⟨hvalue, hnext, hkept, hkept'⟩ := h known known' hfollows hgiven
  obtain ⟨hvalue₂, hnext₂, hkept₂, hkept₂'⟩ :=
    hf _ _ hvalue _ _ hnext fun t ht => ⟨hkept (hgiven t ht).1, hkept' (hgiven t ht).2⟩
  exact ⟨hvalue₂, hnext₂, List.Subset.trans hkept hkept₂, List.Subset.trans hkept' hkept₂'⟩

theorem mono {x : Scoped α} {y : Scoped β} (h : Corresponds ρ given R x y) (hsubset : given ⊆ given') :
    Corresponds ρ given' R x y :=
  fun known known' hfollows hgiven => h known known' hfollows fun t ht => hgiven t (hsubset ht)

end Corresponds

namespace Node

/-- The trees are resolved to the same one, up to the names of temporaries. -/
def Alike (ρ : String → String) (given : List String) (n n' : Node) : Prop :=
  Corresponds ρ given (fun a b => b = a.rename ρ) n.resolve n'.resolve

/-- The same of sequences of trees. -/
abbrev AlikeAll (ρ : String → String) (given : List String) : List Node → List Node → Prop := List.Forall₂ (Alike ρ given)

section

variable {ρ : String → String} {given given' : List String} {l l' r r' t t' y y' n n' b b' c c' p p' v v' : Node}
  {ns ns' : List Node}

theorem Alike.mono (h : Alike ρ given n n') (hsubset : given ⊆ given') : Alike ρ given' n n' := Corresponds.mono h hsubset

theorem alike_lit (value : Data) : Alike ρ given (lit value) (lit value) := .pure rfl

theorem Alike.binary (op : BinaryOp) (hl : Alike ρ given l l') (hr : Alike ρ given r r') :
    Alike ρ given (binary op l r) (binary op l' r') :=
  hl.bind fun _ _ hl => hr.bind fun _ _ hr => .pure (by rw [hl, hr, rename])

theorem Alike.choice (ht : Alike ρ given t t') (hy : Alike ρ given y y') (hn : Alike ρ given n n') :
    Alike ρ given (choice t y n) (choice t' y' n') :=
  ht.bind fun _ _ ht => hy.bind fun _ _ hy => hn.bind fun _ _ hn => .pure (by rw [ht, hy, hn, rename])

theorem Alike.loop (ht : Alike ρ given t t') (hb : Alike ρ given b b') : Alike ρ given (loop t b) (loop t' b') :=
  ht.bind fun _ _ ht => hb.bind fun _ _ hb => .pure (by rw [ht, hb, rename])

theorem Alike.loopAfter (ht : Alike ρ given t t') (hb : Alike ρ given b b') : Alike ρ given (loopAfter t b) (loopAfter t' b') :=
  hb.bind fun _ _ hb => ht.bind fun _ _ ht => .pure (by rw [ht, hb, rename])

theorem Alike.aryRef (hc : Alike ρ given c c') (hp : Alike ρ given p p') : Alike ρ given (aryRef c p) (aryRef c' p') :=
  hc.bind fun _ _ hc => hp.bind fun _ _ hp => .pure (by rw [hc, hp, rename])

theorem Alike.aryAssign (hc : Alike ρ given c c') (hp : Alike ρ given p p') (hv : Alike ρ given v v') :
    Alike ρ given (aryAssign c p v) (aryAssign c' p' v') :=
  hc.bind fun _ _ hc => hp.bind fun _ _ hp => hv.bind fun _ _ hv => .pure (by rw [hc, hp, hv, rename])

theorem AlikeAll.resolveAll (h : AlikeAll ρ given ns ns') :
    Corresponds ρ given (fun a b => b = renameAll ρ a) (resolveAll ns) (resolveAll ns') := by
  induction h with
  | nil => exact .pure rfl
  | cons hn _ ih => exact Corresponds.bind hn fun _ _ hn => ih.bind fun _ _ hns => .pure (by rw [hn, hns, renameAll])

theorem AlikeAll.stmts (h : AlikeAll ρ given ns ns') : Alike ρ given (stmts ns) (stmts ns') :=
  h.resolveAll.bind fun _ _ h => .pure (by rw [h, rename])

theorem AlikeAll.aryNew (h : AlikeAll ρ given ns ns') : Alike ρ given (aryNew ns) (aryNew ns') :=
  h.resolveAll.bind fun _ _ h => .pure (by rw [h, rename])

theorem AlikeAll.hashNew (h : AlikeAll ρ given ns ns') : Alike ρ given (hashNew ns) (hashNew ns') :=
  h.resolveAll.bind fun _ _ h => .pure (by rw [h, rename])

theorem AlikeAll.funcCall (f : String) (h : AlikeAll ρ given ns ns') : Alike ρ given (funcCall f ns) (funcCall f ns') :=
  h.resolveAll.bind fun _ _ h => .pure (by rw [h, rename])

/-- The body of a definition knows the parameters only. -/
theorem Alike.funcDef (f : String) {params : List String} (hparams : ∀ x ∈ params, ρ x = x) (h : Alike ρ [] b b') :
    Alike ρ given (funcDef f params b) (funcDef f params b') := by
  refine .pure ?_
  rw [rename, List.map_congr_left hparams, List.map_id', (h params params (.refl params) nofun).1]

/-- A name that a program can write is read alike. -/
theorem alike_varRef {x : String} (hx : IsIdentifier x) (hρ : ρ x = x) : Alike ρ given (varRef x) (varRef x) := by
  intro known known' hfollows _
  refine ⟨?_, hfollows, List.Subset.refl _, List.Subset.refl _⟩
  show (if x ∈ known' then varRef x else funcCall x []) = (if x ∈ known then varRef x else funcCall x []).rename ρ
  by_cases h : x ∈ known
  · rw [if_pos h, if_pos ((hfollows x hx).mp h), rename, hρ]
  · rw [if_neg h, if_neg (h ∘ (hfollows x hx).mpr), rename, renameAll]

/-- A temporary that both know is read as the one that it is renamed to. -/
theorem alike_temporary {x : String} (h : x ∈ given) : Alike ρ given (varRef x) (varRef (ρ x)) := by
  intro known known' hfollows hgiven
  obtain ⟨hknown, hknown'⟩ := hgiven x h
  refine ⟨?_, hfollows, List.Subset.refl _, List.Subset.refl _⟩
  show (if ρ x ∈ known' then varRef (ρ x) else funcCall (ρ x) []) = (if x ∈ known then varRef x else funcCall x []).rename ρ
  rw [if_pos hknown, if_pos hknown', rename]

theorem Alike.varAssign {x : String} (hρ : ρ x = x) (h : Alike ρ given v v') :
    Alike ρ given (varAssign x v) (varAssign x v') := by
  refine h.bind fun a b hab known known' hfollows _ => ?_
  refine ⟨?_, hfollows.add x, List.subset_cons_self _ _, List.subset_cons_self _ _⟩
  show Node.varAssign x b = (Node.varAssign x a).rename ρ
  rw [hab, rename, hρ]

/-- What is kept in a temporary is known behind it. -/
theorem Alike.assignThen {x : String} (hx : IsTemporary x) (hx' : IsTemporary (ρ x)) (hv : Alike ρ given v v')
    (hn : Alike ρ (x :: given) n n') :
    Alike ρ given (Node.stmts [Node.varAssign x v, n]) (Node.stmts [Node.varAssign (ρ x) v', n']) := by
  intro known known' hfollows hgiven
  obtain ⟨hvalue, hnext, hkept, hkept'⟩ := hv known known' hfollows hgiven
  obtain ⟨hvalue₂, hnext₂, hkept₂, hkept₂'⟩ := hn (x :: (v.resolve.run known).2) (ρ x :: (v'.resolve.run known').2)
    ((hnext.temporary hx).symm.temporary hx').symm (List.forall_mem_cons.mpr ⟨⟨List.mem_cons_self, List.mem_cons_self⟩,
      fun t ht => ⟨List.mem_cons_of_mem _ (hkept (hgiven t ht).1), List.mem_cons_of_mem _ (hkept' (hgiven t ht).2)⟩⟩)
  refine ⟨?_, hnext₂, List.Subset.trans (List.Subset.trans hkept (List.subset_cons_self _ _)) hkept₂,
    List.Subset.trans (List.Subset.trans hkept' (List.subset_cons_self _ _)) hkept₂'⟩
  show Node.stmts [Node.varAssign (ρ x) (v'.resolve.run known').1, (n'.resolve.run (ρ x :: (v'.resolve.run known').2)).1] =
    (Node.stmts [Node.varAssign x (v.resolve.run known).1, (n.resolve.run (x :: (v.resolve.run known).2)).1]).rename ρ
  rw [hvalue, hvalue₂, rename, renameAll, renameAll, renameAll, rename]

theorem Alike.negate (h : Alike ρ given n n') : Alike ρ given n.negate n'.negate := h.choice (alike_lit _) (alike_lit _)

theorem Alike.negative (h : Alike ρ given n n') : Alike ρ given n.negative n'.negative := by
  intro known known' hfollows hgiven
  rw [resolve_negative, resolve_negative]
  obtain ⟨hvalue, hrest⟩ := h known known' hfollows hgiven
  exact ⟨by rw [hvalue]; exact (rename_negative ρ _).symm, hrest⟩

theorem Alike.bothOf {x : String} (hx : IsTemporary x) (hx' : IsTemporary (ρ x)) (hl : Alike ρ given l l')
    (hr : Alike ρ given r r') :
    Alike ρ given (bothOf x l r) (bothOf (ρ x) l' r') :=
  have htemporary : Alike ρ (x :: given) (varRef x) (varRef (ρ x)) := alike_temporary List.mem_cons_self
  hl.assignThen hx hx' (htemporary.choice (hr.mono (List.subset_cons_self _ _)) htemporary)

theorem Alike.eitherOf {x : String} (hx : IsTemporary x) (hx' : IsTemporary (ρ x)) (hl : Alike ρ given l l')
    (hr : Alike ρ given r r') :
    Alike ρ given (eitherOf x l r) (eitherOf (ρ x) l' r') :=
  have htemporary : Alike ρ (x :: given) (varRef x) (varRef (ρ x)) := alike_temporary List.mem_cons_self
  hl.assignThen hx hx' (htemporary.choice htemporary (hr.mono (List.subset_cons_self _ _)))

theorem AlikeAll.matchesAny {x : String} (hx : x ∈ given) (h : AlikeAll ρ given ns ns') :
    Alike ρ given (matchesAny x ns) (matchesAny (ρ x) ns') := by
  induction h with
  | nil => exact alike_lit _
  | cons hn hrest ih =>
    have htest := (alike_temporary hx).binary .eq hn
    cases hrest with
    | nil => exact htest
    | cons _ _ => exact htest.choice (alike_lit _) ih

end

end Node

theorem Modifier.alike_apply {ρ : String → String} {given : List String} (modifier : Modifier) (runsFirst : Bool)
    {s s' t t' : Node}
    (hs : s.Alike ρ given s') (ht : t.Alike ρ given t') : (modifier.apply runsFirst s t).Alike ρ given
      (modifier.apply runsFirst s' t') := by
  have hnothing : Node.nothing.Alike ρ given Node.nothing := Node.AlikeAll.stmts .nil
  cases modifier with
  | whenTrue => exact ht.choice hs hnothing
  | unlessTrue => exact ht.choice hnothing hs
  | whileTrue =>
    cases runsFirst with
    | false => exact ht.loop hs
    | true => exact ht.loopAfter hs

/-! ## Reduction in step -/

/-- The renaming takes the temporaries with `limit` numbers from `first` on to those from `next` on, and keeps every name
that a program can write. -/
structure Carries (ρ : String → String) (first next limit : Nat) : Prop where
  identifier : ∀ x, IsIdentifier x → ρ x = x
  temporary : ∀ construct ∈ constructs, ∀ j < limit, ρ (temporary construct (first + j)) = temporary construct (next + j)

theorem carries_renumber (first next limit : Nat) : Carries (renumber first next) first next limit where
  identifier _ hx := renumber_of_not_isTemporary (fun ht => not_isIdentifier_of_isTemporary ht hx) first next
  temporary _ h j _ := renumber_temporary h first next j

/-- Two numbering steps, the one `first` and the other `next` on, that draw equally many numbers and give values in the
given relation if they draw none beyond the limit. -/
def Renames (first next limit : Nat) {α β : Type} (R : α → β → Prop) (x : Fresh α) (y : Fresh β) : Prop :=
  ∀ j, ∃ i, j ≤ i ∧ (x.run (first + j)).2 = first + i ∧ (y.run (next + j)).2 = next + i ∧
    (i ≤ limit → R (x.run (first + j)).1 (y.run (next + j)).1)

namespace Renames

variable {first next limit : Nat} {α β γ δ : Type} {R : α → β → Prop} {S : γ → δ → Prop}

theorem pure {a : α} {b : β} (h : R a b) : Renames first next limit R (Pure.pure a) (Pure.pure b) :=
  fun j => ⟨j, Nat.le_refl j, rfl, rfl, fun _ => h⟩

/-- What follows draws its numbers whether or not the values are related. -/
theorem bind {x : Fresh α} {y : Fresh β} {f : α → Fresh γ} {g : β → Fresh δ} (h : Renames first next limit R x y)
    (hf : ∀ a b, Renames first next limit (fun c d => R a b → S c d) (f a) (g b)) :
    Renames first next limit S (x >>= f) (y >>= g) := by
  intro j
  obtain ⟨i, hji, hi, hi', hvalue⟩ := h j
  obtain ⟨k, hik, hk, hk', hmore⟩ := hf (x.run (first + j)).1 (y.run (next + j)).1 i
  rw [← hi] at hk hmore
  rw [← hi'] at hk' hmore
  exact ⟨k, Nat.le_trans hji hik, hk, hk', fun hlimit => hmore hlimit (hvalue (Nat.le_trans hik hlimit))⟩

theorem mono {x : Fresh α} {y : Fresh β} {S : α → β → Prop} (h : Renames first next limit R x y) (hRS : ∀ a b, R a b → S a b) :
    Renames first next limit S x y := by
  intro j
  obtain ⟨i, hji, hi, hi', hvalue⟩ := h j
  exact ⟨i, hji, hi, hi', fun hlimit => hRS _ _ (hvalue hlimit)⟩

end Renames

section

variable {ρ : String → String} {first next limit : Nat}

theorem renames_freshName (hρ : Carries ρ first next limit) {construct : String} (h : construct ∈ constructs) :
    Renames first next limit (fun x y => IsTemporary x ∧ IsTemporary y ∧ y = ρ x) (freshName construct)
      (freshName construct) :=
  fun j => ⟨j + 1, Nat.le_succ j, rfl, rfl, fun hlimit =>
    ⟨⟨construct, h, _, rfl⟩, ⟨construct, h, _, rfl⟩, (hρ.temporary construct h j hlimit).symm⟩⟩

mutual

theorem renames_desugar (hρ : Carries ρ first next limit) : ∀ {t : Term}, (∀ x ∈ t.words, IsIdentifier x) →
    Renames first next limit (Node.Alike ρ []) t.desugar t.desugar
  | .lit value, _ => .pure (Node.alike_lit _)
  | .name x, hw =>
    have hx : IsIdentifier x := hw x (by simp [Term.words])
    .pure (Node.alike_varRef hx (hρ.identifier x hx))
  | .call f args, hw => by
    simp only [Term.words, List.forall_mem_cons] at hw
    exact (renames_desugarAll hρ hw.2).bind fun _ _ => .pure fun h => h.funcCall f
  | .array items, hw => (renames_desugarAll hρ (l := items) hw).bind fun _ _ => .pure fun h => h.aryNew
  | .hash items, hw => (renames_desugarAll hρ (l := items) hw).bind fun _ _ => .pure fun h => h.hashNew
  | .index c p, hw => by
    simp only [Term.words, List.forall_mem_append] at hw
    exact (renames_desugar hρ hw.1).bind fun _ _ => (renames_desugar hρ hw.2).bind fun _ _ => .pure fun hp hc => hc.aryRef hp
  | .negation operand, hw => (renames_desugar hρ (t := operand) hw).bind fun _ _ => .pure fun h => h.negate
  | .minus operand, hw => (renames_desugar hρ (t := operand) hw).bind fun _ _ => .pure fun h => h.negative
  | .binary op left right, hw => by
    simp only [Term.words, List.forall_mem_append] at hw
    refine (renames_desugar hρ hw.1).bind fun _ _ => (renames_desugar hρ hw.2).bind fun _ _ => ?_
    cases op with
    | core op => exact .pure fun hr hl => hl.binary op hr
    | notEqual => exact .pure fun hr hl => (hl.binary .eq hr).negate
    | both =>
      refine (renames_freshName hρ (by decide)).bind fun x y => .pure ?_
      rintro ⟨hx, hy, rfl⟩ hr hl
      exact hl.bothOf hx hy hr
    | either =>
      refine (renames_freshName hρ (by decide)).bind fun x y => .pure ?_
      rintro ⟨hx, hy, rfl⟩ hr hl
      exact hl.eitherOf hx hy hr
  | .choice test yes no, hw => by
    simp only [Term.words, List.forall_mem_append] at hw
    exact (renames_desugar hρ hw.1.1).bind fun _ _ => (renames_desugar hρ hw.1.2).bind fun _ _ =>
      (renames_desugar hρ hw.2).bind fun _ _ => .pure fun hn hy ht => ht.choice hy hn
  | .choiceUnless test no yes, hw => by
    simp only [Term.words, List.forall_mem_append] at hw
    exact (renames_desugar hρ hw.1.1).bind fun _ _ => (renames_desugar hρ hw.1.2).bind fun _ _ =>
      (renames_desugar hρ hw.2).bind fun _ _ => .pure fun hy hn ht => ht.choice hy hn
  | .assignName x value, hw => by
    simp only [Term.words, List.forall_mem_cons] at hw
    exact (renames_desugar hρ hw.2).bind fun _ _ => .pure fun hv => hv.varAssign (hρ.identifier x hw.1)
  | .assignIndex c p value, hw => by
    simp only [Term.words, List.forall_mem_append] at hw
    exact (renames_desugar hρ hw.1.1).bind fun _ _ => (renames_desugar hρ hw.1.2).bind fun _ _ =>
      (renames_desugar hρ hw.2).bind fun _ _ => .pure fun hv hp hc => hc.aryAssign hp hv
  | .updateName x op value, hw => by
    simp only [Term.words, List.forall_mem_cons] at hw
    have hx := hρ.identifier x hw.1
    exact (renames_desugar hρ hw.2).bind fun _ _ => .pure fun hv => ((Node.alike_varRef hw.1 hx).binary op hv).varAssign hx
  | .updateIndex c p op value, hw => by
    simp only [Term.words, List.forall_mem_append] at hw
    exact (renames_desugar hρ hw.1.1).bind fun _ _ => (renames_desugar hρ hw.1.2).bind fun _ _ =>
      (renames_desugar hρ hw.2).bind fun _ _ => .pure fun hv hp hc => hc.aryAssign hp ((hc.aryRef hp).binary op hv)
  | .loop test body, hw => by
    simp only [Term.words, List.forall_mem_append] at hw
    exact (renames_desugar hρ hw.1).bind fun _ _ => (renames_desugar hρ hw.2).bind fun _ _ => .pure fun hb ht => ht.loop hb
  | .caseOf subject clauses, hw => by
    simp only [Term.words, List.forall_mem_append] at hw
    refine (renames_desugar hρ hw.1).bind fun _ _ => (renames_freshName hρ (by decide)).bind fun x y =>
      (renames_desugarClauses hρ hw.2 x y).bind fun _ _ => .pure ?_
    rintro hc ⟨hx, hy, rfl⟩ hs
    exact hs.assignThen hx hy (hc rfl)
  | .definition f params body, hw => by
    simp only [Term.words, List.cons_append, List.forall_mem_cons, List.forall_mem_append] at hw
    have hparams : ∀ x ∈ params, ρ x = x := fun x hx => hρ.identifier x (hw.2.1 x hx)
    exact (renames_desugar hρ hw.2.2).bind fun _ _ => .pure fun hb => hb.funcDef f hparams
  | .beginEnd body, hw => renames_desugar hρ (t := body) hw
  | .block statements, hw => (renames_desugarAll hρ (l := statements) hw).bind fun _ _ => .pure fun h => h.stmts
  | .modified statement modifier test, hw => by
    simp only [Term.words, List.forall_mem_append] at hw
    exact (renames_desugar hρ hw.1).bind fun _ _ => (renames_desugar hρ hw.2).bind fun _ _ =>
      .pure fun ht hs => modifier.alike_apply statement.isBegin hs ht

theorem renames_desugarAll (hρ : Carries ρ first next limit) : ∀ {l : List Term}, (∀ x ∈ wordsAll l, IsIdentifier x) →
    Renames first next limit (Node.AlikeAll ρ []) (desugarAll l) (desugarAll l)
  | [], _ => .pure .nil
  | t :: rest, hw => by
    simp only [wordsAll, List.forall_mem_append] at hw
    exact (renames_desugar hρ hw.1).bind fun _ _ => (renames_desugarAll hρ hw.2).bind fun _ _ =>
      .pure fun hns hn => .cons hn hns

theorem renames_desugarClauses (hρ : Carries ρ first next limit) : ∀ {c : Clauses}, (∀ x ∈ c.words, IsIdentifier x) →
    ∀ x y : String, Renames first next limit (fun n n' => y = ρ x → Node.Alike ρ [x] n n') (c.desugar x) (c.desugar y)
  | .otherwise body, hw, x, y => (renames_desugar hρ (t := body) hw).mono fun _ _ h _ => h.mono (List.nil_subset _)
  | .clause values body rest, hw, x, y => by
    simp only [Clauses.words, List.forall_mem_append] at hw
    refine (renames_desugarAll hρ hw.1.1).bind fun _ _ => (renames_desugar hρ hw.1.2).bind fun _ _ =>
      (renames_desugarClauses hρ hw.2 x y).bind fun _ _ => .pure ?_
    rintro hr hb hv rfl
    exact (Node.AlikeAll.matchesAny List.mem_cons_self (hv.imp fun _ _ h => h.mono (List.nil_subset _))).choice
      (hb.mono (List.nil_subset _)) (hr rfl)

end

end

end MinRuby.Syntax
