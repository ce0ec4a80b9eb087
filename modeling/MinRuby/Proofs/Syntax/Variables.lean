import Mathlib.Data.Fintype.Sum
import MinRuby.Proofs.Syntax.Definitions

/-!
# The variables of a tree

A renaming of the variables of a tree matters only where the tree has a variable. One that takes different hidden names to
different hidden names and keeps the others is, as far as the tree goes, a renaming that never takes two names to one.

* `Node.vars` — the variables and the parameters of a tree.
* `Node.rename_congr` — renamings that agree on them.
* `exists_injective_extension` — a renaming of finitely many names as one of all names.
* `Node.Relabels` — other hidden names for those of a tree.
-/

namespace MinRuby.Syntax

/-- A name with the sign in front that no program can write there. -/
def IsHidden (x : String) : Prop := x.toList.head? = some '%'

instance (x : String) : Decidable (IsHidden x) := inferInstanceAs (Decidable (x.toList.head? = some '%'))

theorem not_isHidden_of_isIdentifier {x : String} (h : IsIdentifier x) : ¬ IsHidden x := by
  obtain ⟨first, more, mark, hx, hfirst, -⟩ := h
  intro hhidden
  rw [IsHidden, hx] at hhidden
  obtain rfl : first = '%' := by simpa using hhidden
  exact absurd hfirst (by decide)

namespace Node

mutual

/-- The names of the variables of the tree, and of the parameters and the variables of its definitions. -/
def vars : Node → List String
  | varAssign x value => x :: value.vars
  | varRef x => [x]
  | funcDef _ params body => params ++ body.vars
  | binary _ left right => left.vars ++ right.vars
  | stmts body => varsAll body
  | choice test yes no => test.vars ++ yes.vars ++ no.vars
  | loop test body => test.vars ++ body.vars
  | loopAfter test body => test.vars ++ body.vars
  | funcCall _ args => varsAll args
  | aryNew items => varsAll items
  | aryRef container position => container.vars ++ position.vars
  | aryAssign container position value => container.vars ++ position.vars ++ value.vars
  | hashNew items => varsAll items
  | lit _ | unknown _ | scalar | broken => []
termination_by structural n => n

/-- The names of the variables of the trees of a sequence. -/
def varsAll : List Node → List String
  | [] => []
  | n :: rest => n.vars ++ varsAll rest
termination_by structural l => l

end

section

variable {ρ r : String → String}

mutual

/-- Renamings that agree on the variables of a tree. -/
theorem rename_congr : ∀ {n : Node}, (∀ x ∈ n.vars, ρ x = r x) → n.rename ρ = n.rename r
  | lit _, _ | unknown _, _ | scalar, _ | broken, _ => rfl
  | varRef x, h => congrArg varRef (h x List.mem_cons_self)
  | varAssign x value, h => by
    rw [vars, List.forall_mem_cons] at h
    rw [rename, rename, h.1, rename_congr h.2]
  | funcDef f params body, h => by
    rw [vars, List.forall_mem_append] at h
    rw [rename, rename, List.map_congr_left h.1, rename_congr h.2]
  | binary _ left right, h => by
    rw [vars, List.forall_mem_append] at h
    rw [rename, rename, rename_congr h.1, rename_congr h.2]
  | stmts body, h => congrArg stmts (renameAll_congr h)
  | choice test yes no, h => by
    rw [vars, List.forall_mem_append, List.forall_mem_append] at h
    rw [rename, rename, rename_congr h.1.1, rename_congr h.1.2, rename_congr h.2]
  | loop test body, h => by
    rw [vars, List.forall_mem_append] at h
    rw [rename, rename, rename_congr h.1, rename_congr h.2]
  | loopAfter test body, h => by
    rw [vars, List.forall_mem_append] at h
    rw [rename, rename, rename_congr h.1, rename_congr h.2]
  | funcCall f args, h => congrArg (funcCall f) (renameAll_congr h)
  | aryNew items, h => congrArg aryNew (renameAll_congr h)
  | aryRef container position, h => by
    rw [vars, List.forall_mem_append] at h
    rw [rename, rename, rename_congr h.1, rename_congr h.2]
  | aryAssign container position value, h => by
    rw [vars, List.forall_mem_append, List.forall_mem_append] at h
    rw [rename, rename, rename_congr h.1.1, rename_congr h.1.2, rename_congr h.2]
  | hashNew items, h => congrArg hashNew (renameAll_congr h)

theorem renameAll_congr : ∀ {ns : List Node}, (∀ x ∈ varsAll ns, ρ x = r x) → renameAll ρ ns = renameAll r ns
  | [], _ => rfl
  | n :: rest, h => by
    rw [varsAll, List.forall_mem_append] at h
    rw [renameAll, renameAll, rename_congr h.1, renameAll_congr h.2]

end

end

theorem mem_varsAll {x : String} {ns : List Node} : x ∈ varsAll ns ↔ ∃ n ∈ ns, x ∈ n.vars := by
  induction ns with
  | nil => simp [varsAll]
  | cons n ns ih => simp [varsAll, ih]

/-- The variables of a child are variables of the tree. -/
theorem vars_of_mem_children {c n : Node} (h : c ∈ n.children) {x : String} (hx : x ∈ c.vars) : x ∈ n.vars := by
  cases n <;> simp only [children, List.mem_cons, List.not_mem_nil, or_false] at h <;>
    simp only [vars, List.mem_append, List.mem_cons, mem_varsAll] <;> grind

/-- What a tree assigns is one of its variables. -/
theorem vars_of_mem_assigned {n : Node} {x : String} (h : x ∈ n.assigned) : x ∈ n.vars := by
  induction n using children_induction with
  | step n ih =>
    rcases mem_assigned_cases h with ⟨value, rfl⟩ | ⟨c, hc, hx⟩
    · exact List.mem_cons_self
    · exact vars_of_mem_children hc (ih c hc hx)

/-- The parameters and the variables of a definition in a tree are among those of the tree. -/
theorem vars_of_mem_definitions {n : Node} {p : Procedure} (h : p ∈ n.definitions) {x : String}
    (hx : x ∈ p.params ++ p.body.vars) : x ∈ n.vars := by
  induction n using children_induction with
  | step n ih =>
    rcases mem_definitions_cases h with rfl | ⟨c, hc, hp⟩
    · exact hx
    · exact vars_of_mem_children hc (ih c hc hp)

theorem Within.vars {n : Node} {p : Procedure} (h : n.Within p) {x : String} (hx : x ∈ p.params ++ p.body.vars) :
    x ∈ n.vars := by
  induction h with
  | outer hp => exact vars_of_mem_definitions hp hx
  | inner _ hp ih => exact ih (List.mem_append_right _ (vars_of_mem_definitions hp hx))

end Node

/-- A renaming that takes finitely many names to different ones is part of one that never takes two names to one and moves
no others. -/
theorem exists_injective_extension {r : String → String} {V : Finset String} (h : Set.InjOn r V) :
    ∃ ρ : String → String, Function.Injective ρ ∧ (∀ x ∈ V, ρ x = r x) ∧ ∀ x, x ∉ V → x ∉ V.image r → ρ x = x := by
  let T := V ∪ V.image r
  let S : Finset T := V.subtype (· ∈ T)
  have hV (x : String) (hx : x ∈ V) : x ∈ T := Finset.mem_union_left _ hx
  have hrange : S.image (fun x : T => r x) ⊆ T := by
    intro y hy
    obtain ⟨x, hx, rfl⟩ := Finset.mem_image.mp hy
    exact Finset.mem_union_right _ (Finset.mem_image_of_mem r (Finset.mem_subtype.mp hx))
  have hinjective : Set.InjOn (fun x : T => r x) S := fun x hx y hy hxy =>
    Subtype.ext (h (Finset.mem_subtype.mp hx) (Finset.mem_subtype.mp hy) hxy)
  -- the names before and behind the renaming are mapped onto themselves
  obtain ⟨g, hg⟩ := Finset.exists_equiv_extend_of_card_eq (Fintype.card_coe T) hrange hinjective
  refine ⟨fun x => if hx : x ∈ T then g ⟨x, hx⟩ else x, fun x y hxy => ?_, fun x hx => ?_, fun x hx hx' => ?_⟩
  · by_cases hx : x ∈ T <;> by_cases hy : y ∈ T <;> simp only [hx, hy, ↓reduceDIte] at hxy
    · exact congrArg Subtype.val (g.injective (Subtype.ext hxy))
    · exact absurd (hxy ▸ (g ⟨x, hx⟩).2) hy
    · exact absurd (hxy ▸ (g ⟨y, hy⟩).2) hx
    · exact hxy
  · simp only [hV x hx, ↓reduceDIte]
    exact hg ⟨x, hV x hx⟩ (Finset.mem_subtype.mpr hx)
  · have hT : x ∉ T := fun hmem => (Finset.mem_union.mp hmem).elim hx hx'
    simp only [hT, ↓reduceDIte]

/-- The renaming takes the hidden names of the tree to different hidden names and keeps its other names. -/
structure Node.Relabels (n : Node) (r : String → String) : Prop where
  keeps : ∀ x ∈ n.vars, ¬ IsHidden x → r x = x
  hidden : ∀ x ∈ n.vars, IsHidden x → IsHidden (r x)
  injective : ∀ x ∈ n.vars, ∀ y ∈ n.vars, IsHidden x → IsHidden y → r x = r y → x = y

/-- On the tree such a renaming is one that never takes two names to one and keeps all names that are not hidden. -/
theorem Node.Relabels.exists_injective {n : Node} {r : String → String} (h : n.Relabels r) :
    ∃ ρ : String → String, Function.Injective ρ ∧ (∀ x ∈ n.vars, ρ x = r x) ∧ ∀ x, ¬ IsHidden x → ρ x = x := by
  let V := n.vars.toFinset.filter IsHidden
  have hmem {x : String} : x ∈ V ↔ x ∈ n.vars ∧ IsHidden x := by simp [V]
  have hon : Set.InjOn r V := fun x hx y hy => by
    obtain ⟨hx, hx'⟩ := hmem.mp hx
    obtain ⟨hy, hy'⟩ := hmem.mp hy
    exact h.injective x hx y hy hx' hy'
  obtain ⟨ρ, hρ, hV, hothers⟩ := exists_injective_extension hon
  have hwritten (x : String) (hx : ¬ IsHidden x) : ρ x = x := by
    refine hothers x (fun hmemV => hx (hmem.mp hmemV).2) fun himage => ?_
    obtain ⟨y, hy, rfl⟩ := Finset.mem_image.mp himage
    exact hx (h.hidden y (hmem.mp hy).1 (hmem.mp hy).2)
  refine ⟨ρ, hρ, fun x hx => ?_, hwritten⟩
  by_cases hx' : IsHidden x
  · exact hV x (hmem.mpr ⟨hx, hx'⟩)
  · rw [hwritten x hx', h.keeps x hx hx']

end MinRuby.Syntax
