import MinRuby.Proofs.Run.Assignless
import Mathlib.Order.WellFounded

/-!
# No container contains itself

In a run without assignments to elements what an array or a hash holds was there before it was complete, so no container
ever contains itself, directly or through others. The invariant looks one step ahead only: being in a container is well
founded, and no value that the run has, and no value that a container holds, is a hash that is still being filled.

* `Grounded` — the invariant of the store.
* `keptByAllocation_grounded` — allocation keeps it.
* `Moment` — where a run passes through.
* `no_container_contains_itself` — every moment of every run, and what follows for the recursions over values.
-/

namespace MinRuby

open Syntax (Node)

/-! ## The invariant -/

/-- The value is a container in the store that is complete, or no container. -/
def Settled (O : List Address) (s : Store) : Value → Prop
  | .array a => a < s.arrays.size
  | .hash a => a < s.hashes.size ∧ a ∉ O
  | _ => True

/-- Being in a container is well founded, while the hashes in `O` are being filled. -/
structure Grounded (O : List Address) (s : Store) : Prop where
  wellFounded : WellFounded s.IsIn
  settled : ∀ x y, s.IsIn x y → Settled O s x
  bounded : ∀ a ∈ O, a < s.hashes.size
  nodup : O.Nodup

/-- A relation that is well founded remains so when something is put below one element, if that element is below none. -/
theorem wellFounded_of_top {α : Type} {r r' : α → α → Prop} (h : WellFounded r) (top : α)
    (hold : ∀ x y, r' x y → y ≠ top → r x y) (htop : ∀ x y, r' x y → x ≠ top) : WellFounded r' := by
  have below (x : α) : x ≠ top → Acc r' x := by
    induction x using h.induction with
    | h x ih =>
      intro hx
      exact ⟨x, fun y hy => ih y (hold y x hy hx) (htop y x hy)⟩
  refine ⟨fun x => ?_⟩
  by_cases hx : x = top
  · exact ⟨x, fun y hy => below y (htop y x hy)⟩
  · exact below x hx

section

variable {O : List Address} {s s' : Store} {x y : Value}

theorem Settled.grows (h : Settled O s x) (harrays : s.arrays.size ≤ s'.arrays.size) (hhashes : s.hashes.size ≤ s'.hashes.size) :
    Settled O s' x := by
  cases x with
  | array a => exact Nat.lt_of_lt_of_le h harrays
  | hash a => exact ⟨Nat.lt_of_lt_of_le h.1 hhashes, h.2⟩
  | _ => trivial

theorem Settled.tail {a : Address} (h : Settled (a :: O) s x) : Settled O s x := by
  cases x with
  | array a => exact h
  | hash a => exact ⟨h.1, fun ha => h.2 (List.mem_cons_of_mem _ ha)⟩
  | _ => trivial

/-- A hash that is made is no value that was there. -/
theorem Settled.cons (h : Settled O s x) : Settled (s.hashes.size :: O) s x := by
  cases x with
  | array a => exact h
  | hash a =>
    refine ⟨h.1, fun ha => ?_⟩
    rcases List.mem_cons.mp ha with rfl | ha
    · exact absurd h.1 (Nat.lt_irrefl _)
    · exact h.2 ha
  | _ => trivial

/-- What is in a container was in it before an array was made, or is an element of that array. -/
theorem Store.isIn_newArray {items : Array Value} (h : (s.newArray items).2.IsIn x y) :
    s.IsIn x y ∨ y = .array s.arrays.size ∧ x ∈ items := by
  cases y with
  | array a =>
    have h : x ∈ (s.newArray items).2.array a := h
    by_cases ha : a = s.arrays.size
    · subst ha
      simp only [newArray, array, Array.getElem?_push_size, Option.getD_some] at h
      exact .inr ⟨rfl, h⟩
    · simp only [newArray, array, Array.getElem?_push, ha, if_false] at h
      exact .inl h
  | hash a => exact .inl h
  | _ => exact .inl h

theorem Store.isIn_newHash (h : (s.newHash .empty).2.IsIn x y) : s.IsIn x y := by
  cases y with
  | array a => exact h
  | hash a =>
    have h : ∃ e ∈ ((s.newHash .empty).2.hash a).values, x = e.key ∨ x = e.value := h
    by_cases ha : a = s.hashes.size
    · subst ha
      simp [newHash, hash, OrderedTable.empty, OrderedTable.values] at h
    · simp only [newHash, hash, Array.getElem?_push, ha, if_false] at h
      exact h
  | _ => exact h

theorem OrderedTable.mem_values_insert {κ α : Type} [BEq κ] {t : OrderedTable κ α} {k : κ} {v w : α}
    (h : w ∈ (t.insert k v).values) : w = v ∨ w ∈ t.values := by
  obtain ⟨entries⟩ := t
  simp only [insert, values] at h ⊢
  induction entries with
  | nil => exact .inl (by simpa [insertInto] using h)
  | cons e entries ih =>
    simp only [insertInto] at h
    split at h
    · simp only [List.map_cons, List.mem_cons] at h ⊢
      exact h.imp_right .inr
    · simp only [List.map_cons, List.mem_cons] at h ⊢
      rcases h with h | h
      · exact .inr (.inl h)
      · exact (ih h).imp_right .inr

/-- What is in a container was in it before an entry was stored, or is the key or the value of that entry. -/
theorem Store.isIn_updateHash {a : Address} {key : Key} {k v : Value}
    (h : (s.updateHash a (·.insert key ⟨k, v⟩)).IsIn x y) : s.IsIn x y ∨ y = .hash a ∧ (x = k ∨ x = v) := by
  cases y with
  | array b => exact .inl h
  | hash b =>
    obtain ⟨e, he, hx⟩ := h
    have he : e ∈ ((s.updateHash a (·.insert key ⟨k, v⟩)).hash b).values := he
    by_cases hb : a = b
    · subst hb
      simp only [updateHash, hash, Array.getElem?_modify, if_true] at he
      cases ht : s.hashes[a]? with
      | none =>
        rw [ht] at he
        cases he
      | some t =>
        rw [ht] at he
        rcases OrderedTable.mem_values_insert he with rfl | he
        · exact .inr ⟨rfl, hx⟩
        · refine .inl ⟨e, ?_, hx⟩
          simp only [entries, hash, ht]
          exact he
    · simp only [updateHash, hash, Array.getElem?_modify, hb, if_false] at he
      exact .inl ⟨e, he, hx⟩
  | _ => exact .inl h

end

/-- Allocation keeps being in a container well founded. -/
theorem keptByAllocation_grounded : KeptByAllocation Grounded Settled where
  scalar {O s v} hv := by
    cases v <;> first | exact hv.elim | trivial
  part hs _ hin := hs.settled _ _ hin
  newArray {O s items} hs hitems := by
    have harrays : s.arrays.size ≤ (s.newArray items).2.arrays.size := by simp [Store.newArray]
    have hkept (x : Value) (hx : Settled O s x) : Settled O (s.newArray items).2 x := hx.grows harrays (Nat.le_refl _)
    have hin {x y : Value} (h : (s.newArray items).2.IsIn x y) : Settled O s x := by
      rcases Store.isIn_newArray h with h | ⟨-, hx⟩
      · exact hs.settled x y h
      · exact hitems x hx
    refine ⟨⟨wellFounded_of_top hs.wellFounded (.array s.arrays.size) ?_ ?_, fun x y h => hkept x (hin h), hs.bounded,
      hs.nodup⟩, ?_, hkept⟩
    · intro x y h hy
      exact (Store.isIn_newArray h).resolve_right fun hnew => hy hnew.1
    · rintro x y h rfl
      exact absurd (hin h) (Nat.lt_irrefl _)
    · show s.arrays.size < (s.arrays.push items).size
      simp
  newHash {O s} hs := by
    have hhashes : s.hashes.size < (s.newHash .empty).2.hashes.size := by simp [Store.newHash]
    have hkept (x : Value) (hx : Settled O s x) : Settled (s.hashes.size :: O) (s.newHash .empty).2 x :=
      hx.cons.grows (Nat.le_refl _) (Nat.le_of_lt hhashes)
    have hwf : WellFounded (s.newHash .empty).2.IsIn := Subrelation.wf Store.isIn_newHash hs.wellFounded
    refine ⟨⟨hwf, fun x y h => hkept x (hs.settled x y (Store.isIn_newHash h)), ?_, ?_⟩, hkept⟩
    · exact List.forall_mem_cons.mpr ⟨hhashes, fun a ha => Nat.lt_trans (hs.bounded a ha) hhashes⟩
    · exact List.nodup_cons.mpr ⟨fun h => absurd (hs.bounded _ h) (Nat.lt_irrefl _), hs.nodup⟩
  store {O s a k v key} ha hs hk hv := by
    have hsize : (s.updateHash a (·.insert key ⟨k, v⟩)).hashes.size = s.hashes.size := by simp [Store.updateHash]
    have hkept (x : Value) (hx : Settled O s x) : Settled O (s.updateHash a (·.insert key ⟨k, v⟩)) x :=
      hx.grows (Nat.le_refl _) hsize.ge
    have hin {x y : Value} (h : (s.updateHash a (·.insert key ⟨k, v⟩)).IsIn x y) : Settled O s x := by
      rcases Store.isIn_updateHash h with h | ⟨-, rfl | rfl⟩
      · exact hs.settled x y h
      · exact hk
      · exact hv
    refine ⟨⟨wellFounded_of_top hs.wellFounded (.hash a) ?_ ?_, fun x y h => hkept x (hin h), hsize ▸ hs.bounded, hs.nodup⟩,
      hkept⟩
    · intro x y h hy
      exact (Store.isIn_updateHash h).resolve_right fun hnew => hy hnew.1
    · -- a hash that is being filled is in nothing
      rintro x y h rfl
      exact (hin h).2 ha
  newProcedure {O s p} hs := ⟨⟨hs.wellFounded, hs.settled, hs.bounded, hs.nodup⟩, fun _ h => h⟩
  filled {O s a} hs := by
    refine ⟨⟨hs.wellFounded, fun x y h => (hs.settled x y h).tail, fun b hb => hs.bounded b (List.mem_cons_of_mem _ hb),
      hs.nodup.of_cons⟩, ⟨hs.bounded a List.mem_cons_self, (List.nodup_cons.mp hs.nodup).1⟩, fun x hx => hx.tail⟩

/-! ## Recursions over values -/

namespace Store

/-- No value in the store contains itself, directly or through others. -/
def Acyclic (s : Store) : Prop := ∀ v, ¬ Relation.TransGen s.IsIn v v

theorem acyclic_of_wellFounded {s : Store} (h : WellFounded s.IsIn) : s.Acyclic :=
  fun v hv => h.transGen.irrefl.irrefl v hv

end Store

namespace Value

/-- The recursions over a value, its texts, its fingerprint and the comparison with other values, end at this depth. -/
structure Finishes (s : Store) (d : Nat) (v : Value) : Prop where
  inspect : FailsOnly (· ≠ .depth) (v.inspect s d)
  display : FailsOnly (· ≠ .depth) (v.display s d)
  displayLines : FailsOnly (· ≠ .depth) (v.displayLines s d)
  fingerprint : FailsOnly (· ≠ .limit .depth) (v.fingerprint s d)
  equal : ∀ w, FailsOnly (· ≠ .depth) (v.equal s d w)

section

variable {s : Store} {d : Nat}

theorem failsOnly_decimal_ne (n : Int) : FailsOnly (· ≠ .depth) (decimal n) := by
  unfold decimal
  split
  · exact .error (by simp)
  · exact .ok _

/-- A scalar has no parts to go through. -/
theorem Finishes.of_isScalar {v : Value} (hv : v.IsScalar) : v.Finishes s d := by
  have hinspect : FailsOnly (· ≠ .depth) (v.inspect s d) := by
    cases v with
    | array a => exact hv.elim
    | hash a => exact hv.elim
    | int n => cases d <;> exact failsOnly_decimal_ne n
    | _ => cases d <;> exact .ok _
  have hdisplay : FailsOnly (· ≠ .depth) (v.display s d) := by
    cases v with
    | nil => exact .ok _
    | str t => exact .ok _
    | _ => exact hinspect
  have hlines : FailsOnly (· ≠ .depth) (v.displayLines s d) := by
    cases v with
    | array a => exact hv.elim
    | _ => cases d <;> exact hdisplay.bind fun _ => .ok _
  have hfingerprint : FailsOnly (· ≠ .limit .depth) (v.fingerprint s d) := by
    cases v with
    | array a => exact hv.elim
    | hash a => exact hv.elim
    | procedure a => cases d <;> exact .error (by simp)
    | _ => cases d <;> exact .ok _
  refine ⟨hinspect, hdisplay, hlines, hfingerprint, fun w => ?_⟩
  cases v with
  | array a => exact hv.elim
  | hash a => exact hv.elim
  | _ => cases w <;> cases d <;> exact .ok _

/-- An array is gone through one level deeper than its elements. -/
theorem Finishes.of_array {a : Address} (h : ∀ x ∈ s.array a, x.Finishes s d) : (array a).Finishes s (d + 1) := by
  have hmem {x : Value} (hx : x ∈ (s.array a).toList) : x.Finishes s d := h x (Array.mem_toList_iff.mp hx)
  have hinspect : FailsOnly (· ≠ .depth) ((array a).inspect s (d + 1)) :=
    (FailsOnly.mapM _ fun x hx => (hmem hx).inspect).bind fun _ => .ok _
  refine ⟨hinspect, hinspect, (FailsOnly.mapM _ fun x hx => (hmem hx).displayLines).bind fun _ => .ok _,
    (FailsOnly.mapM _ fun x hx => (hmem hx).fingerprint).bind fun _ => .ok _, fun w => ?_⟩
  cases w with
  | array b =>
    unfold Value.equal
    simp only
    split
    · exact FailsOnly.allM _ fun p hp => (hmem (List.of_mem_zip hp).1).equal p.2
    · exact .ok _
  | _ => exact .ok _

/-- A hash is gone through one level deeper than its keys and values. -/
theorem Finishes.of_hash {a : Address} (h : ∀ e ∈ s.entries a, e.key.Finishes s d ∧ e.value.Finishes s d) :
    (hash a).Finishes s (d + 1) := by
  have hmem {p : Key × Entry} (hp : p ∈ (s.hash a).entries) : p.2.value.Finishes s d :=
    (h p.2 (List.mem_map_of_mem hp)).2
  have hinspect : FailsOnly (· ≠ .depth) ((hash a).inspect s (d + 1)) :=
    (FailsOnly.mapM _ fun e he => (h e he).1.inspect.bind fun _ => (h e he).2.inspect.bind fun _ => .ok _).bind fun _ => .ok _
  refine ⟨hinspect, hinspect, hinspect.bind fun _ => .ok _,
    (FailsOnly.mapM _ fun p hp => (hmem hp).fingerprint.bind fun _ => .ok _).bind fun _ => .ok _, fun w => ?_⟩
  cases w with
  | hash b =>
    unfold Value.equal
    simp only
    split
    · refine FailsOnly.allM _ fun p hp => ?_
      split
      · exact (hmem hp).equal _
      · exact .ok _
    · exact .ok _
  | _ => exact .ok _

end

end Value

/-- From some depth on the recursions over any value end. -/
def Store.Finishes (s : Store) : Prop := ∀ v, ∃ D, ∀ d ≥ D, Value.Finishes s d v

/-- Finitely many values have a bound in common. -/
theorem exists_common_bound {α : Type} {P : Nat → α → Prop} :
    ∀ {l : List α}, (∀ x ∈ l, ∃ D, ∀ d ≥ D, P d x) → ∃ D, ∀ x ∈ l, ∀ d ≥ D, P d x
  | [], _ => ⟨0, fun _ hx => absurd hx List.not_mem_nil⟩
  | x :: l, h => by
    obtain ⟨D, hx⟩ := h x List.mem_cons_self
    obtain ⟨E, hl⟩ := exists_common_bound fun y hy => h y (List.mem_cons_of_mem x hy)
    refine ⟨max D E, List.forall_mem_cons.mpr ⟨fun d hd => hx d (by omega), fun y hy d hd => ?_⟩⟩
    exact hl y hy d (by omega)

/-- The recursions over a value end, if there is no endless way down from it. -/
theorem Value.exists_finishes {s : Store} {v : Value} (h : Acc s.IsIn v) : ∃ D, ∀ d ≥ D, Value.Finishes s d v := by
  induction h with
  | intro v _ ih =>
    cases v with
    | array a =>
      obtain ⟨D, hD⟩ := exists_common_bound (l := (s.array a).toList) fun x hx => ih x (Array.mem_toList_iff.mp hx)
      refine ⟨D + 1, fun d hd => ?_⟩
      obtain ⟨d, rfl⟩ : ∃ e, d = e + 1 := ⟨d - 1, by omega⟩
      exact .of_array fun x hx => hD x (Array.mem_toList_iff.mpr hx) d (by omega)
    | hash a =>
      have hkeys (e : Entry) (he : e ∈ s.entries a) : ∃ D, ∀ d ≥ D, Value.Finishes s d e.key := ih e.key ⟨e, he, .inl rfl⟩
      have hvalues (e : Entry) (he : e ∈ s.entries a) : ∃ D, ∀ d ≥ D, Value.Finishes s d e.value :=
        ih e.value ⟨e, he, .inr rfl⟩
      obtain ⟨D, hD⟩ := exists_common_bound hkeys
      obtain ⟨E, hE⟩ := exists_common_bound hvalues
      refine ⟨max D E + 1, fun d hd => ?_⟩
      obtain ⟨d, rfl⟩ : ∃ e, d = e + 1 := ⟨d - 1, by omega⟩
      exact .of_hash fun e he => ⟨hD e he d (by omega), hE e he d (by omega)⟩
    | _ => exact ⟨0, fun d _ => .of_isScalar trivial⟩

/-- Where being in a container is well founded, the recursions over values end. -/
theorem Store.finishes_of_wellFounded {s : Store} (h : WellFounded s.IsIn) : s.Finishes :=
  fun v => v.exists_finishes (h.apply v)

/-! ## The moments of a run -/

/-- Between the two machines children of the node have been evaluated, one after the other. -/
def Goes (rounds depth : Nat) (node : Node) : Machine → Machine → Prop :=
  Relation.ReflTransGen fun m m' => ∃ c ∈ node.children, ∃ v, evaluate rounds depth c m = .ok v m'

/-- The evaluation of a tree on a machine may come to evaluate the node at the depth on the second machine. -/
inductive Moment (rounds depth : Nat) (tree : Node) (start : Machine) : Nat → Node → Machine → Prop where
  | whole : Moment rounds depth tree start depth tree start
  /-- A child, when others may have been evaluated before. -/
  | child {d : Nat} {node c : Node} {m m₁ m₂ : Machine}
    (h : Moment rounds depth tree start (d + 1) node m) (htrace : Eval.traceNode node m = .ok () m₁)
    (hgoes : Goes rounds d node m₁ m₂) (hc : c ∈ node.children) : Moment rounds depth tree start d c m₂
  /-- A key or a value in the literal of a hash, when others may have been stored before. -/
  | entry {d : Nat} {items done : List Node} {c : Node} {table : Value} {m m₁ m₂ m₃ m₄ : Machine}
    (h : Moment rounds depth tree start (d + 1) (.hashNew items) m)
    (htrace : Eval.traceNode (.hashNew items) m = .ok () m₁)
    (hnew : Eval.onStore (modifyGet (·.newHash .empty)) m₁ = .ok table m₂) (hdone : done <+: items)
    (hfill : Eval.fillHash d table (evaluate rounds d) done m₂ = .ok () m₃)
    (hgoes : Goes rounds d (.hashNew items) m₃ m₄) (hc : c ∈ items) : Moment rounds depth tree start d c m₄
  /-- The body of a function that is called. -/
  | body {d : Nat} {name : String} {args : List Node} {vs : List Value} {a : Address} {p : Procedure} {m m₁ m₂ m₃ : Machine}
    (h : Moment rounds depth tree start (d + 1) (.funcCall name args) m)
    (htrace : Eval.traceNode (.funcCall name args) m = .ok () m₁)
    (hargs : args.mapM (evaluate rounds d) m₁ = .ok vs m₂) (hname : m₂.functions.find? name = some (.procedure a))
    (hp : m₂.store.procedure? a = some p) (hnote : Eval.trace s!"Entering frame for {name}" m₂ = .ok () m₃) :
    Moment rounds depth tree start d p.body { m₃ with frame := .ofList (p.params.zip vs) }

/-- What holds at every moment of a run. -/
def Sound (node : Node) (m : Machine) : Prop :=
  node.assignsElement = false ∧ ∃ O, OnMachine Grounded Settled O m

section

variable {rounds d : Nat} {O : List Address}

/-- A successful step that only allocates. -/
theorem RunAllocates.onMachine {α : Type} {I : List Address → Store → Prop} {V : List Address → Store → Value → Prop}
    {out : α → List Value} {step : Eval α} {a : α} {m m' : Machine} (h : RunAllocates I V O [] out step)
    (hm : OnMachine I V O m) (hrun : step m = .ok a m') :
    OnMachine I V O m' ∧ (∀ v, V O m.store v → V O m'.store v) ∧ ∀ v ∈ out a, V O m'.store v := by
  have hstep := h m hm fun _ hv => absurd hv List.not_mem_nil
  rw [hrun] at hstep
  exact hstep

theorem Goes.onMachine {node : Node} {m m' : Machine} (h : Goes rounds d node m m') (hnode : node.assignsElement = false)
    (hm : OnMachine Grounded Settled O m) : OnMachine Grounded Settled O m' := by
  induction h with
  | refl => exact hm
  | tail _ hlast ih =>
    obtain ⟨c, hc, v, hrun⟩ := hlast
    have heval := keptByAllocation_grounded.allocates_evaluate rounds d (Node.assignsElement_of_mem_children hc hnode) O
    exact (heval.onMachine ih hrun).1

theorem Moment.sound {depth : Nat} {tree node : Node} {start m : Machine} (h : Moment rounds depth tree start d node m)
    (hstart : Sound tree start) : Sound node m := by
  induction h with
  | whole => exact hstart
  | child _ htrace hgoes hc ih =>
    obtain ⟨hnode, O, hm⟩ := ih
    have hm₁ := (RunAllocates.onMachine (.traceNode _) hm htrace).1
    exact ⟨Node.assignsElement_of_mem_children hc hnode, O, hgoes.onMachine hnode hm₁⟩
  | @entry d items done c table m m₁ m₂ m₃ m₄ _ htrace hnew hdone hfill hgoes hc ih =>
    obtain ⟨hnode, O, hm⟩ := ih
    have hm₁ := (RunAllocates.onMachine (.traceNode _) hm htrace).1
    have hitem {n : Node} (hn : n ∈ items) : n.assignsElement = false :=
      Node.assignsElement_of_mem_children (n := .hashNew items) hn hnode
    cases hnew
    have hm₂ := hm₁.newHash keptByAllocation_grounded
    have hfilled : RunAllocates Grounded Settled (m₁.store.hashes.size :: O) [] noValue
        (Eval.fillHash d (.hash m₁.store.hashes.size) (evaluate rounds d) done) :=
      keptByAllocation_grounded.runAllocates_fillHash List.mem_cons_self fun n hn =>
        keptByAllocation_grounded.allocates_evaluate rounds d (hitem (hdone.subset hn)) _
    exact ⟨hitem hc, _, hgoes.onMachine hnode (hfilled.onMachine hm₂ hfill).1⟩
  | @body d name args vs a p m m₁ m₂ m₃ _ htrace hargs hname hp hnote ih =>
    obtain ⟨hnode, O, hm⟩ := ih
    have hm₁ := (RunAllocates.onMachine (.traceNode _) hm htrace).1
    have hall : RunAllocates Grounded Settled O [] (fun vs => vs) (args.mapM (evaluate rounds d)) :=
      Allocates.mapM args fun n hn => keptByAllocation_grounded.allocates_evaluate rounds d
        (Node.assignsElement_of_mem_children (n := .funcCall name args) hn hnode) O
    obtain ⟨hm₂, -, hvs⟩ := hall.onMachine hm₁ hargs
    obtain ⟨hm₃, hkept, -⟩ := RunAllocates.onMachine (.trace _) hm₂ hnote
    have hframe (x : String) (v : Value) (hv : (OrderedTable.ofList (p.params.zip vs)).find? x = some v) :
        Settled O m₃.store v :=
      hkept v (hvs v (KeptByAllocation.mem_of_find?_zip hv))
    exact ⟨hm₂.assignless p ⟨name, a, hname, hp⟩, O, hm₃.store, hframe, hm₃.assignless⟩

/-- In a sound state being in a container is well founded, and is so when the node has been evaluated. -/
theorem Sound.wellFounded {node : Node} {m : Machine} (h : Sound node m) :
    WellFounded m.store.IsIn ∧ WellFounded (after (evaluate rounds d node) m).store.IsIn := by
  obtain ⟨hnode, O, hm⟩ := h
  have heval := keptByAllocation_grounded.allocates_evaluate rounds d hnode O
  exact ⟨hm.store.wellFounded, (heval.onMachine_after hm fun _ hv => absurd hv List.not_mem_nil).store.wellFounded⟩

theorem sound_start {tree : Node} (htree : tree.assignsElement = false) (toLoad : List String) (files : Files)
    (output : List Output) (nextTemporary : Nat) (debug : Bool) :
    Sound tree { toLoad, files, output, nextTemporary, debug } := by
  have hempty {x y : Value} : ¬ Store.IsIn {} x y := by
    intro h
    cases y with
    | array a => exact absurd h (Array.not_mem_empty x)
    | hash a =>
      obtain ⟨e, he, -⟩ := h
      exact absurd he List.not_mem_nil
    | _ => exact h
  have hwf : WellFounded (Store.IsIn {}) := ⟨fun v => ⟨v, fun x hx => (hempty hx).elim⟩⟩
  refine ⟨htree, [], ⟨hwf, fun x y h => (hempty h).elim, fun a ha => ?_, List.nodup_nil⟩, fun x v hv => ?_, ?_⟩
  · exact absurd ha List.not_mem_nil
  · cases hv
  · rintro p ⟨f, a, -, ha⟩
    cases ha

end

/-- At every moment of a run of a tree without assignments to elements on a fresh machine, before and after the evaluation of
every node and however deep in calls, no array and no hash contains itself, and the recursions that write a value, make its
fingerprint or compare it end. -/
theorem no_container_contains_itself (rounds depth : Nat) {tree : Node} (htree : tree.assignsElement = false)
    (toLoad : List String) (files : Files) (output : List Output) (nextTemporary : Nat) (debug : Bool) :
    ∀ d node m, Moment rounds depth tree { toLoad, files, output, nextTemporary, debug } d node m →
      (m.store.Acyclic ∧ m.store.Finishes) ∧
        (after (evaluate rounds d node) m).store.Acyclic ∧ (after (evaluate rounds d node) m).store.Finishes := by
  intro d node m h
  obtain ⟨hbefore, hafter⟩ := (h.sound (sound_start htree toLoad files output nextTemporary debug)).wellFounded
  exact ⟨⟨Store.acyclic_of_wellFounded hbefore, Store.finishes_of_wellFounded hbefore⟩,
    Store.acyclic_of_wellFounded hafter, Store.finishes_of_wellFounded hafter⟩

/-- A function that calls itself and puts what it gets into arrays and hashes. -/
theorem recursion_builds_no_cycle :
    let source := "def f(n)\n  if n < 1\n    [n]\n  else\n    [\x7bn => f(n - 1)\x7d]\n  end\nend\nx = f(2)"
    ∃ tree next, Syntax.parseProgram source Syntax.anonymous [] 1 = .ok (tree, next) ∧ tree.assignsElement = false ∧
      ∀ d node m, Moment 9 50 tree {} d node m →
        (m.store.Acyclic ∧ m.store.Finishes) ∧
          (after (evaluate 9 d node) m).store.Acyclic ∧ (after (evaluate 9 d node) m).store.Finishes := by
  intro source
  have hchecks : (match Syntax.parseProgram source Syntax.anonymous [] 1 with
    | .ok (t, _) => !t.assignsElement
    | .error _ => false) = true := by decide +kernel
  split at hchecks
  · next tree next hparse =>
    have htree : tree.assignsElement = false := by simpa using hchecks
    exact ⟨tree, next, hparse, htree, no_container_contains_itself 9 50 htree [] {} [] 1 false⟩
  · cases hchecks

end MinRuby
