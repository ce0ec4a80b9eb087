import MinRuby.Proofs.OrderedTable
import MinRuby.Proofs.Run.Lockstep
import MinRuby.Proofs.Run.Upkeep
import MinRuby.Proofs.Value.Content

/-!
# Building values

`Content.node` is the tree of the literal for a content. Evaluated on any machine it gives a value with that
content, in arrays and hashes of its own: all that the store held before stays as it is.

* `Content.builds_node` — the value of the tree of a content.
-/

namespace MinRuby

open Syntax (Node)

namespace Content

mutual

/-- The tree of the literal for a content. -/
def node : Content → Node
  | nil => .lit .null
  | bool b => .lit (.bool b)
  | int n => .lit (.int n)
  | str s => .lit (.str s)
  | array items => .aryNew (itemNodes items)
  | hash entries => .hashNew (entryNodes entries)
termination_by structural c => c

/-- The trees of the elements of an array. -/
def itemNodes : List Content → List Node
  | [] => []
  | c :: rest => c.node :: itemNodes rest
termination_by structural l => l

/-- The trees of the keys and values of a hash in turn. -/
def entryNodes : List (Content × Content) → List Node
  | [] => []
  | (k, v) :: rest => k.node :: v.node :: entryNodes rest
termination_by structural l => l

end

end Content

/-- The step gives a value with the content, in new places of the store. -/
def Builds (x : Eval Value) (c : Content) : Prop :=
  ∀ m, ∃ w m', x m = .ok w m' ∧ m.store.Extends m'.store ∧ c.IsOf Eq m'.store m.store.hashes.size w

/-- Reaching a node leaves the store as it is. -/
theorem builds_traceNode {node : Node} {tag : String} {x : Eval Value} {c : Content} (htag : node.tag = .str tag)
    (h : Builds x c) : Builds (do Eval.traceNode node; x) c := by
  intro m
  rw [traceNode_eq_trace htag, run_trace_bind]
  exact h _

theorem builds_of_store {step : StoreM Value} {c : Content}
    (h : ∀ s, ∃ w s', step s = .ok w s' ∧ s.Extends s' ∧ c.IsOf Eq s' s.hashes.size w) :
    Builds (Eval.onStore step) c := by
  intro m
  obtain ⟨w, s', hrun, hext, hw⟩ := h m.store
  refine ⟨w, { m with store := s' }, ?_, hext, hw⟩
  rw [Eval.onStore, hrun]

theorem builds_lit {rounds d : Nat} {x : Data} {c : Content}
    (h : ∀ s, ∃ w, Value.ofData d x s = .ok w s ∧ c.IsOf Eq s s.hashes.size w) :
    Builds (evaluate rounds (d + 1) (.lit x)) c := by
  rw [evaluate]
  refine builds_traceNode rfl (builds_of_store fun s => ?_)
  obtain ⟨w, hrun, hw⟩ := h s
  exact ⟨w, s, hrun, .refl s, hw⟩

namespace Content

variable {rounds : Nat} {s : Store} {low : Address}

/-- An entry stored under a new key comes last. -/
theorem EntriesAreOf.append : ∀ {cs cs' : List (Content × Content)} {es es' : List (Key × Entry)},
    EntriesAreOf Eq s low cs es → EntriesAreOf Eq s low cs' es' → EntriesAreOf Eq s low (cs ++ cs') (es ++ es')
  | [], _, [], _, _, h' => h'
  | (_, _) :: _, _, _ :: _, _, h, h' => ⟨h.1, h.2.1, h.2.2.1, EntriesAreOf.append h.2.2.2 h'⟩
  | [], _, _ :: _, _, h, _ => h.elim
  | _ :: _, _, [], _, h, _ => h.elim

/-- A new entry of a hash. -/
theorem run_assign {d : Nat} {a : Address} {k v : Value} {c : Content} (hk : c.IsOf Eq s low k) (hd : c.height ≤ d) :
    Value.assign d (.hash a) k v s = .ok () (s.updateHash a (·.insert c.key ⟨k, v⟩)) :=
  Value.assign_of_fingerprint (IsOf.fingerprint_eq hk hd)

/-- The store after one more entry of the hash at `a`. -/
theorem EntriesAreOf.store {s' : Store} {a : Address} {done : List (Content × Content)} {k v : Content} {x y : Value}
    (hdone : EntriesAreOf Eq s (a + 1) done (s.hash a).entries) (ha : a < s.hashes.size) (hext : s.Extends s')
    (hnew : ∀ c ∈ done, Key.same c.1.key k.key = false) (hx : k.IsOf Eq s' (a + 1) x) (hy : v.IsOf Eq s' (a + 1) y) :
    EntriesAreOf Eq (s'.updateHash a (·.insert k.key ⟨x, y⟩)) (a + 1) (done ++ [(k, v)])
      ((s'.updateHash a (·.insert k.key ⟨x, y⟩)).hash a).entries := by
  have habove (b : Address) (hb : a + 1 ≤ b) : b ≠ a := Nat.ne_of_gt hb
  have hstore : s'.Grows (· ≠ a) (s'.updateHash a (·.insert k.key ⟨x, y⟩)) := .updateHash s' a _
  have hold : ∀ p ∈ (s.hash a).entries, Key.same k.key p.1 = false := by
    intro p hp
    obtain ⟨c, hc, hkey⟩ := List.mem_map.mp (hdone.keys_eq ▸ List.mem_map_of_mem hp)
    exact same_eq_false_symm (hkey ▸ hnew c hc)
  have hentries : ((s'.updateHash a (·.insert k.key ⟨x, y⟩)).hash a).entries =
      (s.hash a).entries ++ [(k.key, ⟨x, y⟩)] := by
    rw [Store.hash_updateHash (Nat.lt_of_lt_of_le ha hext.hashes_le), hext.hash_eq a ha trivial]
    exact OrderedTable.insertInto_of_new hold
  rw [hentries]
  refine EntriesAreOf.append ?_ ⟨rfl, hx.grows hstore habove (Nat.le_refl _), hy.grows hstore habove (Nat.le_refl _), trivial⟩
  have hkept := hdone.grows hext (fun _ _ => trivial) (Nat.le_refl _)
  exact hkept.grows hstore habove (Nat.le_refl _)

/-- The entries of a hash are stored one after the other; nothing but the hash itself changes. -/
theorem run_fillHash {d : Nat} {eval : Node → Eval Value} {a : Address} :
    ∀ {cs : List (Content × Content)} (done : List (Content × Content)) {m : Machine},
      (∀ c ∈ cs, Builds (eval c.1.node) c.1 ∧ Builds (eval c.2.node) c.2) → (∀ c ∈ cs, c.1.height ≤ d) →
      (done ++ cs).Pairwise (fun e e' => Key.same e.1.key e'.1.key = false) → a < m.store.hashes.size →
      EntriesAreOf Eq m.store (a + 1) done (m.store.hash a).entries →
      ∃ m', Eval.fillHash d (.hash a) eval (entryNodes cs) m = .ok () m' ∧ m.store.Grows (· ≠ a) m'.store ∧
        EntriesAreOf Eq m'.store (a + 1) (done ++ cs) (m'.store.hash a).entries
  | [], done, m, _, _, _, _, hdone => ⟨m, rfl, .refl _, by rwa [List.append_nil]⟩
  | (k, v) :: cs, done, m, heval, hd, hne, ha, hdone => by
    obtain ⟨hk, hv⟩ := heval (k, v) List.mem_cons_self
    obtain ⟨x, m₁, hrun₁, hext₁, hx⟩ := hk m
    obtain ⟨y, m₂, hrun₂, hext₂, hy⟩ := hv m₁
    have hext := hext₁.trans hext₂
    have hx₂ := hx.grows hext₂ (fun _ _ => trivial) (Nat.le_refl _)
    let m₃ : Machine := { m₂ with store := m₂.store.updateHash a (·.insert k.key ⟨x, y⟩) }
    have hrun₃ : Eval.onStore (Value.assign d (.hash a) x y) m₂ = .ok () m₃ := by
      rw [Eval.onStore, run_assign hx₂ (hd (k, v) List.mem_cons_self)]
    have hgrows : m.store.Grows (· ≠ a) m₃.store :=
      (hext.mono fun _ _ _ => trivial).trans (.updateHash m₂.store a _)
    have hstored : EntriesAreOf Eq m₃.store (a + 1) (done ++ [(k, v)]) (m₃.store.hash a).entries :=
      hdone.store ha hext (fun c hc => (List.pairwise_append.mp hne).2.2 c hc (k, v) List.mem_cons_self)
        (hx₂.grows (.refl m₂.store) (fun _ _ => trivial) ha)
        (hy.grows (.refl m₂.store) (fun _ _ => trivial) (Nat.le_trans ha hext₁.hashes_le))
    obtain ⟨m', hrun, hgrows', hall⟩ := run_fillHash (done ++ [(k, v)])
      (fun c hc => heval c (List.mem_cons_of_mem _ hc)) (fun c hc => hd c (List.mem_cons_of_mem _ hc))
      (by rwa [List.append_assoc]) (Nat.lt_of_lt_of_le ha hgrows.hashes_le) hstored
    refine ⟨m', ?_, hgrows.trans hgrows', by rwa [List.append_assoc] at hall⟩
    show (do
      let k' ← eval k.node
      let v' ← eval v.node
      Eval.onStore (Value.assign d (.hash a) k' v')
      Eval.fillHash d (.hash a) eval (entryNodes cs)) m = _
    rw [run_bind hrun₁, run_bind hrun₂, run_bind hrun₃, hrun]

/-- An array is stored behind its elements. -/
theorem builds_array {items : List Content} {d : Nat}
    (hitems : ∀ m : Machine, ∃ ws m', (itemNodes items).mapM (evaluate rounds d) m = .ok ws m' ∧
      m.store.Extends m'.store ∧ AreOf Eq m'.store m.store.hashes.size items ws) :
    Builds (evaluate rounds (d + 1) (.aryNew (itemNodes items))) (array items) := by
  rw [evaluate]
  refine builds_traceNode rfl fun m => ?_
  obtain ⟨ws, m₁, hrun, hext, hws⟩ := hitems m
  have hnew : m₁.store.Extends (m₁.store.newArray ws.toArray).2 := .newArray m₁.store ws.toArray
  refine ⟨.array m₁.store.arrays.size, { m₁ with store := (m₁.store.newArray ws.toArray).2 }, ?_, hext.trans hnew, ?_⟩
  · show (do
      let vs ← (itemNodes items).mapM (evaluate rounds d)
      Eval.onStore (modifyGet (·.newArray vs.toArray)) : Eval Value) m = _
    rw [run_bind hrun]
    rfl
  · refine isOf_array.mpr ⟨_, rfl, by simp [Store.newArray], ?_⟩
    have hstored : ((m₁.store.newArray ws.toArray).2.array m₁.store.arrays.size).toList = ws := by
      simp [Store.newArray, Store.array]
    rw [hstored]
    exact hws.grows hnew (fun _ _ => trivial) (Nat.le_refl _)

/-- A hash is stored before its entries are. -/
theorem builds_hash {entries : List (Content × Content)} {d : Nat}
    (hne : entries.Pairwise (fun e e' => Key.same e.1.key e'.1.key = false))
    (heval : ∀ c ∈ entries, Builds (evaluate rounds d c.1.node) c.1 ∧ Builds (evaluate rounds d c.2.node) c.2)
    (hd : ∀ c ∈ entries, c.1.height ≤ d) :
    Builds (evaluate rounds (d + 1) (.hashNew (entryNodes entries))) (hash entries) := by
  rw [evaluate]
  refine builds_traceNode rfl fun m => ?_
  let a := m.store.hashes.size
  let m₁ : Machine := { m with store := (m.store.newHash .empty).2 }
  have hnew : m.store.Extends m₁.store := .newHash m.store .empty
  have hsize : a < m₁.store.hashes.size := by simp [m₁, a, Store.newHash]
  have hempty : (m₁.store.hash a).entries = [] := by simp [m₁, a, Store.newHash, Store.hash, OrderedTable.empty]
  obtain ⟨m', hrun, hgrows, hentries⟩ := run_fillHash [] heval hd hne hsize (by rw [hempty]; trivial)
  refine ⟨.hash a, m', ?_, ?_, ?_⟩
  · show (do
      Eval.fillHash d (.hash a) (evaluate rounds d) (entryNodes entries)
      return Value.hash a) m₁ = _
    rw [run_bind hrun]
    rfl
  · exact hnew.trans_ne hgrows
  · exact isOf_hash.mpr ⟨a, rfl, Nat.le_refl a, Nat.lt_of_lt_of_le hsize hgrows.hashes_le,
      hentries.grows (.refl m'.store) (fun _ _ => trivial) (Nat.le_succ a)⟩

mutual

/-- The tree of a content is evaluated to a value with that content. -/
theorem builds_node : ∀ {c : Content} {d : Nat}, c.Readable → c.height < d → Builds (evaluate rounds d c.node) c
  | _, 0, _, hd => absurd hd (Nat.not_lt_zero _)
  | nil, d + 1, _, _ => builds_lit fun s => ⟨.nil, rfl, isOf_nil.mpr rfl⟩
  | bool b, d + 1, _, _ => builds_lit fun s => ⟨.bool b, rfl, isOf_bool.mpr rfl⟩
  | int n, d + 1, _, _ => builds_lit fun s => ⟨.int n, rfl, isOf_int.mpr rfl⟩
  | str t, d + 1, _, _ => builds_lit fun s => ⟨.str t, rfl, isOf_str.mpr rfl⟩
  | array items, d + 1, hc, hd => builds_array fun _ => run_items hc (Nat.lt_of_succ_lt_succ hd)
  | hash entries, d + 1, hc, hd => by
    have hparts := builds_entryNodes hc.2 (Nat.lt_of_succ_lt_succ hd)
    exact builds_hash hc.1 (fun c h => (hparts c h).1) fun c h => (hparts c h).2

theorem run_items : ∀ {cs : List Content} {d : Nat} {m : Machine}, ReadableAll cs → heightAll cs < d →
    ∃ ws m', (itemNodes cs).mapM (evaluate rounds d) m = .ok ws m' ∧ m.store.Extends m'.store ∧
      AreOf Eq m'.store m.store.hashes.size cs ws
  | [], _, m, _, _ => ⟨[], m, rfl, .refl _, trivial⟩
  | c :: cs, d, m, hc, hd => by
    have hd : max c.height (heightAll cs) < d := hd
    obtain ⟨w, m₁, hrun, hext, hw⟩ := builds_node (d := d) hc.1 (by omega) m
    obtain ⟨ws, m₂, hrun', hext', hws⟩ := run_items (d := d) (m := m₁) hc.2 (by omega)
    refine ⟨w :: ws, m₂, ?_, hext.trans hext', hw.grows hext' (fun _ _ => trivial) (Nat.le_refl _),
      hws.grows (.refl m₂.store) (fun _ _ => trivial) hext.hashes_le⟩
    rw [itemNodes, List.mapM_cons, run_bind hrun, run_bind hrun']
    rfl

theorem builds_entryNodes : ∀ {cs : List (Content × Content)} {d : Nat}, ReadableEntries cs → heightEntries cs < d →
    ∀ c ∈ cs, (Builds (evaluate rounds d c.1.node) c.1 ∧ Builds (evaluate rounds d c.2.node) c.2) ∧ c.1.height ≤ d
  | (k, v) :: cs, d, hc, hd, c, hmem => by
    have hd : max (max k.height v.height) (heightEntries cs) < d := hd
    rcases List.mem_cons.mp hmem with rfl | hmem
    · exact ⟨⟨builds_node hc.1 (by simp only; omega), builds_node hc.2.1 (by simp only; omega)⟩, by simp only; omega⟩
    · exact builds_entryNodes hc.2.2 (by omega) c hmem

end

end Content

end MinRuby
