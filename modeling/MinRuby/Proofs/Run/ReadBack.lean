import MinRuby.Proofs.Run.Building
import MinRuby.Proofs.Syntax.LiteralProgram
import MinRuby.Proofs.Syntax.Vocabulary

/-!
# Values read back

The text of a value is a program, and the value of that program has the same text. It equals the first one
if every entry of a hash in it is filed under the fingerprint that its key has now; a key that was changed
after it was stored is found under the old fingerprint only.

* `Content.builds_runSource` — the run of the text of a content.
* `Content.reads_back` — the value that is read back has the same text, and equals the first one if that is
  filed by content.
* `Content.changed_key_reads_back_unequal` — it does not equal a hash with a changed key.
-/

namespace MinRuby

open Syntax (Node)

namespace Content

/-! ## The tree of a text -/

mutual

/-- No temporaries are needed for a literal. -/
theorem desugar_term : ∀ c : Content, c.term.desugar = (pure c.node : Syntax.Fresh Node)
  | nil => rfl
  | bool _ => rfl
  | int (.ofNat _) => rfl
  | int (.negSucc _) => rfl
  | str _ => rfl
  | array items => by
    rw [term, Syntax.Term.desugar, desugarAll_itemTerms items]
    rfl
  | hash entries => by
    rw [term, Syntax.Term.desugar, desugarAll_entryTerms entries]
    rfl

theorem desugarAll_itemTerms : ∀ cs : List Content,
    Syntax.desugarAll (itemTerms cs) = (pure (itemNodes cs) : Syntax.Fresh (List Node))
  | [] => rfl
  | c :: cs => by
    rw [itemTerms, Syntax.desugarAll, desugar_term c, desugarAll_itemTerms cs]
    rfl

theorem desugarAll_entryTerms : ∀ es : List (Content × Content),
    Syntax.desugarAll (entryTerms es) = (pure (entryNodes es) : Syntax.Fresh (List Node))
  | [] => rfl
  | (k, v) :: es => by
    rw [entryTerms, Syntax.desugarAll, Syntax.desugarAll, desugar_term k, desugar_term v, desugarAll_entryTerms es]
    rfl

end

mutual

/-- There are no names in a literal. -/
theorem resolve_node : ∀ c : Content, c.node.resolve = (pure c.node : Syntax.Scoped Node)
  | nil => rfl
  | bool _ => rfl
  | int _ => rfl
  | str _ => rfl
  | array items => by
    rw [node, Node.resolve, resolveAll_itemNodes items]
    rfl
  | hash entries => by
    rw [node, Node.resolve, resolveAll_entryNodes entries]
    rfl

theorem resolveAll_itemNodes : ∀ cs : List Content,
    Node.resolveAll (itemNodes cs) = (pure (itemNodes cs) : Syntax.Scoped (List Node))
  | [] => rfl
  | c :: cs => by
    rw [itemNodes, Node.resolveAll, resolve_node c, resolveAll_itemNodes cs]
    rfl

theorem resolveAll_entryNodes : ∀ es : List (Content × Content),
    Node.resolveAll (entryNodes es) = (pure (entryNodes es) : Syntax.Scoped (List Node))
  | [] => rfl
  | (k, v) :: es => by
    rw [entryNodes, Node.resolveAll, Node.resolveAll, resolve_node k, resolve_node v, resolveAll_entryNodes es]
    rfl

end

/-- The tree of the program that consists of the text of a content. -/
theorem parseProgram_text {c : Content} (hc : c.Readable) (filename : String) (known : List String) (counter : Nat) :
    Syntax.parseProgram (String.ofList c.text) filename known counter = .ok (.stmts [c.node], counter) := by
  have hdesugar : (Syntax.Term.block [c.term]).desugar = (pure (.stmts [c.node]) : Syntax.Fresh Node) := by
    rw [Syntax.Term.desugar, Syntax.desugarAll, Syntax.desugarAll, desugar_term c]
    rfl
  have hresolve : (Node.stmts [c.node]).resolve = (pure (.stmts [c.node]) : Syntax.Scoped Node) := by
    rw [Node.resolve, Node.resolveAll, Node.resolveAll, resolve_node c]
    rfl
  have hrun : (Syntax.Term.block [c.term]).desugar.run counter = (Node.stmts [c.node], counter) := by
    rw [hdesugar]
    rfl
  rw [Syntax.parseProgram_of_readProgram (readProgram_text hc filename), hrun, hresolve]
  rfl

end Content

/-! ## The run of a text -/

/-- Parsing leaves the store as it is. -/
theorem run_parseProgram {source filename : String} {known : List String} {tree : Node} {next : Nat} {m : Machine}
    (h : Syntax.parseProgram source filename known (if m.debug then 1 else m.nextTemporary) = .ok (tree, next)) :
    ∃ m', Eval.parseProgram source filename known m = .ok tree m' ∧ m'.store = m.store := by
  let counter := if m.debug then 1 else m.nextTemporary
  have hlift : (Syntax.parseProgram source filename known counter : Eval (Node × Nat)) m = .ok (tree, next) m := by
    rw [h]
    rfl
  rw [Eval.parseProgram, run_get_bind, run_bind hlift]
  by_cases hdebug : m.debug = true
  · have hnote : (do Eval.trace (parsedNote tree filename); return tree : Eval Node) m =
        .ok tree { m with output := .traced (parsedNote tree filename ++ "\n") :: m.output } := by
      rw [run_trace_bind, if_pos hdebug]
      rfl
    exact ⟨_, (congrFun (if_pos hdebug) m).trans hnote, rfl⟩
  · exact ⟨{ m with nextTemporary := next }, congrFun (if_neg hdebug) m, rfl⟩

namespace Content

variable {c : Content} {filed : Key → Key → Prop} {m : Machine} {v : Value} {budget : Budget}

/-- The program that consists of the text of a content gives a value with that content. -/
theorem builds_runSource (hc : c.Readable) (hd : c.height + 2 ≤ budget.depth) (filename : String) :
    Builds (runSource budget (String.ofList c.text) filename) c := by
  intro m
  obtain ⟨d, hdepth⟩ : ∃ d, budget.depth = d + 1 := ⟨budget.depth - 1, by omega⟩
  obtain ⟨m₁, hparse, hstore⟩ := run_parseProgram (parseProgram_text hc filename m.frame.keys _)
  have hnode : Builds (evaluate budget.rounds d c.node) c := builds_node hc (by omega)
  have hstatement : Builds (evaluate budget.rounds (d + 1) (.stmts [c.node])) c := by
    rw [evaluate]
    refine builds_traceNode rfl fun m₂ => ?_
    obtain ⟨w, m₃, hrun, hvalue⟩ := hnode m₂
    refine ⟨w, m₃, ?_, hvalue⟩
    rw [List.foldlM_cons, run_bind hrun]
    rfl
  obtain ⟨w, m', hrun, hext, hw⟩ := hstatement m₁
  rw [hstore] at hext hw
  refine ⟨w, m', ?_, hext, hw⟩
  rw [runSource, run_get_bind, run_bind hparse, evaluateIn, hdepth, hrun]

/-- The text of a value is a program. Its value has the same text, and it equals the first one if the hashes of
that are filed by content. -/
theorem reads_back (hv : c.IsOf (fun _ _ => True) m.store 0 v) (hc : c.Readable)
    (hd : c.height + 2 ≤ budget.depth) (filename : String) :
    ∃ text w m', v.inspect m.store budget.depth = .ok text ∧ runSource budget text filename m = .ok w m' ∧
      v.inspect m'.store budget.depth = .ok text ∧ w.inspect m'.store budget.depth = .ok text ∧
      (c.IsOf Eq m.store 0 v → v.equal m'.store budget.depth w = .ok true) := by
  obtain ⟨w, m', hrun, hext, hw⟩ := builds_runSource hc hd filename m
  have hheight : c.height ≤ budget.depth := by omega
  refine ⟨String.ofList c.text, w, m', hv.inspect_eq hc hheight, hrun, ?_, hw.inspect_eq hc hheight, fun hfiled => ?_⟩
  · exact (hv.grows hext (fun _ _ => trivial) (Nat.le_refl 0)).inspect_eq hc hheight
  · exact (hfiled.grows hext (fun _ _ => trivial) (Nat.le_refl 0)).equal_eq hw hc hheight

/-- Integers with a sign, escapes and nested literals. -/
theorem hash_of_array_reads_back :
    let s : Store := { arrays := #[#[.int (-7), .str "\"\\#\n\t"]], hashes := #[⟨[(.str "k", ⟨.str "k", .array 0⟩)]⟩] }
    ∃ text w m', (Value.hash 0).inspect s 9 = .ok text ∧
      runSource ⟨9, 9⟩ text Syntax.anonymous { store := s } = .ok w m' ∧
      (Value.hash 0).inspect m'.store 9 = .ok text ∧ w.inspect m'.store 9 = .ok text ∧
      (Value.hash 0).equal m'.store 9 w = .ok true := by
  intro s
  let c : Content := .hash [(.str "k", .array [.int (-7), .str "\"\\#\n\t"])]
  have hv : c.IsOf (fun _ _ => True) s 0 (.hash 0) :=
    ⟨Nat.le_refl 0, by decide, trivial, rfl, ⟨by decide, rfl, rfl, trivial⟩, trivial⟩
  have hfiled : c.IsOf Eq s 0 (.hash 0) :=
    ⟨Nat.le_refl 0, by decide, rfl, rfl, ⟨by decide, rfl, rfl, trivial⟩, trivial⟩
  have hshort : isLongNumeral (-7) = false := by decide +kernel
  have hc : c.Readable := ⟨List.pairwise_singleton _ _, trivial, ⟨hshort, trivial, trivial⟩, trivial⟩
  have hd : c.height + 2 ≤ (⟨9, 9⟩ : Budget).depth := by decide
  obtain ⟨text, w, m', htext, hrun, hsame, hback, hequal⟩ :=
    reads_back (m := { store := s }) hv hc hd Syntax.anonymous
  exact ⟨text, w, m', htext, hrun, hsame, hback, hequal hfiled⟩

/-- A hash with an entry under a fingerprint that none of its keys has now is not equal to the value that is
read back. -/
theorem changed_key_reads_back_unequal {entries : List (Content × Content)} {a : Address} {k : Key}
    (hv : (hash entries).IsOf (fun _ _ => True) m.store 0 (.hash a)) (hc : (hash entries).Readable)
    (hd : (hash entries).height + 2 ≤ budget.depth) (hk : k ∈ (m.store.hash a).keys)
    (hchanged : ∀ e ∈ entries, Key.same e.1.key k = false) (filename : String) :
    ∃ text w m', (Value.hash a).inspect m.store budget.depth = .ok text ∧
      runSource budget text filename m = .ok w m' ∧ (Value.hash a).equal m'.store budget.depth w = .ok false := by
  obtain ⟨w, m', hrun, hext, hw⟩ := builds_runSource hc hd filename m
  refine ⟨String.ofList (hash entries).text, w, m', hv.inspect_eq hc (by omega), hrun, ?_⟩
  obtain ⟨b, rfl, -, -, hentries⟩ := isOf_hash.mp hw
  obtain ⟨a', ha', -, hsize, -⟩ := isOf_hash.mp hv
  obtain rfl : a = a' := by injection ha'
  obtain ⟨d, hdepth⟩ : ∃ d, budget.depth = d + 1 := ⟨budget.depth - 1, by omega⟩
  have hmissing : (m'.store.hash b).contains k = false := by
    refine List.any_eq_false.mpr fun p hp => ?_
    obtain ⟨e, he, hkey⟩ := List.mem_map.mp (hentries.keys_eq ▸ List.mem_map_of_mem hp)
    have hne : (p.1 == k) = false := hkey ▸ hchanged e he
    rw [hne]
    exact Bool.false_ne_true
  have hkeys : ¬ (m'.store.hash a).keys.all (m'.store.hash b).contains = true := by
    rw [hext.hash_eq a hsize trivial]
    exact fun hall => Bool.false_ne_true (hmissing.symm.trans (List.all_eq_true.mp hall k hk))
  rw [hdepth, Value.equal, if_neg fun h => hkeys h.2]

/-- The key was stored as an array of one and holds two now. -/
theorem hash_of_changed_array_reads_back_unequal :
    let s : Store := { arrays := #[#[.int 2]], hashes := #[⟨[(.array [.int 1], ⟨.array 0, .int 1⟩)]⟩] }
    let c : Content := .hash [(.array [.int 2], .int 1)]
    c.IsOf (fun _ _ => True) s 0 (.hash 0) ∧ c.Readable ∧
      ∃ text w m', (Value.hash 0).inspect s 8 = .ok text ∧
        runSource ⟨8, 8⟩ text Syntax.anonymous { store := s } = .ok w m' ∧
        (Value.hash 0).equal m'.store 8 w = .ok false := by
  intro s c
  have hv : c.IsOf (fun _ _ => True) s 0 (.hash 0) :=
    ⟨Nat.le_refl 0, by decide, trivial, ⟨by decide, rfl, trivial⟩, rfl, trivial⟩
  have hshort : ∀ n ∈ [1, 2], isLongNumeral n = false := by decide +kernel
  have hc : c.Readable :=
    ⟨List.pairwise_singleton _ _, ⟨hshort 2 (by decide), trivial⟩, hshort 1 (by decide), trivial⟩
  have hd : c.height + 2 ≤ (⟨8, 8⟩ : Budget).depth := by decide
  have hk : Key.array [.int 1] ∈ (s.hash 0).keys := by simp [s, Store.hash, OrderedTable.keys]
  have hchanged : ∀ e ∈ [((array [int 2], int 1) : Content × Content)], Key.same e.1.key (.array [.int 1]) = false := by
    decide
  exact ⟨hv, hc, changed_key_reads_back_unequal (m := { store := s }) hv hc hd hk hchanged Syntax.anonymous⟩

end Content

end MinRuby
