import MinRuby.Proofs.Syntax.Cut
import MinRuby.Proofs.Syntax.TextEnd

/-!
# Reading beyond a break

What a phrase reads in a text that breaks off it reads in the longer text too, provided that it stops before something
with which it could not have gone on. One rule for each way to put parsers together carries this from the parts of a
phrase to the phrase, and the grammar is gone through once.

* `Keeps.bind`, `Keeps.many` — the rules: what follows a part is what the next part can start with.
* `Keeps.optional` — a part that may be missing, if it is missing in the longer text too.
-/

namespace MinRuby.Syntax

open MinRuby.Syntax.Parser

namespace Parser

variable {α β : Type} {x y : List Char} {n : Nat} {p q : Parser α} {f : α → Parser β} {F : α → Cursor → Prop}
  {G : β → Cursor → Prop} {K K' : List Lead} {c : Cursor}

/-! ## Rules -/

/-- The parser gives up, or reads something that is followed as it should be. -/
def Continues (p : Parser α) (F : α → Cursor → Prop) (c : Cursor) : Prop :=
  match p c with
  | .done a c' => F a c'
  | .fail => False
  | .giveUp _ => True

namespace Continues

theorem ne_fail (h : Continues p F c) : p c ≠ .fail := fun hfail => by
  rw [Continues, hfail] at h
  exact h

theorem lead (h : Continues p F c) (hp : LedBy p K) : c.lead ∈ K := hp c h.ne_fail

theorem mono {F' : α → Cursor → Prop} (h : Continues p F c) (hF : ∀ a c, F a c → F' a c) : Continues p F' c := by
  unfold Continues at h ⊢
  cases hp : p c with
  | done a c' =>
    rw [hp] at h
    exact hF a c' h
  | fail =>
    rw [hp] at h
    exact h
  | giveUp r => trivial

theorem of_done {a : α} {c' : Cursor} (h : Continues p F c) (hp : p c = .done a c') : F a c' := by
  rw [Continues, hp] at h
  exact h

theorem left (h : Continues (p <|> q) F c) (hp : p c ≠ .fail) : Continues p F c := by
  cases hread : p c with
  | done a c' =>
    rw [Continues, orElse_of_done hread] at h
    rwa [Continues, hread]
  | fail => exact absurd hread hp
  | giveUp r =>
    rw [Continues, hread]
    trivial

theorem right (h : Continues (p <|> q) F c) (hp : p c = .fail) : Continues q F c := by
  rwa [Continues, orElse_of_fail hp] at h

/-- Where rounds go on, there is a further round or what follows the last one. -/
theorem of_many {G : Cursor → Prop} (h : Continues (many p) (fun _ => G) c) : p c ≠ .fail ∨ G c := by
  by_cases hfail : p c = .fail
  · exact .inr (h.of_done (many_of_fail hfail))
  · exact .inl hfail

end Continues

theorem continues_bind : Continues (p >>= f) G c ↔ Continues p (fun a => Continues (f a) G) c := by
  unfold Continues
  cases hp : p c with
  | done a c' => rw [bind_of_done hp]
  | fail => rw [bind_of_fail hp]
  | giveUp r => rw [bind_of_giveUp hp]

/-- What does not fail goes on behind its first part. -/
theorem continues_of_ne_fail (h : (p >>= f) c ≠ .fail) : Continues p (fun a c' => f a c' ≠ .fail) c := by
  unfold Continues
  cases hp : p c with
  | done a c' => rwa [bind_of_done hp] at h
  | fail => exact h (bind_of_fail hp)
  | giveUp r => trivial

/-- In front of fewer than `n` characters the parser does the same in both texts, if in the shorter one it reads
something that is followed as it should be. -/
structure Keeps (x y : List Char) (n : Nat) (p : Parser α) (F : α → Cursor → Prop) : Prop where
  reads : ReadsPrefix p
  same : ∀ c : Cursor, c.rest.length < n → Continues p F (c.append x) → SameAt x y p c

/-- What is left behind a parser is no longer than what it has started with. -/
theorem length_le_of_reads (hp : ReadsPrefix p) {a : α} {c' : Cursor} (h : p (c.append x) = .done a (c'.append x)) :
    c'.rest.length ≤ c.rest.length := by
  obtain ⟨w, hw, -⟩ := hp _ _ _ h
  have hlength := congrArg List.length hw
  simp only [Cursor.rest_append, List.length_append] at hlength
  omega

theorem length_lt_of_takes (hp : Takes p) {a : α} {c' : Cursor} (h : p (c.append x) = .done a (c'.append x)) :
    c'.rest.length < c.rest.length := by
  obtain ⟨w, hw, hne⟩ := hp _ _ _ h
  have hlength := congrArg List.length hw
  have hpos := List.length_pos_iff.mpr hne
  simp only [Cursor.rest_append, List.length_append] at hlength
  omega

namespace Keeps

theorem of_token (hp : ReadsPrefix p) (h : ∀ c : Cursor, p (c.append x) ≠ .fail → SameAt x y p c) : Keeps x y n p F :=
  ⟨hp, fun c _ hc => h c hc.ne_fail⟩

theorem mono {F' : α → Cursor → Prop} (h : Keeps x y n p F) (hF : ∀ a c, F' a c → F a c) : Keeps x y n p F' :=
  ⟨h.reads, fun c hc hp => h.same c hc (hp.mono hF)⟩

theorem pred (h : Keeps x y (n + 1) p F) : Keeps x y n p F :=
  ⟨h.reads, fun c hc => h.same c (Nat.lt_succ_of_lt hc)⟩

theorem pure (a : α) : Keeps x y n (Pure.pure a) F := ⟨Reads.pure trivial, fun _ _ _ => .pure a⟩

/-- What a part needs behind it is what the next part can go on with. -/
theorem bind (hp : Keeps x y n p F) (hf : ∀ a, Keeps x y n (f a) G) (hF : ∀ a c, Continues (f a) G c → F a c) :
    Keeps x y n (p >>= f) G where
  reads := readsPrefix_bind hp.reads fun a => (hf a).reads
  same c hc h := by
    have h := continues_bind.mp h
    refine (hp.same c hc (h.mono hF)).bind fun a c' hc' => ?_
    exact (hf a).same c' (Nat.lt_of_le_of_lt (length_le_of_reads hp.reads hc') hc) (h.of_done hc')

/-- What stands behind a token is shorter. -/
theorem token (ht : Takes p) (hp : Keeps x y (n + 1) p F) (hf : ∀ a, Keeps x y n (f a) G)
    (hF : ∀ a c, Continues (f a) G c → F a c) : Keeps x y (n + 1) (p >>= f) G where
  reads := readsPrefix_bind hp.reads fun a => (hf a).reads
  same c hc h := by
    have h := continues_bind.mp h
    refine (hp.same c hc (h.mono hF)).bind fun a c' hc' => ?_
    exact (hf a).same c' (Nat.lt_of_lt_of_le (length_lt_of_takes ht hc') (Nat.le_of_lt_succ hc)) (h.of_done hc')

/-- A part that needs nothing behind it. -/
theorem andThen (hp : Keeps x y n p fun _ _ => True) (hf : ∀ a, Keeps x y n (f a) G) : Keeps x y n (p >>= f) G :=
  hp.bind hf fun _ _ _ => trivial

/-- A token that needs nothing behind it. -/
theorem tokenThen (ht : Takes p) (hp : Keeps x y (n + 1) p fun _ _ => True) (hf : ∀ a, Keeps x y n (f a) G) :
    Keeps x y (n + 1) (p >>= f) G :=
  .token ht hp hf fun _ _ _ => trivial

/-- What is made of what is read needs behind it what the reading needs. -/
theorem map {G : Cursor → Prop} (hp : Keeps x y n p fun _ => G) (g : α → β) :
    Keeps x y n (do let a ← p; return g a) fun _ => G :=
  hp.bind (fun _ => .pure _) fun _ _ h => h

/-- One of two parsers that start differently. -/
theorem orElse (hcut : Cut x y) (hp : Keeps x y n p F) (hq : Keeps x y n q F) (lp : LedBy p K) (lq : LedBy q K')
    (hbars : Lead.bars K' K = true) : Keeps x y n (p <|> q) F where
  reads := Reads.orElse hp.reads hq.reads
  same c hc h := by
    by_cases hread : p (c.append x) = .fail
    · have hsecond := h.right hread
      refine SameAt.orElse ?_ fun _ => hq.same c hc hsecond
      rw [SameAt, hread, lp.fails_beyond hcut (hsecond.lead lq) hbars]
      exact .fail
    · exact (hp.same c hc (h.left hread)).orElse fun hfail => absurd hfail hread

/-- The same, what the parsers start with kept for a further alternative. -/
theorem alternative (hcut : Cut x y) (hp : Keeps x y n p F) (lp : LedBy p K) (hq : Keeps x y n q F ∧ LedBy q K')
    (hbars : Lead.bars K' K = true) : Keeps x y n (p <|> q) F ∧ LedBy (p <|> q) (K ++ K') :=
  ⟨orElse hcut hp hq.1 lp hq.2 hbars, lp.orElse hq.2⟩

/-- Something that may be missing: where it is, it is not found in the longer text either. -/
theorem optional {F : Option α → Cursor → Prop} (hp : Keeps x y n p fun a => F (some a))
    (hstop : ∀ c : Cursor, p (c.append x) = .fail → F none (c.append x) → p (c.append y) = .fail) :
    Keeps x y n (Parser.optional p) F where
  reads := reads_optional hp.reads
  same c hc h := by
    cases hdone : p (c.append x) with
    | done a c' =>
      refine (hp.same c hc ?_).optional
      rw [Continues, optional_of_done hdone] at h
      rwa [Continues, hdone]
    | fail =>
      refine SameAt.optional ?_
      rw [Continues, optional_of_fail hdone] at h
      rw [SameAt, hdone, hstop c hdone h]
      exact .fail
    | giveUp r =>
      refine (hp.same c hc ?_).optional
      rw [Continues, hdone]
      trivial

/-- What does not follow is not looked for beyond the break. -/
theorem notAhead {f : Unit → Parser β} (hg : ∀ c r, p c ≠ .giveUp r) (hf : Keeps x y n (f ()) G)
    (hp : ∀ c : Cursor, Continues (f ()) G (c.append x) → SameAt x y p c) : Keeps x y n (Parser.notAhead p >>= f) G where
  reads := readsPrefix_bind reads_notAhead fun _ => hf.reads
  same c hc h := by
    cases hdone : p (c.append x) with
    | done a c' =>
      rw [Continues, bind_of_fail (notAhead_of_done hdone)] at h
      exact h.elim
    | fail =>
      have hnext : Continues (f ()) G (c.append x) := by
        rwa [Continues, bind_of_done (notAhead_of_fail hdone)] at h
      exact (hp c hnext).notAhead_bind fun _ => hf.same c hc hnext
    | giveUp r => exact absurd hdone (hg _ r)

/-- What stands behind a token that may be missing is shorter if the token is there. -/
theorem optionalToken {f : Option α → Parser β} (ht : Takes p) (hp : Keeps x y (n + 1) p F)
    (hnone : Keeps x y (n + 1) (f none) G) (hsome : ∀ a, Keeps x y n (f (some a)) G)
    (hF : ∀ a c, Continues (f (some a)) G c → F a c)
    (hstop : ∀ c : Cursor, p (c.append x) = .fail → Continues (f none) G (c.append x) → p (c.append y) = .fail) :
    Keeps x y (n + 1) (Parser.optional p >>= f) G where
  reads := readsPrefix_bind (reads_optional hp.reads) fun a? => by
    cases a? with
    | none => exact hnone.reads
    | some a => exact (hsome a).reads
  same c hc h := by
    have hboth : Keeps x y (n + 1) (Parser.optional p) fun a? => match a? with
        | none => Continues (f none) G
        | some a => F a := hp.optional hstop
    have h := continues_bind.mp h
    refine (hboth.same c hc (h.mono fun a? c' hc' => ?_)).bind fun a? c' hc' => ?_
    · cases a? with
      | none => exact hc'
      | some a => exact hF a c' hc'
    · have hnext := h.of_done hc'
      cases a? with
      | none => exact hnone.same c' (Nat.lt_of_le_of_lt (length_le_of_reads (reads_optional hp.reads) hc') hc) hnext
      | some a =>
        refine (hsome a).same c' ?_ hnext
        have hdone : p (c.append x) = .done a (c'.append x) := by
          unfold Parser.optional at hc'
          split at hc'
          · next hdone =>
            obtain ⟨ha, hcursor⟩ := Reply.done.inj hc'
            rw [hdone, Option.some.inj ha, hcursor]
          · cases hc'
          · cases hc'
        have hlength := length_lt_of_takes ht hdone
        omega

/-- Rounds that read something, where each may be followed by the next one or by what follows the last one. -/
theorem upTo {F : α → Cursor → Prop} {G : Cursor → Prop} (hcut : Cut x y) (ht : Takes p) (hp : Keeps x y n p F)
    (hled : LedBy p K) (hfinish : .finish ∉ K) (hnext : ∀ a c, p c ≠ .fail → F a c) (hlast : ∀ a c, G c → F a c)
    (hstop : ∀ c : Cursor, p (c.append x) = .fail → G (c.append x) → p (c.append y) = .fail) :
    ∀ (k m : Nat) (c : Cursor), (c.append x).rest.length ≤ k → (c.append y).rest.length ≤ m → c.rest.length < n →
      Continues (Parser.upTo p k) (fun _ => G) (c.append x) →
        Same x y (Parser.upTo p k (c.append x)) (Parser.upTo p m (c.append y)) := by
  intro k
  induction k with
  | zero =>
    intro m c hk _ _ h
    have hend : (c.append x).rest = [] := List.length_eq_zero_iff.mp (Nat.le_zero.mp hk)
    have hfail : p (c.append x) = .fail := by
      refine hled.fails ?_
      rwa [lead_of_end (Cursor.rest_skipBlanks_of_end hend)]
    rw [upTo_of_fail (hstop c hfail h)]
    exact .done [] c
  | succ k ih =>
    intro m c hk hm hc h
    obtain ⟨m, rfl⟩ : ∃ m', m = m' + 1 := ⟨m - 1, by
      have hpos : 0 < y.length := by cases hcut <;> exact Nat.succ_pos _
      rw [Cursor.rest_append, List.length_append] at hm
      omega⟩
    cases hdone : p (c.append x) with
    | done a c₁ =>
      rw [Continues, upTo_of_done hdone] at h
      have hrest : Continues (Parser.upTo p k) (fun _ => G) c₁ := continues_bind.mp h
      have hfollow : F a c₁ := by
        by_cases hfail : p c₁ = .fail
        · exact hlast a c₁ (hrest.of_done (upTo_of_fail hfail k))
        · exact hnext a c₁ hfail
      have hsame := hp.same c hc (by rw [Continues, hdone]; exact hfollow)
      obtain ⟨c₂, rfl, hlong⟩ := hsame.done hdone
      have hshorter := length_lt_of_takes ht hdone
      simp only [Cursor.rest_append, List.length_append] at hk hm
      have hrounds := ih m c₂ (by rw [Cursor.rest_append, List.length_append]; omega)
        (by rw [Cursor.rest_append, List.length_append]; omega) (by omega) hrest
      rw [upTo_of_done hdone, upTo_of_done hlong]
      exact hrounds.bind fun as c₃ _ => .done (a :: as) c₃
    | fail =>
      rw [Continues, upTo_of_fail hdone] at h
      rw [upTo_of_fail hdone, upTo_of_fail (hstop c hdone h)]
      exact .done [] c
    | giveUp r =>
      have hlong := (hp.same c hc (by rw [Continues, hdone]; trivial)).giveUp hdone
      simp only [Parser.upTo, hdone, hlong]
      exact .giveUp r

theorem many {F : α → Cursor → Prop} {G : Cursor → Prop} (hcut : Cut x y) (ht : Takes p) (hp : Keeps x y n p F)
    (hled : LedBy p K) (hfinish : .finish ∉ K) (hnext : ∀ a c, p c ≠ .fail → F a c) (hlast : ∀ a c, G c → F a c)
    (hstop : ∀ c : Cursor, p (c.append x) = .fail → G (c.append x) → p (c.append y) = .fail) :
    Keeps x y n (Parser.many p) fun _ => G :=
  ⟨readsPrefix_many hp.reads, fun c hc h =>
    upTo hcut ht hp hled hfinish hnext hlast hstop _ _ c (Nat.le_refl _) (Nat.le_refl _) hc h⟩

/-- Items with separators between them. -/
theorem sepBy1 {F : α → Cursor → Prop} {G : Cursor → Prop} {s : Parser β} (hcut : Cut x y) (hp : Keeps x y n p F)
    (ht : Takes s) (hs : Keeps x y n (do let _ ← s; p) F) (hled : LedBy s K) (hfinish : .finish ∉ K)
    (hnext : ∀ a c, (do let _ ← s; p) c ≠ .fail → F a c) (hlast : ∀ a c, G c → F a c)
    (hstop : ∀ c : Cursor, (do let _ ← s; p) (c.append x) = .fail → G (c.append x) →
      (do let _ ← s; p) (c.append y) = .fail) : Keeps x y n (Parser.sepBy1 p s) fun _ => G := by
  refine hp.bind (fun first => ?_) fun a c h => ?_
  · exact (many hcut (ht.bind fun _ => hp.reads) hs hled.bind hfinish hnext hlast hstop).bind (fun _ => pure _) fun _ _ h => h
  · exact (continues_bind.mp h).of_many.elim (hnext a c) (hlast a c)

end Keeps

/-! ## Tokens -/

theorem ready_of_lead (h : c.lead ∈ K) (hK : .mark '\\' ∉ K) : c.Ready := fun hlead => hK (hlead ▸ h)

theorem inside_of_lead (h : c.lead ∈ K) (hK : .finish ∉ K ∧ .mark '\\' ∉ K) : c.Inside :=
  ⟨fun hlead => hK.1 (hlead ▸ h), ready_of_lead h hK.2⟩

/-- At the end of a text nothing can be read that starts with something. -/
theorem LedBy.fails_of_end (hp : LedBy p K) (hK : .finish ∉ K) (h : c.rest = []) : p c = .fail :=
  hp.fails (by rwa [lead_of_end (Cursor.rest_skipBlanks_of_end h)])

theorem takes_separator : Takes separator := Advances.separator.takes

theorem persists_separator : Persists separator := (Persists.symbol _).orElse (.symbol _)

theorem persists_separators1 : Persists separators1 :=
  persists_separator.bind fun _ => persists_separator.many.bind fun _ => .pure ()

/-- Marks between statements are read everywhere, if only none of them, and there is none behind them. -/
theorem done_of_separators (c : Cursor) : ∃ c', separators c = .done () c' ∧ separator c' = .fail := by
  cases h : many separator c with
  | done us c' => exact ⟨c', bind_of_done h, Advances.separator.fails_behind_many h⟩
  | fail => exact absurd h (upTo_ne_fail _ _ c)
  | giveUp r => exact absurd h (persists_separator.many c r)

/-- One mark and more are marks. -/
theorem separators_of_separators1 {c' : Cursor} (h : separators1 c = .done () c') : separators c = .done () c' := by
  cases hfirst : separator c with
  | done u c₁ =>
    rw [separators1, bind_of_done hfirst, separators] at h
    cases hmore : many separator c₁ with
    | done us c₂ =>
      rw [bind_of_done hmore] at h
      have hmany : many separator c = .done (u :: us) c₂ := by
        rw [Advances.separator.many_of_done hfirst, bind_of_done hmore]
        rfl
      rw [separators, bind_of_done hmany]
      exact h
    | fail =>
      rw [bind_of_fail hmore] at h
      cases h
    | giveUp r =>
      rw [bind_of_giveUp hmore] at h
      cases h
  | fail =>
    rw [separators1, bind_of_fail hfirst] at h
    cases h
  | giveUp r =>
    rw [separators1, bind_of_giveUp hfirst] at h
    cases h

section

variable (hcut : Cut x y)
include hcut

theorem keeps_symbol {o : String} {z : Char} {more : List Char} {F : Unit → Cursor → Prop} (ho : o.toList = z :: more)
    (hz : Lead.ofChar z = .mark z) (hbreak : o.toList.any atBreak = false) : Keeps x y n (symbol o) F := by
  refine .of_token (reads_symbol o) fun c hc => sameAt_symbol hcut (ready_of_lead (ledBy_symbol ho hz _ hc) ?_) hbreak
  rw [List.mem_singleton, Lead.mark.injEq]
  rintro rfl
  rw [ho] at hbreak
  cases hbreak

theorem keeps_keyword {word : String} {F : Unit → Cursor → Prop} (hword : word ∈ keywords) :
    Keeps x y n (keyword word) F :=
  .of_token (reads_keyword word) fun c hc =>
    sameAt_keyword hcut (ready_of_lead (ledBy_keyword hword _ hc) (by simp)) hword

/-- What stands behind a mark. -/
theorem keeps_behindSymbol {o : String} {z : Char} {more : List Char} {f : Unit → Parser α} {F : α → Cursor → Prop}
    (ho : o.toList = z :: more) (hz : Lead.ofChar z = .mark z) (hbreak : o.toList.any atBreak = false)
    (hf : Keeps x y n (f ()) F) : Keeps x y (n + 1) (symbol o >>= f) F :=
  .tokenThen (takes_symbol (by simp [ho])) (keeps_symbol hcut ho hz hbreak) fun _ => hf

/-- What stands behind a word. -/
theorem keeps_behindKeyword {word : String} {f : Unit → Parser α} {F : α → Cursor → Prop} (hword : word ∈ keywords)
    (hf : Keeps x y n (f ()) F) : Keeps x y (n + 1) (keyword word >>= f) F :=
  .tokenThen (takes_keyword ((by decide : ∀ w ∈ keywords, w.toList ≠ []) word hword)) (keeps_keyword hcut hword) fun _ => hf

theorem keeps_identifier {F : String → Cursor → Prop} : Keeps x y n identifier F :=
  .of_token spells_identifier.readsPrefix fun c hc =>
    sameAt_identifier hcut (ready_of_lead (ledBy_identifier _ hc) (by simp))

theorem keeps_numeral {F : Literal → Cursor → Prop} : Keeps x y n numeral F :=
  .of_token reads_numeral fun c hc => sameAt_numeral hcut (ready_of_lead (ledBy_numeral _ hc) (by simp))

theorem keeps_stringLiteral {F : Literal → Cursor → Prop} : Keeps x y n stringLiteral F :=
  .of_token reads_stringLiteral fun _ hc => sameAt_stringLiteral hcut hc

/-- A line feed that is not the last thing in the text. -/
theorem keeps_lineFeed : Keeps x y n (symbol "\n") fun _ c => c.lead ≠ .finish where
  reads := reads_symbol "\n"
  same _ _ h := sameAt_lineFeed hcut (inside_of_lead (h.lead (ledBy_symbol (x := '\n') rfl (by decide))) (by simp))
    fun _ hread => h.of_done hread

/-- Line ends, and something behind them that keeps them from going on beyond the break. -/
theorem keeps_newlines : Keeps x y n newlines fun _ => Cursor.Inside := by
  have hled : LedBy (symbol "\n") [.mark '\n'] := ledBy_symbol rfl (by decide)
  have hmany : Keeps x y n (many (symbol "\n")) fun _ => Cursor.Inside := by
    refine Keeps.many hcut (takes_symbol (by decide)) (keeps_lineFeed hcut) hled (by simp) (fun _ c h => ?_) (fun _ _ h => h.1)
      fun c hfail h => (sameAt_lineFeed hcut h fun _ hread => ?_).fails hfail
    · rw [List.mem_singleton.mp (hled c h)]
      exact nofun
    · exact absurd (hread.symm.trans hfail) nofun
  exact hmany.map _

theorem sameAt_separator (h : (c.append x).Inside)
    (hmore : ∀ c', separator (c.append x) = .done () c' → c'.lead ≠ .finish) : SameAt x y separator c :=
  (sameAt_lineFeed hcut h fun c' hread => hmore c' (orElse_of_done hread)).orElse fun _ => sameAt_symbol hcut h.2 (by decide)

theorem keeps_separator : Keeps x y n separator fun _ c => c.lead ≠ .finish where
  reads := reads_separator
  same _ _ h := sameAt_separator hcut (inside_of_lead (h.lead ledBy_separator) (by simp)) fun _ hread => h.of_done hread

theorem keeps_separators : Keeps x y n separators fun _ => Cursor.Inside := by
  have hmany : Keeps x y n (many separator) fun _ => Cursor.Inside := by
    refine Keeps.many hcut takes_separator (keeps_separator hcut) ledBy_separator (by simp) (fun _ c h hfinish => ?_)
      (fun _ _ h => h.1) fun c hfail h => (sameAt_separator hcut h fun _ hread => ?_).fails hfail
    · have hlead := ledBy_separator c h
      rw [hfinish] at hlead
      simp at hlead
    · exact absurd (hread.symm.trans hfail) nofun
  exact hmany.map _

theorem keeps_separators1 : Keeps x y n separators1 fun _ => Cursor.Inside := by
  refine (keeps_separator hcut).bind (fun _ => keeps_separators hcut) fun _ c h hfinish => ?_
  exact (h.of_done (separators_of_lead (by rw [hfinish]; simp))).1 hfinish

theorem keeps_comma : Keeps x y n comma fun _ => Cursor.Inside :=
  (keeps_symbol hcut rfl (by decide) (by decide)).andThen fun _ => keeps_newlines hcut

theorem keeps_bodyStart {word : String} (hword : word ∈ keywords) :
    Keeps x y n (bodyStart word) fun _ => Cursor.Inside where
  reads := reads_bodyStart word
  same c hc h := by
    by_cases hread : (do separators; keyword word : Parser Unit) (c.append x) = .fail
    · have hmarks : Continues separators1 (fun _ => Cursor.Inside) (c.append x) := h.right hread
      refine SameAt.orElse ?_ fun _ => (keeps_separators1 hcut).same c hc hmarks
      -- the word that does not stand behind the marks does not stand there in the longer text
      have hseparators : Continues separators (fun _ => Cursor.Inside) (c.append x) := by
        cases hdone : separators1 (c.append x) with
        | done u c' =>
          rw [Continues, separators_of_separators1 hdone]
          exact hmarks.of_done hdone
        | fail => exact absurd hdone hmarks.ne_fail
        | giveUp r => exact absurd hdone (persists_separators1 _ r)
      refine ((keeps_separators hcut).same c hc hseparators).bind fun _ c' hc' => ?_
      exact sameAt_keyword hcut (hseparators.of_done hc').2 hword
    · have hfirst : Keeps x y n (do separators; keyword word : Parser Unit) fun _ => Cursor.Inside :=
        (keeps_separators hcut).bind (fun _ => keeps_keyword hcut hword) fun _ _ h =>
          inside_of_lead (h.lead (ledBy_keyword hword)) (by simp)
      exact (hfirst.same c hc (h.left hread)).orElse fun hfail => absurd hfail hread

end

end Parser

end MinRuby.Syntax
