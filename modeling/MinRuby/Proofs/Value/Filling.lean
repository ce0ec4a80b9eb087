import MinRuby.Proofs.Value.Fingerprint
import MinRuby.Proofs.Value.Content

/-!
# Hashes that are filled

A hash is filled by one store after the other while the run goes on. As long as its keys are not modified it is a finite map
in the order of the first stores, whatever else happens in between; and the order of the stores does not matter to equality.

* `Filling` — a hash, and the log of what was stored in it.
* `Filling.hash_eq`, `Filling.hasFingerprint` — what every step keeps.
* `hash_is_finite_map` — what is found in the hash.
* `equality_laws` — equality is an equivalence relation, and does not look at the order of the stores.
-/

namespace MinRuby

open Value

/-- A hash was made empty, and the entries of the log were stored in it one after the other, the latest last, each with the
fingerprint of its key. In between the run may do anything but store in the hash or modify a key in it. -/
inductive Filling (a : Address) : List (Key × Entry) → Store → Prop where
  | fresh {s : Store} (ha : a < s.hashes.size) (hempty : s.hash a = .empty) : Filling a [] s
  | store {log : List (Key × Entry)} {s s' : Store} {d : Nat} {j : Key} {k v : Value} (h : Filling a log s)
    (hk : k.fingerprint s d = .ok j) (hrun : assign d (.hash a) k v s = .ok () s')
    (hkept : ∀ e ∈ log ++ [(j, ⟨k, v⟩)], e.2.key.Unmodified s s') : Filling a (log ++ [(j, ⟨k, v⟩)]) s'
  | meanwhile {log : List (Key × Entry)} {s s' : Store} (h : Filling a log s) (ha : a < s'.hashes.size)
    (hsame : s'.hash a = s.hash a) (hkept : ∀ e ∈ log, e.2.key.Unmodified s s') : Filling a log s'

namespace Filling

variable {a b : Address} {log log' : List (Key × Entry)} {s : Store}

theorem newHash (s : Store) : Filling s.hashes.size [] (s.newHash .empty).2 :=
  .fresh (by simp [Store.newHash]) (by simp [Store.newHash, Store.hash])

theorem lt_size (h : Filling a log s) : a < s.hashes.size := by
  induction h with
  | fresh ha _ => exact ha
  | store _ hk hrun _ ih =>
    rw [assign_of_fingerprint hk] at hrun
    cases hrun
    simpa [Store.updateHash] using ih
  | meanwhile _ ha _ _ _ => exact ha

/-- The hash is what the insertions lead to. -/
theorem hash_eq (h : Filling a log s) : s.hash a = .ofList log := by
  induction h with
  | fresh _ hempty => exact hempty
  | store h hk hrun _ ih =>
    rw [assign_of_fingerprint hk] at hrun
    cases hrun
    rw [Store.hash_updateHash h.lt_size, ih, OrderedTable.ofList_append_singleton]
  | meanwhile _ _ hsame _ ih => exact hsame.trans ih

/-- The keys still have the fingerprints under which they were stored. -/
theorem hasFingerprint (h : Filling a log s) : ∀ e ∈ log, e.2.key.HasFingerprint s e.1 := by
  induction h with
  | fresh => exact fun e he => absurd he List.not_mem_nil
  | store _ hk _ hkept ih =>
    intro e he
    refine HasFingerprint.unmodified ?_ (hkept e he)
    rcases List.mem_append.mp he with he | he
    · exact ih e he
    · obtain rfl := List.mem_singleton.mp he
      exact hasFingerprint_of_fingerprint hk
  | meanwhile _ _ _ hkept ih => exact fun e he => (ih e he).unmodified (hkept e he)

theorem withoutNaN (h : Filling a log s) (hkeys : ∀ e ∈ log, e.2.key.Throughout s (WithoutNaN s)) :
    ∀ e ∈ log, e.1.WithoutNaN :=
  fun e he => (h.hasFingerprint e he).withoutNaN (hkeys e he)

/-- Where the same keys and values were stored, the logs agree also in the fingerprints. -/
theorem perm (h : Filling a log s) (h' : Filling b log' s) (hperm : (log.map (·.2)).Perm (log'.map (·.2))) :
    log.Perm log' := by
  have hunique (e : Entry) : ∃ j, ∀ j', e.key.HasFingerprint s j' → j = j' := by
    by_cases hj : ∃ j, e.key.HasFingerprint s j
    · obtain ⟨j, hj⟩ := hj
      exact ⟨j, fun j' hj' => hj.unique hj'⟩
    · exact ⟨.nil, fun j' hj' => absurd ⟨j', hj'⟩ hj⟩
  choose fingerprintOf hfingerprint using hunique
  have hfiled {log : List (Key × Entry)} (hlog : ∀ e ∈ log, e.2.key.HasFingerprint s e.1) :
      (log.map (·.2)).map (fun e => (fingerprintOf e, e)) = log := by
    rw [List.map_map]
    refine (List.map_congr_left fun e he => ?_).trans (List.map_id log)
    exact Prod.ext (hfingerprint e.2 e.1 (hlog e he)) rfl
  rw [← hfiled h.hasFingerprint, ← hfiled h'.hasFingerprint]
  exact hperm.map _

/-- What was stored under different fingerprints stands in the hash in the order of the stores. -/
theorem entries_eq (h : Filling a log s) (hdistinct : log.Pairwise fun e f => (e.1 == f.1) = false) :
    (s.hash a).entries = log := by
  rw [h.hash_eq, OrderedTable.entries_ofList log (List.pairwise_map.mpr hdistinct)]

end Filling

/-- The hash is the finite map that the log describes. -/
structure Store.HoldsLog (s : Store) (a : Address) (log : List (Key × Entry)) : Prop where
  /-- Every key in the log has the fingerprint that stands with it. -/
  filed : ∀ e ∈ log, ∃ D, ∀ d ≥ D, e.2.key.fingerprint s d = .ok e.1
  /-- Under a key the value is found that was stored last under a key with the same fingerprint, and nothing if there is none. -/
  found : ∀ k : Value, k.Throughout s NotProcedure → ∃ j D, ∀ d ≥ D, k.fingerprint s d = .ok j ∧
    lookup? s d a k = .ok ((log.reverse.lookup j).map (·.value))
  /-- The fingerprints stand in the order in which they came first. -/
  keys_eq : (s.hash a).keys = (log.map (·.1)).eraseDups
  distinct : (s.hash a).Distinct
  /-- With each fingerprint stand the key and the value that were stored last under it. -/
  latest : ∀ e ∈ (s.hash a).entries, log.reverse.lookup e.1 = some e.2

namespace Value

variable {a b : Address} {log log' : List (Key × Entry)} {s : Store}

/-- The value may be a key: there is no NaN in it and it is no definition. -/
def Keyable (s : Store) (v : Value) : Prop := v.WithoutNaN s ∧ v.NotProcedure

/-- A hash that is filled under finite keys which are not modified later is a finite map in the order of the first stores. Every
store under such a key succeeds, and two keys have the same fingerprint exactly if they are alike. -/
theorem hash_is_finite_map (h : Filling a log s) (hkeys : ∀ e ∈ log, e.2.key.Throughout s (Keyable s)) :
    s.HoldsLog a log ∧
    (∀ k v : Value, k.Throughout s NotProcedure → ∃ j D, ∀ d ≥ D, ∃ s', assign d (hash a) k v s = .ok () s' ∧
      ((∀ e ∈ log ++ [(j, ⟨k, v⟩)], e.2.key.Unmodified s s') → Filling a (log ++ [(j, ⟨k, v⟩)]) s')) ∧
    ∀ x y : Value, x.Throughout s NotProcedure → y.Throughout s NotProcedure → ∃ j k D,
      (∀ d ≥ D, x.fingerprint s d = .ok j ∧ y.fingerprint s d = .ok k) ∧ ((j == k) = true ↔ x.Alike s y) := by
  refine ⟨⟨fun e he => (h.hasFingerprint e he).exists_depth, fun k hk => ?_, ?_, ?_, fun e he => ?_⟩, fun k v hk => ?_,
    fun x y hx hy => ?_⟩
  · obtain ⟨j, hj⟩ := exists_fingerprint hk
    obtain ⟨D, hD⟩ := hj.exists_depth
    refine ⟨j, D, fun d hd => ⟨hD d hd, ?_⟩⟩
    rw [lookup?_of_fingerprint (hD d hd), h.hash_eq, OrderedTable.find?_ofList]
  · rw [h.hash_eq, OrderedTable.keys_ofList]
  · rw [h.hash_eq]
    exact OrderedTable.distinct_ofList log
  · have hdistinct := OrderedTable.distinct_ofList log
    rw [h.hash_eq] at he
    rw [← OrderedTable.find?_ofList]
    refine hdistinct.find?_eq_some he (Key.same_self ?_)
    obtain ⟨f, hf, hkey⟩ := List.mem_map.mp (OrderedTable.mem_map_of_mem_keys_ofList (List.mem_map_of_mem he))
    rw [← hkey]
    exact h.withoutNaN (fun e he => (hkeys e he).mono fun _ hv => hv.1) f hf
  · obtain ⟨j, hj⟩ := exists_fingerprint hk
    obtain ⟨D, hD⟩ := hj.exists_depth
    exact ⟨j, D, fun d hd => ⟨_, assign_of_fingerprint (hD d hd), h.store (hD d hd) (assign_of_fingerprint (hD d hd))⟩⟩
  · obtain ⟨j, hj⟩ := exists_fingerprint hx
    obtain ⟨k, hk⟩ := exists_fingerprint hy
    obtain ⟨D, hD⟩ := hj.exists_depth
    obtain ⟨E, hE⟩ := hk.exists_depth
    exact ⟨j, k, max D E, fun d hd => ⟨hD d (by omega), hE d (by omega)⟩, same_iff_alike hj hk⟩

/-- Two arrays with the same element, and a hash in which something was stored under the first array, under a string, and
under the second array. -/
def refilled : Store where
  arrays := #[#[int 1], #[int 1]]
  hashes := #[⟨[(.array [.int 1], ⟨array 1, str "c"⟩), (.str "k", ⟨str "k", nil⟩)]⟩]

theorem throughout_refilled {s : Store} {P : Value → Prop} (hs : s.arrays = refilled.arrays) (harray : ∀ a, P (array a))
    (hint : P (int 1)) (a : Address) : (array a).Throughout s P := by
  refine .intro (harray a) fun x hx => ?_
  have hx : x ∈ s.array a := hx
  unfold Store.array at hx
  rw [hs] at hx
  match a with
  | 0 => exact List.mem_singleton.mp (Array.mem_toList_iff.mpr hx) ▸ throughout_of_isScalar trivial hint
  | 1 => exact List.mem_singleton.mp (Array.mem_toList_iff.mpr hx) ▸ throughout_of_isScalar trivial hint
  | a + 2 => exact absurd hx (Array.not_mem_empty x)

theorem filling_refilled : Filling 0 [(.array [.int 1], ⟨array 0, str "a"⟩), (.str "k", ⟨str "k", nil⟩),
    (.array [.int 1], ⟨array 1, str "c"⟩)] refilled := by
  have hkept {s s' : Store} {log : List (Key × Entry)} (hs : s.arrays = refilled.arrays) (hs' : s'.arrays = s.arrays)
      (hlog : ∀ e ∈ log, (∃ t, e.2.key = str t) ∨ ∃ a, e.2.key = array a) : ∀ e ∈ log, e.2.key.Unmodified s s' := by
    intro e he
    rcases hlog e he with ⟨t, ht⟩ | ⟨a, ha⟩
    · exact ht ▸ unmodified_of_isScalar trivial
    · rw [ha]
      intro x hx
      have hx := ((throughout_refilled (P := fun v => ∀ b, v ≠ hash b) hs (by simp) (by simp) a).within hx).here
      cases x with
      | array b => exact congrArg (fun arrays : Array (Array Value) => arrays[b]?.getD #[]) hs'
      | hash b => exact absurd rfl (hx b)
      | _ => trivial
  have hfilling : Filling 0 [] { refilled with hashes := #[.empty] } := .fresh (by decide) rfl
  have hfilling := hfilling.store (d := 1) (k := array 0) (v := str "a") rfl rfl (hkept rfl rfl (by simp))
  have hfilling := hfilling.store (d := 1) (k := str "k") (v := nil) rfl rfl (hkept rfl rfl (by simp))
  exact hfilling.store (d := 1) (k := array 1) (v := str "c") rfl rfl (hkept rfl rfl (by simp))

/-- The second array stands in the place of the first one. -/
theorem refilled_is_finite_map : refilled.HoldsLog 0 [(.array [.int 1], ⟨array 0, str "a"⟩), (.str "k", ⟨str "k", nil⟩),
    (.array [.int 1], ⟨array 1, str "c"⟩)] := by
  refine (hash_is_finite_map filling_refilled fun e he => ?_).1
  have harray (a : Address) : (array a).Throughout refilled (Keyable refilled) :=
    throughout_refilled rfl (fun _ => ⟨trivial, trivial⟩) ⟨trivial, trivial⟩ a
  have hstr : (str "k").Throughout refilled (Keyable refilled) := throughout_of_isScalar trivial ⟨trivial, trivial⟩
  simp only [List.mem_cons, List.not_mem_nil, or_false] at he
  rcases he with rfl | rfl | rfl
  · exact harray 0
  · exact hstr
  · exact harray 1

/-! ## Equality -/

/-- Hashes that were filled with the same keys and values under different fingerprints are equal. -/
theorem equals_of_perm (hs : s.Keyed) (h : Filling a log s) (h' : Filling b log' s)
    (hperm : (log.map (·.2)).Perm (log'.map (·.2))) (hdistinct : log.Pairwise fun e f => (e.1 == f.1) = false)
    (ha : (hash a).Throughout s (WithoutNaN s)) : (hash a).Equals s (hash b) := by
  have hlogs := h.perm h' hperm
  have hentries := h.entries_eq hdistinct
  have hsymm {e f : Key × Entry} (hef : (e.1 == f.1) = false) : (f.1 == e.1) = false := by rwa [BEq.comm]
  have hentries' := h'.entries_eq ((hlogs.pairwise_iff hsymm).mp hdistinct)
  have hfound (p : Key × Entry) (hp : p ∈ (s.hash a).entries) : (s.hash b).find? p.1 = some p.2 := by
    have hself : (p.1 == p.1) = true := Key.same_self (ha.here p.1 (List.mem_map_of_mem hp))
    rw [hentries, hlogs.mem_iff, ← hentries'] at hp
    exact (hs b).find?_eq_some hp hself
  refine .hash ?_ (fun k hk => ?_) fun p hp e he => ?_
  · rw [OrderedTable.size, OrderedTable.size, hentries, hentries', hlogs.length_eq]
  · obtain ⟨p, hp, rfl⟩ := List.mem_map.mp hk
    exact OrderedTable.contains_iff_find?.mpr ⟨p.2, hfound p hp⟩
  · obtain rfl : p.2 = e := Option.some.inj ((hfound p hp).symm.trans he)
    exact Equals.refl hs (ha.entry hp)

/-- Equality is reflexive, symmetric and transitive on finite values without NaN, and two hashes that were filled with the same
keys and values under different fingerprints are equal, in whatever orders they were filled. -/
theorem equality_laws (hs : s.Keyed) :
    (∀ x : Value, x.Throughout s (WithoutNaN s) → ∃ D, ∀ d ≥ D, x.equal s d x = .ok true) ∧
    (∀ x y : Value, x.Throughout s (WithoutNaN s) → y.Throughout s (WithoutNaN s) →
      ∃ D, ∀ d ≥ D, ∃ b, x.equal s d y = .ok b ∧ y.equal s d x = .ok b) ∧
    (∀ x y z : Value, x.Throughout s (WithoutNaN s) → y.Throughout s (WithoutNaN s) → z.Throughout s (WithoutNaN s) →
      ∃ D, ∀ d ≥ D, x.equal s d y = .ok true → y.equal s d z = .ok true → x.equal s d z = .ok true) ∧
    ∀ a b log log', Filling a log s → Filling b log' s → (log.map (·.2)).Perm (log'.map (·.2)) →
      log.Pairwise (fun e f => (e.1 == f.1) = false) → (hash a).Throughout s (WithoutNaN s) →
      ∃ D, ∀ d ≥ D, (hash a).equal s d (hash b) = .ok true := by
  refine ⟨fun x hx => (Equals.refl hs hx).exists_equal, fun x y hx hy => ?_, fun x y z hx _ hz => ?_,
    fun a b log log' h h' hperm hdistinct ha => ?_⟩
  · obtain ⟨D, hD⟩ := exists_equal hx.acc
    obtain ⟨E, hE⟩ := exists_equal hy.acc
    refine ⟨max D E, fun d hd => ?_⟩
    obtain ⟨b, hb, hequals⟩ := hD d (by omega) y
    obtain ⟨b', hb', hequals'⟩ := hE d (by omega) x
    have hsame : b = b' := by
      rw [Bool.eq_iff_iff, hequals, hequals']
      exact ⟨Equals.symm hs, Equals.symm hs⟩
    exact ⟨b, hb, hsame ▸ hb'⟩
  · obtain ⟨D, hD⟩ := exists_equal hx.acc
    refine ⟨D, fun d hd hxy hyz => ?_⟩
    obtain ⟨b, hb, hequals⟩ := hD d hd z
    rw [hb, hequals.mpr ((equals_of_equal hxy).trans (equals_of_equal hyz))]
  · exact (equals_of_perm hs h h' hperm hdistinct ha).exists_equal

/-- A log with integers as keys. -/
theorem unmodified_of_int {s s' : Store} {log : List (Key × Entry)} (hlog : ∀ e ∈ log, ∃ n, e.2.key = int n) :
    ∀ e ∈ log, e.2.key.Unmodified s s' := by
  intro e he
  obtain ⟨n, hn⟩ := hlog e he
  rw [hn]
  exact unmodified_of_isScalar trivial

/-- Both hashes were filled with the same two entries. -/
theorem filling_twoOrders : Filling 0 [(.int 1, ⟨int 1, int 1⟩), (.int 2, ⟨int 2, int 2⟩)] twoOrders ∧
    Filling 1 [(.int 2, ⟨int 2, int 2⟩), (.int 1, ⟨int 1, int 1⟩)] twoOrders := by
  have hfirst : Filling 0 [] { hashes := #[.empty, .empty] } := .fresh (by decide) rfl
  have hfirst := hfirst.store (d := 0) (k := int 1) (v := int 1) rfl rfl (unmodified_of_int (by simp))
  have hfirst := hfirst.store (d := 0) (k := int 2) (v := int 2) rfl rfl (unmodified_of_int (by simp))
  have hsecond : Filling 1 [] { hashes := #[twoOrders.hash 0, .empty] } := .fresh (by decide) rfl
  have hsecond := hsecond.store (d := 0) (k := int 2) (v := int 2) rfl rfl (unmodified_of_int (by simp))
  have hsecond := hsecond.store (d := 0) (k := int 1) (v := int 1) rfl rfl (unmodified_of_int (by simp))
  exact ⟨hfirst.meanwhile (by decide) rfl (unmodified_of_int (by simp)), hsecond⟩

/-- Two hashes with the same entries are equal to themselves, to each other in both directions, and by way of each other. -/
theorem equality_laws_of_two_orders :
    (∃ D, ∀ d ≥ D, (hash 0).equal twoOrders d (hash 0) = .ok true) ∧
    (∃ D, ∀ d ≥ D, ∃ b, (hash 0).equal twoOrders d (hash 1) = .ok b ∧ (hash 1).equal twoOrders d (hash 0) = .ok b) ∧
    (∃ D, ∀ d ≥ D, (hash 0).equal twoOrders d (hash 1) = .ok true → (hash 1).equal twoOrders d (hash 0) = .ok true →
      (hash 0).equal twoOrders d (hash 0) = .ok true) ∧
    ∃ D, ∀ d ≥ D, (hash 0).equal twoOrders d (hash 1) = .ok true := by
  have hkey {a : Address} : ∀ k ∈ (twoOrders.hash a).keys, k.WithoutNaN := by
    intro k hk
    match a with
    | 0 => rcases List.mem_pair.mp hk with rfl | rfl <;> trivial
    | 1 => rcases List.mem_pair.mp hk with rfl | rfl <;> trivial
    | a + 2 => exact absurd hk List.not_mem_nil
  have hfinite (a : Address) : (hash a).Throughout twoOrders (WithoutNaN twoOrders) :=
    throughout_twoOrders hkey fun _ => trivial
  obtain ⟨hrefl, hsymm, htrans, hfilled⟩ := equality_laws keyed_twoOrders
  exact ⟨hrefl _ (hfinite 0), hsymm _ _ (hfinite 0) (hfinite 1), htrans _ _ _ (hfinite 0) (hfinite 1) (hfinite 0),
    hfilled 0 1 _ _ filling_twoOrders.1 filling_twoOrders.2 (.swap _ _ _) (by decide) (hfinite 0)⟩

end Value

end MinRuby
