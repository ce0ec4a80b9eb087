import MinRuby.Proofs.Run.ReadBack
import MinRuby.Proofs.Value.PlainData

/-!
# Conversion there and back

The tree of a program becomes a value and that value becomes the tree again, also for a program that asks for the tree of
another one. A value comes back from its data if no two keys of a hash in it are equal, and it equals what comes back if every
entry is filed under the fingerprint that its key has now. Keys that were changed after they were stored may have become
equal; their entries are one in the data.

* `Data.IsOf.comesBack` — from a value of data to the data, and to another value of it.
* `exists_recoverable` — the data that a value is made of.
* `conversion_there_and_back` — trees, values, and values filed by content.
* `entries_of_changed_keys_merged` — two keys that have become equal.
-/

namespace MinRuby

open Numeric (Number Binary64)

/-! ## Data that comes back -/

namespace Data

/-- The data is what its value is converted to. -/
structure Recoverable (x : Data) : Prop where
  isPlain : x.IsPlain
  unmerged : x.Everywhere Unmerged

theorem arePlain_iff {xs : List Data} : ArePlain xs ↔ ∀ x ∈ xs, x.IsPlain := by
  induction xs with
  | nil => simp [ArePlain]
  | cons x xs ih => simp [ArePlain, ih]

theorem areKeys_iff {xs : List Data} : AreKeys xs ↔ ∀ x ∈ xs, x.IsKey := by
  induction xs with
  | nil => simp [AreKeys]
  | cons x xs ih => simp [AreKeys, ih]

theorem entriesArePlain_iff {xs : List (Data × Data)} : EntriesArePlain xs ↔ ∀ x ∈ xs, x.1.IsKey ∧ x.2.IsPlain := by
  induction xs with
  | nil => simp [EntriesArePlain]
  | cons x xs ih => simp [EntriesArePlain, ih, and_assoc]

theorem everywhereAll_iff {P : Data → Prop} {xs : List Data} : EverywhereAll P xs ↔ ∀ x ∈ xs, x.Everywhere P := by
  induction xs with
  | nil => simp [EverywhereAll]
  | cons x xs ih => simp [EverywhereAll, ih]

theorem everywhereEntries_iff {P : Data → Prop} {xs : List (Data × Data)} :
    EverywhereEntries P xs ↔ ∀ x ∈ xs, x.1.Everywhere P ∧ x.2.Everywhere P := by
  induction xs with
  | nil => simp [EverywhereEntries]
  | cons x xs ih => simp [EverywhereEntries, ih, and_assoc]

/-- What holds of all keys holds of all parts of a key. -/
theorem IsKey.everywhere {P : Data → Prop} (hP : ∀ k : Data, k.IsKey → P k) : ∀ {k : Data}, k.IsKey → k.Everywhere P
  | null, h | int _, h | str _, h => hP _ h
  | tuple _, h => ⟨hP _ h, everywhereAll_iff.mpr fun x hx => IsKey.everywhere hP (areKeys_iff.mp h x hx)⟩
  | bool _, h | float _, h | list _, h | mapping _, h => h.elim

theorem IsKey.unmerged {k : Data} (h : k.IsKey) : k.Everywhere Unmerged :=
  h.everywhere fun k hk => by cases k <;> first | exact hk.elim | trivial

theorem IsKey.notNaN {k : Data} (h : k.IsKey) : k.Everywhere NotNaN :=
  h.everywhere fun k hk => by cases k <;> first | exact hk.elim | trivial

theorem recoverable_of_isScalar {x : Data} (h : x.IsScalar) : x.Recoverable := by
  cases x <;> first | exact h.elim | exact ⟨trivial, trivial⟩

theorem recoverable_list {items : List Data} (h : ∀ x ∈ items, x.Recoverable) : (list items).Recoverable :=
  ⟨arePlain_iff.mpr fun x hx => (h x hx).isPlain, trivial, everywhereAll_iff.mpr fun x hx => (h x hx).unmerged⟩

end Data

open Data (Recoverable recoverable_of_isScalar recoverable_list)

/-- A node of a tree comes back if its children do. -/
theorem recoverable_node {tag : String} {children : List Data} (h : ∀ x ∈ children, x.Recoverable) :
    (Data.list (.str tag :: children)).Recoverable :=
  recoverable_list (List.forall_mem_cons.mpr ⟨recoverable_of_isScalar (x := .str tag) trivial, h⟩)

theorem Syntax.IsTree.recoverable {tree : Data} (h : Syntax.IsTree tree) : tree.Recoverable := by
  have str (s : String) : (Data.str s).Recoverable := recoverable_of_isScalar trivial
  induction h with
  | lit h => exact recoverable_node (by simpa using recoverable_of_isScalar h)
  | binary op _ _ hl hr => exact recoverable_node (by simpa using ⟨hl, hr⟩)
  | stmts _ ih => exact recoverable_node ih
  | varAssign _ _ ih => exact recoverable_node (by simpa using ⟨str _, ih⟩)
  | varRef _ => exact recoverable_node (by simpa using str _)
  | choice _ _ _ ht hy hn => exact recoverable_node (by simpa using ⟨ht, hy, hn⟩)
  | loop _ _ ht hb => exact recoverable_node (by simpa using ⟨ht, hb⟩)
  | loopAfter _ _ ht hb => exact recoverable_node (by simpa using ⟨ht, hb⟩)
  | @funcDef f params body _ _ _ hb =>
    have hparams : (Data.list (params.map .str)).Recoverable :=
      recoverable_list (List.forall_mem_map.mpr fun x _ => str x)
    exact recoverable_node (by simpa using ⟨str _, hparams, hb⟩)
  | funcCall _ _ ih => exact recoverable_node (List.forall_mem_cons.mpr ⟨str _, ih⟩)
  | aryNew _ ih => exact recoverable_node ih
  | aryRef _ _ hc hp => exact recoverable_node (by simpa using ⟨hc, hp⟩)
  | aryAssign _ _ _ hc hp hv => exact recoverable_node (by simpa using ⟨hc, hp, hv⟩)
  | hashNew _ _ ih => exact recoverable_node ih

/-! ## Values of data -/

/-- The value is converted to the data and the data to a second value, in places of its own, which is made of the same parts,
shows the same text and is converted to the same data. -/
structure Value.ComesBack (s : Store) (d : Nat) (v : Value) (x : Data) (w : Value) (s' : Store) : Prop where
  toData_eq : v.toData s d = .ok x
  ofData_eq : Value.ofData d x s = .ok w s'
  kept : s.Extends s'
  parts : x.IsOf (fun _ _ => True) s' 0 v
  parts_of_second : x.IsOf Eq s' s.hashes.size w
  toData_of_second : w.toData s' d = .ok x
  inspect_eq : v.inspect s' d = v.inspect s d
  inspect_of_second : w.inspect s' d = v.inspect s d

namespace Data

section

variable {filed filed' : Key → Key → Prop} {s s' : Store} {low low' : Address} {v w : Value} {x : Data} {d : Nat}

mutual

/-- The recursions over a value end at the height of its data. -/
theorem IsOf.finishes : ∀ {x : Data} {v : Value} {d : Nat}, IsOf filed s low x v → x.height ≤ d → v.Finishes s d
  | null, v, d, hv, _ => by
    obtain rfl := isOf_null.mp hv
    exact .of_isScalar trivial
  | bool b, v, d, hv, _ => by
    obtain rfl := isOf_bool.mp hv
    exact .of_isScalar trivial
  | int n, v, d, hv, _ => by
    obtain rfl := isOf_int.mp hv
    exact .of_isScalar trivial
  | float x, v, d, hv, _ => by
    obtain rfl := isOf_float.mp hv
    exact .of_isScalar trivial
  | str t, v, d, hv, _ => by
    obtain rfl := isOf_str.mp hv
    exact .of_isScalar trivial
  | list items, v, d, hv, hd => by
    obtain ⟨a, rfl, _, hitems⟩ := isOf_list.mp hv
    obtain ⟨d, rfl⟩ := Nat.exists_eq_add_one_of_ne_zero (Nat.ne_zero_of_lt hd)
    exact .of_array fun x hx => AreOf.finishes hitems (Nat.le_of_succ_le_succ hd) x (Array.mem_toList_iff.mpr hx)
  | tuple items, v, d, hv, hd => by
    obtain ⟨a, rfl, _, hitems⟩ := isOf_tuple.mp hv
    obtain ⟨d, rfl⟩ := Nat.exists_eq_add_one_of_ne_zero (Nat.ne_zero_of_lt hd)
    exact .of_array fun x hx => AreOf.finishes hitems (Nat.le_of_succ_le_succ hd) x (Array.mem_toList_iff.mpr hx)
  | mapping entries, v, d, hv, hd => by
    obtain ⟨a, rfl, _, _, hentries⟩ := isOf_mapping.mp hv
    obtain ⟨d, rfl⟩ := Nat.exists_eq_add_one_of_ne_zero (Nat.ne_zero_of_lt hd)
    refine .of_hash fun e he => ?_
    obtain ⟨p, hp, rfl⟩ := List.mem_map.mp he
    exact EntriesAreOf.finishes hentries (Nat.le_of_succ_le_succ hd) p hp

theorem AreOf.finishes : ∀ {xs : List Data} {vs : List Value} {d : Nat}, AreOf filed s low xs vs → heightAll xs ≤ d →
    ∀ v ∈ vs, v.Finishes s d
  | [], [], _, _, _, _, hv => absurd hv List.not_mem_nil
  | x :: xs, v :: vs, d, h, hd, u, hu => by
    have hd : max x.height (heightAll xs) ≤ d := hd
    rcases List.mem_cons.mp hu with rfl | hu
    · exact IsOf.finishes h.1 (by omega : x.height ≤ d)
    · exact AreOf.finishes h.2 (by omega : heightAll xs ≤ d) u hu
  | [], _ :: _, _, h, _, _, _ => h.elim
  | _ :: _, [], _, h, _, _, _ => h.elim

theorem EntriesAreOf.finishes : ∀ {xs : List (Data × Data)} {es : List (Key × Entry)} {d : Nat},
    EntriesAreOf filed s low xs es → heightEntries xs ≤ d → ∀ e ∈ es, e.2.key.Finishes s d ∧ e.2.value.Finishes s d
  | [], [], _, _, _, _, he => absurd he List.not_mem_nil
  | (k, x) :: xs, e :: es, d, h, hd, f, hf => by
    have hd : max (max k.height x.height) (heightEntries xs) ≤ d := hd
    rcases List.mem_cons.mp hf with rfl | hf
    · exact ⟨IsOf.finishes h.2.1 (by omega : k.height ≤ d), IsOf.finishes h.2.2.1 (by omega : x.height ≤ d)⟩
    · exact EntriesAreOf.finishes h.2.2.2 (by omega : heightEntries xs ≤ d) f hf
  | [], _ :: _, _, h, _, _, _ => h.elim
  | _ :: _, [], _, h, _, _, _ => h.elim

end

/-- A value of data comes back, if the data does. -/
theorem IsOf.comesBack (hv : IsOf (fun _ _ => True) s 0 x v) (hx : x.Recoverable) (hd : x.height ≤ d) :
    ∃ w s', v.ComesBack s d x w s' := by
  obtain ⟨w, s', hrun, hext, hw⟩ := exists_ofData hx.unmerged hd s
  have hv' : IsOf (fun _ _ => True) s' 0 x v := hv.grows hext (fun _ _ => trivial) (Nat.le_refl 0)
  exact ⟨w, s', hv.toData_eq hx.isPlain hx.unmerged hd, hrun, hext, hv', hw, hw.toData_eq hx.isPlain hx.unmerged hd,
    hv.inspect_eq hv' d, hv.inspect_eq hw d⟩

/-! ## The data of a value -/

/-- Values of data, one by one. -/
theorem exists_areOf {P : Data → Prop} : ∀ {vs : List Value}, (∀ v ∈ vs, ∃ x, IsOf filed s low x v ∧ P x) →
    ∃ xs, AreOf filed s low xs vs ∧ ∀ x ∈ xs, P x
  | [], _ => ⟨[], trivial, fun _ hx => absurd hx List.not_mem_nil⟩
  | v :: vs, h => by
    obtain ⟨x, hx, hP⟩ := h v List.mem_cons_self
    obtain ⟨xs, hxs, hPs⟩ := exists_areOf fun u hu => h u (List.mem_cons_of_mem v hu)
    exact ⟨x :: xs, ⟨hx, hxs⟩, List.forall_mem_cons.mpr ⟨hP, hPs⟩⟩

/-- Entries of data, one by one. -/
theorem exists_entriesAreOf {P Q : Data → Prop} : ∀ {es : List (Key × Entry)},
    (∀ e ∈ es, (∃ k, IsOf (fun _ _ => True) s low k e.2.key ∧ P k) ∧ ∃ x, IsOf (fun _ _ => True) s low x e.2.value ∧ Q x) →
    ∃ xs, EntriesAreOf (fun _ _ => True) s low xs es ∧ ∀ x ∈ xs, P x.1 ∧ Q x.2
  | [], _ => ⟨[], trivial, fun _ hx => absurd hx List.not_mem_nil⟩
  | e :: es, h => by
    obtain ⟨⟨k, hk, hP⟩, x, hx, hQ⟩ := h e List.mem_cons_self
    obtain ⟨xs, hxs, hPQ⟩ := exists_entriesAreOf fun f hf => h f (List.mem_cons_of_mem e hf)
    exact ⟨(k, x) :: xs, ⟨trivial, hk, hx, hxs⟩, List.forall_mem_cons.mpr ⟨⟨hP, hQ⟩, hPQ⟩⟩

/-- Every entry of a mapping belongs to one of the hash. -/
theorem EntriesAreOf.exists_of_mem : ∀ {xs : List (Data × Data)} {es : List (Key × Entry)}, EntriesAreOf filed s low xs es →
    ∀ x ∈ xs, ∃ e ∈ es, IsOf filed s low x.1 e.2.key
  | [], [], _, _, hx => absurd hx List.not_mem_nil
  | (k, x) :: xs, e :: es, h, y, hy => by
    rcases List.mem_cons.mp hy with rfl | hy
    · exact ⟨e, List.mem_cons_self, h.2.1⟩
    · obtain ⟨f, hf, hkey⟩ := EntriesAreOf.exists_of_mem h.2.2.2 y hy
      exact ⟨f, List.mem_cons_of_mem e hf, hkey⟩
  | [], _ :: _, h, _, _ => h.elim
  | _ :: _, [], h, _, _ => h.elim

/-- What holds of the keys of any two entries holds of the keys of the mapping. -/
theorem EntriesAreOf.pairwise {R : Data → Data → Prop} {r : Value → Value → Prop}
    (hR : ∀ k l v w, IsOf filed s low k v → IsOf filed s low l w → r v w → R k l) :
    ∀ {xs : List (Data × Data)} {es : List (Key × Entry)}, EntriesAreOf filed s low xs es →
      es.Pairwise (fun e f => r e.2.key f.2.key) → xs.Pairwise fun x y => R x.1 y.1
  | [], [], _, _ => .nil
  | (k, x) :: xs, e :: es, h, hr => by
    obtain ⟨he, hes⟩ := List.pairwise_cons.mp hr
    refine .cons (fun y hy => ?_) (EntriesAreOf.pairwise hR h.2.2.2 hes)
    obtain ⟨f, hf, hkey⟩ := h.2.2.2.exists_of_mem y hy
    exact hR k y.1 e.2.key f.2.key h.2.1 hkey (he f hf)
  | [], _ :: _, h, _ => h.elim
  | _ :: _, [], h, _ => h.elim

end

end Data

namespace Value

section

variable {s : Store} {P Q : Value → Prop} {v : Value}

/-- The value is nil, an integer, a text or an array. -/
def IsKeyPart : Value → Prop
  | nil | int _ | str _ | array _ => True
  | _ => False

/-- The value is in the store, no definition and not NaN, and the keys of a hash are made of nil, integers, texts and
arrays. -/
def Convertible (s : Store) : Value → Prop
  | float x => Binary64.ofFloat x ≠ .nan
  | array a => a < s.arrays.size
  | hash a => a < s.hashes.size ∧ ∀ e ∈ s.entries a, e.key.Throughout s IsKeyPart
  | procedure _ => False
  | _ => True

/-- If the value is a hash, no two of its keys are equal. -/
def KeysApart (s : Store) : Value → Prop
  | hash a => (s.hash a).entries.Pairwise fun p q => ¬ p.2.key.Equals s q.2.key
  | _ => True

/-- If the value is a hash, its entries are filed under the fingerprints that their keys have now. -/
def Filed (s : Store) : Value → Prop
  | hash a => ∀ p ∈ (s.hash a).entries, p.2.key.HasFingerprint s p.1
  | _ => True

theorem Throughout.and (h : v.Throughout s P) (h' : v.Throughout s Q) : v.Throughout s fun x => P x ∧ Q x := by
  induction h with
  | intro here _ ih => exact .intro ⟨here, h'.here⟩ fun x hx => ih x hx (h'.part hx)

/-- The key of a mapping that a key of a hash stands for. -/
theorem exists_isKey (hv : v.Throughout s fun x => x.IsKeyPart ∧ x.Convertible s) :
    ∃ k : Data, k.IsOf (fun _ _ => True) s 0 v ∧ k.IsKey := by
  induction hv with
  | @intro v here _ ih =>
    cases v with
    | nil => exact ⟨.null, trivial, trivial⟩
    | int n => exact ⟨.int n, rfl, trivial⟩
    | str t => exact ⟨.str t, rfl, trivial⟩
    | array a =>
      obtain ⟨ks, hks, hkeys⟩ := Data.exists_areOf fun x hx => ih x (Array.mem_toList_iff.mp hx)
      exact ⟨.tuple ks, ⟨here.2, hks⟩, Data.areKeys_iff.mpr hkeys⟩
    | bool _ => exact here.1.elim
    | float _ => exact here.1.elim
    | hash _ => exact here.1.elim
    | procedure _ => exact here.1.elim

/-- Keys with the same fingerprint are equal. -/
theorem equals_of_same_key {k l : Data} {w : Value} (hs : s.Keyed) (hv : k.IsOf (fun _ _ => True) s 0 v)
    (hw : l.IsOf (fun _ _ => True) s 0 w) (hk : k.IsKey) (hl : l.IsKey) (h : Key.same k.key l.key = true) : v.Equals s w :=
  (alike_of_same (hv.hasFingerprint hk) (hw.hasFingerprint hl) h).equals hs

/-- The data that a value is made of. -/
theorem exists_recoverable (hs : s.Keyed) (hv : v.Throughout s fun x => x.Convertible s ∧ x.KeysApart s) :
    ∃ x : Data, x.IsOf (fun _ _ => True) s 0 v ∧ x.Recoverable ∧ x.Everywhere Data.NotNaN := by
  induction hv with
  | @intro v here parts ih =>
    cases v with
    | nil => exact ⟨.null, trivial, ⟨trivial, trivial⟩, trivial⟩
    | bool b => exact ⟨.bool b, rfl, ⟨trivial, trivial⟩, trivial⟩
    | int n => exact ⟨.int n, rfl, ⟨trivial, trivial⟩, trivial⟩
    | float x => exact ⟨.float x, rfl, ⟨trivial, trivial⟩, here.1⟩
    | str t => exact ⟨.str t, rfl, ⟨trivial, trivial⟩, trivial⟩
    | procedure _ => exact here.1.elim
    | array a =>
      obtain ⟨xs, hxs, hall⟩ := Data.exists_areOf fun x hx => ih x (Array.mem_toList_iff.mp hx)
      exact ⟨.list xs, ⟨here.1, hxs⟩, recoverable_list fun x hx => (hall x hx).1, trivial,
        Data.everywhereAll_iff.mpr fun x hx => (hall x hx).2⟩
    | hash a =>
      obtain ⟨⟨hsize, hparts⟩, hapart⟩ := here
      have hkey (p : Key × Entry) (hp : p ∈ (s.hash a).entries) :
          ∃ k : Data, k.IsOf (fun _ _ => True) s 0 p.2.key ∧ k.IsKey := by
        have hin : s.IsIn p.2.key (hash a) := ⟨p.2, List.mem_map_of_mem hp, .inl rfl⟩
        exact exists_isKey ((hparts p.2 (List.mem_map_of_mem hp)).and ((parts _ hin).mono fun _ h => h.1))
      obtain ⟨xs, hxs, hall⟩ := Data.exists_entriesAreOf fun p hp =>
        ⟨hkey p hp, ih p.2.value ⟨p.2, List.mem_map_of_mem hp, .inr rfl⟩⟩
      have hkeys : xs.Pairwise fun x y => x.1.IsKey → y.1.IsKey → Key.same x.1.key y.1.key = false :=
        hxs.pairwise (R := fun k l => k.IsKey → l.IsKey → Key.same k.key l.key = false)
          (r := fun v w => ¬ v.Equals s w)
          (fun k l v w hv hw hne hk hl => Bool.eq_false_iff.mpr fun h => hne (equals_of_same_key hs hv hw hk hl h)) hapart
      have hunmerged : (Data.mapping xs).Unmerged :=
        hkeys.imp_of_mem fun hx hy h => h (hall _ hx).1 (hall _ hy).1
      refine ⟨.mapping xs, ⟨Nat.zero_le a, hsize, hxs⟩, ⟨?_, hunmerged, ?_⟩, trivial, ?_⟩
      · exact Data.entriesArePlain_iff.mpr fun x hx => ⟨(hall x hx).1, (hall x hx).2.1.isPlain⟩
      · exact Data.everywhereEntries_iff.mpr fun x hx => ⟨(hall x hx).1.unmerged, (hall x hx).2.1.unmerged⟩
      · exact Data.everywhereEntries_iff.mpr fun x hx => ⟨(hall x hx).1.notNaN, (hall x hx).2.2⟩

/-- Equal keys list no hashes, so they are in the same order. -/
theorem Equals.sameOrder {w : Value} (h : v.Equals s w) (hv : v.Throughout s IsKeyPart) : v.SameOrder s w := by
  induction h with
  | nil => exact .scalar trivial trivial
  | bool b => exact hv.here.elim
  | str t => exact .scalar trivial trivial
  | procedure a => exact hv.here.elim
  | @number x y m n hm hn _ =>
    refine .scalar ?_ ?_
    · cases x <;> trivial
    · cases y <;> trivial
  | array _ _ ih => exact .array fun i x y hx hy => ih i x y hx hy (hv.element (List.mem_of_getElem? hx))
  | hash => exact hv.here.elim

/-- Keys that are filed under different fingerprints are not equal. -/
theorem Filed.keysApart (hs : s.Keyed) (h : v.Filed s) (hv : v.Convertible s) : v.KeysApart s := by
  cases v with
  | hash a =>
    have hplain (p : Key × Entry) (hp : p ∈ (s.hash a).entries) : p.2.key.Throughout s Plain :=
      (hv.2 p.2 (List.mem_map_of_mem hp)).mono fun x hx => by cases x <;> first | exact hx.elim | trivial
    refine (List.pairwise_map.mp (hs a)).imp_of_mem fun {p q} hp hq hne hequals => ?_
    have horder := hequals.sameOrder (hv.2 p.2 (List.mem_map_of_mem hp))
    have hsame := same_of_alike (alike_of_equals hs (hplain p hp) (hplain q hq) hequals horder) (h p hp) (h q hq)
    exact Bool.false_ne_true (hne.symm.trans hsame)
  | _ => trivial

end

end Value

namespace Data

variable {s : Store} {low : Address}

mutual

/-- A value whose hashes are filed by content is filed as its data. -/
theorem IsOf.filed : ∀ {x : Data} {v : Value}, IsOf (fun _ _ => True) s low x v → x.IsPlain →
    v.Throughout s (Value.Filed s) → IsOf Eq s low x v
  | null, _, hv, _, _ => isOf_null.mpr (isOf_null.mp hv)
  | bool _, _, hv, _, _ => isOf_bool.mpr (isOf_bool.mp hv)
  | int _, _, hv, _, _ => isOf_int.mpr (isOf_int.mp hv)
  | float _, _, hv, _, _ => isOf_float.mpr (isOf_float.mp hv)
  | str _, _, hv, _, _ => isOf_str.mpr (isOf_str.mp hv)
  | list items, v, hv, hplain, hfiled => by
    obtain ⟨a, rfl, ha, hitems⟩ := isOf_list.mp hv
    exact isOf_list.mpr ⟨a, rfl, ha, AreOf.filed hitems hplain fun x hx => hfiled.element hx⟩
  | tuple _, _, _, hplain, _ => hplain.elim
  | mapping entries, v, hv, hplain, hfiled => by
    obtain ⟨a, rfl, ha, hsize, hentries⟩ := isOf_mapping.mp hv
    refine isOf_mapping.mpr ⟨a, rfl, ha, hsize, EntriesAreOf.filed hentries hplain fun p hp => ?_⟩
    exact ⟨hfiled.here p hp, hfiled.entry hp⟩

theorem AreOf.filed : ∀ {xs : List Data} {vs : List Value}, AreOf (fun _ _ => True) s low xs vs → ArePlain xs →
    (∀ v ∈ vs, v.Throughout s (Value.Filed s)) → AreOf Eq s low xs vs
  | [], [], _, _, _ => trivial
  | _ :: _, v :: _, h, hplain, hfiled => ⟨IsOf.filed h.1 hplain.1 (hfiled v List.mem_cons_self),
      AreOf.filed h.2 hplain.2 fun u hu => hfiled u (List.mem_cons_of_mem v hu)⟩
  | [], _ :: _, h, _, _ => h.elim
  | _ :: _, [], h, _, _ => h.elim

theorem EntriesAreOf.filed : ∀ {xs : List (Data × Data)} {es : List (Key × Entry)},
    EntriesAreOf (fun _ _ => True) s low xs es → EntriesArePlain xs →
    (∀ p ∈ es, p.2.key.HasFingerprint s p.1 ∧ p.2.value.Throughout s (Value.Filed s)) → EntriesAreOf Eq s low xs es
  | [], [], _, _, _ => trivial
  | (_, _) :: _, p :: _, h, hplain, hfiled => by
    obtain ⟨hkey, hvalue⟩ := hfiled p List.mem_cons_self
    exact ⟨hkey.unique (h.2.1.hasFingerprint hplain.1), h.2.1.of_isKey hplain.1, IsOf.filed h.2.2.1 hplain.2.1 hvalue,
      EntriesAreOf.filed h.2.2.2 hplain.2.2 fun q hq => hfiled q (List.mem_cons_of_mem p hq)⟩
  | [], _ :: _, h, _, _ => h.elim
  | _ :: _, [], h, _, _ => h.elim

end

end Data

theorem Store.Keyed.changes {s s' : Store} (hs : s.Keyed) (h : s.Changes s') : s'.Keyed := by
  induction h with
  | refl => exact hs
  | tail _ hlast ih => exact ih.change hlast

/-- A value that is filed by content and without NaN equals the one that comes back. -/
theorem Value.ComesBack.equal_eq {s s' : Store} {d : Nat} {v w : Value} {x : Data} (h : v.ComesBack s d x w s')
    (hs : s.Keyed) (hv : x.IsOf Eq s 0 v) (hnan : x.Everywhere Data.NotNaN) (hd : x.height ≤ d) :
    v.equal s' d w = .ok true := by
  have hchanges : s.Changes s' := by
    have hkeeps : Keeps s.Changes Impersonal (Value.ofData d x) := keeps_ofData_changes d x
    have hkept := hkeeps s .refl
    rw [h.ofData_eq] at hkept
    exact hkept
  have hv' : x.IsOf Eq s' 0 v := hv.grows h.kept (fun _ _ => trivial) (Nat.le_refl 0)
  have hequals : v.Equals s' w := (hv'.alike h.parts_of_second hnan).equals (hs.changes hchanges)
  obtain ⟨b, hb, htrue⟩ := (hv'.finishes hd).exists_equal w
  rw [hb, htrue.mpr hequals]

/-! ## Programs as values -/

/-- The builtin gives a value that is converted to the tree of the program. -/
theorem run_parse {source : String} {m : Machine} {tree : Syntax.Node} {next d : Nat}
    (h : Syntax.parseProgram source Syntax.anonymous [] (if m.debug then 1 else m.nextTemporary) = .ok (tree, next))
    (hd : tree.toData.height ≤ d) :
    ∃ w m', callBuiltin (d + 1) "minruby_parse" [.str source] m = .ok w m' ∧ w.toData m'.store d = .ok tree.toData := by
  have htree : tree.toData.Recoverable :=
    (Syntax.Node.isTree_toData (Syntax.proper_of_parseProgram h)).recoverable
  let name := Builtin.parse.name
  let args := [Value.str source]
  let line := s!"Calling builtin {name} with {args.length} arguments"
  have hcall : callBuiltin (d + 1) name args m = (do Eval.trace line; Builtin.runParse d (.str source)) m := rfl
  let m₁ := { m with output := if m.debug then .traced (line ++ "\n") :: m.output else m.output }
  obtain ⟨m₂, hparse, -⟩ := run_parseProgram (m := m₁) h
  obtain ⟨w, s', hrun, -, hw⟩ := Data.exists_ofData htree.unmerged hd m₂.store
  refine ⟨w, { m₂ with store := s' }, ?_, hw.toData_eq htree.isPlain htree.unmerged hd⟩
  refine hcall.trans ?_
  rw [run_trace_bind, Builtin.runParse, run_bind hparse, Eval.onStore, hrun]

/-! ## The results -/

/-- The tree of a program comes back from its value, also from the one that a program is given for another one. A finite value
without NaN and definitions, the keys of whose hashes are made of nil, integers, texts and arrays, comes back if no two keys of
a hash are equal; in particular if the hashes are filed by content, and then it equals what comes back. -/
theorem conversion_there_and_back :
    (∀ (source filename : String) (known : List String) (counter next : Nat) (tree : Syntax.Node),
      Syntax.parseProgram source filename known counter = .ok (tree, next) → ∀ d ≥ tree.toData.height, ∀ s,
        ∃ w s', Value.ofData d tree.toData s = .ok w s' ∧ w.toData s' d = .ok tree.toData) ∧
    (∀ (source : String) (m : Machine) (next : Nat) (tree : Syntax.Node),
      Syntax.parseProgram source Syntax.anonymous [] (if m.debug then 1 else m.nextTemporary) = .ok (tree, next) →
        ∀ d ≥ tree.toData.height, ∃ w m', callBuiltin (d + 1) "minruby_parse" [.str source] m = .ok w m' ∧
          w.toData m'.store d = .ok tree.toData) ∧
    ∀ (s : Store) (v : Value), s.Keyed → v.Throughout s (Value.Convertible s) →
      (v.Throughout s (Value.KeysApart s) → ∃ x : Data, ∀ d ≥ x.height, ∃ w s', v.ComesBack s d x w s') ∧
      (v.Throughout s (Value.Filed s) → ∃ x : Data, ∀ d ≥ x.height, ∃ w s', v.ComesBack s d x w s' ∧
        v.equal s' d w = .ok true) := by
  refine ⟨fun source filename known counter next tree h d hd s => ?_, fun source m next tree h d hd => run_parse h hd,
    fun s v hs hv => ⟨fun hapart => ?_, fun hfiled => ?_⟩⟩
  · have htree : tree.toData.Recoverable :=
      (Syntax.Node.isTree_toData (Syntax.proper_of_parseProgram h)).recoverable
    obtain ⟨w, s', hrun, -, hw⟩ := Data.exists_ofData htree.unmerged hd s
    exact ⟨w, s', hrun, hw.toData_eq htree.isPlain htree.unmerged hd⟩
  · obtain ⟨x, hx, hrecoverable, -⟩ := Value.exists_recoverable hs (hv.and hapart)
    exact ⟨x, fun d hd => hx.comesBack hrecoverable hd⟩
  · have hapart : v.Throughout s fun x => x.Convertible s ∧ x.KeysApart s :=
      (hv.and hfiled).mono fun x h => ⟨h.1, h.2.keysApart hs h.1⟩
    obtain ⟨x, hx, hrecoverable, hnan⟩ := Value.exists_recoverable hs hapart
    refine ⟨x, fun d hd => ?_⟩
    obtain ⟨w, s', hback⟩ := hx.comesBack hrecoverable hd
    exact ⟨w, s', hback, hback.equal_eq hs (hx.filed hrecoverable.isPlain hfiled) hnan hd⟩

/-- An array, and a hash with an entry under that array and one under nil. -/
def arrayKeyed : Store where
  arrays := #[#[.int 1, .str "k"]]
  hashes := #[⟨[(.array [.int 1, .str "k"], ⟨.array 0, .float 0.5⟩), (.nil, ⟨.nil, .bool true⟩)]⟩]

theorem arrayKeyed_keyed : arrayKeyed.Keyed := by
  intro a
  match a with
  | 0 => decide
  | a + 1 => exact OrderedTable.distinct_empty

theorem notNaN_half : Binary64.ofFloat 0.5 ≠ .nan := by
  intro h
  have hfinite : (match Binary64.ofFloat 0.5 with | .nan => true | _ => false) = false := by decide +kernel
  rw [h] at hfinite
  cases hfinite

/-- What holds of the hash, the array and the scalars in them holds throughout. -/
theorem throughout_arrayKeyed {P : Value → Prop} (hhash : P (.hash 0)) (harray : P (.array 0))
    (hscalar : ∀ v : Value, v.IsScalar → v.Convertible arrayKeyed → P v) : (Value.hash 0).Throughout arrayKeyed P := by
  have scalar (v : Value) (hv : v.IsScalar) (h : v.Convertible arrayKeyed) : v.Throughout arrayKeyed P :=
    Value.throughout_of_isScalar hv (hscalar v hv h)
  have array : (Value.array 0).Throughout arrayKeyed P := by
    refine .intro harray fun x hx => ?_
    rcases List.mem_pair.mp (Array.mem_toList_iff.mpr hx) with rfl | rfl <;> exact scalar _ trivial trivial
  refine .intro hhash ?_
  rintro x ⟨e, he, hx⟩
  rcases List.mem_pair.mp he with rfl | rfl
  · rcases hx with rfl | rfl
    · exact array
    · exact scalar _ trivial notNaN_half
  · rcases hx with rfl | rfl <;> exact scalar _ trivial trivial

/-- A program, and a hash one of whose keys is an array. -/
theorem program_and_hash_come_back :
    (∃ next tree, Syntax.parseProgram "a = [-1, 0.5]\np(a)" Syntax.anonymous [] 1 = .ok (tree, next) ∧
      (∀ d ≥ tree.toData.height, ∀ s, ∃ w s', Value.ofData d tree.toData s = .ok w s' ∧ w.toData s' d = .ok tree.toData) ∧
      ∀ d ≥ tree.toData.height, ∃ w m', callBuiltin (d + 1) "minruby_parse" [.str "a = [-1, 0.5]\np(a)"] {} = .ok w m' ∧
        w.toData m'.store d = .ok tree.toData) ∧
    (∃ x : Data, ∀ d ≥ x.height, ∃ w s', (Value.hash 0).ComesBack arrayKeyed d x w s') ∧
    ∃ x : Data, ∀ d ≥ x.height, ∃ w s', (Value.hash 0).ComesBack arrayKeyed d x w s' ∧
      (Value.hash 0).equal s' d w = .ok true := by
  obtain ⟨htree, hbuiltin, hvalue⟩ := conversion_there_and_back
  have hparts : ∀ e ∈ arrayKeyed.entries 0, e.key.Throughout arrayKeyed Value.IsKeyPart := by
    intro e he
    have array : (Value.array 0).Throughout arrayKeyed Value.IsKeyPart := by
      refine .intro trivial fun x hx => ?_
      rcases List.mem_pair.mp (Array.mem_toList_iff.mpr hx) with rfl | rfl <;>
        exact Value.throughout_of_isScalar trivial trivial
    rcases List.mem_pair.mp he with rfl | rfl
    · exact array
    · exact Value.throughout_of_isScalar trivial trivial
  have hconvertible : (Value.hash 0).Throughout arrayKeyed (Value.Convertible arrayKeyed) :=
    throughout_arrayKeyed ⟨by decide, hparts⟩ (show 0 < 1 by decide) fun _ _ h => h
  have hfiled : (Value.hash 0).Throughout arrayKeyed (Value.Filed arrayKeyed) := by
    refine throughout_arrayKeyed (fun p hp => ?_) trivial fun v hv _ => by cases v <;> trivial
    rcases List.mem_pair.mp hp with rfl | rfl
    · exact Value.hasFingerprint_of_fingerprint (d := 1) rfl
    · exact .nil
  have hapart : (Value.hash 0).Throughout arrayKeyed (Value.KeysApart arrayKeyed) :=
    (hconvertible.and hfiled).mono fun v h => h.2.keysApart arrayKeyed_keyed h.1
  have hback := hvalue arrayKeyed (.hash 0) arrayKeyed_keyed hconvertible
  refine ⟨?_, hback.1 hapart, hback.2 hfiled⟩
  have hok : (Syntax.parseProgram "a = [-1, 0.5]\np(a)" Syntax.anonymous [] 1).isOk = true := by decide +kernel
  cases hparse : Syntax.parseProgram "a = [-1, 0.5]\np(a)" Syntax.anonymous [] 1 with
  | error e =>
    rw [hparse] at hok
    cases hok
  | ok r =>
    obtain ⟨tree, next⟩ := r
    exact ⟨next, tree, rfl, htree _ _ _ _ _ tree hparse, hbuiltin _ {} next tree hparse⟩

/-- Two arrays with the same element, and a hash with an entry under each; the second array was stored as another key. -/
def changedKeys : Store where
  arrays := #[#[.int 1], #[.int 1]]
  hashes := #[⟨[(.array [.int 1], ⟨.array 0, .int 1⟩), (.array [.int 2], ⟨.array 1, .int 2⟩)]⟩]

theorem changedKeys_throughout {P : Value → Prop} (hhash : P (.hash 0)) (harray : ∀ a < 2, P (.array a))
    (hint : ∀ n, P (.int n)) : (Value.hash 0).Throughout changedKeys P := by
  have scalar (n : Int) : (Value.int n).Throughout changedKeys P := Value.throughout_of_isScalar trivial (hint n)
  refine .intro hhash ?_
  rintro x ⟨e, he, hx⟩
  rcases List.mem_pair.mp he with rfl | rfl
  · rcases hx with rfl | rfl
    · refine .intro (harray 0 (by decide)) fun x hx => ?_
      exact List.mem_singleton.mp (Array.mem_toList_iff.mpr hx) ▸ scalar 1
    · exact scalar 1
  · rcases hx with rfl | rfl
    · refine .intro (harray 1 (by decide)) fun x hx => ?_
      exact List.mem_singleton.mp (Array.mem_toList_iff.mpr hx) ▸ scalar 1
    · exact scalar 2

/-- The two entries are one in the data, and what comes back has another text and is not equal. -/
theorem entries_of_changed_keys_merged : changedKeys.Keyed ∧
    (Value.hash 0).Throughout changedKeys (Value.Convertible changedKeys) ∧
    ∃ w s', (Value.hash 0).toData changedKeys 2 = .ok (.mapping [(.tuple [.int 1], .int 2)]) ∧
      Value.ofData 2 (.mapping [(.tuple [.int 1], .int 2)]) changedKeys = .ok w s' ∧
      (Value.hash 0).inspect s' 2 = .ok "\x7b[1] => 1, [1] => 2\x7d" ∧ w.inspect s' 2 = .ok "\x7b[1] => 2\x7d" ∧
      (Value.hash 0).equal s' 2 w = .ok false := by
  have hkeyed : changedKeys.Keyed := by
    intro a
    match a with
    | 0 => decide
    | a + 1 => exact OrderedTable.distinct_empty
  have hparts : ∀ e ∈ changedKeys.entries 0, e.key.Throughout changedKeys Value.IsKeyPart := by
    intro e he
    rcases List.mem_pair.mp he with rfl | rfl
    · exact .intro trivial fun x hx =>
        List.mem_singleton.mp (Array.mem_toList_iff.mpr hx) ▸ Value.throughout_of_isScalar trivial trivial
    · exact .intro trivial fun x hx =>
        List.mem_singleton.mp (Array.mem_toList_iff.mpr hx) ▸ Value.throughout_of_isScalar trivial trivial
  have hok {x : Except Limit String} {t : String} (h : x.toOption = some t) : x = .ok t := by
    cases x with
    | error e => cases h
    | ok u => exact congrArg Except.ok (Option.some.inj h)
  refine ⟨hkeyed, changedKeys_throughout ⟨by decide, hparts⟩ (fun a ha => ha) fun _ => trivial, _, _, rfl, rfl, ?_, ?_, rfl⟩
  · exact hok (by decide +kernel)
  · exact hok (by decide +kernel)

end MinRuby
