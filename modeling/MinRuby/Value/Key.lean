import MinRuby.Numeric.Number

/-!
# Fingerprints of keys

A hash finds an entry by the fingerprint that its key had when it was stored. Fingerprints of
different types differ, `1` and `1.0` as much as `1` and `"1"`; the two zeros among the floats are the
same key. The fingerprint of a hash keeps the order of its entries.

* `Key.same_symm`, `Key.same_trans` — being the same key is a partial equivalence; only NaN is not even
  the same as itself.
-/

namespace MinRuby

open MinRuby.Numeric (Number)

/-- The fingerprint of a value. -/
inductive Key where
  | nil
  | bool (b : Bool)
  | int (n : Int)
  | float (x : Float)
  | str (s : String)
  | array (items : List Key)
  /-- The fingerprints of the keys and of the values. -/
  | hash (entries : List (Key × Key))

namespace Key

mutual

/-- Whether two fingerprints are the same. -/
def same : Key → Key → Bool
  | nil, nil => true
  | bool a, bool b => a = b
  | int a, int b => a = b
  | float x, float y => (Number.float x).equal (.float y)
  | str s, str t => s = t
  | array xs, array ys => sameAll xs ys
  | hash xs, hash ys => sameEntries xs ys
  | _, _ => false

/-- Whether two sequences of fingerprints are the same. -/
def sameAll : List Key → List Key → Bool
  | [], [] => true
  | x :: xs, y :: ys => same x y && sameAll xs ys
  | _, _ => false

/-- Whether two sequences of entries are the same. -/
def sameEntries : List (Key × Key) → List (Key × Key) → Bool
  | [], [] => true
  | (k, v) :: xs, (k', v') :: ys => same k k' && same v v' && sameEntries xs ys
  | _, _ => false

end

instance : BEq Key := ⟨same⟩

mutual

theorem same_symm : ∀ {a b : Key}, same a b = true → same b a = true
  | nil, b, h => by cases b <;> simp_all [same]
  | bool _, b, h => by cases b <;> simp_all [same]
  | int _, b, h => by cases b <;> simp_all [same]
  | float _, float _, h => by
    simp only [same, Number.equal_iff] at h ⊢
    exact h.imp fun _ h => h.symm
  | float _, nil, h | float _, bool _, h | float _, int _, h | float _, str _, h
  | float _, array _, h | float _, hash _, h => by simp [same] at h
  | str _, b, h => by cases b <;> simp_all [same]
  | array xs, b, h => by
    cases b with
    | array ys => simp only [same] at h ⊢; exact sameAll_symm h
    | _ => simp [same] at h
  | hash xs, b, h => by
    cases b with
    | hash ys => simp only [same] at h ⊢; exact sameEntries_symm h
    | _ => simp [same] at h

theorem sameAll_symm : ∀ {xs ys : List Key}, sameAll xs ys = true → sameAll ys xs = true
  | [], [], _ => rfl
  | x :: xs, y :: ys, h => by
    simp only [sameAll, Bool.and_eq_true] at h ⊢
    exact ⟨same_symm h.1, sameAll_symm h.2⟩
  | [], _ :: _, h | _ :: _, [], h => by simp [sameAll] at h

theorem sameEntries_symm : ∀ {xs ys : List (Key × Key)}, sameEntries xs ys = true →
    sameEntries ys xs = true
  | [], [], _ => rfl
  | (k, v) :: xs, (k', v') :: ys, h => by
    simp only [sameEntries, Bool.and_eq_true] at h ⊢
    exact ⟨⟨same_symm h.1.1, same_symm h.1.2⟩, sameEntries_symm h.2⟩
  | [], _ :: _, h | _ :: _, [], h => by simp [sameEntries] at h

end

mutual

theorem same_trans : ∀ {a b c : Key}, same a b = true → same b c = true → same a c = true
  | nil, b, c, h, h' => by cases b <;> cases c <;> simp_all [same]
  | bool _, b, c, h, h' => by cases b <;> cases c <;> simp_all [same]
  | int _, b, c, h, h' => by cases b <;> cases c <;> simp_all [same]
  | float _, b, c, h, h' => by
    cases b with
    | float _ =>
      cases c with
      | float _ =>
        simp only [same, Number.equal_iff] at h h' ⊢
        obtain ⟨s, hx, hy⟩ := h
        obtain ⟨t, hy', hz⟩ := h'
        exact ⟨s, hx, by rw [hz, ← hy', hy]⟩
      | _ => simp [same] at h'
    | _ => simp [same] at h
  | str _, b, c, h, h' => by cases b <;> cases c <;> simp_all [same]
  | array xs, b, c, h, h' => by
    cases b with
    | array ys =>
      cases c with
      | array zs => simp only [same] at h h' ⊢; exact sameAll_trans h h'
      | _ => simp [same] at h'
    | _ => simp [same] at h
  | hash xs, b, c, h, h' => by
    cases b with
    | hash ys =>
      cases c with
      | hash zs => simp only [same] at h h' ⊢; exact sameEntries_trans h h'
      | _ => simp [same] at h'
    | _ => simp [same] at h

theorem sameAll_trans : ∀ {xs ys zs : List Key}, sameAll xs ys = true → sameAll ys zs = true →
    sameAll xs zs = true
  | [], [], _, _, h' => h'
  | x :: xs, y :: ys, z :: zs, h, h' => by
    simp only [sameAll, Bool.and_eq_true] at h h' ⊢
    exact ⟨same_trans h.1 h'.1, sameAll_trans h.2 h'.2⟩
  | [], _ :: _, _, h, _ | _ :: _, [], _, h, _ => by simp [sameAll] at h
  | _ :: _, _ :: _, [], _, h' => by simp [sameAll] at h'

theorem sameEntries_trans : ∀ {xs ys zs : List (Key × Key)}, sameEntries xs ys = true →
    sameEntries ys zs = true → sameEntries xs zs = true
  | [], [], _, _, h' => h'
  | (k, v) :: xs, (k', v') :: ys, (k'', v'') :: zs, h, h' => by
    simp only [sameEntries, Bool.and_eq_true] at h h' ⊢
    exact ⟨⟨same_trans h.1.1 h'.1.1, same_trans h.1.2 h'.1.2⟩, sameEntries_trans h.2 h'.2⟩
  | [], _ :: _, _, h, _ | _ :: _, [], _, h, _ => by simp [sameEntries] at h
  | _ :: _, _ :: _, [], _, h' => by simp [sameEntries] at h'

end

instance : PartialEquivBEq Key where
  symm := same_symm
  trans := same_trans

end Key

end MinRuby
