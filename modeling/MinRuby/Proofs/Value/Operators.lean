import MinRuby.Proofs.Value.Equality
import MinRuby.Value.Operators
import Mathlib.Algebra.Order.Ring.Int
import Mathlib.Algebra.Ring.Parity

/-!
# The table of the operators

Which operands each operator takes, and what it gives for them. Integers stay exact among themselves, division rounds down,
and the remainder has the sign of the divisor. A sequence is repeated if neither the count nor the length of the result is
beyond any length.

* `Value.OperatorTable` — the table, row by row.
* `Value.operatorTable` — it holds of every store.
* `Value.repetition_beyond_length` — a count that may be too large for two characters.
-/

namespace MinRuby

/-! ## Integers -/

namespace Numeric

/-- The treatment of single bases does not change the power. -/
theorem intPow_eq (base : Int) (exponent : Nat) : intPow base exponent = base ^ exponent := by
  have hsize : ((Nat.pow base.natAbs exponent : Nat) : Int) = |base| ^ exponent := by
    rw [Int.abs_eq_natAbs]
    exact Nat.cast_pow _ _
  unfold intPow
  rw [hsize]
  split_ifs with hzero hexponent hone hminus heven hneg
  · rw [hexponent, pow_zero]
  · rw [hzero, zero_pow hexponent]
  · rw [hone, one_pow]
  · rw [hminus, Even.neg_one_pow (Nat.even_iff.mpr heven)]
  · rw [hminus, Odd.neg_one_pow (Nat.odd_iff.mpr (Nat.mod_two_ne_zero.mp heven))]
  · rw [abs_of_neg hneg.1, Odd.neg_pow (Nat.odd_iff.mpr hneg.2), neg_neg]
  · rcases le_or_gt 0 base with hbase | hbase
    · rw [abs_of_nonneg hbase]
    · have heven : Even exponent := Nat.even_iff.mpr (Nat.mod_two_ne_one.mp fun h => hneg ⟨hbase, h⟩)
      rw [abs_of_neg hbase, heven.neg_pow]

/-- The remainder is zero or on the side of zero of the divisor, and closer to zero than the divisor. -/
theorem fmod_bounds (m : Int) {n : Int} (hn : n ≠ 0) :
    (m.fmod n = 0 ∨ (m.fmod n).sign = n.sign) ∧ (m.fmod n).natAbs < n.natAbs := by
  rcases Int.lt_or_gt_of_ne hn with hneg | hpos
  · have hnonneg := Int.fmod_nonneg_of_pos (-m) (Int.neg_pos.mpr hneg)
    have hlt := Int.fmod_lt_of_pos (-m) (Int.neg_pos.mpr hneg)
    rw [Int.neg_fmod_neg] at hnonneg hlt
    refine ⟨?_, by omega⟩
    rcases Int.lt_or_eq_of_le hnonneg with hr | hr
    · exact .inr ((Int.sign_eq_neg_one_of_neg (by omega)).trans (Int.sign_eq_neg_one_of_neg hneg).symm)
    · exact .inl (by omega)
  · have hnonneg := Int.fmod_nonneg_of_pos m hpos
    have hlt := Int.fmod_lt_of_pos m hpos
    refine ⟨?_, by omega⟩
    rcases Int.lt_or_eq_of_le hnonneg with hr | hr
    · exact .inr ((Int.sign_eq_one_of_pos hr).trans (Int.sign_eq_one_of_pos hpos).symm)
    · exact .inl hr.symm

end Numeric

namespace Value

open Numeric (Number ArithmeticError)
open Syntax (BinaryOp)

section

variable {s : Store} {d : Nat} {op : BinaryOp} {x y : Value} {a b : Number}

/-! ## Two numbers, and other operands -/

/-- The operator fails with an error of the class that names it. -/
def Raises (s : Store) (d : Nat) (op : BinaryOp) (x y : Value) (c : ErrorClass) : Prop :=
  ∃ e, apply d op x y s = .error (.runtime e) s ∧ e.errorClass = c ∧ e.site = op.symbol

theorem apply_eq {b : Bool} (h : x.equal s d y = .ok b) : apply d .eq x y s = .ok (bool b) s := by
  show (do return bool (← (x.equal s d y : Except Limit Bool)) : StoreM Value) s = _
  rw [h]
  rfl

theorem apply_numbers {v : Value} (hop : op ≠ .eq) (hx : x.number? = some a) (hy : y.number? = some b)
    (h : onNumbers op a b = .ok v) : apply d op x y s = .ok v s := by
  unfold apply
  split
  · exact absurd rfl hop
  · rw [hx, hy]
    simp only [h]
    rfl

theorem apply_numbers_error {e : ArithmeticError} (hop : op ≠ .eq) (hx : x.number? = some a) (hy : y.number? = some b)
    (h : onNumbers op a b = .error e) : apply d op x y s = .error (.runtime (arithmeticError op e)) s := by
  unfold apply
  split
  · exact absurd rfl hop
  · rw [hx, hy]
    simp only [h]
    rfl

theorem apply_others (hop : op ≠ .eq) (h : ¬ (x.isNumeric ∧ y.isNumeric)) : apply d op x y s = onOthers op x y s := by
  unfold apply
  split
  · exact absurd rfl hop
  · cases hx : x.number? with
    | none => rfl
    | some a =>
      cases hy : y.number? with
      | none => rfl
      | some b => exact absurd ⟨congrArg Option.isSome hx, congrArg Option.isSome hy⟩ h

/-- Both operands are strings. -/
def AreStrings (x y : Value) : Prop := ∃ t u, x = str t ∧ y = str u

/-- Both operands are arrays. -/
def AreArrays (x y : Value) : Prop := ∃ a b, x = array a ∧ y = array b

/-- The operands are a string or an array, and an integer. -/
def AreRepeated (x y : Value) : Prop := ∃ n, y = int n ∧ ((∃ t, x = str t) ∨ ∃ a, x = array a)

/-- Of other values than two numbers only these are operands of an operator. -/
theorem onOthers_eq (hjoin : op = .add → ¬ x.AreStrings y ∧ ¬ x.AreArrays y) (hrepeat : op = .mul → ¬ x.AreRepeated y)
    (horder : op ∈ [BinaryOp.lt, .le, .ge, .gt] → ¬ x.AreStrings y) :
    onOthers op x y s = .error (.runtime (.badOperands op.symbol x.kind y.kind)) s := by
  unfold onOthers
  split
  · exact absurd ⟨_, _, rfl, rfl⟩ (hjoin rfl).1
  · exact absurd ⟨_, _, rfl, rfl⟩ (hjoin rfl).2
  · exact absurd ⟨_, rfl, .inl ⟨_, rfl⟩⟩ (hrepeat rfl)
  · exact absurd ⟨_, rfl, .inr ⟨_, rfl⟩⟩ (hrepeat rfl)
  · exact absurd ⟨_, _, rfl, rfl⟩ (horder (by simp))
  · exact absurd ⟨_, _, rfl, rfl⟩ (horder (by simp))
  · exact absurd ⟨_, _, rfl, rfl⟩ (horder (by simp))
  · exact absurd ⟨_, _, rfl, rfl⟩ (horder (by simp))
  · rfl

theorem raises_mismatch (hop : op ≠ .eq) (h : ¬ (x.isNumeric ∧ y.isNumeric))
    (hjoin : op = .add → ¬ x.AreStrings y ∧ ¬ x.AreArrays y) (hrepeat : op = .mul → ¬ x.AreRepeated y)
    (horder : op ∈ [BinaryOp.lt, .le, .ge, .gt] → ¬ x.AreStrings y) : Raises s d op x y .typeMismatch :=
  ⟨_, (apply_others hop h).trans (onOthers_eq hjoin hrepeat horder), rfl, rfl⟩

/-! ## Repetition -/

theorem repeated_eq {α : Type} {items : List α} {count : Int} (hcount : 0 ≤ count) (hmax : count ≤ maxLength)
    (hlength : items.length * count ≤ maxLength) : repeated items count = .ok (List.replicate count.toNat items).flatten := by
  unfold repeated
  rw [if_neg (Int.not_lt.mpr hcount), if_neg (not_or.mpr ⟨Int.not_lt.mpr hmax, Int.not_lt.mpr hlength⟩)]
  split
  · next hempty => simp [List.isEmpty_iff.mp hempty]
  · rfl

theorem repeated_beyond {α : Type} {items : List α} {count : Int} (hcount : 0 ≤ count)
    (h : (maxLength : Int) < count ∨ (maxLength : Int) < items.length * count) :
    repeated items count = .error (.limit .count) := by
  unfold repeated
  rw [if_neg (Int.not_lt.mpr hcount), if_pos h]

theorem apply_mul_str (t : String) (n : Int) : apply d .mul (str t) (int n) s = match repeated t.toList n with
    | .ok items => .ok (str (String.ofList items)) s
    | .error e => .error e s := by
  show (do return str (String.ofList (← repeated t.toList n)) : StoreM Value) s = _
  cases repeated t.toList n <;> rfl

theorem apply_mul_array (a : Address) (n : Int) : apply d .mul (array a) (int n) s = match repeated (s.array a).toList n with
    | .ok items => .ok (s.newArray items.toArray).1 (s.newArray items.toArray).2
    | .error e => .error e s := by
  show (do
    let items ← repeated (s.array a).toList n
    modifyGet fun s => s.newArray items.toArray : StoreM Value) s = _
  cases repeated (s.array a).toList n <;> rfl

/-! ## Order -/

/-- Both are numbers or both are strings. -/
def Comparable (x y : Value) : Prop := (x.isNumeric ∧ y.isNumeric) ∨ x.AreStrings y

theorem apply_order (hop : op ∈ [BinaryOp.lt, .le, .ge, .gt]) (h : x.Comparable y) : ∃ b, apply d op x y s = .ok (bool b) s := by
  have hne : op ≠ .eq := by
    rintro rfl
    simp at hop
  rcases h with ⟨hx, hy⟩ | ⟨t, u, rfl, rfl⟩
  · obtain ⟨a, hx⟩ := Option.isSome_iff_exists.mp hx
    obtain ⟨b, hy⟩ := Option.isSome_iff_exists.mp hy
    have hresult : ∃ c, onNumbers op a b = .ok (bool c) := by
      simp only [List.mem_cons, List.not_mem_nil, or_false] at hop
      rcases hop with rfl | rfl | rfl | rfl <;> exact ⟨_, rfl⟩
    obtain ⟨c, hc⟩ := hresult
    exact ⟨c, apply_numbers hne hx hy hc⟩
  · simp only [List.mem_cons, List.not_mem_nil, or_false] at hop
    rcases hop with rfl | rfl | rfl | rfl <;> exact ⟨_, rfl⟩

end

/-! ## The table -/

/-- What the operators give for values in a store. -/
structure OperatorTable (s : Store) : Prop where
  /-- Any two values without cycles can be compared for equality. -/
  equality (x y : Value) (hx : ∀ z, s.IsWithin z x → ¬ Relation.TransGen s.IsIn z z) :
    ∃ D, ∀ d ≥ D, ∃ b, apply d .eq x y s = .ok (bool b) s ∧ (b = true ↔ x.Equals s y)
  /-- Two numbers have an order, and two strings. -/
  order (d : Nat) (op : BinaryOp) (hop : op ∈ [BinaryOp.lt, .le, .ge, .gt]) (x y : Value) :
    ((∃ b, apply d op x y s = .ok (bool b) s) ↔ x.Comparable y) ∧ (¬ x.Comparable y → Raises s d op x y .typeMismatch)
  /-- Arithmetic is for numbers. -/
  arithmetic (d : Nat) (op : BinaryOp) (hop : op ∈ [BinaryOp.sub, .div, .mod, .pow]) (x y : Value)
    (h : ¬ (x.isNumeric ∧ y.isNumeric)) : Raises s d op x y .typeMismatch
  /-- Strings and arrays are joined. -/
  join_strings (d : Nat) (t u : String) : apply d .add (str t) (str u) s = .ok (str (t ++ u)) s
  join_arrays (d : Nat) (a b : Address) : apply d .add (array a) (array b) s =
    .ok (s.newArray (s.array a ++ s.array b)).1 (s.newArray (s.array a ++ s.array b)).2
  join_others (d : Nat) (x y : Value) (h : ¬ (x.isNumeric ∧ y.isNumeric)) (hstrings : ¬ x.AreStrings y)
    (harrays : ¬ x.AreArrays y) : Raises s d .add x y .typeMismatch
  /-- Strings and arrays are repeated, unless that is too long. -/
  repeat_string (d : Nat) (t : String) (n : Int) (hn : 0 ≤ n) (hmax : n ≤ maxLength) (hlength : t.length * n ≤ maxLength) :
    apply d .mul (str t) (int n) s = .ok (str (String.ofList (List.replicate n.toNat t.toList).flatten)) s
  repeat_array (d : Nat) (a : Address) (n : Int) (hn : 0 ≤ n) (hmax : n ≤ maxLength)
    (hlength : (s.array a).size * n ≤ maxLength) :
    let items := (List.replicate n.toNat (s.array a).toList).flatten.toArray
    apply d .mul (array a) (int n) s = .ok (s.newArray items).1 (s.newArray items).2
  repeat_beyond (d : Nat) (n : Int) (hn : 0 ≤ n) :
    (∀ t : String, (maxLength : Int) < n ∨ (maxLength : Int) < t.length * n →
      apply d .mul (str t) (int n) s = .error (.limit .count) s) ∧
    ∀ a, (maxLength : Int) < n ∨ (maxLength : Int) < (s.array a).size * n →
      apply d .mul (array a) (int n) s = .error (.limit .count) s
  repeat_negative (d : Nat) (x : Value) (n : Int) (hx : (∃ t, x = str t) ∨ ∃ a, x = array a) (hn : n < 0) :
    Raises s d .mul x (int n) .typeMismatch
  repeat_others (d : Nat) (x y : Value) (h : ¬ (x.isNumeric ∧ y.isNumeric)) (hrepeat : ¬ x.AreRepeated y) :
    Raises s d .mul x y .typeMismatch
  /-- Sums, differences and products of integers are exact. -/
  int_exact (d : Nat) (m n : Int) : apply d .add (int m) (int n) s = .ok (int (m + n)) s ∧
    apply d .sub (int m) (int n) s = .ok (int (m - n)) s ∧ apply d .mul (int m) (int n) s = .ok (int (m * n)) s
  /-- Integers are not divided by zero. -/
  int_div_zero (d : Nat) (op : BinaryOp) (hop : op ∈ [BinaryOp.div, .mod]) (m : Int) :
    Raises s d op (int m) (int 0) .divisionByZero
  /-- The quotient and the remainder of integers. -/
  int_div_mod (d : Nat) (m n : Int) (hn : n ≠ 0) : ∃ q r, apply d .div (int m) (int n) s = .ok (int q) s ∧
    apply d .mod (int m) (int n) s = .ok (int r) s ∧ m = q * n + r ∧ (r = 0 ∨ r.sign = n.sign) ∧ r.natAbs < n.natAbs
  /-- Powers of integers, exact unless the exponent is negative. -/
  int_pow (d : Nat) (m : Int) (n : Nat) : apply d .pow (int m) (int n) s = .ok (int (m ^ n)) s
  int_pow_negative (d : Nat) (m n : Int) (hm : m ≠ 0) (hn : n < 0) : ∃ z, apply d .pow (int m) (int n) s = .ok (float z) s
  int_pow_zero (d : Nat) (n : Int) (hn : n < 0) : Raises s d .pow (int 0) (int n) .divisionByZero
  /-- With a float among the numbers there is always a quotient and a remainder. -/
  float_div_mod (d : Nat) (op : BinaryOp) (hop : op ∈ [BinaryOp.div, .mod]) (x y : Value) (hx : x.isNumeric) (hy : y.isNumeric)
    (hfloat : x.kind = .float ∨ y.kind = .float) : ∃ z, apply d op x y s = .ok (float z) s

/-- The table holds of every store. -/
theorem operatorTable (s : Store) : OperatorTable s where
  equality x y hx := by
    obtain ⟨D, hD⟩ := exists_equal (acc_of_acyclic hx)
    refine ⟨D, fun d hd => ?_⟩
    obtain ⟨b, hb, hequals⟩ := hD d hd y
    exact ⟨b, apply_eq hb, hequals⟩
  order d op hop x y := by
    have hraises (h : ¬ x.Comparable y) : Raises s d op x y .typeMismatch := by
      simp only [List.mem_cons, List.not_mem_nil, or_false] at hop
      rcases hop with rfl | rfl | rfl | rfl <;>
        exact raises_mismatch (by simp) (fun hn => h (.inl hn)) (by simp) (by simp) fun _ hs => h (.inr hs)
    refine ⟨⟨?_, apply_order hop⟩, hraises⟩
    rintro ⟨b, hb⟩
    by_contra h
    obtain ⟨e, he, -⟩ := hraises h
    rw [hb] at he
    cases he
  arithmetic d op hop x y h := by
    simp only [List.mem_cons, List.not_mem_nil, or_false] at hop
    rcases hop with rfl | rfl | rfl | rfl <;> exact raises_mismatch (by simp) h (by simp) (by simp) (by simp)
  join_strings d t u := rfl
  join_arrays d a b := rfl
  join_others d x y h hstrings harrays :=
    raises_mismatch (by simp) h (fun _ => ⟨hstrings, harrays⟩) (by simp) (by simp)
  repeat_string d t n hn hmax hlength := by
    rw [apply_mul_str, repeated_eq hn hmax (by rwa [String.length_toList])]
  repeat_array d a n hn hmax hlength := by
    rw [apply_mul_array, repeated_eq hn hmax (by rwa [Array.length_toList])]
  repeat_beyond d n hn := by
    refine ⟨fun t h => ?_, fun a h => ?_⟩
    · rw [apply_mul_str, repeated_beyond hn (by rwa [String.length_toList])]
    · rw [apply_mul_array, repeated_beyond hn (by rwa [Array.length_toList])]
  repeat_negative d x n hx hn := by
    have hrepeated {α : Type} (items : List α) : repeated items n = blame .negativeCount := if_pos hn
    refine ⟨.negativeCount, ?_, rfl, rfl⟩
    rcases hx with ⟨t, rfl⟩ | ⟨a, rfl⟩
    · rw [apply_mul_str, hrepeated]
      rfl
    · rw [apply_mul_array, hrepeated]
      rfl
  repeat_others d x y h hrepeat := raises_mismatch (by simp) h (by simp) (fun _ => hrepeat) (by simp)
  int_exact d m n := ⟨rfl, rfl, rfl⟩
  int_div_zero d op hop m := by
    simp only [List.mem_cons, List.not_mem_nil, or_false] at hop
    rcases hop with rfl | rfl <;> exact ⟨_, apply_numbers_error (by simp) rfl rfl rfl, rfl, rfl⟩
  int_div_mod d m n hn := by
    refine ⟨m.fdiv n, m.fmod n, ?_, ?_, (Int.fdiv_mul_add_fmod m n).symm, Numeric.fmod_bounds m hn⟩
    · exact apply_numbers (by simp) rfl rfl (congrArg (ofNumber <$> ·) (if_neg hn))
    · exact apply_numbers (by simp) rfl rfl (congrArg (ofNumber <$> ·) (if_neg hn))
  int_pow d m n := by
    have hpow : (Number.int m).pow (.int n) = .ok (.int (m ^ n)) := by
      rw [Number.pow, if_pos (Int.natCast_nonneg n), Int.toNat_natCast, Numeric.intPow_eq]
    exact apply_numbers (by simp) rfl rfl (congrArg (ofNumber <$> ·) hpow)
  int_pow_negative d m n hm hn := by
    have hpow : (Number.int m).pow (.int n) = .ok (.float ((Numeric.ofInt m).pow (Numeric.ofInt n))) := by
      rw [Number.pow, if_neg (Int.not_le.mpr hn), if_neg hm]
    exact ⟨_, apply_numbers (by simp) rfl rfl (congrArg (ofNumber <$> ·) hpow)⟩
  int_pow_zero d n hn := by
    have hpow : (Number.int 0).pow (.int n) = .error .divisionByZero := by
      rw [Number.pow, if_neg (Int.not_le.mpr hn), if_pos rfl]
    exact ⟨_, apply_numbers_error (by simp) rfl rfl (congrArg (ofNumber <$> ·) hpow), rfl, rfl⟩
  float_div_mod d op hop x y hx hy hfloat := by
    have hne : op ≠ .eq := by
      rintro rfl
      simp at hop
    obtain ⟨a, ha⟩ := Option.isSome_iff_exists.mp hx
    obtain ⟨b, hb⟩ := Option.isSome_iff_exists.mp hy
    have hresult : ∃ z, onNumbers op a b = .ok (float z) := by
      simp only [List.mem_cons, List.not_mem_nil, or_false] at hop
      cases a with
      | float z => rcases hop with rfl | rfl <;> exact ⟨_, rfl⟩
      | int m =>
        cases b with
        | float z => rcases hop with rfl | rfl <;> exact ⟨_, rfl⟩
        | int n =>
          -- neither of the two is a float
          cases x <;> cases ha
          cases y <;> cases hb
          simp [kind] at hfloat
    obtain ⟨z, hz⟩ := hresult
    exact ⟨z, apply_numbers hne ha hb hz⟩

/-- Two characters cannot be repeated as often as the largest count says. -/
theorem repetition_beyond_length : ∃ n : Int, 0 ≤ n ∧ n ≤ 2 ^ 63 - 1 ∧
    ∀ d s, apply d .mul (str "ab") (int n) s = .error (.limit .count) s := by
  refine ⟨maxLength, by decide, by decide, fun d s => ?_⟩
  rw [apply_mul_str, repeated_beyond (by decide) (.inr (by decide))]

end Value

end MinRuby
