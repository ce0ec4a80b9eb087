import MinRuby.Data.Printer
import MinRuby.Proofs.Numeric.FloatText
import MinRuby.Proofs.Syntax.Vocabulary
import MinRuby.Proofs.Text.Quoted

/-!
# Printed scalars and names

The kind of a scalar shows in the first character of its text, or in whether there are digits only, and the text tells
scalars of one kind apart. A list of names is put together from quoted texts, each of which ends where its quote does.

* `text_scalar_injective` — scalars with one text.
* `namesText_injective` — lists of names with one text.
* `feed_not_mem_text_scalar`, `feed_not_mem_namesText` — their texts are on one line.
-/

namespace MinRuby.Data

open MinRuby.Numeric (AllDigits FloatLayout text_plain_injective toList_text_plain isFloatChar Binary64)
open MinRuby.Text (quoted quotes quoteFor_mem quoted_injective quoted_append_inj feed_not_mem_quoted)

/-! ## Scalars -/

theorem toList_text_str (s : String) : (str s).text.toList = quoted s.toList := String.toList_ofList

theorem toList_text_int (n : Int) : (int n).text.toList =
    if n < 0 then '-' :: Nat.toDigits 10 n.natAbs else Nat.toDigits 10 n.natAbs := by
  cases n with
  | ofNat n =>
    have hnonneg : ¬ Int.ofNat n < 0 := Int.not_lt.mpr (Int.natCast_nonneg n)
    rw [if_neg hnonneg]
    exact Nat.toList_repr
  | negSucc n =>
    have hrepr : (int (.negSucc n)).text = "-" ++ (n + 1).repr := rfl
    rw [if_pos (Int.negSucc_lt_zero n), hrepr, String.toList_append, Nat.toList_repr]
    rfl

/-- The kinds of scalars. -/
inductive ScalarKind where
  | null | bool | int | float | str
deriving DecidableEq

/-- The kind of a scalar. -/
def scalarKind : Data → ScalarKind
  | null => .null
  | bool _ => .bool
  | int _ => .int
  | float _ => .float
  | _ => .str

/-- The kind of the scalar with a given text. -/
def textKind (text : List Char) : ScalarKind :=
  if text.head? = some 'N' then .null
  else if text.head? = some 'T' ∨ text.head? = some 'F' then .bool
  else if text.head?.any quotes.contains then .str
  else if text.all fun x => x.isDigit || x == '-' then .int
  else .float

/-- A text of digits, signs and the like is one of a number. -/
theorem textKind_of_number {text : List Char} (h : ∀ x ∈ text, isFloatChar x = true) :
    textKind text = if text.all fun x => x.isDigit || x == '-' then .int else .float := by
  have hhead (y : Char) (hy : isFloatChar y = false) : text.head? ≠ some y := fun heq => by
    rw [h y (List.mem_of_head? heq)] at hy
    cases hy
  have hquote : text.head?.any quotes.contains = false := by
    cases htext : text.head? with
    | none => rfl
    | some x =>
      rw [Option.any_some, ← Bool.not_eq_true, List.contains_iff_mem]
      intro hx
      have hchar := h x (List.mem_of_head? htext)
      revert hx hchar
      simp only [quotes, List.mem_cons, List.not_mem_nil, or_false]
      rintro (rfl | rfl) hchar <;> exact absurd hchar (by decide)
  rw [textKind, if_neg (hhead 'N' (by decide)), if_neg (not_or.mpr ⟨hhead 'T' (by decide), hhead 'F' (by decide)⟩), hquote,
    if_neg Bool.false_ne_true]

theorem textKind_int (n : Int) : textKind (int n).text.toList = .int := by
  have hdigits : AllDigits (Nat.toDigits 10 n.natAbs) := Numeric.allDigits_toDigits _
  have hchars : ∀ x ∈ (int n).text.toList, (x.isDigit || x == '-') = true := by
    rw [toList_text_int]
    split
    · exact List.forall_mem_cons.mpr ⟨rfl, fun x hx => by rw [hdigits x hx, Bool.true_or]⟩
    · exact fun x hx => by rw [hdigits x hx, Bool.true_or]
  have hnumber : ∀ x ∈ (int n).text.toList, isFloatChar x = true := fun x hx => by
    rcases Bool.or_eq_true_iff.mp (hchars x hx) with h | h
    · rw [isFloatChar, h, Bool.true_or]
    · rw [eq_of_beq h]
      decide
  rw [textKind_of_number hnumber, if_pos (List.all_eq_true.mpr hchars)]

theorem textKind_float (x : Float) : textKind (float x).text.toList = .float := by
  obtain ⟨hchars, c, hc, hmark⟩ := Numeric.chars_text_plain x
  have hfloat : (float x).text.toList = (FloatLayout.plain.text x).toList := rfl
  have hnot : ∀ c ∈ ['.', 'e', 'n'], ¬ (c.isDigit || c == '-') = true := by simp
  rw [hfloat, textKind_of_number hchars, if_neg fun hall => hnot c hmark (List.all_eq_true.mp hall c hc)]

/-- A text that begins with a quoted one is one of a string. -/
theorem textKind_quoted (s rest : List Char) : textKind (quoted s ++ rest) = .str := by
  have hhead : (quoted s ++ rest).head? = some (Text.quoteFor s) := rfl
  have hquote := quoteFor_mem s
  have hother : ∀ q ∈ quotes, q ≠ 'N' ∧ q ≠ 'T' ∧ q ≠ 'F' := by simp [quotes]
  obtain ⟨hN, hT, hF⟩ := hother _ hquote
  rw [textKind, hhead, if_neg (fun h => hN (Option.some.inj h)),
    if_neg (not_or.mpr ⟨fun h => hT (Option.some.inj h), fun h => hF (Option.some.inj h)⟩), Option.any_some,
    if_pos (List.contains_iff_mem.mpr hquote)]

theorem textKind_str (s : String) : textKind (str s).text.toList = .str := by
  rw [toList_text_str, ← List.append_nil (quoted s.toList)]
  exact textKind_quoted s.toList []

/-- The text of a scalar shows its kind. -/
theorem textKind_text {d : Data} (h : d.IsScalar) : textKind d.text.toList = d.scalarKind := by
  cases d with
  | null => rfl
  | bool b => cases b <;> rfl
  | int n => exact textKind_int n
  | float x => exact textKind_float x
  | str s => exact textKind_str s
  | list _ | tuple _ | mapping _ => exact h.elim

theorem text_int_injective {m n : Int} (h : (int m).text = (int n).text) : m = n := by
  have hsign {k : Nat} {rest : List Char} : Nat.toDigits 10 k ≠ '-' :: rest := fun heq =>
    (Numeric.allDigits_toDigits k).not_mem (by decide) (heq ▸ List.mem_cons_self : '-' ∈ Nat.toDigits 10 k)
  have hdigits {k l : Nat} (heq : Nat.toDigits 10 k = Nat.toDigits 10 l) : k = l := by
    rw [← Nat.ofDigitChars_ten_toDigits (n := k), heq, Nat.ofDigitChars_ten_toDigits]
  have hlist := congrArg String.toList h
  rw [toList_text_int, toList_text_int] at hlist
  split at hlist <;> split at hlist
  · have := hdigits (List.cons.inj hlist).2
    omega
  · exact absurd hlist.symm hsign
  · exact absurd hlist hsign
  · have := hdigits hlist
    omega

/-- Scalars with one text are the same. -/
theorem text_scalar_injective {d e : Data} (hd : d.IsScalar) (he : e.IsScalar) (h : d.text = e.text) : d = e := by
  have hkind : d.scalarKind = e.scalarKind := by rw [← textKind_text hd, h, textKind_text he]
  cases d <;> cases e <;> first | exact hd.elim | exact he.elim | cases hkind
  case null.null => rfl
  case bool.bool b c =>
    cases b <;> cases c <;> first | rfl | exact absurd h (by decide)
  case int.int m n => rw [text_int_injective h]
  case float.float x y => rw [text_plain_injective h]
  case str.str s t =>
    have hquoted := congrArg String.toList h
    rw [toList_text_str, toList_text_str] at hquoted
    rw [String.toList_inj.mp (quoted_injective hquoted)]

/-- The text of a scalar is on one line. -/
theorem feed_not_mem_text_scalar {d : Data} (h : d.IsScalar) : '\n' ∉ d.text.toList := by
  have hnumber {text : List Char} (h : ∀ x ∈ text, isFloatChar x = true) : '\n' ∉ text := fun hx =>
    absurd (h _ hx) (by decide)
  cases d with
  | null => decide
  | bool b => cases b <;> decide
  | int n =>
    have hdigits : AllDigits (Nat.toDigits 10 n.natAbs) := Numeric.allDigits_toDigits _
    rw [toList_text_int]
    split
    · exact List.not_mem_cons_of_ne_of_not_mem (by decide) (hdigits.not_mem (by decide))
    · exact hdigits.not_mem (by decide)
  | float x => exact hnumber (Numeric.chars_text_plain x).1
  | str s =>
    rw [toList_text_str]
    exact feed_not_mem_quoted _
  | list _ | tuple _ | mapping _ => exact h.elim

/-! ## Lists of names -/

/-- What stands behind a name of a list: the other names, each after a comma, and the bracket. -/
def laterNames : List String → List Char
  | [] => [']']
  | s :: rest => ',' :: ' ' :: (quoted s.toList ++ laterNames rest)

/-- The text of a list of names. -/
def namesText : List String → List Char
  | [] => ['[', ']']
  | s :: rest => '[' :: (quoted s.toList ++ laterNames rest)

theorem texts_eq_map (ds : List Data) : texts ds = ds.map text := by
  induction ds with
  | nil => rfl
  | cons d rest ih => exact congrArg (d.text :: ·) ih

theorem toList_text_names (names : List String) : (list (names.map str)).text.toList = namesText names := by
  have hlater (s : String) : ∀ rest : List String,
      ([',', ' '].intercalate ((str s).text.toList :: rest.map fun t => (str t).text.toList)) ++ [']'] =
        quoted s.toList ++ laterNames rest := by
    intro rest
    induction rest generalizing s with
    | nil =>
      rw [List.map_nil, List.intercalate_singleton, toList_text_str]
      rfl
    | cons t rest ih =>
      rw [List.map_cons, List.intercalate_cons_cons, List.append_assoc, List.append_assoc, ih t, toList_text_str]
      rfl
  have htext : (list (names.map str)).text = "[" ++ ", ".intercalate (texts (names.map str)) ++ "]" := rfl
  have hinner : (texts (names.map str)).map String.toList = names.map fun t => (str t).text.toList := by
    rw [texts_eq_map, List.map_map, List.map_map]
    rfl
  rw [htext, String.toList_append, String.toList_append, String.toList_intercalate, hinner]
  cases names with
  | nil => rfl
  | cons s rest => exact congrArg ('[' :: ·) (hlater s rest)

theorem laterNames_injective : ∀ {xs ys : List String}, laterNames xs = laterNames ys → xs = ys
  | [], [], _ => rfl
  | [], _ :: _, h | _ :: _, [], h => absurd (List.cons.inj h).1 (by decide)
  | x :: xs, y :: ys, h => by
    obtain ⟨hname, hrest⟩ := quoted_append_inj (List.cons.inj (List.cons.inj h).2).2
    rw [String.toList_inj.mp hname, laterNames_injective hrest]

/-- Lists of names with one text are the same. -/
theorem namesText_injective {xs ys : List String} (h : namesText xs = namesText ys) : xs = ys := by
  have hopen {s : String} {w : List Char} : quoted s.toList ++ w ≠ [']'] := fun heq =>
    absurd ((List.cons.inj heq).1 ▸ quoteFor_mem s.toList : ']' ∈ quotes) (by decide)
  match xs, ys with
  | [], [] => rfl
  | [], y :: ys => exact absurd (List.cons.inj h).2.symm hopen
  | x :: xs, [] => exact absurd (List.cons.inj h).2 hopen
  | x :: xs, y :: ys =>
    obtain ⟨hname, hrest⟩ := quoted_append_inj (List.cons.inj h).2
    rw [String.toList_inj.mp hname, laterNames_injective hrest]

/-- The text of a list of names is on one line. -/
theorem feed_not_mem_namesText (names : List String) : '\n' ∉ namesText names := by
  have hlater : ∀ names, '\n' ∉ laterNames names := by
    intro names
    induction names with
    | nil => decide
    | cons s rest ih => simp [laterNames, feed_not_mem_quoted, ih]
  cases names with
  | nil => decide
  | cons s rest => simp [namesText, feed_not_mem_quoted, hlater]

end MinRuby.Data
