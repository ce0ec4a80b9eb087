import MinRuby.Text.Lines
import Mathlib.Data.List.Basic

/-!
# Lines of put together texts

A text has one line more than it has line feeds, and none of its lines holds one. So the lines that are put together with
line feeds between them, or behind them, are the lines of the text that results.

* `splitLines_append` — the lines above and below a line feed.
* `splitLines_intercalate`, `splitLines_flatMap` — lines that are put together.
-/

namespace MinRuby.Text

theorem length_splitLines (text : List Char) : (splitLines text).length = text.count '\n' + 1 := by
  induction text with
  | nil => rfl
  | cons x rest ih =>
    obtain ⟨line, lines, hlines⟩ := List.exists_cons_of_ne_nil (splitLines_ne_nil rest)
    rw [hlines] at ih
    by_cases hx : x = '\n'
    · simp only [splitLines, hx, hlines, if_true, List.length_cons, List.count_cons_self] at ih ⊢
      omega
    · simp only [splitLines, hx, hlines, if_false, List.length_cons, List.count_cons_of_ne hx] at ih ⊢
      exact ih

theorem head?_splitLines (text : List Char) : (splitLines text).head? = some (text.takeWhile (· ≠ '\n')) := by
  induction text with
  | nil => rfl
  | cons x rest ih =>
    obtain ⟨line, lines, hlines⟩ := List.exists_cons_of_ne_nil (splitLines_ne_nil rest)
    rw [hlines] at ih
    by_cases hx : x = '\n'
    · simp [splitLines, hx]
    · simp [splitLines, hx, hlines, Option.some.inj ih]

theorem splitLines_append (above below : List Char) :
    splitLines (above ++ '\n' :: below) = splitLines above ++ splitLines below := by
  induction above with
  | nil => simp [splitLines]
  | cons x above ih =>
    obtain ⟨line, lines, hlines⟩ := List.exists_cons_of_ne_nil (splitLines_ne_nil above)
    by_cases hx : x = '\n' <;> simp [splitLines, hx, ih, hlines]

theorem splitLines_replicate_append (n : Nat) (rest : List Char) :
    splitLines (List.replicate n '\n' ++ rest) = List.replicate n [] ++ splitLines rest := by
  induction n with
  | zero => rfl
  | succ n ih => rw [List.replicate_succ, List.cons_append, splitLines, if_pos rfl, ih, List.replicate_succ, List.cons_append]

theorem splitLines_of_not_mem {line : List Char} (h : '\n' ∉ line) : splitLines line = [line] := by
  induction line with
  | nil => rfl
  | cons c rest ih =>
    obtain ⟨hc, hrest⟩ := not_or.mp (fun hor => h (List.mem_cons.mpr hor))
    rw [splitLines, if_neg (Ne.symm hc), ih hrest]

theorem feed_not_mem_of_mem_splitLines {text line : List Char} (h : line ∈ splitLines text) : '\n' ∉ line := by
  induction text generalizing line with
  | nil =>
    rw [splitLines, List.mem_singleton] at h
    rw [h]
    exact List.not_mem_nil
  | cons c rest ih =>
    obtain ⟨first, lines, hlines⟩ := List.exists_cons_of_ne_nil (splitLines_ne_nil rest)
    rw [hlines] at ih
    by_cases hc : c = '\n'
    · rw [splitLines, if_pos hc, hlines] at h
      rcases List.mem_cons.mp h with rfl | h
      · exact List.not_mem_nil
      · exact ih h
    · rw [splitLines, if_neg hc, hlines] at h
      rcases List.mem_cons.mp h with rfl | h
      · exact List.not_mem_cons_of_ne_of_not_mem (Ne.symm hc) (ih List.mem_cons_self)
      · exact ih (List.mem_cons_of_mem first h)

/-- Lines that each end in a line feed. -/
theorem splitLines_flatMap {ls : List (List Char)} (h : ∀ l ∈ ls, '\n' ∉ l) :
    splitLines (ls.flatMap (· ++ ['\n'])) = ls ++ [[]] := by
  induction ls with
  | nil => rfl
  | cons l rest ih =>
    obtain ⟨hl, hrest⟩ := List.forall_mem_cons.mp h
    rw [List.flatMap_cons, List.append_assoc, List.singleton_append, splitLines_append, splitLines_of_not_mem hl, ih hrest]
    rfl

/-- Lines with line feeds between them. -/
theorem splitLines_intercalate {ls : List (List Char)} (hne : ls ≠ []) (h : ∀ l ∈ ls, '\n' ∉ l) :
    splitLines (['\n'].intercalate ls) = ls := by
  induction ls with
  | nil => exact absurd rfl hne
  | cons l rest ih =>
    obtain ⟨hl, hrest⟩ := List.forall_mem_cons.mp h
    cases rest with
    | nil => rw [List.intercalate_singleton, splitLines_of_not_mem hl]
    | cons l' rest =>
      rw [List.intercalate_cons_cons, List.append_assoc, List.singleton_append, splitLines_append, splitLines_of_not_mem hl,
        ih (List.cons_ne_nil _ _) hrest]
      rfl

end MinRuby.Text
