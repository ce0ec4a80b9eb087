/-!
# Tables in order of first insertion

An association list in which every key stands once, in the order in which the keys were first
inserted. The environments of a program, its hashes and the mappings of plain data are such tables.

* `find?_insert_self`, `find?_insert_of_ne` — a look-up after an insertion.
* `keys_insert` — an insertion appends a new key and keeps the place of an old one.
-/

namespace MinRuby

/-- A table from `κ` to `α` in order of first insertion. -/
structure OrderedTable (κ α : Type) where
  entries : List (κ × α) := []

namespace OrderedTable

variable {κ α : Type} [BEq κ]

/-- The table without entries. -/
def empty : OrderedTable κ α := ⟨[]⟩

instance : EmptyCollection (OrderedTable κ α) := ⟨empty⟩

instance : Inhabited (OrderedTable κ α) := ⟨empty⟩

/-- The value under a key. -/
def find? (t : OrderedTable κ α) (k : κ) : Option α := t.entries.lookup k

/-- Whether the key has a value. -/
def contains (t : OrderedTable κ α) (k : κ) : Bool := t.entries.any (·.1 == k)

/-- The keys, in order. -/
def keys (t : OrderedTable κ α) : List κ := t.entries.map (·.1)

/-- The values, in the order of their keys. -/
def values (t : OrderedTable κ α) : List α := t.entries.map (·.2)

/-- The number of entries. -/
def size (t : OrderedTable κ α) : Nat := t.entries.length

/-- Replaces the value of the first entry with the key, and appends an entry if there is none. -/
def insertInto (k : κ) (v : α) : List (κ × α) → List (κ × α)
  | [] => [(k, v)]
  | (k', v') :: rest => if k == k' then (k', v) :: rest else (k', v') :: insertInto k v rest

/-- Gives the key a new value. A key that is already there keeps its place and its first spelling. -/
def insert (t : OrderedTable κ α) (k : κ) (v : α) : OrderedTable κ α := ⟨insertInto k v t.entries⟩

/-- The table with the given entries inserted one after the other. -/
def ofList (entries : List (κ × α)) : OrderedTable κ α :=
  entries.foldl (fun t e => t.insert e.1 e.2) empty

@[simp] theorem find?_empty (k : κ) : (empty : OrderedTable κ α).find? k = none := rfl

theorem find?_insert_self [LawfulBEq κ] (t : OrderedTable κ α) (k : κ) (v : α) :
    (t.insert k v).find? k = some v := by
  obtain ⟨entries⟩ := t
  simp only [insert, find?]
  induction entries with
  | nil => simp [insertInto]
  | cons e rest ih =>
    obtain ⟨k₀, v₀⟩ := e
    simp only [insertInto]
    by_cases h : k = k₀
    · simp [h]
    · have h' : (k == k₀) = false := by simpa using h
      simp [h', List.lookup_cons, ih]

theorem find?_insert_of_ne [LawfulBEq κ] (t : OrderedTable κ α) {k k' : κ} (v : α) (hk : k' ≠ k) :
    (t.insert k v).find? k' = t.find? k' := by
  obtain ⟨entries⟩ := t
  simp only [insert, find?]
  induction entries with
  | nil =>
    have : (k' == k) = false := by simpa using hk
    simp [insertInto, List.lookup_cons, this]
  | cons e rest ih =>
    obtain ⟨k₀, v₀⟩ := e
    simp only [insertInto]
    by_cases h : k = k₀
    · have h' : (k' == k₀) = false := by simpa [← h] using hk
      simp [h, List.lookup_cons, h']
    · have h' : (k == k₀) = false := by simpa using h
      simp only [h', Bool.false_eq_true, ↓reduceIte, List.lookup_cons]
      split <;> simp [ih]

theorem keys_insert [LawfulBEq κ] (t : OrderedTable κ α) (k : κ) (v : α) :
    (t.insert k v).keys = if k ∈ t.keys then t.keys else t.keys ++ [k] := by
  obtain ⟨entries⟩ := t
  simp only [insert, keys]
  induction entries with
  | nil => simp [insertInto]
  | cons e rest ih =>
    simp only [insertInto]
    by_cases h : k = e.1
    · simp [h]
    · have h' : (k == e.1) = false := by simpa using h
      simp only [h', Bool.false_eq_true, ↓reduceIte, List.map_cons, ih, List.mem_cons, h, false_or]
      by_cases hm : k ∈ rest.map (·.1)
      · simp only [hm, ↓reduceIte]
      · simp only [hm, ↓reduceIte, List.cons_append]

end OrderedTable

end MinRuby
