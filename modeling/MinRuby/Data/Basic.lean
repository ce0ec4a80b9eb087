import MinRuby.Numeric.Number
import MinRuby.OrderedTable

/-!
# Plain data

The form in which trees and values leave and enter the interpreter: scalars, sequences and mappings.
A key of a mapping is a scalar or a tuple of such, and two keys are the same when they compare equal,
so that `1`, `1.0` and `true` are one key.
-/

namespace MinRuby

open MinRuby.Numeric (Number)

/-- Plain data. -/
inductive Data where
  | null
  | bool (b : Bool)
  | int (n : Int)
  | float (x : Float)
  | str (s : String)
  | list (items : List Data)
  /-- A sequence that serves as a key. -/
  | tuple (items : List Data)
  /-- A mapping in insertion order. -/
  | mapping (entries : List (Data × Data))

namespace Data

instance : Inhabited Data := ⟨null⟩

/-- The number that a scalar compares as; truth values are zero and one. -/
def number? : Data → Option Number
  | bool b => some (.int (if b then 1 else 0))
  | int n => some (.int n)
  | float x => some (.float x)
  | _ => none

mutual

/-- Whether two keys are the same key of a mapping. -/
def sameKey : Data → Data → Bool
  | null, null => true
  | str s, str t => s == t
  | tuple xs, tuple ys => sameKeys xs ys
  | a, b =>
    match a.number?, b.number? with
    | some m, some n => m.equal n
    | _, _ => false

/-- Whether two sequences hold the same keys one by one. -/
def sameKeys : List Data → List Data → Bool
  | [], [] => true
  | x :: xs, y :: ys => sameKey x y && sameKeys xs ys
  | _, _ => false

end

/-- Puts an entry into a mapping. The key of the first insertion stays, with its place; the value of
the last one counts. -/
def insertEntry (key value : Data) : List (Data × Data) → List (Data × Data)
  | [] => [(key, value)]
  | (k, v) :: rest => if k.sameKey key then (k, value) :: rest else (k, v) :: insertEntry key value rest

/-- The mapping that arises when the entries are put in one after the other. -/
def mappingOf (entries : List (Data × Data)) : Data :=
  mapping (entries.foldl (fun d e => insertEntry e.1 e.2 d) [])

mutual

/-- The data in the form in which it can be a key, every list a tuple; `none` if it holds a mapping. -/
def frozen? : Data → Option Data
  | list items => (frozenAll? items).map tuple
  | tuple items => (frozenAll? items).map tuple
  | mapping _ => none
  | d => some d

/-- The members of a sequence in the form in which they can be in a key. -/
def frozenAll? : List Data → Option (List Data)
  | [] => some []
  | d :: rest =>
    match d.frozen?, frozenAll? rest with
    | some d, some rest => some (d :: rest)
    | _, _ => none

end

end Data

end MinRuby
