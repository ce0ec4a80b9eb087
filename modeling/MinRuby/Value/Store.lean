import MinRuby.OrderedTable
import MinRuby.Syntax.Node
import MinRuby.Value.Basic
import MinRuby.Value.Key

/-!
# The store

Where the arrays, hashes and procedures of a run live. Addresses count up from zero, and nothing is
ever removed. A hash is a table from fingerprints to entries in the order of first insertion; storing
under a key that is there replaces the key and the value, but not the place.

* `Store.newArray`, `Store.newHash`, `Store.newProcedure` — a fresh address with the given content.
* `Store.updateArray`, `Store.updateHash` — a changed content at an address.
-/

namespace MinRuby

/-- A definition: its name, the names of the parameters, and the body. -/
structure Procedure where
  name : String
  params : List String
  body : Syntax.Node

/-- An entry of a hash, the key in the form in which it was stored last. -/
structure Entry where
  key : Value
  value : Value

/-- The content of a hash. -/
abbrev HashTable := OrderedTable Key Entry

/-- The arrays, hashes and procedures of a run. -/
structure Store where
  arrays : Array (Array Value) := #[]
  hashes : Array HashTable := #[]
  procedures : Array Procedure := #[]

namespace Store

instance : Inhabited Store := ⟨{}⟩

/-- The elements of an array. -/
def array (s : Store) (a : Address) : Array Value := s.arrays[a]?.getD #[]

/-- The entries of a hash. -/
def hash (s : Store) (a : Address) : HashTable := s.hashes[a]?.getD .empty

/-- The entries of a hash as a list. -/
def entries (s : Store) (a : Address) : List Entry := (s.hash a).values

/-- The procedure at an address. -/
def procedure? (s : Store) (a : Address) : Option Procedure := s.procedures[a]?

/-- The store with one more array, and its value. -/
def newArray (s : Store) (items : Array Value) : Value × Store :=
  (.array s.arrays.size, { s with arrays := s.arrays.push items })

/-- The store with one more hash, and its value. -/
def newHash (s : Store) (table : HashTable) : Value × Store :=
  (.hash s.hashes.size, { s with hashes := s.hashes.push table })

/-- The store with one more procedure, and its address. -/
def newProcedure (s : Store) (p : Procedure) : Address × Store :=
  (s.procedures.size, { s with procedures := s.procedures.push p })

/-- The store with a changed array. -/
def updateArray (s : Store) (a : Address) (f : Array Value → Array Value) : Store :=
  { s with arrays := s.arrays.modify a f }

/-- The store with a changed hash. -/
def updateHash (s : Store) (a : Address) (f : HashTable → HashTable) : Store :=
  { s with hashes := s.hashes.modify a f }

end Store

end MinRuby
