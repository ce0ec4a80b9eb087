import MinRuby.Value.Indexing

/-!
# Values and plain data

Plain data becomes a value with arrays and hashes of its own, and a value becomes plain data again if
it does not contain itself. On the way back the keys of a hash become keys of a mapping, where `1`,
`1.0` and `true` are one key, and a key that is or holds a hash is refused.
-/

namespace MinRuby

namespace Value

mutual

/-- The value that plain data stands for. -/
def ofData (depth : Nat) : Data → StoreM Value
  | .null => return nil
  | .bool b => return bool b
  | .int n => return int n
  | .float x => return float x
  | .str t => return str t
  | .list items => do
    let items ← ofDataAll depth items
    modifyGet (·.newArray items.toArray)
  | .tuple items => do
    let items ← ofDataAll depth items
    modifyGet (·.newArray items.toArray)
  | .mapping entries => do
    let table ← modifyGet (·.newHash .empty)
    assignEntries depth table entries
    return table

/-- The values that the members of a sequence stand for. -/
def ofDataAll (depth : Nat) : List Data → StoreM (List Value)
  | [] => return []
  | d :: rest => do return (← ofData depth d) :: (← ofDataAll depth rest)

/-- Puts the entries of a mapping into a hash. -/
def assignEntries (depth : Nat) (table : Value) : List (Data × Data) → StoreM Unit
  | [] => return ()
  | (k, v) :: rest => do
    let k ← ofData depth k
    let v ← ofData depth v
    assign depth table k v
    assignEntries depth table rest

end

end Value

/-- A definition as plain data. -/
def Procedure.toData (p : Procedure) : Data :=
  .mapping [
    (.str "value", .mapping [
      (.str "name", .str p.name),
      (.str "params", .list (p.params.map .str)),
      (.str "body", p.body.toData)]),
    (.str "type", .str Kind.userDefined.name)]

namespace Value

/-- The plain data that a value stands for. -/
def toData (s : Store) : Nat → Value → Except Limit Data
  | _, nil => .ok .null
  | _, bool b => .ok (.bool b)
  | _, int n => .ok (.int n)
  | _, float x => .ok (.float x)
  | _, str t => .ok (.str t)
  | depth + 1, array a => do return .list (← (s.array a).toList.mapM (toData s depth))
  | depth + 1, hash a => do
    let entries ← (s.entries a).mapM fun e => do
      let key ← toData s depth e.key
      let value ← toData s depth e.value
      match key.frozen? with
      | some key => return (key, value)
      | none => .error .compoundKey
    return Data.mappingOf entries
  | _, procedure a => .ok (((s.procedure? a).map Procedure.toData).getD .null)
  | 0, array _ | 0, hash _ => .error .depth

end Value

end MinRuby
