import MinRuby.Value.Equality
import MinRuby.Value.Inspect

/-!
# Elements of containers

Reading and writing the element of an array at a position or the entry of a hash under a key. Writing
behind the end of an array fills the gap with nil; no position counts from the end.
-/

namespace MinRuby

/-- A step that reads and changes a store, which it keeps also when it fails. -/
abbrev StoreM := EStateM Failure Store

namespace Value

/-- The value that a hash holds under a key, if it holds one. -/
def lookup? (s : Store) (depth : Nat) (a : Address) (key : Value) : Except Failure (Option Value) := do
  return ((s.hash a).find? (← key.fingerprint s depth)).map (·.value)

/-- The element of a container under an index. -/
def fetch (s : Store) (depth : Nat) (container index : Value) : Except Failure Value :=
  match container, index with
  | array a, int i => do
    let items := s.array a
    match (if 0 ≤ i then items[i.toNat]? else none) with
    | some v => return v
    | none =>
      let _ ← decimal i
      blame (.indexOutside i items.size)
  | array _, index => blame (.badIndex "ary_ref" index.kind)
  | hash a, key => do
    match ← lookup? s depth a key with
    | some v => return v
    | none => blame (.keyNotFound (← key.inspect s depth))
  | container, _ => blame (.cannotIndex container.kind)

/-- The elements with a value at a position, and nil in the gap before it. -/
def putAt (items : Array Value) (i : Nat) (v : Value) : Array Value :=
  if h : i < items.size then items.set i v
  else (items ++ Array.replicate (i - items.size) nil).push v

/-- Puts a value into a container under an index. -/
def assign (depth : Nat) (container index v : Value) : StoreM Unit :=
  match container, index with
  | array a, int i => do
    if i < 0 then
      let _ ← (decimal i : Except Limit String)
      (blame (.indexTooSmall i) : Except Failure Unit)
    else modify (·.updateArray a (putAt · i.toNat v))
  | array _, index => (blame (.badIndex "ary_assign" index.kind) : Except Failure Unit)
  | hash a, key => do
    let k ← key.fingerprint (← get) depth
    modify (·.updateHash a (·.insert k ⟨key, v⟩))
  | container, _ => (blame (.cannotAssignInto container.kind) : Except Failure Unit)

theorem lookup?_of_fingerprint {s : Store} {depth : Nat} {a : Address} {key : Value} {k : Key}
    (h : key.fingerprint s depth = .ok k) : lookup? s depth a key = .ok (((s.hash a).find? k).map (·.value)) := by
  rw [lookup?, h]
  rfl

theorem assign_of_fingerprint {s : Store} {depth : Nat} {a : Address} {key v : Value} {k : Key}
    (h : key.fingerprint s depth = .ok k) :
    assign depth (hash a) key v s = .ok () (s.updateHash a (·.insert k ⟨key, v⟩)) := by
  show (do
    let k ← (key.fingerprint s depth : Except Failure Key)
    modify (·.updateHash a (·.insert k ⟨key, v⟩)) : StoreM Unit) s = _
  rw [h]
  rfl

end Value

end MinRuby
