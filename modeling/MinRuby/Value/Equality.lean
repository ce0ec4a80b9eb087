import MinRuby.Failure
import MinRuby.Value.Store

/-!
# Equality and fingerprints

Values are equal by content: numbers across types, arrays element by element, hashes if they have the
same keys with equal values in any order. A definition is equal only to itself. The fingerprint of a
value is what a hash compares instead; a definition has none.
-/

namespace MinRuby.Value

/-- Whether two values are equal. -/
def equal (s : Store) : Nat → Value → Value → Except Limit Bool
  | _, nil, nil => .ok true
  | _, bool a, bool b => .ok (a = b)
  | _, str t, str u => .ok (t = u)
  | _, procedure a, procedure b => .ok (a = b)
  | depth + 1, array a, array b =>
    let xs := (s.array a).toList
    let ys := (s.array b).toList
    if xs.length = ys.length then (xs.zip ys).allM fun p => equal s depth p.1 p.2
    else .ok false
  | depth + 1, hash a, hash b =>
    let xs := s.hash a
    let ys := s.hash b
    if xs.size = ys.size ∧ xs.keys.all ys.contains then
      xs.entries.allM fun e =>
        match ys.find? e.1 with
        | some e' => equal s depth e.2.value e'.value
        | none => .ok false
    else .ok false
  | 0, array _, array _ | 0, hash _, hash _ => .error .depth
  | _, x, y =>
    match x.number?, y.number? with
    | some m, some n => .ok (m.equal n)
    | _, _ => .ok false

/-- The fingerprint of a value. -/
def fingerprint (s : Store) : Nat → Value → Except Failure Key
  | _, nil => .ok .nil
  | _, bool b => .ok (.bool b)
  | _, int n => .ok (.int n)
  | _, float x => .ok (.float x)
  | _, str t => .ok (.str t)
  | _, procedure _ => .error (.runtime (.badKey .userDefined))
  | depth + 1, array a => do return .array (← (s.array a).toList.mapM (fingerprint s depth))
  | depth + 1, hash a => do
    return .hash (← (s.hash a).entries.mapM fun e => do
      return (e.1, ← fingerprint s depth e.2.value))
  | 0, array _ | 0, hash _ => .error (.limit .depth)

end MinRuby.Value
