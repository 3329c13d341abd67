import Dockerfile.Json.Value

/-!
# Records in JSON

A record is an object with a member for each field, in any order and among other members, or an
array of its fields in order.

* `Json.fields?`: the values of the fields of a record.
-/

namespace Dockerfile.Json

/-- Each name occurs at most once among the keys, and every key stands for a text. -/
def hasKeys (names : List Text) (members : List (Option Text × Json)) : Bool :=
  members.all (·.1.isSome) && names.all fun name => (members.map (·.1)).count (some name) ≤ 1

/-- The values of the fields with these names, in this order; a missing member gives no value. An
array has exactly as many elements as there are names, or fewer where `short` permits it. -/
def fields? (names : List Text) (short : Bool) : Json → Option (List (Option Json))
  | .scalar _ => none
  | .array items =>
    if items.length = names.length ∨ (short ∧ items.length < names.length) then
      some (items.map some ++ List.replicate (names.length - items.length) none)
    else none
  | .object members =>
    if hasKeys names members then some (names.map fun name => members.lookup (some name)) else none

end Dockerfile.Json
