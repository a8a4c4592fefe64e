import MapExpr.Json.Value
import MapExpr.Settings

/-!
# Settings in JSON

Settings are an object with the member `max_depth`, or an array with that value alone. What is left
out keeps its default, and other members are ignored.
-/

namespace MapExpr.Settings

/-- The nesting limit that a value is: a natural number below `2 ^ 64`. -/
def limit? : Json → Option Nat
  | .scalar text => (Json.Scalar.natural? text).filter (· < 2 ^ 64)
  | _ => none

/-- The values of the member `name`; none if some key is no text. -/
def valuesOf? (name : String) (members : List (List Json.TextUnit × Json)) :
    Option (List Json) := do
  let named ← members.mapM fun (key, v) => (Json.TextUnit.text? key).map (·, v)
  some ((named.filter (·.1 = name.toList)).map (·.2))

/-- The settings that the values of a member, which stands there once at most, give. -/
def ofValues? : List Json → Option Settings
  | [] => some {}
  | [v] => (limit? v).map ({ maxDepth := · })
  | _ => none

def ofJson? : Json → Option Settings
  | .array vs => ofValues? vs
  | .object members => do ofValues? (← valuesOf? "max_depth" members)
  | _ => none

/-- Reads settings from a JSON text. -/
def ofText? (text : String) : Option Settings := do
  ofJson? (← Json.ofText? text)

end MapExpr.Settings
