/-!
# Gates

The labels of Boolean circuits, and the tokens by which they are written.

## Main definitions

- `Gate` — copies, negations, variadic gates, constants and named variables
- `Gate.ofToken`, `Gate.token` — between gates and their tokens
- `Gate.sort` — gates in their order
- `Gate.value?`, `Gate.neutral?`, `Gate.absorbing?` — the constants that go with a gate
-/

namespace Wiring

/-- **The label of a node in a circuit.** The order of the constructors, constants by their value
    and variables by their name, is the order in which gates are sorted. -/
inductive Gate where
  /-- Passes its argument on. -/
  | copy
  /-- Negates its argument. -/
  | not
  /-- True if all arguments are. -/
  | and
  /-- True if some argument is. -/
  | or
  /-- True if an odd number of arguments are. -/
  | xor
  /-- A fixed value. -/
  | const (value : Bool)
  /-- A variable that has no value yet. -/
  | free (name : String)
deriving DecidableEq, Ord

instance : Inhabited Gate := ⟨.copy⟩

namespace Gate

/-- Whether the gate takes any number of arguments. -/
def isVariadic : Gate → Bool
  | .and | .or | .xor => true
  | _ => false

/-- The value of a constant. -/
def value? : Gate → Option Bool
  | .const v => some v
  | _ => none

/-- The value of a variadic gate without arguments. -/
def neutral? : Gate → Option Bool
  | .and => some true
  | .or | .xor => some false
  | _ => none

/-- The value of an argument that settles the gate, whatever the other arguments are. -/
def absorbing? : Gate → Option Bool
  | .and => some false
  | .or => some true
  | _ => none

/-- The gate that a token stands for. Every token that is not the sign of another gate names a
    variable. -/
def ofToken (token : String) : Gate :=
  if token = "" then .copy
  else if token = "~" then .not
  else if token = "&" then .and
  else if token = "|" then .or
  else if token = "^" then .xor
  else if token = "0" then .const false
  else if token = "1" then .const true
  else .free token

/-- The token of a gate. -/
def token : Gate → String
  | .copy => ""
  | .not => "~"
  | .and => "&"
  | .or => "|"
  | .xor => "^"
  | .const false => "0"
  | .const true => "1"
  | .free name => name

/-- Gates in their order, equal ones as they come. -/
def sort (gates : List Gate) : List Gate := gates.mergeSort fun a b => (compare a b).isLE

/-- Every token is read as a gate that is written by it. -/
@[simp]
theorem token_ofToken (t : String) : (ofToken t).token = t := by
  unfold ofToken
  repeat' split
  all_goals simp_all [token]

end Gate

end Wiring
