import Ixml.Options.Basic
import Ixml.Options.Json

/-!
# Options from JSON

Options are an object with their names as keys, or an array of their values in the order of the fields.
What is missing has its default. A known name may not be repeated, and a value must be of the right
type; unknown names are passed over.
-/

namespace Ixml.Options

/-- Set the option named `key`, if the value is of its type. -/
def set? (o : Options) (key : String) (value : Json) : Option Options :=
  if key == strategyKey then
    match value with
    | .string (some s) => (Strategy.ofName? s).map fun x => { o with strategy := x }
    | _ => none
  else
    match value with
    | .bool b => some (o.setFlag key b)
    | _ => none

/-- Set the options that the members of an object name. `seen` are the names that came before. -/
def ofMembers? (o : Options) (seen : List String) : List (Option String × Json) → Option Options
  | [] => some o
  | (none, _) :: _ => none
  | (some key, value) :: rest =>
    if keys.contains key then
      if seen.contains key then none
      else (o.set? key value).bind fun o => ofMembers? o (key :: seen) rest
    else ofMembers? o seen rest

/-- Set options in the order of the fields. There may be fewer values than options, and no more. -/
def ofItems? (o : Options) : List String → List Json → Option Options
  | _, [] => some o
  | [], _ :: _ => none
  | key :: ks, x :: xs => (o.set? key x).bind fun o => ofItems? o ks xs

/-- The options that a value stands for. -/
def ofJson? : Json → Option Options
  | .object members => ofMembers? {} [] members
  | .array items => ofItems? {} keys items
  | _ => none

/-- The options that a text stands for. -/
def read? (s : String) : Option Options :=
  (Json.read? s).bind ofJson?

end Ixml.Options
