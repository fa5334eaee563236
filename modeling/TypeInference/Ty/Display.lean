import TypeInference.Ty.View

/-!
# `Ty.Display` — the text of a type

Lists, maps, tuples and functions have brackets of their own; every other constructor is its text, followed
by its components in angle brackets when there are any; an unbound variable is a question mark and its
number. Constructors with a wrong number of components have a text as well: a map shows nothing unless it
has a key and a value, and a function without components shows neither parameters nor result.

## Contents
* `commaSeparated` — texts in a row;
* `Constructor.display` — the text of a constructor around the texts of its components;
* `Store.display` — the text of a type.
-/

namespace TypeInference

/-! ## Texts of constructors -/

/-- Texts in a row, with a comma and a blank between neighbours, and nothing before the first or after the last. -/
def commaSeparated (items : List String) : String := ", ".intercalate items

/-- The components whose text is shown: a map that is not a key and a value shows none. -/
def Constructor.shown (con : Constructor) (args : List TypeId) : List TypeId :=
  match con, args with
  | .map, [key, value] => [key, value]
  | .map, _ => []
  | _, args => args

/-- The text of a constructor around the texts of the components it shows. Lists, maps, tuples and functions have
    brackets of their own; everything else is a name, with its components in angle brackets if it has any. -/
def Constructor.display (con : Constructor) (items : List String) : String :=
  match con with
  | .list => "\x7b" ++ commaSeparated items ++ "\x7d"
  | .map => "#\x7b" ++ ": ".intercalate items ++ "\x7d"
  | .tuple _ => "#(" ++ commaSeparated items ++ ")"
  | .function => "&(" ++ commaSeparated items.dropLast ++ ") -> " ++ items.getLast?.getD ""
  | other => if items.isEmpty then other.text else other.text ++ "<" ++ commaSeparated items ++ ">"

namespace Store

/-! ## Texts of types -/

/-- `display` on types whose walk ends within `fuel` steps; each step goes from a type to its components. -/
def displayWithin (s : Store) : Nat → TypeId → Except Fault String
  | 0, _ => .error .endlessWalk
  | fuel + 1, ty => do
    match ← s.view ty with
    | .var id => pure ("?" ++ toString id.index)
    | .op _ con args => con.display <$> (con.shown args).mapM (s.displayWithin fuel)

/-- The text of a type, as it stands in diagnostics and in the answers of a session. Unbound variables are shown by
    their numbers. -/
def display (s : Store) (ty : TypeId) : Except Fault String := s.displayWithin s.walkBound ty

end Store

end TypeInference
