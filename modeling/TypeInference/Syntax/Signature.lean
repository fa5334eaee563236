import TypeInference.Syntax.Mark

/-!
# `Syntax.Signature` — types as they are written, and the declarations that carry them

A signature is the text of a type: a name, or a list, map, tuple or function of signatures. Parameters may
carry one, fields must.
-/

namespace TypeInference

/-! ## Written types -/

/-- A written type. Names are not looked up here: which type a name means depends on the scope that the signature
    stands in (`Signature.denote`). -/
inductive Signature
  /-- A primitive type or a type declared by the program. -/
  | name (id : Ident)
  /-- The lists of one element type. -/
  | list (span : Span) (element : Signature)
  /-- The maps from one key type to one value type. -/
  | map (span : Span) (key value : Signature)
  /-- The tuples with these component types. -/
  | tuple (span : Span) (elements : List Signature)
  /-- The functions from these parameter types to a result type. -/
  | function (span : Span) (params : List Signature) (result : Signature)

/-- Where a signature stands; a plain name stands where the name does. -/
def Signature.span : Signature → Span
  | .name id => id.span
  | .list span _ => span
  | .map span _ _ => span
  | .tuple span _ => span
  | .function span _ _ => span

/-! ## Declarations that carry them -/

/-- A parameter of a function or lambda, with the type written for it, if any. Without one, its type is found by
    inference. -/
structure Param where
  span : Span
  name : Ident
  signature : Option Signature

/-- A field of a struct, with the type written for it. The type is looked up, so that it must exist, and is not kept
    otherwise. -/
structure Field where
  span : Span
  name : Ident
  signature : Signature

end TypeInference
