import TypeInference.Syntax.Mark
import TypeInference.Ty.Node

/-!
# `Scope.Symbol` — what a name can mean

A symbol says what kind of thing a name was declared as, whether it can be assigned, which type it has once
that is known, and where it was declared.

## Contents
* `SymbolKind`, with its text and the kinds that name types (`isType`) or values (`isValue`);
* `Symbol`, and the symbol of a plain declaration (`Symbol.declared`).
-/

namespace TypeInference

/-! ## Kinds -/

/-- The kinds of things that have names. Variants of an enum have a kind for the refusal of a repeated one; they are
    not declared in any scope. -/
inductive SymbolKind
  /-- A variable, or a parameter of a function or lambda. -/
  | var
  | function
  | blueprint
  | struct
  | enum
  | trait
  | label
  /-- A variant of an enum. -/
  | variant
  deriving DecidableEq, Repr

namespace SymbolKind

/-- The word for a kind, as it stands in the refusals that name one. -/
def text : SymbolKind → String
  | .var => "variable"
  | .function => "function"
  | .blueprint => "blueprint"
  | .struct => "struct"
  | .enum => "enum"
  | .trait => "trait"
  | .label => "label"
  | .variant => "variant"

/-- Whether names of this kind stand for types: the four kinds of type declarations do. -/
def isType : SymbolKind → Bool
  | .blueprint | .struct | .enum | .trait => true
  | .var | .function | .label | .variant => false

/-- Whether names of this kind stand for values: they name neither a type nor a label. -/
def isValue (kind : SymbolKind) : Bool := kind ≠ .label && !kind.isType

end SymbolKind

/-! ## Symbols -/

/-- What a name means in a scope. Kind, place and mutability are fixed by the declaration; inference fills in the
    type, and assignment notes that there is a value. -/
structure Symbol where
  kind : SymbolKind
  /-- Whether it may be assigned after it has a value. -/
  mutable : Bool
  /-- Whether it has a value. -/
  initialized : Bool
  /-- Its type, once inference has reached its declaration. -/
  ty : Option TypeId
  span : Span
  deriving DecidableEq, Repr

/-- A symbol as it is declared unless its declaration has more to tell: it has a value for good, and no
    type yet. -/
def Symbol.declared (kind : SymbolKind) (span : Span) : Symbol where
  kind := kind
  mutable := false
  initialized := true
  ty := none
  span := span

end TypeInference
