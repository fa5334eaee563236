/-!
# `Syntax.Mark` — places in the text, names, and the record a node keeps

Every node of a tree knows where it stands in the text (`Span`); names stand somewhere too (`Ident`).
Nodes that are looked up in a scope also remember which one (`Mark.scope`): scoping writes it, inference
reads it.

Numbers of scopes are natural numbers here, where a machine keeps them in words of 32 bits. They are made by counting
the scopes of an arena (`Scopes.allocate`), so the two agree for as long as an arena has fewer than 2^32 scopes. A
number from outside is cut to the word first (`ScopeId.ofNat`), which changes nothing below that bound
(`ScopeId.ofNat_of_lt`).

## Contents
* `Span`, `Ident` — a stretch of text, and a name written there;
* `ScopeId` — the number of a scope in the arena of scopes;
* `Mark` — a span together with the scope recorded for the node.
-/

namespace TypeInference

/-! ## Places -/

/-- A stretch of the program text: where it begins and how long it is. -/
structure Span where
  offset : Nat
  length : Nat
  deriving DecidableEq, Repr

/-- The empty stretch at the beginning of the text, for nodes of which it does not matter where they stand. -/
def Span.origin : Span := ⟨0, 0⟩

/-- A name as it is written at one place. Two occurrences of a name are different idents with equal texts:
    declarations go by the text, and refusals are placed by the span. -/
structure Ident where
  name : String
  span : Span
  deriving DecidableEq, Repr

/-! ## Scopes and records -/

/-- The number of a scope; scopes are numbered in the order in which they are opened. It is a word of 32 bits, and
    a natural number here (see above). -/
structure ScopeId where
  index : Nat
  deriving DecidableEq, Repr

/-- Scope numbers given from outside are words of 32 bits: what is beyond the word is cut off. -/
def ScopeId.ofNat (n : Nat) : ScopeId := ⟨n % UInt32.size⟩

/-- A number that fits the word names itself, so below the bound the two kinds of numbers agree. -/
theorem ScopeId.ofNat_of_lt {n : Nat} (h : n < UInt32.size) : ScopeId.ofNat n = ⟨n⟩ := by
  rw [ScopeId.ofNat, Nat.mod_eq_of_lt h]

/-- What a node keeps besides its parts: its span, and the scope that was recorded for it, if any. Scoping
    overwrites the record, whatever stood there before. -/
structure Mark where
  span : Span
  scope : Option ScopeId
  deriving DecidableEq, Repr

/-- The mark of a node that no pass has visited yet: it has a place in the text, and no scope. -/
def Mark.fresh (span : Span) : Mark := ⟨span, none⟩

end TypeInference
