import TypeInference.Inference.Statement
import TypeInference.Scoping
import TypeInference.Ty.Snapshot

/-!
# `Session` — programs submitted one after another

A session keeps the store of types and the arena of scopes between submissions. Its global scope is opened
once and collects what the accepted programs declare at their top level. A program is scoped and then
inferred; if it is refused, the session goes back to what it was, unless it is told not to.

## Contents
* `Options`, `Session`, `Session.new` — sessions and their switches;
* `Session.pinned` — the types that a submission may not renew;
* `Outcome`, `Session.check` — the answer to a submission;
* `Session.typeOf?` — the type of a global name.
-/

namespace TypeInference

/-! ## Sessions -/

/-- The switches of a session. They can be set at any time and take effect from the next submission on. -/
structure Options where
  /-- Whether a value may not hide a type from a scope further out. -/
  strictShadowing : Bool := false
  /-- Whether a refused program leaves no trace. -/
  rollbackOnError : Bool := true
  deriving DecidableEq, Repr

/-- A session between two submissions: the types and scopes of all that was accepted so far, the scope that collects
    the global names, and the switches. -/
structure Session where
  types : Store
  scopes : Scopes
  global : ScopeId
  options : Options
  deriving DecidableEq, Repr

/-- The answer to a submission: one type for each statement at the top level, or a diagnostic; the program
    with the scopes recorded in it; and the session as it goes on. -/
structure Outcome where
  result : Except Diagnostic (List TypeId)
  program : Program
  session : Session

namespace Session

/-- A session before its first submission: it has the primitive types, and a global scope without names. -/
def new (options : Options) : Session :=
  let (global, scopes) := Scopes.empty.openRoot
  { types := .initial, scopes, global, options }

/-! ## Submissions -/

/-- The types of the global variables: a further submission uses them as they are. Functions are not among them, so
    each use of a function takes a copy of its type. -/
def pinned (session : Session) : Except Fault (List TypeId) := do
  let table ← session.scopes.table session.global
  pure (table.filterMap fun entry => if entry.2.kind = .var then entry.2.ty else none)

/-- Scopes a program in the global scope and infers the types of its statements; without a rollback. If scoping ends
    early, inference does not begin. -/
def analyze (session : Session) (program : Program) (pinned : List TypeId) :
    Program × EStateM.Result (Halt Diagnostic) Inference (List TypeId) :=
  let (program, scoping) :=
    (program.annotate session.options.strictShadowing session.global).run (.start session.scopes)
  let start := Inference.start session.types scoping.scopes
  match scoping.halt with
  | some reason => (program, .error reason start)
  | none => (program, inferList session.global pinned program.stmts start)

/-- Submits a program. An accepted one is committed: its types and its global names are there for the next
    submission. A refused one is undone if the session is to roll back, and otherwise stays as far as it got. Only
    misuse of handles has no answer. -/
def check (session : Session) (program : Program) : Except Fault Outcome := do
  let typesBefore := session.types.snapshot
  let scopesBefore ← session.scopes.snapshot session.global
  let pinned ← session.pinned
  let (program, result) := session.analyze program pinned
  match result with
  | .ok types final =>
    pure ⟨.ok types, program, { session with types := final.types.commit, scopes := final.scopes }⟩
  | .error (.fault f) _ => throw f
  | .error (.failure diagnostic) final =>
    if session.options.rollbackOnError then do
      let types ← final.types.rollback typesBefore
      let scopes := final.scopes.rollback scopesBefore
      pure ⟨.error diagnostic, program, { session with types, scopes }⟩
    else
      pure ⟨.error diagnostic, program, { session with types := final.types, scopes := final.scopes }⟩

/-! ## Questions and switches -/

/-- What the type of a global name stands for, if the name has a type; a name that is not declared has none. -/
def typeOf? (session : Session) (name : String) : Except Fault (Option TypeId) := do
  match (← session.scopes.getLocal session.global name).bind Symbol.ty with
  | some ty => some <$> session.types.root ty
  | none => pure none

/-- The same session with strict shadowing switched on or off, from the next submission on. -/
def setStrictShadowing (session : Session) (strict : Bool) : Session :=
  { session with options := { session.options with strictShadowing := strict } }

/-- The same session with rollback switched on or off, from the next submission on. -/
def setRollbackOnError (session : Session) (rollback : Bool) : Session :=
  { session with options := { session.options with rollbackOnError := rollback } }

end Session

end TypeInference
