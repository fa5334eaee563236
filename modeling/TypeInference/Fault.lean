import TypeInference.Syntax.Mark
import TypeInference.Ty.Node

/-!
# `Fault` — misuse of handles, kept apart from refusals

An operation can stop for two reasons. A *failure* is an answer about the program at hand (two types
clash, a name is unknown). A *fault* says that the caller used a handle that means nothing: a number beyond
the store, a mark that is no longer valid, a chain that never ends. Callers that only use handles they were
given never meet a fault.

## Contents
* `Fault` — the kinds of misuse;
* `Halt` — a fault, or a failure of some kind `ε`;
* `run_bind_of_ok`, `run_bind_of_error` — one step of a computation, then the rest.
-/

namespace TypeInference

/-! ## Misuse -/

/-- The kinds of misuse. Each names the handle or the numbers that were wrong, so that a caller who did meet one can
    tell which of its handles it has to blame. -/
inductive Fault
  /-- There is no type of this number. -/
  | danglingType (id : TypeId)
  /-- There is no scope of this number. -/
  | danglingScope (id : ScopeId)
  /-- The trail is shorter than it was when the snapshot was taken. -/
  | shortTrail (wanted found : Nat)
  /-- The node of this number cannot be bound: it is no unbound variable. -/
  | notBindable (id : TypeId)
  /-- A walk along references never comes to an end. -/
  | endlessWalk
  deriving DecidableEq, Repr

/-! ## Misuse or an answer -/

/-- Why a computation stopped: by misuse, or with a failure that is an answer. What is proved about inference keeps
    the two apart: that no fault is met, and which failures are answered. -/
inductive Halt (ε : Type)
  | fault (fault : Fault)
  | failure (reason : ε)
  deriving DecidableEq, Repr

/-- The answer of a query that can only go wrong by misuse, inside a computation that can also fail: a fault stays a
    fault, and no failure is added. -/
def Halt.ofQuery {ε α : Type} : Except Fault α → Except (Halt ε) α
  | .ok a => .ok a
  | .error f => .error (.fault f)

/-! ## Computations that keep their state when they stop -/

section Runs

variable {ε σ α β : Type} {m : EStateM ε σ α} {next : α → EStateM ε σ β} {s s' : σ}

/-- Once the step has ended, the run is a run of the rest, from the state that the step has left. -/
theorem run_bind_of_ok {a : α} (h : m s = .ok a s') : (m >>= next) s = next a s' := by
  show EStateM.bind m next s = next a s'
  rw [EStateM.bind, h]

/-- If the step stops, so does the run, for the same reason and in the same state. -/
theorem run_bind_of_error {e : ε} (h : m s = .error e s') : (m >>= next) s = .error e s' := by
  show EStateM.bind m next s = .error e s'
  rw [EStateM.bind, h]

end Runs

end TypeInference
