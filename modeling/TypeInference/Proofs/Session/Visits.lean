import TypeInference.Proofs.Inference.Occurrence
import TypeInference.Proofs.Session.Course

/-!
# `Proofs.Session.Visits` — the expressions of a submission

The visits of a submission are those to the expressions of its statements, once the declarations have been given
types. If the submission is accepted, they are the visits to every expression of the program, in order, and the
state only moves along from each to the next.

Main statement: `Course.traced`.
-/

namespace TypeInference

open Store Scopes InferM

namespace Session

variable {session : Session} {program : Program} {A : Anchors}

/-! ## Visits of a submission -/

/-- The visits to the expressions of a submission, in the order in which inference comes by them. A submission whose
    declarations cannot be given types visits nothing. -/
def visits (session : Session) (program : Program) : List Visit :=
  match session.pinned with
  | .error _ => []
  | .ok pinned =>
    InferM.after (predeclareAll session.global (session.scoping program).1.stmts)
      (fun pins => stmtsVisits session.global pinned pins (session.scoping program).1.stmts)
      (.start session.types (session.scoping program).2.scopes)

namespace Course

/-! ### Visits of an accepted submission -/

variable (c : session.Course program)

theorem scoping_eq : session.scoping program = (c.annotated, ⟨c.scopes, none⟩) := c.annotate

/-- The visits begin where the declarations have been given types. -/
theorem visits_eq : session.visits program =
    stmtsVisits session.global (pinnedTypes c.table) c.pins c.annotated.stmts c.ready := by
  rw [visits, pinned_eq_ok c.found, c.scoping_eq]
  exact after_of_ok c.declared

/-- **The visits of an accepted submission** are those to every expression of the program. -/
theorem traced (h : session.Sound) (hA : A.Below session.scopes.size) (hs : c.ready.Anchored A) :
    Moves A c.ready c.final ∧
      Traced A (pinnedTypes c.table ++ c.pins.vars) c.ready c.final c.annotated.nodes (session.visits program) := by
  rw [c.visits_eq]
  exact (inferStmts_tracks c.annotated.stmts (c.submitted h).placed.stmts hA c.pins c.ready hs).ok c.inferred

end Course

end Session

end TypeInference
