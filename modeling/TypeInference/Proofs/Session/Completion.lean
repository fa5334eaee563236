import TypeInference.Proofs.Inference.Filling
import TypeInference.Proofs.Session.Course
import TypeInference.Proofs.Session.Lexical
import TypeInference.Proofs.Session.Mentions
import TypeInference.Proofs.Session.Typing

/-!
# `Proofs.Session.Completion` — accepted programs leave no declaration without a type

Inference of an accepted program has come by all of its scopes. So each name that the program declares, at whatever
depth, has a type at the end, and so has each global name of earlier programs; only labels have none. The first pass
has come by all of its nodes, and has recorded scopes in them that the arena still has.

## Contents
* `Course.names`, `Course.fills`, `Course.ripens` — what inference does to the arena in the course of a submission;
* `Course.isSome_ty`, `Course.ty_of_label` — names with types, and labels without;
* `Course.recorded` — the scopes that are recorded;
* `Reachable.complete_of_accepted` — the main result.
-/

namespace TypeInference

open Scopes

namespace Session

variable {session : Session} {program : Program} {outcome : Outcome}

namespace Course

variable (c : session.Course program) (h : session.Sound)

/-! ## What inference fills in -/

/-- The names that the program declares in the global scope, and all names of its own scopes. -/
def names : Set (ScopeId × String) :=
  namesIn session.global (namesOf (c.annotated.stmts.flatMap Stmt.symbols)) ∪
    namesBetween session.scopes.size c.scopes.size

include h

/-- **Inference fills in** these names: each of them has got a type when the run has ended. -/
theorem fills : FillsIn c.scopes (inferList session.global (pinnedTypes c.table) c.annotated.stmts) c.names
    fun _ => True := by
  have hsubmitted := c.submitted h
  have htypeable : ∀ name ∈ namesOf (c.annotated.stmts.flatMap Stmt.symbols),
      c.scopes.Typeable session.global name := by
    intro name hname symbol hsymbol
    obtain ⟨entry, hentry, rfl⟩ := List.mem_map.mp hname
    obtain rfl : entry.2 = symbol := Option.some.inj ((hsubmitted.symbolAt_of_mem hentry).symm.trans hsymbol)
    exact kind_of_mem_flatMap_symbols entry hentry
  exact (predeclareAll_fills c.annotated.stmts htypeable).bind fun pins _ =>
    inferStmts_fills c.annotated.stmts hsubmitted.placed.stmts htypeable pins

/-- In the course of the submission the arena has ripened, and the names are filled in. -/
theorem ripens : c.scopes.Ripens c.final.scopes ∧ c.scopes.Filled c.final.scopes c.names := by
  have hlist : inferList session.global (pinnedTypes c.table) c.annotated.stmts (.start session.types c.scopes) =
      .ok c.tys c.final :=
    (run_bind_of_ok c.declared).trans c.inferred
  obtain ⟨hripens, hfilled, -⟩ := (c.fills h (.start session.types c.scopes) (.refl _)).ok hlist
  exact ⟨hripens, hfilled⟩

/-! ### Names with and without types -/

/-- **A name that is no label has a type** at the end: it is one of the program's, or a global name from before. -/
theorem isSome_ty (hcomplete : session.Complete) {id : ScopeId} {name : String} {symbol : Symbol}
    (hid : id = session.global ∨ session.scopes.size ≤ id.index)
    (hsymbol : c.final.scopes.symbolAt id name = some symbol) (hkind : symbol.kind ≠ .label) :
    symbol.ty.isSome := by
  obtain ⟨hripens, hfilled⟩ := c.ripens h
  obtain ⟨before, hbefore, hsame⟩ := hripens.shape.symm.symbol hsymbol
  have hkind : before.kind ≠ .label := by rwa [hsame]
  suffices htype : (c.final.scopes.typeAt id name).isSome by
    rwa [typeAt, hsymbol, Option.bind_some] at htype
  rcases hid with rfl | hle
  · have hfind := hbefore
    rw [(c.submitted h).symbolAt_global, Table.find?_append, Option.or_eq_some_iff] at hfind
    rcases hfind with hold | ⟨-, hnew⟩
    · -- It is a name of an earlier program, and has had a type all along.
      obtain ⟨ty, hty⟩ := hcomplete c.table c.found _ (List.mem_map_of_mem (mem_of_find? hold))
      exact hripens.typed (by rw [typeAt_of_symbolAt hbefore hty]; rfl)
    · obtain ⟨entry, hentry, rfl, -⟩ := exists_of_find?_entriesOf hnew
      exact hfilled (.inl ⟨rfl, List.mem_map_of_mem hentry⟩) hbefore hkind
  · have hlt : id.index < c.scopes.size := by
      obtain ⟨scope, hscope, -⟩ := Option.bind_eq_some_iff.mp hbefore
      exact lt_of_scopeAt hscope
    exact hfilled (.inr ⟨hle, hlt⟩) hbefore hkind

/-- **A label has no type**: the first pass has given it none, and no name of the global scope is a label. -/
theorem ty_of_label (hdeclares : session.Declares) {id : ScopeId} {name : String} {symbol : Symbol}
    (hid : id = session.global ∨ session.scopes.size ≤ id.index)
    (hsymbol : c.final.scopes.symbolAt id name = some symbol) (hkind : symbol.kind = .label) : symbol.ty = none := by
  obtain ⟨hripens, -⟩ := c.ripens h
  obtain ⟨before, hbefore, hsame⟩ := hripens.shape.symm.symbol hsymbol
  have hlabel : before.kind = .label := hsame.trans hkind
  have hnone : c.scopes.typeAt id name = none := by
    rcases hid with rfl | hle
    · have hat : (session.scoping program).2.scopes.symbolAt session.global name = some before := by
        rwa [scoping, c.annotate]
      have hdeclarable := h.declares_scoped hdeclares c.found hat
      rw [hlabel] at hdeclarable
      cases hdeclarable
    · exact (c.submitted h).fresh.typeAt hle name
  have htype := (hripens.label hbefore hlabel).trans hnone
  rwa [typeAt, hsymbol, Option.bind_some] at htype

/-- **Every node has a scope on record** that the arena has at the end. -/
theorem recorded : ∀ site ∈ c.annotated.sites c.table, ∃ id, site.scope = some id ∧ id.index < c.final.scopes.size := by
  intro site hsite
  obtain ⟨id, hid, hchain⟩ := (h.lexical c.found c.annotate).framed site hsite
  exact ⟨id, hid, (c.ripens h).1.shape.size_eq ▸ hchain.lt⟩

end Course

/-! ## Accepted programs -/

/-- **No declaration is left without a type, and no node without a scope.** After a program has been accepted, by a
    session that has always gone back after refused programs, every name of the global scope and of the scopes that the
    program has opened has a type unless it is a label, and labels have none. In the program that comes back, every
    expression, block, function, label and lambda has a scope on record, and the arena has this scope. -/
theorem Reachable.complete_of_accepted (h : Reachable (·.rollbackOnError = true) session)
    (hcheck : session.check program = .ok outcome) {tys : List TypeId} (haccepted : outcome.result = .ok tys) :
    outcome.program.erase = program.erase ∧
      (∀ id name symbol, id = outcome.session.global ∨ session.scopes.size ≤ id.index →
        outcome.session.scopes.symbolAt id name = some symbol → (symbol.ty.isSome ↔ symbol.kind ≠ .label)) ∧
      ∃ held, session.scopes.table session.global = .ok held ∧
        ∀ site ∈ outcome.program.sites held, ∃ id, site.scope = some id ∧
          id.index < outcome.session.scopes.size := by
  refine ⟨erase_of_check hcheck, ?_⟩
  obtain ⟨c, -, rfl⟩ := h.sound.exists_course hcheck haccepted
  refine ⟨fun id name symbol hid hsymbol => ⟨fun htyped hlabel => ?_, fun hkind => ?_⟩,
    c.table, table_eq_ok c.found, c.recorded h.sound⟩
  · rw [c.ty_of_label h.sound h.declares hid hsymbol hlabel] at htyped
    cases htyped
  · exact c.isSome_ty h.sound h.complete hid hsymbol hkind

/-- A function with a label and a lambda inside, after a function from an earlier program. -/
theorem complete_of_accepted_laterVariable :
    ∃ outcome tys held, ((new {}).submit identity).check laterVariable = .ok outcome ∧ outcome.result = .ok tys ∧
      outcome.program.erase = laterVariable.erase ∧
      (∀ id name symbol, id = outcome.session.global ∨ ((new {}).submit identity).scopes.size ≤ id.index →
        outcome.session.scopes.symbolAt id name = some symbol → (symbol.ty.isSome ↔ symbol.kind ≠ .label)) ∧
      ((new {}).submit identity).scopes.table ((new {}).submit identity).global = .ok held ∧
      ∀ site ∈ outcome.program.sites held, ∃ id, site.scope = some id ∧ id.index < outcome.session.scopes.size := by
  have hnew : Reachable (·.rollbackOnError = true) (new {}) := .new {}
  obtain ⟨outcome, tys, hcheck, haccepted⟩ :=
    exists_of_accepts (by decide +kernel : ((new {}).submit identity).accepts laterVariable = true)
  obtain ⟨herase, htyped, held, hheld, hrecorded⟩ :=
    (hnew.submit rfl identity).complete_of_accepted hcheck haccepted
  exact ⟨outcome, tys, held, hcheck, haccepted, herase, htyped, hheld, hrecorded⟩

end Session

end TypeInference
