import TypeInference.Proofs.Inference.Trace
import TypeInference.Proofs.Session.Reachable

/-!
# `Proofs.Session.Past` — a submission only adds to the past

Both passes write into scopes by number and name, from inside functions as well, and what they have written stays
when a refused program is kept. Yet the scopes of earlier programs are out of their reach, and in the global scope
the names that are there go on being what they are: of a symbol only a missing type and a missing value can be
filled in. The types of the global names are the anchors of the inference that follows.

## Contents
* `Session.anchors`, `Sound.analyze_retains` — the names that have their types for good;
* `Session.Preserves`, `Reachable.check_preserves` — what a submission leaves as it was.
-/

namespace TypeInference

open Store Scopes InferM

namespace Session

variable {session : Session} {table : Table} {program : Program} {under : Options → Prop}

/-! ## The global names -/

/-- The global names that have types, and their types. Inference takes none of these away. -/
def anchors (session : Session) : Anchors := fun id name ty =>
  id = session.global ∧ session.scopes.typeAt session.global name = some ty

/-- In `scopes` each global name of the session is what it was, with its type if it had one. -/
def Retains (session : Session) (scopes : Scopes) : Prop :=
  ∀ ⦃name symbol⦄, session.scopes.symbolAt session.global name = some symbol →
    ∃ symbol', scopes.symbolAt session.global name = some symbol' ∧ symbol.Becomes symbol' ∧
      ∀ ty, symbol.ty = some ty → symbol'.ty = some ty

/-- The state in which analysis ends or stops. Both kinds of end matter here, since a refused program may be kept. -/
def analyzed (session : Session) (program : Program) (pinned : List TypeId) : Inference :=
  match (session.analyze program pinned).2 with
  | .ok _ final | .error _ final => final

/-! ### What is retained -/

/-- Names that only come after others change none of them. -/
theorem Retains.of_held {scopes : Scopes} {added : Table}
    (hfound : session.scopes.scopeAt session.global = some ⟨none, table⟩)
    (hheld : scopes.scopeAt session.global = some ⟨none, table ++ added⟩) {name : String} {symbol : Symbol}
    (hsymbol : session.scopes.symbolAt session.global name = some symbol) :
    scopes.symbolAt session.global name = some symbol := by
  rw [symbolAt, hfound, Option.bind_some] at hsymbol
  rw [symbolAt, hheld, Option.bind_some, Table.find?_append, hsymbol]
  rfl

/-- A run that moves along from a state that holds the global names retains them. -/
theorem Retains.of_moves {s s' : Inference} (h : Moves session.anchors s s')
    (hheld : ∀ {name symbol}, session.scopes.symbolAt session.global name = some symbol →
      s.scopes.symbolAt session.global name = some symbol) : session.Retains s'.scopes := by
  intro name symbol hsymbol
  obtain ⟨symbol', hsymbol', hbecomes⟩ := h.symbol (hheld hsymbol)
  refine ⟨symbol', hsymbol', hbecomes, fun ty hty => h.anchored.ty_eq hsymbol' ⟨rfl, ?_⟩⟩
  rw [typeAt, hsymbol, Option.bind_some, hty]

/-- **Analysis retains the global names**, wherever it ends or stops. The first pass adds names behind those that
    are there, and inference moves along with the anchors. -/
theorem Sound.analyze_retains (h : session.Sound)
    (hfound : session.scopes.scopeAt session.global = some ⟨none, table⟩) (program : Program) :
    session.Retains (session.analyzed program (pinnedTypes table)).scopes := by
  obtain ⟨added, hheld, -⟩ := Program.annotate_holds session.options.strictShadowing h.ordered hfound program
  have hscoped := Program.annotate_run session.options.strictShadowing h.ordered hfound program
  rcases hafter : program.annotate session.options.strictShadowing session.global (.start session.scopes)
    with ⟨annotated, scopes, halt⟩
  rw [hafter] at hheld hscoped
  have hsame : ∀ {name symbol}, session.scopes.symbolAt session.global name = some symbol →
      scopes.symbolAt session.global name = some symbol := Retains.of_held hfound hheld
  simp only [analyzed, analyze, StateT.run, hafter]
  cases halt with
  | some reason => exact fun name symbol hsymbol => ⟨symbol, hsame hsymbol, .refl symbol, fun _ hty => hty⟩
  | none =>
    have hplaced := hscoped.placed rfl
    have hbelow : session.anchors.Below session.scopes.size := by
      rintro _ _ _ ⟨rfl, -⟩
      exact lt_of_scopeAt hfound
    have hanchored : (Inference.start session.types scopes).Anchored session.anchors := by
      rintro _ name ty ⟨rfl, htype⟩
      obtain ⟨symbol, hsymbol, hty⟩ := Option.bind_eq_some_iff.mp htype
      show scopes.typeAt session.global name = some ty
      rw [typeAt, hsame hsymbol, Option.bind_some, hty]
    -- The names that the program declares are new, so none of them is an anchor.
    have hlacks : ∀ entry ∈ annotated.stmts.flatMap Stmt.symbols,
        session.anchors.Lacks session.global entry.1.name := by
      rintro entry hentry ty ⟨-, htype⟩
      have hnew := hplaced.fresh entry.1.name (List.mem_map_of_mem hentry)
      rw [typeAt, symbolAt, hfound, Option.bind_some, hnew] at htype
      cases htype
    have hkeeps : Keeps session.anchors (inferList session.global (pinnedTypes table) annotated.stmts)
        fun _ => True :=
      (predeclareAll_keeps annotated.stmts hlacks).bind fun pins _ =>
        (inferStmts_tracks annotated.stmts hplaced.stmts hbelow pins).keeps
    have hmoves := hkeeps _ hanchored
    cases hrun : inferList session.global (pinnedTypes table) annotated.stmts (.start session.types scopes) with
    | ok tys final => exact .of_moves (hmoves.ok hrun).1 hsame
    | error reason final => exact .of_moves (hmoves.error hrun).1 hsame

/-! ## The past -/

/-- What there was before goes on: the scopes but the global one; the global names, where a type and a value may
    have been filled in; and the types, where unbound variables may have been bound. -/
structure Preserves (session later : Session) : Prop where
  scope : ∀ {id scope}, id ≠ session.global → session.scopes.scopeAt id = some scope →
    later.scopes.scopeAt id = some scope
  symbol : ∀ {name symbol}, session.scopes.symbolAt session.global name = some symbol →
    ∃ symbol', later.scopes.symbolAt session.global name = some symbol' ∧ symbol.Becomes symbol' ∧
      ∀ ty, symbol.ty = some ty → symbol'.ty = some ty
  node : ∀ {id node}, session.types.get id = .ok node →
    later.types.get id = .ok node ∨ node = .var none ∧ ∃ target, later.types.get id = .ok (.var (some target))

theorem Preserves.refl (session : Session) : session.Preserves session :=
  ⟨fun _ hscope => hscope, fun hsymbol => ⟨_, hsymbol, .refl _, fun _ hty => hty⟩, .inl⟩

/-- A session that analysis has led to preserves the past, committed or not. -/
theorem Leads.preserves {final : Inference} {types : Store} (h : session.Leads ∅ final)
    (hretains : session.Retains final.scopes) (hnodes : types.nodes = final.types.nodes) :
    session.Preserves { session with types, scopes := final.scopes } where
  scope := fun hne hscope => (h.scopes.scope _ (lt_of_scopeAt hscope) hne).trans hscope
  symbol := fun hsymbol => hretains hsymbol
  node := fun {id node} hget => by
    have hsame : types.get id = final.types.get id := by simp only [Store.get, hnodes]
    rw [hsame]
    by_cases hunbound : node = .var none
    · obtain ⟨binding, hvar⟩ := h.types.var (hunbound ▸ hget)
      cases binding with
      | none => exact .inl (hunbound ▸ hvar)
      | some target => exact .inr ⟨hunbound, target, hvar⟩
    · exact .inl (h.types.kept hget hunbound)

/-! ### Outcomes -/

/-- **Analysis leads to the state in which it ends or stops.** -/
theorem Sound.leads_analyzed (h : session.Sound)
    (hfound : session.scopes.scopeAt session.global = some ⟨none, table⟩) (program : Program) :
    session.Leads ∅ (session.analyzed program (pinnedTypes table)) := by
  rcases h.analyze_cases unbound_empty h.clear_empty False.elim hfound program with
    ⟨annotated, tys, final, hrun, hleads, -⟩ | ⟨annotated, reason, final, hrun, hleads, -⟩
  · rwa [analyzed, hrun]
  · rwa [analyzed, hrun]

/-- Every outcome leaves the session as it was, or as analysis has left it; in the second case the store may have
    been committed. -/
theorem Sound.session_cases {outcome : Outcome} (h : session.Sound)
    (hfound : session.scopes.scopeAt session.global = some ⟨none, table⟩)
    (hcheck : session.check program = .ok outcome) :
    outcome.session = session ∨ ∃ types : Store,
      types.nodes = (session.analyzed program (pinnedTypes table)).types.nodes ∧ outcome.session =
        { session with types, scopes := (session.analyzed program (pinnedTypes table)).scopes } := by
  obtain ⟨snap, -, hsteps⟩ := exists_of_bind_eq_ok hcheck
  obtain ⟨pinned, hpinned, hsteps⟩ := exists_of_bind_eq_ok hsteps
  obtain rfl : pinnedTypes table = pinned := Except.ok.inj ((pinned_eq_ok hfound).symm.trans hpinned)
  split at hsteps
  next annotated result hrun =>
  simp only [analyzed, hrun]
  split at hsteps
  · next tys final =>
    -- Accepted: the trail is dropped, and no node is touched.
    cases hsteps
    exact .inr ⟨final.types.commit, rfl, rfl⟩
  · cases hsteps
  · next diagnostic final =>
    split at hsteps
    · next hrollback =>
      obtain ⟨types, -, hsteps⟩ := exists_of_bind_eq_ok hsteps
      cases hsteps
      exact .inl (h.undone hrollback hcheck rfl)
    · cases hsteps
      exact .inr ⟨final.types, rfl, rfl⟩

/-- **A submission only adds to the past**, whether it is accepted or refused, and whether a refused one is undone
    or kept. -/
theorem Reachable.check_preserves (h : Reachable under session) (program : Program) :
    ∃ outcome, session.check program = .ok outcome ∧ session.Preserves outcome.session := by
  obtain ⟨table, hfound⟩ := h.sound.found
  obtain ⟨outcome, hcheck, -⟩ :=
    h.sound.check_eq_ok unbound_empty h.sound.clear_empty False.elim program
  refine ⟨outcome, hcheck, ?_⟩
  rcases h.sound.session_cases hfound hcheck with heq | ⟨types, hnodes, heq⟩
  · rw [heq]
    exact .refl session
  · rw [heq]
    exact (h.sound.leads_analyzed hfound program).preserves (h.sound.analyze_retains hfound program) hnodes

/-- A refused program that is kept preserves what an accepted one has declared. -/
theorem check_preserves_undeclared :
    ∃ outcome, (((new { rollbackOnError := false }).submit identity).check undeclared) = .ok outcome ∧
      ((new { rollbackOnError := false }).submit identity).Preserves outcome.session := by
  have hreachable : Reachable (fun _ => True) ((new { rollbackOnError := false }).submit identity) :=
    (Reachable.new _).submit trivial identity
  exact hreachable.check_preserves undeclared

end Session

end TypeInference
