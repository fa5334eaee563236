import TypeInference.Proofs.Inference.Program
import TypeInference.Proofs.Ty.Undo
import TypeInference.Session

/-!
# `Proofs.Session.Analysis` — what a submission does to a session

A session is *sound* when its store and its arena mean something. From a sound session a submission never
meets a fault: it is accepted with one type for each statement, or refused, and then the session goes back to
what it was unless it is told not to. The lemma `check_eq_ok` says so for every choice of variables to hide;
all theorems about sessions follow from it.

## Contents
* `Session.Sound`, `Session.Typed` — sessions that mean something, and those whose global values have types;
* `Session.Leads` — the states that analysis may lead to;
* `Session.Answers`, `Sound.check_eq_ok` — what a submission answers.
-/

namespace TypeInference

open Store Scopes

namespace Session

/-! ## Sessions that mean something -/

/-- The store and the arena mean something, the global scope is there, and every type that a name has is in the
    store. -/
structure Sound (session : Session) : Prop where
  wf : session.types.WellFormed
  ordered : session.scopes.Ordered
  found : ∃ table, session.scopes.scopeAt session.global = some ⟨none, table⟩
  inRange : ∀ {id kind ty}, session.scopes.Gives id kind ty → ty.index < session.types.size

/-- Every global name of a value has a type. A session may be sound without that, after a refused program has been
    kept. -/
def Typed (session : Session) : Prop :=
  ∀ name symbol, session.scopes.symbolAt session.global name = some symbol → symbol.kind.isValue = true →
    symbol.ty.isSome

/-! ### What analysis may lead to -/

/-- A state that analysis may lead to: nothing has been touched but the hidden variables are as they were, and
    of the old scopes only the global one may be different. -/
structure Leads (session : Session) (hidden : Set TypeId) (final : Inference) : Prop where
  types : Evolves hidden session.types final.types
  scopes : Extends {session.global} session.scopes final.scopes
  ordered : final.scopes.Ordered
  inRange : ∀ {id kind ty}, final.scopes.Gives id kind ty → ty.index < final.types.size
  vars : ∀ {ty}, final.scopes.Gives session.global .var ty → final.types.Clear hidden ty

/-- The statements are well typed in a state, with the types given for them, and global values have types. This is
    what a tidy guard promises besides. -/
structure Types (session : Session) (program : Program) (tys : List TypeId) (final : Inference) : Prop where
  stmts : StmtsTyped final.types.tree final.scopes none session.global program.stmts
    (tys.map final.types.tree)
  values : ∀ name symbol, final.scopes.symbolAt session.global name = some symbol →
    symbol.kind.isValue = true → symbol.ty.isSome

/-- What a submission answers: one of three outcomes, each with the session that goes on and with what is known of
    it. -/
inductive Answers (session : Session) (hidden : Set TypeId) (tidy : Prop) (program : Program) : Outcome → Prop
  /-- The program is accepted. -/
  | accepted {tys : List TypeId} {annotated : Program} {final : Inference} : session.Leads hidden final →
      tys.length = program.stmts.length → (∀ ty ∈ tys, ty.index < final.types.size) →
      (tidy → session.Types annotated tys final) →
      Answers session hidden tidy program
        ⟨.ok tys, annotated, { session with types := final.types.commit, scopes := final.scopes }⟩
  /-- The program is refused, and leaves no trace. -/
  | refused {diagnostic : Diagnostic} {annotated : Program} : diagnostic.cause ≠ .missingScope →
      session.options.rollbackOnError = true →
      Answers session hidden tidy program ⟨.error diagnostic, annotated, session⟩
  /-- The program is refused, and what was done stays. -/
  | kept {diagnostic : Diagnostic} {annotated : Program} {final : Inference} :
      diagnostic.cause ≠ .missingScope →
      session.options.rollbackOnError = false → session.Leads hidden final →
      Answers session hidden tidy program
        ⟨.error diagnostic, annotated, { session with types := final.types, scopes := final.scopes }⟩

variable {session : Session} {hidden : Set TypeId} {tidy : Prop} {table : Table} {program : Program}

/-! ## Answers -/

/-- The pinned types are those of the global variables, and finding them never fails. -/
theorem pinned_eq_ok (hfound : session.scopes.scopeAt session.global = some ⟨none, table⟩) :
    session.pinned = .ok (pinnedTypes table) := by
  simp only [pinned, table_eq_ok hfound, ok_bind]
  rfl

/-- Inference leads from an annotated program to a state that analysis may lead to, since an allowed run leaves
    alone what is hidden. -/
theorem Leads.of_step {r : Bool} {scopes : Scopes} {annotated : Program} {s : Inference}
    (h : Submitted session.types session.scopes scopes session.global table annotated)
    (hunbound : ∀ v ∈ hidden, session.types.IsUnbound v)
    (hclear : ∀ {ty}, session.scopes.Gives session.global .var ty → session.types.Clear hidden ty)
    (hs : (h.guard hidden tidy).Step r (.start session.types scopes) s) : session.Leads hidden s where
  types := hs.types
  scopes := {
    size_le := h.grown.size_le.trans_eq hs.shape.size_eq.symm
    scope := fun id hid hnot => by
      -- An old scope is not one of the program's, so inference leaves it alone unless it is the global one.
      refine (hs.outside id ?_).trans (h.grown.scope id hid hnot)
      rintro (he | ⟨hle, -⟩)
      · exact hnot he
      · exact absurd hid (Nat.not_lt.mpr hle)
    parent := fun id hid => (hs.shape.parent id).trans (h.grown.parent id hid) }
  ordered := hs.shape.ordered h.ordered
  inRange := ((h.admits hunbound hclear).step hs).inRange
  vars := fun hg => (hs.gives hg).elim (fun hold => hs.types.clear h.wf (hclear (h.gives hold))) fun hc => hc

/-- **Analysis leads to its states**, with the types of the statements or with a refusal. The first pass may refuse
    the program, and then the store is as it was; otherwise inference runs under the guard of the program. -/
theorem Sound.analyze_cases (h : session.Sound) (hunbound : ∀ v ∈ hidden, session.types.IsUnbound v)
    (hclear : ∀ {ty}, session.scopes.Gives session.global .var ty → session.types.Clear hidden ty)
    (htyped : tidy → session.Typed) (hfound : session.scopes.scopeAt session.global = some ⟨none, table⟩)
    (program : Program) :
    (∃ annotated tys final, session.analyze program (pinnedTypes table) = (annotated, .ok tys final) ∧
        session.Leads hidden final ∧ tys.length = program.stmts.length ∧
        (∀ ty ∈ tys, ty.index < final.types.size) ∧ (tidy → session.Types annotated tys final)) ∨
      ∃ annotated reason final,
        session.analyze program (pinnedTypes table) = (annotated, .error reason final) ∧
        session.Leads hidden final ∧ reason.IsRefusal := by
  have hscoped := Program.annotate_run session.options.strictShadowing h.ordered hfound program
  have hlength : (program.annotate session.options.strictShadowing session.global
      (.start session.scopes)).1.stmts.length = program.stmts.length :=
    length_annotateStmts _ _ _ _
  rcases hafter : program.annotate session.options.strictShadowing session.global (.start session.scopes)
    with ⟨annotated, scopes, halt⟩
  rw [hafter] at hscoped hlength
  cases halt with
  | some reason =>
    -- The first pass is refused, and nothing is inferred.
    refine .inr ⟨annotated, reason, .start session.types scopes, by simp only [analyze, StateT.run, hafter],
      ⟨.refl h.wf, hscoped.grown, hscoped.ordered, ?_, ?_⟩, hscoped.refused reason rfl⟩
    · exact fun hg => h.inRange (hscoped.gives hg)
    · exact fun hg => hclear (hscoped.gives hg)
  | none =>
    have hsubmitted : Submitted session.types session.scopes scopes session.global table annotated :=
      ⟨h.wf, h.inRange, hscoped.grown, hscoped.ordered, hscoped.gives, hfound, hscoped.placed rfl⟩
    have hrun : session.analyze program (pinnedTypes table) =
        (annotated, inferList session.global (pinnedTypes table) annotated.stmts
          (.start session.types scopes)) := by
      simp only [analyze, StateT.run, hafter]
    have htable : tidy → ∀ {name symbol}, table.find? name = some symbol → symbol.kind.isValue = true →
        symbol.ty.isSome := by
      intro ht name symbol hfind
      refine htyped ht name symbol ?_
      rw [symbolAt, hfound, Option.bind_some, hfind]
    have hallows := hsubmitted.infer_allows hunbound hclear htable
    cases hinfer : inferList session.global (pinnedTypes table) annotated.stmts
      (.start session.types scopes) with
    | ok tys final =>
      obtain ⟨hs, hcount, hlt, htypes⟩ := hallows.ok hinfer
      exact .inl ⟨annotated, tys, final, by rw [hrun, hinfer], .of_step hsubmitted hunbound hclear hs,
        hcount.trans hlength, hlt, fun ht => ⟨(htypes ht).1, fun _ _ => (htypes ht).2⟩⟩
    | error reason final =>
      obtain ⟨hs, hrefusal⟩ := hallows.error hinfer
      exact .inr ⟨annotated, reason, final, by rw [hrun, hinfer],
        .of_step hsubmitted hunbound hclear hs, hrefusal⟩

/-- **A submission is answered** whatever the program, and without a fault. Going back after a refusal is where
    soundness is needed once more: the store undoes all that was done since. -/
theorem Sound.check_eq_ok (h : session.Sound) (hunbound : ∀ v ∈ hidden, session.types.IsUnbound v)
    (hclear : ∀ {ty}, session.scopes.Gives session.global .var ty → session.types.Clear hidden ty)
    (htyped : tidy → session.Typed) (program : Program) :
    ∃ outcome, session.check program = .ok outcome ∧ session.Answers hidden tidy program outcome := by
  obtain ⟨table, hfound⟩ := h.found
  have hsnap := snapshot_eq_ok hfound
  unfold check
  simp only [hsnap, pinned_eq_ok hfound, ok_bind]
  rcases h.analyze_cases hunbound hclear htyped hfound program with
    ⟨annotated, tys, final, hrun, hleads, hlength, hlt, htypes⟩ |
      ⟨annotated, _, final, hrun, hleads, diagnostic, rfl, hcause⟩
  · simp only [hrun]
    exact ⟨_, rfl, .accepted hleads hlength hlt htypes⟩
  · simp only [hrun]
    cases hrollback : session.options.rollbackOnError with
    | true =>
      -- The store goes back along its trail, the arena to its size and to the names of the global scope.
      refine ⟨⟨.error diagnostic, annotated, session⟩, ?_, .refused hcause hrollback⟩
      simp only [↓reduceIte, hleads.types.rollback_eq, rollback_of_extends hleads.scopes hsnap, ok_bind]
      rfl
    | false =>
      exact ⟨_, rfl, .kept hcause hrollback hleads⟩

end Session

end TypeInference
