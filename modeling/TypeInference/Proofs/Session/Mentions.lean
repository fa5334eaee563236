import TypeInference.Proofs.Inference.Mentions
import TypeInference.Proofs.Scoping.Erasure
import TypeInference.Proofs.Scoping.Redeclaration
import TypeInference.Proofs.Session.Course
import TypeInference.Proofs.Session.Past

/-!
# `Proofs.Session.Mentions` — accepted programs mention names properly

In an accepted program every name that is mentioned is what it has to be, as told from the text around it and the names
that the session held. A refusal that is about what a name means is about a mention that is not what it has to be.

At the outermost place a name may come from the session, so it matters what a session can hold: at the top level no
label is ever declared, and no variant, which `Session.Declares` says.

## Contents
* `Session.Declares`, `Reachable.declares` — what the global scope holds;
* `Sound.checks` — the second pass over a submission checks its mentions;
* `Reachable.check_mentions` — the verdict on the mentions of a program.
-/

namespace TypeInference

open Store Scopes InferM

/-- The outermost layer is faithful if the names held before are. -/
theorem Program.faithful_layer {held : Table} (program : Program)
    (hheld : ∀ {name symbol}, held.find? name = some symbol → symbol.kind.isDeclarable = true) :
    (program.layer held).Faithful := by
  refine Layer.faithful_of_isDeclarable fun {name symbol} hfind => ?_
  rw [Table.find?_append, Option.or_eq_some_iff] at hfind
  rcases hfind with hfind | ⟨-, hfind⟩
  · exact hheld hfind
  · rw [← entriesOf_stmts] at hfind
    obtain ⟨entry, hentry, -, rfl⟩ := exists_of_find?_entriesOf hfind
    obtain ⟨stmt, -, hmem⟩ := List.mem_flatMap.mp hentry
    exact Stmt.isDeclarable_of_mem_symbols entry hmem

namespace Session

variable {session : Session} {table : Table} {program : Program} {outcome : Outcome} {under : Options → Prop}

/-! ## The two passes -/

/-- The answer to a submission is what its analysis comes to; the tree that comes back is that of the first pass. -/
theorem exists_of_check (hfound : session.scopes.scopeAt session.global = some ⟨none, table⟩)
    (hcheck : session.check program = .ok outcome) :
    (∃ tys final, session.analyze program (pinnedTypes table) = (outcome.program, .ok tys final) ∧
        outcome.result = .ok tys) ∨
      ∃ diagnostic final,
        session.analyze program (pinnedTypes table) = (outcome.program, .error (.failure diagnostic) final) ∧
          outcome.result = .error diagnostic := by
  obtain ⟨snap, -, hsteps⟩ := exists_of_bind_eq_ok hcheck
  obtain ⟨pinned, hpinned, hsteps⟩ := exists_of_bind_eq_ok hsteps
  obtain rfl : pinnedTypes table = pinned := Except.ok.inj ((pinned_eq_ok hfound).symm.trans hpinned)
  split at hsteps
  next annotated result hrun =>
  split at hsteps
  · cases hsteps
    exact .inl ⟨_, _, hrun, rfl⟩
  · cases hsteps
  · split at hsteps
    · obtain ⟨types, -, hsteps⟩ := exists_of_bind_eq_ok hsteps
      cases hsteps
      exact .inr ⟨_, _, hrun, rfl⟩
    · cases hsteps
      exact .inr ⟨_, _, hrun, rfl⟩

/-! ## The global names -/

/-- Every global name is of a kind that statements declare, so it is no label and no variant. -/
def Declares (session : Session) : Prop :=
  ∀ ⦃name symbol⦄, session.scopes.symbolAt session.global name = some symbol → symbol.kind.isDeclarable = true

section Checks

variable (h : session.Sound) (hdeclares : session.Declares)
  (hfound : session.scopes.scopeAt session.global = some ⟨none, table⟩)

include h hdeclares hfound

/-- A scoped program stands in the layer of the global scope, which has the names held before and those of the
    program. -/
theorem Sound.layered (hhalt : (session.scoping program).2.halt = none) :
    (session.scoping program).2.scopes.Layered session.global [(session.scoping program).1.layer table] := by
  have hscoped := h.scoped hfound program
  have hheld : ∀ {name symbol}, table.find? name = some symbol → symbol.kind.isDeclarable = true := by
    intro name symbol hfind
    exact @hdeclares name symbol (by rw [symbolAt, hfound, Option.bind_some, hfind])
  refine ⟨rfl, ?_, List.forall_mem_singleton.mpr (Program.faithful_layer _ hheld)⟩
  · show (session.scoping program).2.scopes.Chain session.global [table ++ stmtsFrame _]
    rw [← entriesOf_stmts]
    exact .outermost (hscoped.placed hhalt).scope

/-- **The second pass over a submission** checks its mentions, in the order in which they are made. -/
theorem Sound.checks (hhalt : (session.scoping program).2.halt = none) (pinned : List TypeId) :
    Checks (session.scoping program).2.scopes false
      (inferList session.global pinned (session.scoping program).1.stmts)
      ((session.scoping program).1.mentions table) := by
  have hscoped := h.scoped hfound program
  exact inferList_checks hscoped.ordered (h.layered hdeclares hfound hhalt) (hscoped.placed hhalt).stmts

/-- What the program declares at the top level is of such a kind, too. -/
theorem Sound.declares_scoped {name : String} {symbol : Symbol}
    (hsymbol : (session.scoping program).2.scopes.symbolAt session.global name = some symbol) :
    symbol.kind.isDeclarable = true := by
  obtain ⟨added, hheld, hadded⟩ := Program.annotate_holds session.options.strictShadowing h.ordered hfound program
  rw [symbolAt, scoping, hheld, Option.bind_some, Table.find?_append, Option.or_eq_some_iff] at hsymbol
  rcases hsymbol with hfind | ⟨-, hfind⟩
  · exact hdeclares (by rw [symbolAt, hfound, Option.bind_some]; exact hfind)
  · obtain ⟨entry, hentry, heq⟩ := List.mem_map.mp (hadded (mem_of_find? hfind))
    cases heq
    obtain ⟨stmt, -, hmem⟩ := List.mem_flatMap.mp hentry
    exact Stmt.isDeclarable_of_mem_symbols entry hmem

/-- Inference leaves the kinds of all names alone, wherever it ends or stops. -/
theorem Sound.sameShape_analyzed :
    SameShape (session.scoping program).2.scopes (session.analyzed program (pinnedTypes table)).scopes := by
  rw [analyzed]
  cases hhalt : (session.scoping program).2.halt with
  | some reason =>
    rw [analyze_of_halt hhalt]
    exact .refl _
  | none =>
    have hrun := h.checks hdeclares hfound hhalt (pinnedTypes table)
      (.start session.types (session.scoping program).2.scopes) (.refl _) rfl
    rw [analyze_of_scoped hhalt]
    cases hinfer : inferList session.global (pinnedTypes table) (session.scoping program).1.stmts
        (.start session.types (session.scoping program).2.scopes) with
    | ok tys final => exact (hrun.ok hinfer).1.shape
    | error reason final => exact (hrun.error hinfer).1.shape

end Checks

/-- **The global names of a reachable session** are of kinds that statements declare. By induction on how the
    session was reached. -/
theorem Reachable.declares (h : Reachable under session) : session.Declares := by
  induction h with
  | new options =>
    intro name symbol hsymbol
    cases hsymbol
  | @check session program outcome hreachable _ hcheck ih =>
    obtain ⟨table, hfound⟩ := hreachable.sound.found
    rcases hreachable.sound.session_cases hfound hcheck with heq | ⟨types, -, heq⟩
    · rwa [heq]
    · rw [heq]
      intro name symbol hsymbol
      obtain ⟨before, hbefore, hkind⟩ := (hreachable.sound.sameShape_analyzed ih hfound).symm.symbol hsymbol
      exact hkind ▸ hreachable.sound.declares_scoped ih hfound hbefore
  | setStrictShadowing _ _ ih | setRollbackOnError _ _ ih => exact ih

/-! ## The verdict -/

/-- **Mentions are checked exactly.** In a program that is accepted all mentions are proper: a labelled jump stands
    inside the statement of a label with that name, whose declaration is the innermost one of the name; a name in an
    expression means a variable, a parameter or a function, and an assigned one a variable or parameter; every name in a
    signature is a primitive type or means a type; and every `return` stands inside a function. If a program is refused
    for a reason of this sort, then it is for a mention that is not proper. -/
theorem Reachable.check_mentions (h : Reachable under session) (program : Program) :
    ∃ outcome held, session.check program = .ok outcome ∧ session.scopes.table session.global = .ok held ∧
      outcome.program.erase = program.erase ∧
      (∀ tys, outcome.result = .ok tys → ∀ mention ∈ outcome.program.mentions held, mention.Proper) ∧
      ∀ diagnostic, outcome.result = .error diagnostic → diagnostic.cause.IsAboutMention →
        ∃ mention ∈ outcome.program.mentions held, mention.refusal? = some diagnostic ∧ ¬ mention.Proper := by
  obtain ⟨held, hfound⟩ := h.sound.found
  obtain ⟨outcome, hcheck, -⟩ := h.sound.check_eq_ok unbound_empty h.sound.clear_empty False.elim program
  refine ⟨outcome, held, hcheck, table_eq_ok hfound, ?_⟩
  have hcases := exists_of_check hfound hcheck
  have herase := Program.erase_annotate session.options.strictShadowing program session.global (.start session.scopes)
  cases hhalt : (session.scoping program).2.halt with
  | some reason =>
    rw [analyze_of_halt hhalt] at hcases
    rcases hcases with ⟨tys, final, hrun, -⟩ | ⟨diagnostic, final, hrun, hresult⟩ <;>
      obtain ⟨hprogram, hstop⟩ := Prod.mk.inj hrun
    · cases hstop
    · rw [hresult, ← hprogram]
      refine ⟨herase, by rintro _ ⟨⟩, ?_⟩
      rintro _ ⟨⟩ habout
      injection hstop with hreason
      -- The first pass has no such reason.
      have hdeclaration := Program.annotate_onlyDeclares session.options.strictShadowing session.global program
        session.scopes reason hhalt diagnostic hreason
      rcases hdeclaration with ⟨kind, name, hcause⟩ | ⟨name, hcause⟩ <;> rw [hcause] at habout <;> cases habout
  | none =>
    have hchecks := h.sound.checks h.declares hfound hhalt (pinnedTypes held)
      (.start session.types (session.scoping program).2.scopes) (.refl _) rfl
    rw [analyze_of_scoped hhalt] at hcases
    rcases hcases with ⟨tys, final, hrun, hresult⟩ | ⟨diagnostic, final, hrun, hresult⟩ <;>
      obtain ⟨hprogram, hinfer⟩ := Prod.mk.inj hrun <;>
      rw [hresult, ← hprogram]
    · refine ⟨herase, fun _ _ mention hmention => ?_, by rintro _ ⟨⟩⟩
      have hgranted := (hchecks.ok hinfer).2 mention hmention
      exact Mention.proper_of_refusal? hgranted.located.faithful hgranted.refusal
    · refine ⟨herase, by rintro _ ⟨⟩, ?_⟩
      rintro _ ⟨⟩ habout
      obtain ⟨mention, hmention, hrefusal⟩ := (hchecks.error hinfer).2 diagnostic rfl habout
      exact ⟨mention, hmention, hrefusal, Mention.not_proper_of_refusal? hrefusal⟩

/-! ### A label that is hidden -/

/-- A label whose name the block inside takes for a variable. -/
def hidesLabel : Program :=
  let mark : Mark := .fresh .origin
  ⟨[.label mark ⟨"l", ⟨1, 1⟩⟩ (.block (.mk mark [
    .vars .origin .mutable [⟨.origin, ⟨"l", ⟨2, 1⟩⟩, none, none⟩],
    .jump .origin .leave (some ⟨"l", ⟨3, 1⟩⟩)]))], none⟩

/-- The jump in the block names the variable, although it stands inside the statement of the label. -/
theorem check_mentions_hidesLabel :
    ∃ outcome held, ((new {}).submit identity).check hidesLabel = .ok outcome ∧
      outcome.program.erase = hidesLabel.erase ∧
      ∃ mention ∈ outcome.program.mentions held,
        mention.refusal? = some ⟨.notALabel .var "l", ⟨3, 1⟩⟩ ∧ ¬ mention.Proper := by
  have hreachable : Reachable (fun _ => True) ((new {}).submit identity) := (Reachable.new {}).submit trivial _
  have hresult : (((new {}).submit identity).check hidesLabel).map Outcome.result =
      .ok (.error ⟨.notALabel .var "l", ⟨3, 1⟩⟩) := by decide +kernel
  obtain ⟨outcome, held, hcheck, -, herase, -, hrefused⟩ := hreachable.check_mentions hidesLabel
  rw [hcheck] at hresult
  exact ⟨outcome, held, hcheck, herase, hrefused _ (Except.ok.inj hresult) trivial⟩

end Session

end TypeInference
