import TypeInference.Proofs.Scoping.Oblivious
import TypeInference.Proofs.Scoping.Strict
import TypeInference.Proofs.Session.Course

/-!
# `Proofs.Session.Scoping` — what the first pass has to do with the answer

The answer to a submission depends on the program only by way of the first pass. So what a tree has recorded
before plays no part, and strict shadowing changes no answer but by refusing programs, all of them in the first
pass and for a reason that can be read off the text.

## Contents
* `Sound.check_of_halt` — how the first pass refuses a submission;
* `Reachable.check_of_erase_eq` — trees that differ in records only get the same answer;
* `Reachable.check_strict` — strict shadowing is a filter.
-/

namespace TypeInference

open Store Scopes ScopingM

namespace Session

variable {session : Session} {under : Options → Prop} {program other : Program}

/-! ## Refusals of the first pass -/

/-- **A program that cannot be scoped is refused** with the diagnostic of the first pass. What the pass has done to
    the scopes is undone or kept, as the session is told. -/
theorem Sound.check_of_halt (h : session.Sound) {diagnostic : Diagnostic}
    (hhalt : (session.scoping program).2.halt = some (.failure diagnostic)) :
    session.check program = .ok ⟨.error diagnostic, (session.scoping program).1,
      if session.options.rollbackOnError then session
      else { session with scopes := (session.scoping program).2.scopes }⟩ := by
  obtain ⟨table, hfound⟩ := h.found
  have hsnap := snapshot_eq_ok hfound
  unfold check
  simp only [hsnap, pinned_eq_ok hfound, ok_bind, analyze_of_halt hhalt]
  cases session.options.rollbackOnError with
  | false => rfl
  | true =>
    have htypes : session.types.rollback session.types.snapshot = .ok session.types :=
      (Evolves.refl h.wf : Evolves ∅ _ _).rollback_eq
    have hscopes := rollback_of_extends (h.scoped hfound program).grown hsnap
    simp only [↓reduceIte, Inference.start, htypes, hscopes, ok_bind]
    rfl

/-! ## Records -/

/-- **What a program has recorded plays no part**: two programs that are the same but for the scopes recorded in
    them get the same answer and leave the same session, and if they can be scoped they come back the same. -/
theorem Reachable.check_of_erase_eq (h : Reachable under session) (herase : program.erase = other.erase) :
    ∃ outcome outcome', session.check program = .ok outcome ∧ session.check other = .ok outcome' ∧
      outcome.result = outcome'.result ∧ outcome.session = outcome'.session ∧
      ((session.scoping program).2.halt = none → outcome.program = outcome'.program) := by
  have hsame : Same (program.annotate session.options.strictShadowing session.global)
      (other.annotate session.options.strictShadowing session.global) := Program.annotate_alike _ herase _
  have hstate : (session.scoping program).2 = (session.scoping other).2 := hsame.state session.scopes
  cases hhalt : (session.scoping program).2.halt with
  | none =>
    -- The second pass and the answer start from the same tree.
    have hscoping : session.scoping program = session.scoping other := Prod.ext (hsame.result _ hhalt) hstate
    have hanalyze : session.analyze program = session.analyze other := by
      funext pins
      unfold scoping at hscoping
      simp only [analyze, StateT.run, hscoping]
    obtain ⟨outcome, hcheck, -⟩ := h.sound.check_eq_ok unbound_empty h.sound.clear_empty False.elim program
    have hcheck' : session.check other = .ok outcome := by rw [← hcheck, Session.check, Session.check, hanalyze]
    exact ⟨outcome, outcome, hcheck, hcheck', rfl, rfl, fun _ => rfl⟩
  | some reason =>
    obtain ⟨table, hfound⟩ := h.sound.found
    obtain ⟨diagnostic, rfl, -⟩ := (h.sound.scoped hfound program).refused reason hhalt
    refine ⟨_, _, h.sound.check_of_halt hhalt, h.sound.check_of_halt (hstate ▸ hhalt), rfl, ?_, ?_⟩
    · rw [hstate]
    · intro hscoped
      cases hscoped

/-! ### A program with stale records -/

/-- The use of a function, with scopes recorded that there are not, or that are others than the right ones. -/
def staleUse : Program :=
  ⟨[.expr (.call ⟨.origin, some ⟨7⟩⟩ (.name ⟨.origin, some ⟨0⟩⟩ ⟨"id", .origin⟩) [.number (.fresh .origin)])],
    some ⟨9⟩⟩

/-- Records from nowhere do no harm. -/
theorem check_staleUse :
    staleUse.erase = useIdentity.erase ∧ ∃ outcome outcome',
      ((new {}).submit identity).check staleUse = .ok outcome ∧
      ((new {}).submit identity).check useIdentity = .ok outcome' ∧
      outcome.result = outcome'.result ∧ outcome.session = outcome'.session ∧
      outcome.program = outcome'.program := by
  have hreachable : Reachable (fun _ => True) ((new {}).submit identity) := (Reachable.new {}).submit trivial _
  have hhalt : (((new {}).submit identity).scoping staleUse).2.halt = none := by decide +kernel
  obtain ⟨outcome, outcome', hcheck, hcheck', hresult, hsession, hprogram⟩ :=
    hreachable.check_of_erase_eq (rfl : staleUse.erase = useIdentity.erase)
  exact ⟨rfl, outcome, outcome', hcheck, hcheck', hresult, hsession, hprogram hhalt⟩

/-! ## Strict shadowing -/

/-- **Strict shadowing is a filter.** What is accepted with it is accepted without it, with the same types, the
    same tree, the same store and the same arena. And a program that can be scoped without it can be scoped with it
    unless it declares a value that hides a type; the first such value, in the order of the pass, is then the
    reason why the program is refused. -/
theorem Reachable.check_strict (h : Reachable under session) (program : Program) :
    (∀ outcome tys, (session.setStrictShadowing true).check program = .ok outcome → outcome.result = .ok tys →
      (session.setStrictShadowing false).check program =
        .ok { outcome with session := outcome.session.setStrictShadowing false }) ∧
    ∀ held, session.scopes.table session.global = .ok held →
      ((session.setStrictShadowing false).scoping program).2.halt = none →
      ((session.setStrictShadowing true).scoping program).2.halt =
        ((program.values held).find? Declared.hidesType).map (Halt.failure ∘ Declared.diagnostic) ∧
      ∀ d, (program.values held).find? Declared.hidesType = some d →
        ∃ outcome, (session.setStrictShadowing true).check program = .ok outcome ∧
          outcome.result = .error d.diagnostic := by
  have hsound : (session.setStrictShadowing true).Sound := (h.setStrictShadowing true).sound
  refine ⟨fun outcome tys hcheck haccepted => ?_, fun held hheld hlenient => ?_⟩
  · obtain ⟨c, -, rfl⟩ := hsound.exists_course hcheck haccepted
    -- The course leads through the same states without the questions of strict mode.
    have hannotate := Program.annotate_stricter session.global program _ _ _ c.annotate
    let lenient : (session.setStrictShadowing false).Course program :=
      ⟨c.table, c.annotated, c.scopes, c.pins, c.ready, c.tys, c.final, c.found, hannotate, c.declared, c.inferred⟩
    exact lenient.check_eq_ok
  · obtain ⟨table, hfound⟩ := h.sound.found
    obtain rfl : table = held := Except.ok.inj ((table_eq_ok hfound).symm.trans hheld)
    rcases hrun : (session.setStrictShadowing false).scoping program with ⟨annotated, scopes, halt⟩
    rw [hrun] at hlenient
    obtain rfl : halt = none := hlenient
    have hjudged := Program.annotate_filters h.sound.ordered hfound hrun
    have hhalt : ∀ d, (program.values table).find? Declared.hidesType = some d →
        ((session.setStrictShadowing true).scoping program).2.halt = some (.failure d.diagnostic) :=
      fun d hd => hjudged.ends d hd
    refine ⟨?_, fun d hd => ⟨_, hsound.check_of_halt (hhalt d hd), rfl⟩⟩
    cases hfind : (program.values table).find? Declared.hidesType with
    | none => exact congrArg (fun after => after.2.halt) ((hjudged.same hfind).trans hrun)
    | some d => exact hhalt d hfind

/-! ### A block that hides a type -/

/-- A struct. -/
def declaresType : Program := ⟨[.struct .origin ⟨"s", .origin⟩ []], none⟩

/-- A variable with the name of the struct in a block, and before it in the text a lambda that takes a parameter of
    that name. -/
def shadowsType : Program :=
  let mark : Mark := .fresh .origin
  ⟨[.block (.mk mark [
    .expr (.lambda mark none [⟨.origin, ⟨"s", ⟨1, 1⟩⟩, none⟩] (.number mark)),
    .vars .origin .mutable [⟨.origin, ⟨"s", ⟨2, 1⟩⟩, none, none⟩]])], none⟩

/-- The variable is declared before the lambda is looked at, and is the reason; the parameter hides the variable
    only. -/
theorem check_strict_shadowsType :
    ∃ held outcome, ((new {}).submit declaresType).scopes.table ((new {}).submit declaresType).global = .ok held ∧
      ((((new {}).submit declaresType).setStrictShadowing false).scoping shadowsType).2.halt = none ∧
      ((shadowsType.values held).map Declared.hidesType) = [true, false] ∧
      (((new {}).submit declaresType).setStrictShadowing true).check shadowsType = .ok outcome ∧
      outcome.result = .error ⟨.shadowsType "s", ⟨2, 1⟩⟩ := by
  have hreachable : Reachable (fun _ => True) ((new {}).submit declaresType) :=
    (Reachable.new {}).submit trivial _
  have htable : ((new {}).submit declaresType).scopes.table ((new {}).submit declaresType).global =
      .ok [("s", ⟨.struct, false, true, some ⟨4⟩, .origin⟩)] := by decide +kernel
  have hhalt : ((((new {}).submit declaresType).setStrictShadowing false).scoping shadowsType).2.halt = none := by
    decide +kernel
  obtain ⟨-, hsecond⟩ := hreachable.check_strict shadowsType
  obtain ⟨-, hrefused⟩ := hsecond _ htable hhalt
  obtain ⟨outcome, hcheck, hresult⟩ := hrefused _ rfl
  exact ⟨_, outcome, htable, hhalt, by decide +kernel, hcheck, hresult⟩

end Session

end TypeInference
