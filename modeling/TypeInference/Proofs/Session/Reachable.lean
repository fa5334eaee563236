import TypeInference.Proofs.Session.Analysis

/-!
# `Proofs.Session.Reachable` — sessions never get stuck, and refused programs leave no trace

A session is *reachable* when it comes from a new one by submissions and changes of its switches. Every
reachable session is sound, whatever the programs were and whether they were accepted, so every further
submission is answered.

## Contents
* `Session.Reachable`, `Reachable.sound` — reachable sessions;
* `Session.accepts`, `Session.submit` — the verdict on a program, and the session that goes on;
* `Session.Coherent`, `Reachable.check_answers` — no submission gets stuck;
* `Reachable.eq_of_refused` — no trace is left.
-/

namespace TypeInference

open Store Scopes Relation

namespace Session

/-- The sessions that come from a new one by submissions, which take place under the switches `under`, and by
    changes of the switches at any time. -/
inductive Reachable (under : Options → Prop) : Session → Prop
  | new (options : Options) : Reachable under (.new options)
  | check {session : Session} {program : Program} {outcome : Outcome} : Reachable under session →
      under session.options → session.check program = .ok outcome → Reachable under outcome.session
  | setStrictShadowing {session : Session} (strict : Bool) : Reachable under session →
      Reachable under (session.setStrictShadowing strict)
  | setRollbackOnError {session : Session} (rollback : Bool) : Reachable under session →
      Reachable under (session.setRollbackOnError rollback)

variable {session : Session} {hidden : Set TypeId} {tidy : Prop} {program : Program} {outcome : Outcome}
  {under : Options → Prop} {final : Inference}

/-! ## Soundness -/

/-- A new session has the primitive types and an empty global scope. -/
theorem sound_new (options : Options) : (new options).Sound := by
  -- The global scope is the only one, and is empty.
  have hscope : ∀ {id : ScopeId} {scope : Scope}, (new options).scopes.scopeAt id = some scope →
      scope = ⟨none, []⟩ := by
    intro id scope hscope
    obtain ⟨hlt, rfl⟩ := Array.getElem?_eq_some_iff.mp hscope
    have hzero : id.index = 0 := Nat.lt_one_iff.mp hlt
    simp only [hzero]
    rfl
  refine ⟨wellFormed_initial, fun id parent hparent => ?_, ⟨[], rfl⟩, fun {id kind ty} hg => ?_⟩
  · obtain ⟨scope, hat, he⟩ := Option.bind_eq_some_iff.mp hparent
    rw [hscope hat] at he
    cases he
  · obtain ⟨scope, hat, entry, hentry, -⟩ := hg
    rw [hscope hat] at hentry
    cases hentry

/-- A session that analysis has led to is sound, whether the program was accepted or not. -/
theorem Leads.sound (hl : session.Leads hidden final) (h : session.Sound) :
    Sound { session with types := final.types, scopes := final.scopes } where
  wf := hl.types.wf
  ordered := hl.ordered
  found := by
    obtain ⟨table, hfound⟩ := h.found
    have hlt := lt_of_scopeAt hfound
    obtain ⟨⟨parent, table'⟩, hscope⟩ := exists_scopeAt_iff.mpr (hlt.trans_le hl.scopes.size_le)
    have hparent := hl.scopes.parent session.global hlt
    rw [parentOf, hscope, parentOf, hfound] at hparent
    obtain rfl : parent = none := hparent
    exact ⟨table', hscope⟩
  inRange := hl.inRange

/-- Forgetting how to go back changes nothing of what the session means. -/
theorem Sound.commit (h : session.Sound) : Sound { session with types := session.types.commit } :=
  ⟨h.wf.commit, h.ordered, h.found, h.inRange⟩

/-- Each of the three outcomes leaves a sound session. -/
theorem Answers.sound (ha : session.Answers hidden tidy program outcome) (h : session.Sound) :
    outcome.session.Sound := by
  cases ha with
  | accepted hleads => exact (hleads.sound h).commit
  | refused => exact h
  | kept _ _ hleads => exact hleads.sound h

/-- What a submission to a sound session has answered is one of the answers. -/
theorem Sound.answers (h : session.Sound) (hunbound : ∀ v ∈ hidden, session.types.IsUnbound v)
    (hclear : ∀ {ty}, session.scopes.Gives session.global .var ty → session.types.Clear hidden ty)
    (htyped : tidy → session.Typed) (hcheck : session.check program = .ok outcome) :
    session.Answers hidden tidy program outcome := by
  obtain ⟨outcome', hcheck', hanswers⟩ := h.check_eq_ok hunbound hclear htyped program
  cases hcheck.symm.trans hcheck'
  exact hanswers

/-- Nothing has to be hidden, if there is nothing that should stay as it is. -/
theorem unbound_empty {types : Store} : ∀ v ∈ (∅ : Set TypeId), types.IsUnbound v :=
  fun v hv => absurd hv (Set.notMem_empty v)

/-- Every type is clear when nothing is hidden. -/
theorem Sound.clear_empty (h : session.Sound) {kind : SymbolKind} {ty : TypeId}
    (hg : session.scopes.Gives session.global kind ty) : session.types.Clear ∅ ty :=
  ⟨h.inRange hg, fun _ _ hv => hv⟩

/-- Going back after a refused program undoes all of it, in any sound session. -/
theorem Sound.undone (h : session.Sound) (hrollback : session.options.rollbackOnError = true)
    (hcheck : session.check program = .ok outcome) {diagnostic : Diagnostic}
    (hrefused : outcome.result = .error diagnostic) : outcome.session = session := by
  cases h.answers unbound_empty h.clear_empty False.elim hcheck with
  | accepted => cases hrefused
  | refused => rfl
  | kept _ hkept => cases hrollback.symm.trans hkept

/-- **Reachable sessions are sound**, after refused programs as well. By induction on how the session was reached. -/
theorem Reachable.sound (h : Reachable under session) : session.Sound := by
  induction h with
  | new options => exact sound_new options
  | check _ _ hcheck ih => exact (ih.answers unbound_empty ih.clear_empty False.elim hcheck).sound ih
  | setStrictShadowing _ _ ih | setRollbackOnError _ _ ih => exact ⟨ih.wf, ih.ordered, ih.found, ih.inRange⟩

/-! ## Verdicts -/

/-- Whether a session accepts a program, by submitting it and looking at the result. -/
def accepts (session : Session) (program : Program) : Bool :=
  match session.check program with
  | .ok ⟨.ok _, _, _⟩ => true
  | _ => false

/-- The session as it goes on after a submission; if there was no answer, it is the session itself. -/
def submit (session : Session) (program : Program) : Session :=
  match session.check program with
  | .ok outcome => outcome.session
  | .error _ => session

/-- What is accepted has an outcome with the types of the statements. -/
theorem exists_of_accepts (h : session.accepts program = true) :
    ∃ outcome tys, session.check program = .ok outcome ∧ outcome.result = .ok tys := by
  unfold accepts at h
  split at h
  · next tys annotated later hcheck => exact ⟨_, tys, hcheck, rfl⟩
  · cases h

theorem submit_of_check (hcheck : session.check program = .ok outcome) : session.submit program = outcome.session := by
  rw [Session.submit, hcheck]

/-- What a reachable session does not accept it refuses, as it never fails to answer. -/
theorem Reachable.exists_of_not_accepts (h : Reachable under session) (hnot : session.accepts program = false) :
    ∃ outcome diagnostic, session.check program = .ok outcome ∧ outcome.result = .error diagnostic := by
  obtain ⟨⟨result, annotated, later⟩, hcheck, -⟩ :=
    h.sound.check_eq_ok unbound_empty h.sound.clear_empty False.elim program
  cases result with
  | ok tys =>
    simp only [accepts, hcheck] at hnot
    cases hnot
  | error diagnostic => exact ⟨_, diagnostic, hcheck, rfl⟩

theorem Reachable.submit (h : Reachable under session) (hunder : under session.options) (program : Program) :
    Reachable under (session.submit program) := by
  cases hcheck : session.check program with
  | ok outcome => simpa only [Session.submit, hcheck] using h.check hunder hcheck
  | error fault => simpa only [Session.submit, hcheck] using h

/-! ### Programs to look at -/

/-- The function that returns its argument, and can be used at every type. -/
def identity : Program :=
  let mark : Mark := .fresh .origin
  ⟨[.function mark ⟨"id", .origin⟩ [⟨.origin, ⟨"a", .origin⟩, none⟩] none
    (.mk mark [.ret .origin (some (.name mark ⟨"a", .origin⟩))])], none⟩

/-- A use of that function at a number, which takes an earlier program that declares it. -/
def useIdentity : Program :=
  let mark : Mark := .fresh .origin
  ⟨[.expr (.call mark (.name mark ⟨"id", .origin⟩) [.number mark])], none⟩

/-- The function once more, and a name that nobody declares, for which the program is refused. -/
def undeclared : Program :=
  ⟨identity.stmts ++ [.expr (.name (.fresh .origin) ⟨"b", .origin⟩)], none⟩

/-- A session that has kept what a refused program did, and goes back after refused programs since. -/
def tainted : Session :=
  ((new { rollbackOnError := false }).submit undeclared).setRollbackOnError true

/-- It is reachable if submissions may take place under any switches. -/
theorem reachable_tainted : Reachable (fun _ => True) tainted :=
  ((Reachable.new _).submit trivial undeclared).setRollbackOnError true

/-! ## No submission gets stuck -/

/-- Every number that a session keeps means something, and no walk along types or scopes goes on for ever. This is
    what `Sound` says, in terms of numbers only. -/
structure Coherent (session : Session) : Prop where
  refers_lt : ∀ {a b}, session.types.Refers a b → b.index < session.types.size
  trail_lt : ∀ v ∈ session.types.trail, v.index < session.types.size
  gives_lt : ∀ {id kind ty}, session.scopes.Gives id kind ty → ty.index < session.types.size
  acyclic : ∀ a, ¬ TransGen session.types.Refers a a
  parent_lt : ∀ {id parent}, session.scopes.parentOf id = some parent → parent.index < id.index

/-- A sound session is coherent. That types are acyclic comes from the ranks that a well-formed store has. -/
theorem Sound.coherent (h : session.Sound) : session.Coherent where
  refers_lt := h.wf.inRange
  trail_lt := fun v hv => by
    obtain ⟨target, hget⟩ := h.wf.trailBound v hv
    exact lt_of_get hget
  gives_lt := h.inRange
  acyclic := h.wf.acyclic
  parent_lt := fun hparent => h.ordered _ _ hparent

/-- **Every submission is answered**: there is no fault and no missing scope, each statement of an accepted
    program has one type, and the session stays coherent. -/
theorem Reachable.check_answers (h : Reachable under session) (program : Program) :
    ∃ outcome, session.check program = .ok outcome ∧
      (∀ diagnostic, outcome.result = .error diagnostic → diagnostic.cause ≠ .missingScope) ∧
      (∀ tys, outcome.result = .ok tys →
        tys.length = program.stmts.length ∧ ∀ ty ∈ tys, ty.index < outcome.session.types.size) ∧
      outcome.session.Coherent := by
  obtain ⟨outcome, hcheck, hanswers⟩ :=
    h.sound.check_eq_ok unbound_empty h.sound.clear_empty False.elim program
  refine ⟨outcome, hcheck, ?_, ?_, (hanswers.sound h.sound).coherent⟩
  · rintro diagnostic hresult
    cases hanswers with
    | accepted => cases hresult
    | refused hcause => cases hresult; exact hcause
    | kept hcause => cases hresult; exact hcause
  · rintro tys hresult
    cases hanswers with
    | accepted _ hlength hlt => cases hresult; exact ⟨hlength, hlt⟩
    | refused => cases hresult
    | kept => cases hresult

/-- A session that has seen a refused program goes on to answer. -/
theorem check_answers_tainted :
    ∃ outcome, tainted.check identity = .ok outcome ∧
      (∀ diagnostic, outcome.result = .error diagnostic → diagnostic.cause ≠ .missingScope) ∧
      (∀ tys, outcome.result = .ok tys →
        tys.length = identity.stmts.length ∧ ∀ ty ∈ tys, ty.index < outcome.session.types.size) ∧
      outcome.session.Coherent :=
  reachable_tainted.check_answers identity

/-! ## No trace -/

/-- **A refused program leaves no trace**: the session is what it was, with its store, its trail, its arena,
    its global scope and its switches. -/
theorem Reachable.eq_of_refused (h : Reachable under session)
    (hrollback : session.options.rollbackOnError = true) (hcheck : session.check program = .ok outcome)
    {diagnostic : Diagnostic} (hrefused : outcome.result = .error diagnostic) :
    outcome.session = session :=
  h.sound.undone hrollback hcheck hrefused

/-- A second refused program leaves what the first one has left. -/
theorem eq_of_refused_tainted :
    ∃ outcome diagnostic, tainted.check undeclared = .ok outcome ∧ outcome.result = .error diagnostic ∧
      outcome.session = tainted := by
  obtain ⟨outcome, diagnostic, hcheck, hrefused⟩ :=
    reachable_tainted.exists_of_not_accepts (by decide +kernel : tainted.accepts undeclared = false)
  exact ⟨outcome, diagnostic, hcheck, hrefused,
    reachable_tainted.eq_of_refused (by decide +kernel) hcheck hrefused⟩

end Session

end TypeInference
