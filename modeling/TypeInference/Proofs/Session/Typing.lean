import TypeInference.Proofs.Scoping.Erasure
import TypeInference.Proofs.Session.Reachable

/-!
# `Proofs.Session.Typing` — accepted programs are well typed

In a session that always goes back after a refused program, every global value has a type. Then what inference
accepts obeys the typing rules: the trees of all nodes, read off the store that the session goes on with, fit
together at once.
-/

namespace TypeInference

open Store Scopes

namespace Session

variable {session : Session} {program : Program} {outcome : Outcome}

/-! ## Global values have types -/

/-- A new session has no global values. -/
theorem typed_new (options : Options) : (new options).Typed := by
  intro name symbol hsymbol
  cases hsymbol

/-- Global values have types as long as refused programs leave no trace. By induction on how the session was
    reached. -/
theorem Reachable.typed (h : Reachable (·.rollbackOnError = true) session) : session.Typed := by
  induction h with
  | new options => exact typed_new options
  | @check session program outcome hreachable hrollback hcheck ih =>
    have hanswers : session.Answers ∅ True program outcome :=
      hreachable.sound.answers unbound_empty hreachable.sound.clear_empty (fun _ => ih) hcheck
    cases hanswers with
    | accepted _ _ _ htypes => exact (htypes trivial).values
    | refused => exact ih
    | kept _ hkept => cases hrollback.symm.trans hkept
  | setStrictShadowing _ _ ih | setRollbackOnError _ _ ih => exact ih

/-! ## Accepted programs -/

/-- What comes back is the program that was submitted, with other records, whatever the answer is. -/
theorem erase_of_check (hcheck : session.check program = .ok outcome) :
    outcome.program.erase = program.erase := by
  have hprogram : ∀ pins, (session.analyze program pins).1.erase = program.erase := by
    intro pins
    rw [← Program.erase_annotate session.options.strictShadowing program session.global
      (.start session.scopes)]
    unfold analyze
    simp only [StateT.run]
    rcases program.annotate session.options.strictShadowing session.global (.start session.scopes)
      with ⟨annotated, scopes, _ | reason⟩ <;> rfl
  obtain ⟨snap, -, hcheck⟩ := exists_of_bind_eq_ok hcheck
  obtain ⟨pins, -, hcheck⟩ := exists_of_bind_eq_ok hcheck
  split at hcheck
  next annotated result hrun =>
  have herase : annotated.erase = program.erase := by simpa only [hrun] using hprogram pins
  -- Wherever analysis ends, the program that it has annotated is the one that comes back.
  split at hcheck
  · obtain rfl := Except.ok.inj hcheck
    exact herase
  · cases hcheck
  · split at hcheck
    · obtain ⟨types, -, hcheck⟩ := exists_of_bind_eq_ok hcheck
      obtain rfl := Except.ok.inj hcheck
      exact herase
    · obtain rfl := Except.ok.inj hcheck
      exact herase

/-- **Inference is sound**: an accepted program, with the scopes recorded in it, is well typed in the session
    as it goes on, and its statements have the trees of the types that were answered. -/
theorem Reachable.typed_of_accepted (h : Reachable (·.rollbackOnError = true) session)
    (hcheck : session.check program = .ok outcome) {tys : List TypeId} (haccepted : outcome.result = .ok tys) :
    outcome.program.erase = program.erase ∧
      StmtsTyped outcome.session.types.tree outcome.session.scopes none outcome.session.global
        outcome.program.stmts (tys.map outcome.session.types.tree) := by
  refine ⟨erase_of_check hcheck, ?_⟩
  have hanswers : session.Answers ∅ True program outcome :=
    h.sound.answers unbound_empty h.sound.clear_empty (fun _ => h.typed) hcheck
  cases hanswers with
  | @accepted tys' annotated final hleads _ _ htypes =>
    obtain rfl : tys' = tys := Except.ok.inj haccepted
    show StmtsTyped final.types.commit.tree final.scopes none session.global annotated.stmts
      (tys'.map final.types.commit.tree)
    rw [tree_commit]
    exact (htypes trivial).stmts
  | refused => cases haccepted
  | kept => cases haccepted

/-- The use of a function from an earlier program is well typed. -/
theorem typed_of_accepted_useIdentity :
    ∃ outcome tys, ((new {}).submit identity).check useIdentity = .ok outcome ∧ outcome.result = .ok tys ∧
      outcome.program.erase = useIdentity.erase ∧
      StmtsTyped outcome.session.types.tree outcome.session.scopes none outcome.session.global
        outcome.program.stmts (tys.map outcome.session.types.tree) := by
  have hnew : Reachable (·.rollbackOnError = true) (new {}) := .new {}
  obtain ⟨outcome, tys, hcheck, haccepted⟩ :=
    exists_of_accepts (by decide +kernel : ((new {}).submit identity).accepts useIdentity = true)
  exact ⟨outcome, tys, hcheck, haccepted, (hnew.submit rfl identity).typed_of_accepted hcheck haccepted⟩

end Session

end TypeInference
