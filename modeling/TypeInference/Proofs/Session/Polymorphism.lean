import TypeInference.Proofs.Session.Reachable

/-!
# `Proofs.Session.Polymorphism` — functions are not specialised by their users

A type variable that is part of no global variable's type is *free*. Such variables are where functions of
earlier programs may be used at different types. A submission never binds one, and never lets one become part
of a global variable's type: they are hidden from it.
-/

namespace TypeInference

open Store Scopes

namespace Session

/-! ## Free variables -/

/-- The type variable is unbound, and part of no global variable's type. In the types of functions such variables
    may be replaced by any types. -/
def Free (session : Session) (v : TypeId) : Prop :=
  session.types.IsUnbound v ∧ ∀ ty, session.scopes.Gives session.global .var ty →
    ¬ (session.types.tree ty).HasVar v

variable {session : Session} {program : Program} {outcome : Outcome} {under : Options → Prop}
  {final : Inference}

/-- The types of global variables are clear of the free variables, so these may be hidden. -/
theorem Sound.clear_free (h : session.Sound) {ty : TypeId} (hg : session.scopes.Gives session.global .var ty) :
    session.types.Clear {v | session.Free v} ty :=
  ⟨h.inRange hg, fun _ hr hv => hv.2 ty hg ((h.wf.grounded.hasVar_tree_iff (h.inRange hg)).mpr ⟨hr, hv.1⟩)⟩

/-- Where analysis leads while free variables are hidden, they are free. -/
theorem Leads.free (hl : session.Leads {v | session.Free v} final) {v : TypeId} (hv : session.Free v) :
    Free { session with types := final.types, scopes := final.scopes } v :=
  ⟨hl.types.isUnbound hv.1 hv, fun _ hg hvar =>
    (hl.vars hg).2 v ((hl.types.wf.grounded.hasVar_tree_iff (hl.vars hg).lt).mp hvar).1 hv⟩

/-- Where analysis leads, types are instances of what they were, by a substitution that leaves the free variables as
    they are. -/
theorem Leads.exists_subst (h : session.Sound) (hl : session.Leads {v | session.Free v} final) :
    ∃ σ : TypeId → Tree, (∀ v, session.Free v → σ v = .var v) ∧
      ∀ ty, ty.index < session.types.size → final.types.tree ty = (session.types.tree ty).subst σ :=
  ⟨final.types.tree, fun _ hv => hl.types.wf.grounded.tree_var (hl.types.isUnbound hv.1 hv),
    fun _ => hl.types.tree_eq_subst h.wf⟩

/-! ## Submissions leave them free -/

/-- **A submission leaves free variables free**, whether it is accepted or refused; so a type of an earlier
    program only changes at variables that it shares with a global variable. -/
theorem Reachable.free_of_check (h : Reachable under session) (hcheck : session.check program = .ok outcome) :
    (∀ v, session.Free v → outcome.session.Free v) ∧
      ∃ σ : TypeId → Tree, (∀ v, session.Free v → σ v = .var v) ∧
        ∀ ty, ty.index < session.types.size →
          outcome.session.types.tree ty = (session.types.tree ty).subst σ := by
  have hanswers : session.Answers {v | session.Free v} False program outcome :=
    h.sound.answers (fun _ hv => hv.1) (fun hg => h.sound.clear_free hg) (fun hf => hf.elim) hcheck
  cases hanswers with
  | @accepted tys annotated final hleads _ _ _ =>
    -- The trail that a commit drops plays no part in trees.
    refine ⟨fun v hv => ⟨(hleads.free hv).1, fun ty hg => ?_⟩, ?_⟩
    · show ¬ (final.types.commit.tree ty).HasVar v
      rw [tree_commit]
      exact (hleads.free hv).2 ty hg
    · show ∃ σ : TypeId → Tree, _ ∧ ∀ ty, _ → final.types.commit.tree ty = _
      rw [tree_commit]
      exact hleads.exists_subst h.sound
  | refused => exact ⟨fun _ => id, .var, fun _ _ => rfl, fun ty _ => (Tree.subst_id _).symm⟩
  | kept _ _ hleads => exact ⟨fun _ => hleads.free, hleads.exists_subst h.sound⟩

/-- The parameter's type is free once the function has been declared. -/
theorem free_identity : ((new {}).submit identity).Free ⟨4⟩ := by
  refine ⟨Store.get_eq_ok_iff.mpr (by decide +kernel), fun ty hg => ?_⟩
  obtain ⟨scope, hscope, entry, hentry, hkind, -⟩ := hg
  obtain rfl : scope = ⟨none, [("id", ⟨.function, false, true, some ⟨6⟩, .origin⟩)]⟩ :=
    Option.some.inj (hscope.symm.trans (by decide +kernel))
  obtain rfl := List.mem_singleton.mp hentry
  cases hkind

/-- A use of the function leaves its parameter's type free. -/
theorem free_of_check_useIdentity :
    ∃ outcome tys, ((new {}).submit identity).check useIdentity = .ok outcome ∧ outcome.result = .ok tys ∧
      outcome.session.Free ⟨4⟩ := by
  have hreachable : Reachable (fun _ => True) ((new {}).submit identity) :=
    (Reachable.new {}).submit trivial identity
  obtain ⟨outcome, tys, hcheck, haccepted⟩ :=
    exists_of_accepts (by decide +kernel : ((new {}).submit identity).accepts useIdentity = true)
  exact ⟨outcome, tys, hcheck, haccepted, (hreachable.free_of_check hcheck).1 ⟨4⟩ free_identity⟩

end Session

end TypeInference
