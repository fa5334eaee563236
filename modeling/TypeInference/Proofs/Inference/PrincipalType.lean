import TypeInference.Proofs.Inference.Completeness
import TypeInference.Proofs.Scoping.Annotation

/-!
# `Proofs.Inference.PrincipalType` — principal types, said of solutions

What `Expr.infer_principal` says of readings, for solutions: assignments of finite trees to type variables that
respect the bindings of the store. A solution is a reading of all types (`Grounded.reads_value`), and a
reading of the store that is left is a solution that continues the one it came from.

Main statement: `Expr.principal_type`.
-/

namespace TypeInference

open Store Scopes InferM

variable {pinned : List TypeId} {scope : ScopeId} {s : Inference}

/-! ## Solutions -/

/-- The trees of names in a scope, when types have the trees that are given. A name that means nothing, or that has
    no type, has no tree. -/
def Scopes.environment (g : Scopes) (scope : ScopeId) (tree : TypeId → Tree) : Environment := fun name =>
  match g.lookup scope name with
  | .ok (some (_, symbol)) => symbol.ty.map tree
  | _ => none

/-- A name that means a variable has the tree of its type. -/
theorem Inference.Means.environment {name : String} {ty : TypeId} (h : s.Means pinned scope name ty)
    (tree : TypeId → Tree) : s.scopes.environment scope tree name = some (tree ty) := by
  obtain ⟨owner, symbol, hlookup, -, hty⟩ := h.lookup
  simp [Scopes.environment, hlookup, hty]

/-! ### Solutions of an earlier and of a later store -/

/-- A solution of a later store is one of the earlier store, once it is looked at from the variables there were; and
    it gives the types there were the same trees. Variables that have been bound since are no obstacle: their trees
    are what they are bound to. -/
theorem Store.Solves.of_evolves {types types' : Store} {hidden : Set TypeId} {σ σ' : TypeId → Tree}
    (h : types'.Solves σ') (hs : Evolves hidden types types') (hwf : types.WellFormed)
    (heq : ∀ v : TypeId, v.index < types.size → σ' v = σ v) :
    types.Solves σ ∧ ∀ a : TypeId, a.index < types.size → types.value σ a = types'.value σ' a := by
  have hreads := hs.reads (hs.wf.grounded.reads_value σ')
  -- What is a variable in the earlier store is one in the later store.
  have hvars : ∀ v binding, types.get v = .ok (.var binding) → σ v = types'.value σ' v := by
    intro v binding hv
    have hv' : ∃ binding', types'.get v = .ok (.var binding') := by
      cases binding with
      | none => exact hs.var hv
      | some target => exact ⟨_, hs.kept hv (by simp)⟩
    obtain ⟨binding', hv'⟩ := hv'
    rw [h.value_var hs.wf.grounded hv', heq v (lt_of_get hv)]
  exact ⟨hreads.solves hwf.grounded hvars, fun a ha =>
    hwf.grounded.value_eq hreads (fun v hv => hvars v _ hv) ha⟩

/-- A reading that continues a solution is the value of a solution that continues it: give the new variables the
    trees that the reading gives them. -/
theorem Store.Solves.continue {types types' : Store} {hidden : Set TypeId} {σ reading : TypeId → Tree}
    (h : types.Solves σ) (hs : Evolves hidden types types') (hwf : types.WellFormed)
    (hreads : types'.Reads reading) (hagree : types.Agree (types.value σ) reading) :
    ∃ σ', types'.Solves σ' ∧ (∀ v : TypeId, v.index < types.size → σ' v = σ v) ∧
      ∀ a : TypeId, a.index < types'.size → types'.value σ' a = reading a := by
  have hvars : ∀ v binding, types'.get v = .ok (.var binding) →
      (if v.index < types.size then σ v else reading v) = reading v := by
    intro v binding hv
    by_cases hlt : v.index < types.size
    · rw [if_pos hlt, hagree v hlt]
      obtain ⟨node, hget⟩ := exists_get_iff.mpr hlt
      cases node with
      | var before => exact (h.value_var hwf.grounded hget).symm
      | op con args => cases hv.symm.trans (hs.kept hget (by simp))
    · rw [if_neg hlt]
  exact ⟨_, hreads.solves hs.wf.grounded hvars, fun v hlt => if_pos hlt,
    fun a ha => hs.wf.grounded.value_eq hreads (fun v hv => hvars v _ hv) ha⟩

/-! ## Principal types -/

/-- **Principal types.** Take an expression without accesses, assignments and written parameter types whose
    scopes have been opened, and a state that has these scopes and in which every free name means a variable
    whose type has pinned type variables only. Inference succeeds exactly if some solution of the store lets
    the expression be typed. Its result is principal: the solutions of the store that is left, looked at from
    the type variables there were before, are the solutions that let the expression be typed, with the trees
    that it can have then. -/
theorem Expr.principal_type {e e' : Expr} {strict : Bool} {g g' : Scopes} (hg : g.Ordered)
    (hscope : scope.index < g.size) (hopened : e.annotate strict scope (.start g) = (e', ⟨g', none⟩))
    (hmono : e'.Monomorphic) (htypes : s.types.WellFormed) (hscopes : s.scopes.Ordered)
    (hkeeps : g'.Keeps g.size s.scopes) (hpins : ∀ p ∈ pinned, p.index < s.types.size)
    (hmeans : ∀ name, e'.Free name → ∃ ty, s.Means pinned scope name ty) :
    ((∃ ty s', e'.infer pinned s = .ok ty s') ↔
        ∃ σ t, s.types.Solves σ ∧ HasType (s.scopes.environment scope (s.types.value σ)) e' t) ∧
      ∀ ty s', e'.infer pinned s = .ok ty s' → ∀ σ t,
        (s.types.Solves σ ∧ HasType (s.scopes.environment scope (s.types.value σ)) e' t) ↔
          ∃ σ', s'.types.Solves σ' ∧ (∀ v : TypeId, v.index < s.types.size → σ' v = σ v) ∧
            s'.types.value σ' ty = t := by
  have hplaced : e'.Placed g' scope g.size g'.size := by
    have hpass := ((e.annotate_pass strict scope).runs g hg hscope).done
    rw [show e.annotate strict scope ⟨g, none⟩ = (e', ⟨g', none⟩) from hopened] at hpass
    exact hpass rfl g' (.refl g')
  have hready : Situated g' pinned scope g.size (fun name => e'.Free name)
      (s.scopes.environment scope) s :=
    ⟨htypes, hscopes, hpins, hscope, hkeeps, fun name hname => by
      obtain ⟨ty, hty⟩ := hmeans name hname
      exact ⟨ty, hty, hty.environment⟩⟩
  have hprincipal := e'.infer_principal hplaced hmono hready
  -- Every solution of what is left comes from a solution that lets the expression be typed.
  have hsound : ∀ {ty s'}, e'.infer pinned s = .ok ty s' → ∀ {σ σ'}, s'.types.Solves σ' →
      (∀ v : TypeId, v.index < s.types.size → σ' v = σ v) → s.types.Solves σ ∧
        HasType (s.scopes.environment scope (s.types.value σ)) e' (s'.types.value σ' ty) := by
    intro ty s' hrun σ σ' hσ' heq
    obtain ⟨hs, -, hsettles⟩ := hprincipal.ok hrun
    obtain ⟨hσ, hvalue⟩ := hσ'.of_evolves hs.types htypes heq
    exact ⟨hσ, hready.hasType (fun _ hname => hname) (fun a ha => hvalue a ha)
      (hsettles.sound _ (hs.types.wf.grounded.reads_value σ'))⟩
  refine ⟨⟨fun ⟨ty, s', hrun⟩ => ?_, fun ⟨σ, t, hσ, ht⟩ => ?_⟩, fun ty s' hrun σ t => ⟨fun ⟨hσ, ht⟩ => ?_, ?_⟩⟩
  · -- The trees of the store that is left are a solution.
    have htree : s'.types.Solves s'.types.tree := by
      have hwf := (hprincipal.ok hrun).1.types.wf.grounded
      exact Reads.solves ⟨hwf.tree_bound, hwf.tree_op⟩ hwf fun _ _ _ => rfl
    exact ⟨_, _, hsound hrun htree fun _ _ => rfl⟩
  · cases hrun : e'.infer pinned s with
    | ok ty s' => exact ⟨ty, s', rfl⟩
    | error reason s' =>
      exact absurd ht ((hprincipal.error hrun).2.2 _ t (htypes.grounded.reads_value σ))
  · obtain ⟨hs, hinside, hsettles⟩ := hprincipal.ok hrun
    obtain ⟨reading, hreads, hagree, hanswer⟩ := hsettles.complete _ t (htypes.grounded.reads_value σ) ht
    obtain ⟨σ', hσ', heq, hvalue⟩ := hσ.continue hs.types htypes hreads hagree
    exact ⟨σ', hσ', heq, (hvalue ty hinside).trans hanswer⟩
  · rintro ⟨σ', hσ', heq, rfl⟩
    exact hsound hrun hσ' heq

/-! ### A lambda beside a variable of an unknown type -/

/-- A scope with a variable `y` of an unknown type, which is pinned by its being in scope. -/
def sharedScopes : Scopes := ⟨#[⟨none, [("y", { Symbol.declared .var .origin with ty := some ⟨4⟩ })]⟩]⟩

/-- A lambda that compares its parameter `x` with `y`, so that the type of one is found from the type of the other. -/
def comparison : Expr :=
  .lambda (.fresh .origin) none [⟨.origin, ⟨"x", .origin⟩, none⟩]
    (.binary (.fresh .origin) .eq (.name (.fresh .origin) ⟨"x", .origin⟩) (.name (.fresh .origin) ⟨"y", .origin⟩))

/-- The lambda with its scopes opened, as inference expects them. -/
def comparisonOpened : Expr × Scoping := comparison.annotate false ⟨0⟩ (.start sharedScopes)

/-- The state in which the lambda is looked at: one type variable besides the primitive types. -/
def comparisonStart : Inference := .start initial.newVar.2 comparisonOpened.2.scopes

/-- The lambda can be typed, and its parameter has the type of `y`, whatever this is. -/
theorem Expr.principal_type_comparison :
    ∃ ty s', comparisonOpened.1.infer [⟨4⟩] comparisonStart = .ok ty s' ∧
      ∀ σ t, (comparisonStart.types.Solves σ ∧ HasType
          (comparisonStart.scopes.environment ⟨0⟩ (comparisonStart.types.value σ)) comparisonOpened.1 t) ↔
        ∃ σ', s'.types.Solves σ' ∧ (∀ v : TypeId, v.index < comparisonStart.types.size → σ' v = σ v) ∧
          s'.types.value σ' ty = t := by
  have hordered : sharedScopes.Ordered := by
    rintro ⟨i⟩ parent hp
    cases i with
    | zero => cases hp
    | succ i => simp [parentOf, scopeAt, sharedScopes] at hp
  have hwf : comparisonStart.types.WellFormed := wellFormed_initial.allocate trivial (by simp [Node.refs])
  have hpins : ∀ p ∈ [(⟨4⟩ : TypeId)], p.index < comparisonStart.types.size := by decide
  have hlookup : comparisonStart.scopes.lookup ⟨0⟩ "y" =
      .ok (some (⟨0⟩, { Symbol.declared .var .origin with ty := some ⟨4⟩ })) := rfl
  have hopened : comparison.annotate false ⟨0⟩ (.start sharedScopes) =
    (comparisonOpened.1, ⟨comparisonOpened.2.scopes, none⟩) := rfl
  obtain ⟨hiff, hprincipal⟩ := Expr.principal_type (s := comparisonStart)
    hordered (by decide) hopened ⟨by simp, trivial, trivial⟩ hwf
    ((comparison.annotate_pass false ⟨0⟩).runs _ hordered (by decide)).ordered
    (fun _ _ _ => ⟨rfl, fun _ => rfl⟩) hpins (fun name hname => by
      obtain ⟨hnot, hx | hy⟩ : name ∉ ["x"] ∧ ("x" = name ∨ "y" = name) := hname
      · exact absurd (hx ▸ List.mem_cons_self) hnot
      · subst hy
        exact ⟨⟨4⟩, ⟨_, _, hlookup, rfl, rfl⟩, covered_of_mem (hpins _ (by simp)) (by simp)⟩)
  -- Numbers are one choice among others.
  have hsolves : comparisonStart.types.Solves fun _ => .number := by
    rintro ⟨i⟩ target hget
    rcases i with _ | _ | _ | _ | _ | i <;> cases hget
  obtain ⟨ty, s', hrun⟩ := hiff.mpr ⟨fun _ => .number, .function [.number] .bool, hsolves,
    .lambda rfl (@HasType.binary _ _ .eq _ _ _ (.name rfl) (.name rfl) (fun _ h => by cases h))⟩
  exact ⟨ty, s', hrun, hprincipal ty s' hrun⟩

end TypeInference
