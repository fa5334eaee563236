import TypeInference.Proofs.Inference.Trace

/-!
# `Proofs.Inference.Occurrence` — where a name is used or assigned

While the scopes keep their shape a name means the same declaration, so it does not matter when an expression is
said to use or to assign it. At a visit to such an expression something is known about the name: where it is used
and its type is pinned, the expression shares all variables with that type; and where it is assigned, it was a
variable that could be assigned, and has a value from then on.

## Contents
* `Scopes.denotes`, `Expr.uses`, `Expr.assigns` — the expressions that have to do with one name;
* `Visit.Between.shares` — uses;
* `Visit.Between.assigns`, `Visit.Between.assigned` — assignments.
-/

namespace TypeInference

open Store Scopes InferM

/-! ## Uses and assignments of one name -/

/-- Whether a name that stands at a node means the one that `owner` declares. It is decided by the scope that the
    node has recorded. -/
def Scopes.denotes (g : Scopes) (mark : Mark) (name : String) (owner : ScopeId) : Bool :=
  match mark.scope with
  | none => false
  | some scope =>
    match g.lookup scope name with
    | .ok (some (found, _)) => found = owner
    | _ => false

/-- Whether the expression is the name itself, used as a value and meaning the symbol that this scope has. -/
def Expr.uses (g : Scopes) (owner : ScopeId) (name : String) : Expr → Bool
  | .name mark id => id.name = name && g.denotes mark name owner
  | _ => false

/-- Whether the expression assigns the name. Assignments inside its value are expressions of their own. -/
def Expr.assigns (g : Scopes) (owner : ScopeId) (name : String) : Expr → Bool
  | .assign mark target _ => target.name = name && g.denotes mark name owner
  | _ => false

variable {g g' : Scopes} {owner : ScopeId} {name : String} {A : Anchors} {s s' : Inference}

/-! ### What names denote -/

theorem Scopes.denotes_iff {mark : Mark} : g.denotes mark name owner = true ↔
    ∃ scope symbol, mark.scope = some scope ∧ g.lookup scope name = .ok (some (owner, symbol)) := by
  unfold Scopes.denotes
  split
  · next hnone => simp [hnone]
  · next scope hscope =>
    rw [hscope]
    split
    · next found symbol hlookup => simp [hlookup]
    · next hother =>
      refine ⟨fun h => absurd h Bool.false_ne_true, ?_⟩
      rintro ⟨_, symbol, ⟨⟩, hlookup⟩
      exact absurd hlookup (hother owner symbol)

theorem Expr.uses_iff {e : Expr} : e.uses g owner name = true ↔
    ∃ mark span, e = .name mark ⟨name, span⟩ ∧ g.denotes mark name owner = true := by
  cases e with
  | name mark id => obtain ⟨n, span⟩ := id; simp [Expr.uses]
  | _ => simp [Expr.uses]

theorem Expr.assigns_iff {e : Expr} : e.assigns g owner name = true ↔
    ∃ mark span value, e = .assign mark ⟨name, span⟩ value ∧ g.denotes mark name owner = true := by
  cases e with
  | assign mark target value => obtain ⟨n, span⟩ := target; simp [Expr.assigns]
  | _ => simp [Expr.assigns]

/-- Arenas of one shape agree on what names denote. -/
theorem Scopes.SameShape.denotes_eq (h : SameShape g g') (mark : Mark) (name : String) (owner : ScopeId) :
    g'.denotes mark name owner = g.denotes mark name owner := by
  have hmono : ∀ {g g' : Scopes}, SameShape g g' → g.denotes mark name owner = true →
      g'.denotes mark name owner = true := by
    intro g g' h hdenotes
    obtain ⟨scope, symbol, hscope, hlookup⟩ := denotes_iff.mp hdenotes
    obtain ⟨symbol', hlookup', -⟩ := lookup_of_sameShape h hlookup
    exact denotes_iff.mpr ⟨scope, symbol', hscope, hlookup'⟩
  exact Bool.eq_iff_iff.mpr ⟨hmono h.symm, hmono h⟩

/-! ## Visits -/

/-- A scope that is found is the one that has been recorded. -/
theorem requireScope_run {mark : Mark} {scope : ScopeId} (h : requireScope mark s = .ok scope s') :
    mark.scope = some scope ∧ s' = s := by
  rw [requireScope] at h
  cases hscope : mark.scope with
  | none => rw [hscope] at h; cases h
  | some found =>
    rw [hscope] at h
    cases h
    exact ⟨rfl, rfl⟩

/-- A name that is resolved is what looking it up finds. -/
theorem lookup_of_resolve {scope : ScopeId} {id : Ident} {found : ScopeId × Symbol}
    (h : resolve scope id s = .ok found s') : s.scopes.lookup scope id.name = .ok (some found) ∧ s' = s := by
  rw [resolve_run] at h
  cases hresolve : s.scopes.resolve scope id with
  | error reason => rw [hresolve] at h; cases h
  | ok there =>
    rw [hresolve] at h
    cases h
    obtain ⟨found', hlookup, hfound⟩ := exists_of_bind_eq_ok hresolve
    cases found' with
    | none => cases hfound
    | some found' =>
      cases hfound
      exact ⟨Halt.ofQuery_eq_ok.mp hlookup, rfl⟩

/-- A name that has a type gets a copy of it. -/
theorem instantiate_of_inferName {scope : ScopeId} {id : Ident} {pinned : List TypeId} {copy ty : TypeId}
    {symbol : Symbol} (h : inferName scope id pinned s = .ok copy s')
    (hlookup : s.scopes.lookup scope id.name = .ok (some (owner, symbol))) (hty : symbol.ty = some ty) :
    s.types.instantiate pinned ty = .ok (copy, s'.types) := by
  obtain ⟨found, s₁, hresolve, hrest⟩ := exists_of_run_bind h
  obtain ⟨hlookup', rfl⟩ := lookup_of_resolve hresolve
  obtain rfl : (owner, symbol) = found := Option.some.inj (Except.ok.inj (hlookup.symm.trans hlookup'))
  dsimp only at hrest
  split at hrest
  · cases hrest
  · rw [hty] at hrest
    obtain ⟨ty', s₂, htype, hrest⟩ := exists_of_run_bind hrest
    cases htype
    rw [instantiate_run] at hrest
    cases hcopy : s₁.types.instantiate pinned ty with
    | error fault => rw [hcopy] at hrest; cases hrest
    | ok made =>
      rw [hcopy] at hrest
      cases hrest
      rfl

/-- A name that may be assigned is a variable, and mutable or without a value. -/
theorem lookup_of_assignable {scope : ScopeId} {target : Ident} {found : ScopeId × Option TypeId}
    (h : assignable scope target s = .ok found s') :
    ∃ symbol, s.scopes.lookup scope target.name = .ok (some (found.1, symbol)) ∧ symbol.kind = .var ∧
      (symbol.mutable = false → symbol.initialized = false) ∧ symbol.ty = found.2 := by
  obtain ⟨⟨owner, symbol⟩, s₁, hresolve, hrest⟩ := exists_of_run_bind h
  obtain ⟨hlookup, rfl⟩ := lookup_of_resolve hresolve
  dsimp only at hrest
  split at hrest
  · cases hrest
  · next hkind =>
    split at hrest
    · cases hrest
    · next himmutable =>
      cases hrest
      exact ⟨symbol, hlookup, not_not.mp hkind, fun hm => by simpa [hm] using himmutable, rfl⟩

namespace Visit.Between

variable {v : Visit} {pinned : List TypeId}

/-! ### What a visit tells -/

/-- **A name whose type is pinned** has a copy that shares all variables with the type, so the two have one tree in
    every later store. -/
theorem shares (h : v.Between A pinned s s') (huse : v.expr.uses s'.scopes owner name = true) {ty : TypeId}
    (hA : A owner name ty) (hpinned : ty ∈ pinned) {f : Store} (hf : f.Grounded) (hpersists : s'.types.Persists f) :
    v.type.index < f.size ∧ f.tree v.type = f.tree ty := by
  obtain ⟨mark, span, hexpr, hdenotes⟩ := Expr.uses_iff.mp huse
  rw [(h.moves.trans h.after).shape.denotes_eq] at hdenotes
  obtain ⟨scope, symbol, hscope, hlookup⟩ := Scopes.denotes_iff.mp hdenotes
  have hrun := h.run
  rw [hexpr, Expr.infer] at hrun
  obtain ⟨scope', s₁, hrequire, hrun⟩ := exists_of_run_bind hrun
  obtain ⟨hscope', rfl⟩ := requireScope_run hrequire
  obtain rfl : scope = scope' := Option.some.inj (hscope.symm.trans hscope')
  have hty := h.before.anchored.ty_eq (symbolAt_of_lookup hlookup) hA
  exact tree_of_instantiate (instantiate_of_inferName hrun hlookup hty) (h.pinned hpinned) hf
    (h.after.types.trans hpersists)

/-- What an assignment does to the name that it assigns: before it the name was a variable that could be assigned,
    and after it has a value. -/
theorem assigns (h : v.Between A pinned s s') {mark : Mark} {target : Ident} {value : Expr}
    (hexpr : v.expr = .assign mark target value) :
    ∃ scope owner symbol symbol', mark.scope = some scope ∧
      v.before.scopes.lookup scope target.name = .ok (some (owner, symbol)) ∧ symbol.kind = .var ∧
      (symbol.mutable = false → symbol.initialized = false) ∧
      v.after.scopes.symbolAt owner target.name = some symbol' ∧ symbol'.initialized = true := by
  have hrun := h.run
  rw [hexpr, Expr.infer] at hrun
  obtain ⟨scope, s₁, hrequire, hrun⟩ := exists_of_run_bind hrun
  obtain ⟨hscope, rfl⟩ := requireScope_run hrequire
  obtain ⟨⟨owner, declared⟩, s₂, hassignable, hrun⟩ := exists_of_run_bind hrun
  obtain ⟨symbol, hlookup, hkind, himmutable, -⟩ := lookup_of_assignable hassignable
  obtain ⟨symbol', hsymbol', -⟩ := h.moves.symbol (symbolAt_of_lookup hlookup)
  obtain ⟨actual, s₃, -, hrun⟩ := exists_of_run_bind hrun
  obtain ⟨ty, s₄, -, hrun⟩ := exists_of_run_bind hrun
  obtain ⟨_, s₅, -, hrun⟩ := exists_of_run_bind hrun
  obtain ⟨_, s₆, hupdate, hrun⟩ := exists_of_run_bind hrun
  refine ⟨scope, owner, symbol, symbol', hscope, hlookup, hkind, himmutable, hsymbol', ?_⟩
  rw [update_run] at hupdate
  cases hchanged : s₅.scopes.update owner target.name ({ · with initialized := true }) with
  | error fault => rw [hchanged] at hupdate; cases hupdate
  | ok scopes =>
    rw [hchanged] at hupdate
    cases hupdate
    obtain ⟨-, hafter⟩ := EStateM.Result.ok.inj hrun
    rw [← hafter, symbolAt_of_update hchanged, if_pos ⟨rfl, rfl⟩] at hsymbol'
    obtain ⟨before, -, rfl⟩ := Option.map_eq_some_iff.mp hsymbol'
    rfl

/-- **A name that is assigned** could be assigned before, and has a value after. Between the two the value of the
    assignment has been looked at, and the same name may have been assigned in it. -/
theorem assigned (h : v.Between A pinned s s') (hassigns : v.expr.assigns s'.scopes owner name = true) :
    ∃ symbol symbol', v.before.scopes.symbolAt owner name = some symbol ∧
      (symbol.mutable = false → symbol.initialized = false) ∧
      v.after.scopes.symbolAt owner name = some symbol' ∧ symbol'.initialized = true := by
  obtain ⟨mark, span, value, hexpr, hdenotes⟩ := Expr.assigns_iff.mp hassigns
  rw [(h.moves.trans h.after).shape.denotes_eq] at hdenotes
  obtain ⟨scope, found, hscope, hlookup⟩ := Scopes.denotes_iff.mp hdenotes
  obtain ⟨scope', owner', symbol, symbol', hscope', hlookup', -, himmutable, hsymbol', hvalue⟩ := h.assigns hexpr
  obtain rfl : scope = scope' := Option.some.inj (hscope.symm.trans hscope')
  cases hlookup.symm.trans hlookup'
  exact ⟨found, symbol', symbolAt_of_lookup hlookup', himmutable, hsymbol', hvalue⟩

end Visit.Between

end TypeInference
