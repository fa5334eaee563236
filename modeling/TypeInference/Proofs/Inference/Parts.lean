import TypeInference.Proofs.Inference.Predeclaration
import TypeInference.Proofs.Inference.Sharpen

/-!
# `Proofs.Inference.Parts` — the parts of statements

Conditions, first values, fields, variants and jumps, and what a function is taken apart into. Each part keeps
to the guard; what it shows of its trees it shows from now on.

## Contents
* `inferCondition_allows`, `inferDefs_allows` — conditions and first values;
* `inferFields_allows`, `checkVariants_allows`, `checkJump_allows` — what only can be refused;
* `functionParts_allows` — the types of a function's parameters and of its result;
* `withFrame_allows`, `markReturned_allows` — the open functions.
-/

namespace TypeInference

open Store Scopes InferM Guard

variable {G : Guard} {r : Bool} {s s' : Inference} {pinned : List TypeId} {scope : ScopeId} {n n' : Nat}

/-- What holds from now on holds now: the state itself is one of those that come later. -/
theorem Eventually.now {hidden : Set TypeId} {J : Store → Scopes → Prop} (h : Eventually hidden s J)
    (hwf : s.types.WellFormed) : J s.types s.scopes :=
  h _ _ ⟨.refl hwf, .refl _, id⟩

/-! ## Conditions and first values -/

/-- A condition is a truth value. Its type is unified with that of truth values, and from then on the two trees are
    one. -/
theorem inferCondition_allows (cond : Expr) (hcond : cond.Placed G.base scope n n')
    (h : G.Ready pinned scope n s) :
    G.Allows r (inferCondition pinned cond) s fun _ s' =>
      G.Concludes n' s' fun types scopes => ExprTyped types.tree scopes cond .bool := by
  have hbool : initial.get .bool = .ok (.op .bool []) := rfl
  apply Allows.bind (cond.infer_allows hcond h)
  intro ty s₁ h₁ hafter
  obtain ⟨hclear₁, hend₁⟩ := hafter
  have h' := h.admits.step h₁
  apply (h'.unify cond.span hclear₁ (h'.clear_primitive hbool)).mono
  rintro _ s₂ h₂ ⟨hscopes₂, heq₂⟩ ht
  refine ⟨fresh_of_eq hscopes₂ (hend₁ ht).1, fun types scopes hl => ?_⟩
  have htree : types.tree ty = .bool := (heq₂ types hl.types).trans (tree_primitive hl.types.wf hbool)
  exact htree ▸ (hend₁ ht).2.step ht h₂ types scopes hl

/-! ### First values of variables -/

/-- The type of a variable that stands in the scope is clear, since the variable is used as it is. -/
theorem declaredVar_allows (h : G.Ready pinned scope n s) {name : String} {symbol : Symbol}
    (hsymbol : G.base.symbolAt scope name = some symbol) (hkind : symbol.kind = .var)
    (hsome : G.tidy → (s.scopes.typeAt scope name).isSome) :
    G.Allows r (declaredType scope name) s fun ty s' => s'.types.Clear G.hidden ty ∧ G.Ready pinned scope n s' ∧
      (G.tidy → s'.scopes.typeAt scope name = some ty) := by
  apply (h.admits.declaredType h.visible name hsome).mono
  intro ty s' hs hcase
  rcases hcase with ⟨hty, rfl⟩ | ⟨htidy, hclear⟩
  · exact ⟨h.admits.direct (h.vars .refl hsymbol hkind) hty, h, fun _ => hty⟩
  · exact ⟨hclear, h.step hs (Nat.le_refl _) fun ht => absurd ht htidy, fun ht => absurd ht htidy⟩

/-- **A definition is well typed** from now on if its first value has the type that its name was declared with. -/
theorem defTyped_of_declared {hidden : Set TypeId} {d : VarDef} {ty : TypeId}
    (hdeclared : Eventually ∅ s fun types scopes =>
      ∃ t, DeclaredAs types.tree scopes scope d.name.name d.signature t)
    (hty : s.scopes.typeAt scope d.name.name = some ty)
    (hvalue : Eventually hidden s fun types scopes =>
      ∀ value, d.value = some value → ExprTyped types.tree scopes value (types.tree ty)) :
    Eventually hidden s fun types scopes => DefTyped types.tree scopes scope d := by
  intro types scopes hl
  obtain ⟨t, ty', hty', htree, hsig⟩ := hdeclared types scopes (hl.mono (Set.empty_subset _))
  obtain rfl : ty' = ty := Option.some.inj (hty'.symm.trans (hl.kept hty))
  subst htree
  exact ⟨_, ⟨ty', hty', rfl, hsig⟩, hvalue types scopes hl⟩

/-- **First values** have the types of their variables. By induction on the definitions. Each value is looked at,
    and then unified with the type its variable was declared with; what has been found for the definitions before it
    stays true. -/
theorem inferDefs_allows :
    ∀ (defs : List VarDef) {n : Nat} {s : Inference}, PlacedDefs G.base scope defs n n' →
    G.Ready pinned scope n s →
    (∀ d ∈ defs, ∃ symbol, G.base.symbolAt scope d.name.name = some symbol ∧ symbol.kind = .var) →
    (G.tidy → Eventually ∅ s fun types scopes =>
      ∀ d ∈ defs, ∃ t, DeclaredAs types.tree scopes scope d.name.name d.signature t) →
    G.Allows r (inferDefs scope pinned defs) s fun _ s' =>
      G.Concludes n' s' fun types scopes => ∀ d ∈ defs, DefTyped types.tree scopes scope d
  | [], n, s, hn, h, _, _ => by
    obtain rfl : n' = n := hn
    exact h.admits.pure fun ht => ⟨h.fresh ht, fun _ _ _ => by simp⟩
  | d :: rest, n, s, ⟨m, hvalue, hrest⟩, h, hsymbols, hdeclared => by
    obtain ⟨⟨symbol, hsymbol, hkind⟩, hsymbols'⟩ := List.forall_mem_cons.mp hsymbols
    have hsome : G.tidy → (s.scopes.typeAt scope d.name.name).isSome := fun ht => by
      obtain ⟨t, ty, hty, -⟩ := (hdeclared ht).now h.admits.wf d List.mem_cons_self
      rw [hty]; rfl
    rw [inferDefs]
    apply Allows.bind (declaredVar_allows h hsymbol hkind hsome)
    intro dty s₁ h₁ hafter
    obtain ⟨hclear₁, hready₁, hdty₁⟩ := hafter
    -- What is left to do once the first value has been looked at, if there is one.
    have hdone : ∀ {s₂ : Inference}, G.Step r s₁ s₂ → G.Ready pinned scope m s₂ →
        (G.tidy → Eventually G.hidden s₂ fun types scopes =>
          ∀ value, d.value = some value → ExprTyped types.tree scopes value (types.tree dty)) →
        G.Allows r (inferDefs scope pinned rest) s₂ fun _ s' =>
          G.Concludes n' s' fun types scopes => ∀ e ∈ d :: rest, DefTyped types.tree scopes scope e := by
      intro s₂ h₂ hready₂ hvalue₂
      have hdeclared₂ := fun ht types scopes hl =>
        List.forall_mem_cons.mp (((hdeclared ht).always ht h₁).always ht h₂ types scopes hl)
      refine (inferDefs_allows rest hrest hready₂ hsymbols' fun ht types scopes hl =>
        (hdeclared₂ ht types scopes hl).2).mono fun _ s₃ h₃ hend₃ ht =>
          ⟨(hend₃ ht).1, fun types scopes hl => List.forall_mem_cons.mpr ⟨?_, (hend₃ ht).2 types scopes hl⟩⟩
      have hdef := defTyped_of_declared (fun types scopes hl => (hdeclared₂ ht types scopes hl).1)
        (h₂.kept ht (hdty₁ ht)) (hvalue₂ ht)
      exact hdef.step ht h₃ types scopes hl
    cases hd : d.value with
    | none =>
      rw [hd] at hvalue
      obtain rfl : m = n := hvalue
      dsimp only
      refine .bind_of_ok rfl (hdone (.refl hready₁.admits) hready₁ fun ht types scopes hl value he => ?_)
      rw [hd] at he
      cases he
    | some value =>
      rw [hd] at hvalue
      dsimp only
      apply Allows.bind (value.infer_allows hvalue hready₁)
      intro vty s₂ h₂ hafter
      obtain ⟨hclear₂, hend₂⟩ := hafter
      have hready₂ := hready₁.next h₂ hvalue.le hend₂
      have hclear₁' := h₂.types.clear h₁.types.wf hclear₁
      apply Allows.bind (hready₂.admits.unify d.span hclear₁' hclear₂)
      intro _ s₃ h₃ hafter
      obtain ⟨hscopes₃, heq₃⟩ := hafter
      refine hdone (h₂.trans h₃) (hready₂.same h₃ hscopes₃) ?_
      intro ht types scopes hl value' he
      rw [hd] at he
      cases he
      rw [heq₃ types hl.types]
      exact (hend₂ ht).2.step ht h₃ types scopes hl

/-! ## What only can be refused -/

/-- The fields of a struct. Their types are made and looked at no more, so nothing is bound; which names are there
    already may refuse the struct. -/
theorem inferFields_allows (hscope : scope ∈ G.visible) :
    ∀ (fields : List Field) {seen : List String} {s : Inference},
    G.Admits s → G.Allows r (inferFields scope seen fields) s fun _ s' => s'.scopes = s.scopes
  | [], seen, s, h => h.pure rfl
  | f :: rest, seen, s, h => by
    rw [inferFields]
    split
    · exact h.refuse (by simp) _
    · apply Allows.bind (f.signature.denote_allows hscope h)
      intro _ s₁ h₁ hafter
      obtain ⟨_, hscopes₁, _⟩ := hafter
      exact (inferFields_allows hscope rest (h.step h₁)).mono fun _ _ _ hscopes => hscopes.trans hscopes₁

/-- The variants of an enum. They have no types, and the state is left alone. -/
theorem checkVariants_allows (h : G.Admits s) : ∀ (variants : List Ident) {seen : List String},
    G.Allows r (checkVariants seen variants) s fun _ s' => s' = s
  | [], seen => h.pure rfl
  | v :: rest, seen => by
    rw [checkVariants]
    split
    · exact h.refuse (by simp) _
    · exact checkVariants_allows h rest

/-- The target of a jump. Looking for the label leaves the state alone. -/
theorem checkJump_allows (h : G.Admits s) (hscope : scope ∈ G.visible) (label : Option Ident) :
    G.Allows r (checkJump scope label) s fun _ s' => s' = s := by
  cases label with
  | none => exact h.pure rfl
  | some label =>
    apply Allows.bind (h.resolve hscope label)
    intro found s₁ h₁ hafter
    obtain ⟨hs₁, _⟩ := hafter
    subst hs₁
    dsimp only
    split
    · exact h.refuse (by simp) _
    · exact h.pure rfl

/-! ## Functions -/

/-- New variables, none of which is hidden, since what is hidden was there before. -/
theorem newVars_allows : ∀ (count : Nat) {s : Inference}, G.Admits s →
    G.Allows r (newVars count) s fun tys s' =>
      (∀ ty ∈ tys, s'.types.Clear G.hidden ty) ∧ s'.scopes = s.scopes ∧ tys.length = count
  | 0, s, h => h.pure ⟨by simp, rfl, rfl⟩
  | count + 1, s, h => by
    rw [newVars]
    apply Allows.bind h.newVar
    intro ty s₁ h₁ hafter
    obtain ⟨hclear₁, hscopes₁⟩ := hafter
    apply Allows.bind (newVars_allows count (h.step h₁))
    intro tys s₂ h₂ hafter
    obtain ⟨hclear₂, hscopes₂, hlength⟩ := hafter
    refine ((h.step h₁).step h₂).pure ⟨?_, hscopes₂.trans hscopes₁, by rw [List.length_cons, hlength]⟩
    exact List.forall_mem_cons.mpr ⟨h₂.types.clear h₁.types.wf hclear₁, hclear₂⟩

/-- **A function's type is taken apart**, or made up of new parts. The first happens when the declaration has given
    the function its type, the second when the type is still a variable; either way it is the function type of these
    parts from then on. -/
theorem functionParts_allows (h : G.Admits s) (span : Span) {ty : TypeId} (hty : s.types.Clear G.hidden ty)
    (arity : Nat) :
    G.Allows r (functionParts span ty arity) s fun parts s' =>
      (∀ a ∈ parts.1 ++ [parts.2], s'.types.Clear G.hidden a) ∧
      s'.scopes = s.scopes ∧ parts.1.length = arity ∧ Henceforth G.hidden s'.types fun f =>
        f.tree ty = .function (parts.1.map f.tree) (f.tree parts.2) := by
  obtain ⟨v, hv, hoperator⟩ := h.wf.grounded.operator?_eq_ok hty.lt
  refine .bind_of_ok (query_eq_ok hoperator) ?_
  dsimp only
  split
  · next parts hknown =>
    -- The known parts are the components of the function type that `ty` shows.
    obtain ⟨id, rfl, hlength⟩ : ∃ id, v = .op id .function (parts.1 ++ [parts.2]) ∧
        parts.1.length = arity := by
      split at hknown
      · next args hargs =>
        split at hknown
        · next hlength =>
          obtain ⟨last, hlast, rfl⟩ := Option.map_eq_some_iff.mp hknown
          rw [List.dropLast_append_getLast? last hlast]
          cases v with
          | var _ => cases hargs
          | op id con args' => cases hargs; exact ⟨id, rfl, by simp [hlength]⟩
        · cases hknown
      · cases hknown
    refine h.pure ⟨fun a ha => hty.reaches h.wf (hv.reaches_arg ha), rfl, hlength, fun f hl => ?_⟩
    show f.tree ty = _
    rw [hl.tree_op hv, List.map_append, List.map_singleton, Tree.function]
  · apply Allows.bind (newVars_allows arity h)
    intro tys s₁ h₁ hafter
    obtain ⟨hclear₁, hscopes₁, hlength⟩ := hafter
    have hadmits₁ := h.step h₁
    apply Allows.bind hadmits₁.newVar
    intro result s₂ h₂ hafter
    obtain ⟨hclear₂, hscopes₂⟩ := hafter
    have hadmits₂ := hadmits₁.step h₂
    have hclear₁' : ∀ a ∈ tys, s₂.types.Clear G.hidden a := fun a ha => h₂.types.clear h₁.types.wf (hclear₁ a ha)
    apply Allows.bind (hadmits₂.function hclear₁' hclear₂)
    intro expected s₃ h₃ hafter
    obtain ⟨hclear₃, hscopes₃, _, htree₃⟩ := hafter
    have hadmits₃ := hadmits₂.step h₃
    have hty₃ := ((h₁.trans h₂).trans h₃).types.clear h.wf hty
    apply Allows.bind (hadmits₃.unify span hty₃ hclear₃)
    intro _ s₄ h₄ hafter
    obtain ⟨hscopes₄, heq₄⟩ := hafter
    have hparts : ∀ a ∈ tys ++ [result], s₂.types.Clear G.hidden a :=
      List.forall_mem_append.mpr ⟨hclear₁', List.forall_mem_singleton.mpr hclear₂⟩
    refine (hadmits₃.step h₄).pure ⟨fun a ha => (h₃.trans h₄).types.clear h₂.types.wf (hparts a ha),
      hscopes₄.trans (hscopes₃.trans (hscopes₂.trans hscopes₁)), hlength, fun f hl => ?_⟩
    show f.tree ty = _
    rw [heq₄ f hl, htree₃ f (h₄.types.trans hl)]

/-! ## Open functions -/

/-- What the innermost open function has to give back. Outside of functions there is none. -/
def Inference.expected (s : Inference) : Option TypeId := s.frames.head?.map Frame.result

/-- It is the result of one of the open functions. -/
theorem Inference.exists_frame {result : TypeId} (h : s.expected = some result) :
    ∃ frame ∈ s.frames, frame.result = result := by
  obtain ⟨frame, hhead, he⟩ := Option.map_eq_some_iff.mp h
  exact ⟨frame, List.mem_of_head? hhead, he⟩

theorem Guard.Step.expected_eq (h : G.Step r s s') : s'.expected = s.expected := by
  rcases h.frames with he | ⟨-, he⟩ <;> rw [Inference.expected, he]
  · rfl
  · rw [Inference.expected]
    cases s.frames <;> rfl

/-- What is settled does not depend on the open functions. -/
theorem Guard.Settles.withFrames {J : Store → Scopes → Prop} (h : G.Settles pinned n s J)
    (frames : List Frame) : G.Settles pinned n { s with frames } J :=
  ⟨h.fresh, fun ht types scopes hl => h.holds ht types scopes ⟨hl.types, hl.shape, hl.kept⟩⟩

/-- **Inside a function** another one may be looked at; a body that cannot return does not. The frame is gone
    afterwards, so whatever the body does to it the functions around it are as they were. -/
theorem withFrame_allows {α : Type} {body : InferM α} {result : TypeId} {Q : α → Inference → Prop}
    {returns : Bool} (hbody : G.Allows returns body { s with frames := ⟨result, false⟩ :: s.frames } Q) :
    G.Allows r (withFrame result body) s fun flag s' => (returns = false → flag = false) ∧
      ∃ a inner, Q a inner ∧ s' = { inner with frames := s.frames } := by
  -- A run changes no frame but the innermost, which is dropped in the end.
  have hstep : ∀ {inner : Inference}, G.Step returns { s with frames := ⟨result, false⟩ :: s.frames } inner →
      inner.frames.tail = s.frames ∧ (returns = false → hasReturned inner.frames = false) ∧
        G.Step r s { inner with frames := s.frames } := by
    intro inner hs
    refine ⟨?_, fun hreturns => ?_, ⟨hs.types, hs.shape, hs.outside, hs.gives, hs.typed, hs.kept, .inl rfl⟩⟩
    · rcases hs.frames with he | ⟨-, he⟩ <;> rw [he]
      · rfl
      · rfl
    · subst hreturns
      rw [hs.frames_eq]; rfl
  cases hrun : body { s with frames := ⟨result, false⟩ :: s.frames } with
  | ok a inner =>
    obtain ⟨hs, hQ⟩ := hbody.ok hrun
    obtain ⟨htail, hflag, hs'⟩ := hstep hs
    refine .of_ok (a := hasReturned inner.frames) ?_ hs' ⟨hflag, a, inner, hQ, rfl⟩
    rw [withFrame_of_ok hrun, htail]
  | error reason inner =>
    obtain ⟨hs, hE⟩ := hbody.error hrun
    obtain ⟨htail, -, hs'⟩ := hstep hs
    refine .of_error (e := reason) ?_ hs' hE
    rw [withFrame_of_error hrun, htail]

/-- The innermost open function returns. Only a run that may return is allowed to record this. -/
theorem markReturned_allows (h : G.Admits s) :
    G.Allows true markReturned s fun _ s' => s' = { s with frames := returned s.frames } := by
  have hrun : markReturned s = .ok () { s with frames := returned s.frames } := by
    obtain ⟨types, scopes, frames⟩ := s
    cases frames <;> rfl
  exact .of_ok hrun ⟨.refl h.wf, .refl _, fun _ _ => rfl, .inl, .inl, fun _ _ _ _ => id, .inr ⟨rfl, rfl⟩⟩ rfl

end TypeInference
