import TypeInference.Inference.Statement
import TypeInference.Proofs.Inference.Denotation

/-!
# `Proofs.Inference.Mentions` — inference checks every mention

Inference comes by every mention of a tree, in the scope that the mention stands in and with a function open exactly
if the mention stands inside one. So a run that ends has found all of them proper; and if it stops for a reason that is
about what a name means, then one of the mentions has been refused with this diagnostic.

The state has to have the shape that the arena had when the tree was placed in it, which every step keeps.

## Contents
* `Inference.Steady` — the scopes, the kinds of names and the number of open functions stay;
* `Mention.Granted`, `Checks` — a computation that checks its mentions, with `Checks.bind` and its relatives;
* `Checks.resolving`, `inferName_checks`, `checkJump_checks`, … — the checks themselves;
* `Expr.infer_checks`, `Stmt.infer_checks`, `inferList_checks` — trees.
-/

namespace TypeInference

open Scopes InferM

/-! ## Steady runs -/

/-- Whether a function is open, so that a `return` may stand here. -/
def Inference.inside (s : Inference) : Bool := 0 < s.frames.length

/-- No scope has been opened and no name declared, and as many functions are open as before. -/
structure Inference.Steady (s s' : Inference) : Prop where
  shape : SameShape s.scopes s'.scopes
  depth : s'.frames.length = s.frames.length

namespace Inference.Steady

variable {s s' s'' : Inference}

theorem refl (s : Inference) : s.Steady s := ⟨.refl _, rfl⟩

theorem trans (h : s.Steady s') (h' : s'.Steady s'') : s.Steady s'' :=
  ⟨h.shape.trans h'.shape, h'.depth.trans h.depth⟩

theorem inside_eq (h : s.Steady s') : s'.inside = s.inside := by
  rw [Inference.inside, Inference.inside, h.depth]

end Inference.Steady

/-! ## Computations that check their mentions -/

/-- A stop that is about what a name means comes from one of the mentions. Stops for other reasons are left open. -/
def RefusedAt (mentions : List Mention) (reason : Halt Diagnostic) : Prop :=
  ∀ diagnostic, reason = .failure diagnostic → diagnostic.cause.IsAboutMention →
    ∃ mention ∈ mentions, mention.refusal? = some diagnostic

/-- The mention is not refused, and stands in a scope of the arena. -/
structure Mention.Granted (g : Scopes) (mention : Mention) : Prop where
  refusal : mention.refusal? = none
  located : mention.Located g

/-- Run from a state with the shape of the arena, the computation ends only if all mentions are granted, and stops
    for a reason that is about a mention only at one of them. It need not be the first, as other steps may stop the
    run before. -/
def Checks {α : Type} (g : Scopes) (inside : Bool) (m : InferM α) (mentions : List Mention) : Prop :=
  ∀ s : Inference, SameShape g s.scopes → s.inside = inside →
    Within Inference.Steady (RefusedAt mentions) m s fun _ _ => ∀ mention ∈ mentions, mention.Granted g

variable {g : Scopes} {inside : Bool} {scope own : ScopeId} {layers : List Layer}

/-! ### Putting checks together -/

theorem RefusedAt.mono {mentions more : List Mention} {reason : Halt Diagnostic} (h : RefusedAt mentions reason)
    (hsub : mentions ⊆ more) : RefusedAt more reason := by
  intro diagnostic hreason habout
  obtain ⟨mention, hmem, hrefusal⟩ := h diagnostic hreason habout
  exact ⟨mention, hsub hmem, hrefusal⟩

theorem RefusedAt.fault (mentions : List Mention) (f : Fault) : RefusedAt mentions (.fault f) := fun _ h => nomatch h

theorem RefusedAt.other {diagnostic : Diagnostic} (h : ¬ diagnostic.cause.IsAboutMention) (mentions : List Mention) :
    RefusedAt mentions (.failure diagnostic) := by
  rintro _ ⟨⟩ habout
  exact absurd habout h

namespace Checks

variable {α β : Type} {m : InferM α} {next : α → InferM β} {mentions more : List Mention}

theorem pure (a : α) : Checks g inside (pure a : InferM α) [] := fun s _ _ =>
  .pure (.refl s) (List.forall_mem_nil _)

theorem refuse {cause : Cause} (h : ¬ cause.IsAboutMention) (span : Span) :
    Checks g inside (InferM.refuse cause span : InferM α) mentions := fun s _ _ =>
  .of_error rfl (.refl s) (.other h _)

/-- **Mentions, and more in the rest.** -/
theorem bind (h : Checks g inside m mentions) (hnext : ∀ a, Checks g inside (next a) more) :
    Checks g inside (m >>= next) (mentions ++ more) := by
  intro s hs hinside
  refine ((h s hs hinside).imp (fun _ hstop => hstop.mono (List.subset_append_left _ _))
    fun _ _ _ hgranted => hgranted).bind .trans fun a s' hsteady hgranted => ?_
  refine (hnext a s' (hs.trans hsteady.shape) (hsteady.inside_eq.trans hinside)).imp
    (fun _ hstop => hstop.mono (List.subset_append_right _ _)) fun _ _ _ hmore => ?_
  exact List.forall_mem_append.mpr ⟨hgranted, hmore⟩

/-- A step without mentions, and mentions in the rest. -/
theorem after (h : Checks g inside m []) (hnext : ∀ a, Checks g inside (next a) mentions) :
    Checks g inside (m >>= next) mentions :=
  h.bind hnext

theorem before (h : Checks g inside m mentions) (hnext : ∀ a, Checks g inside (next a) []) :
    Checks g inside (m >>= next) mentions := by
  rw [← List.append_nil mentions]
  exact h.bind hnext

theorem of_decided (h : Decided g m mentions) (hlocated : ∀ mention ∈ mentions, mention.Located g) :
    Checks g inside m mentions := by
  intro s hs _
  cases hfirst : mentions.findSome? Mention.refusal? with
  | none =>
    obtain ⟨a, s', hrun, hshape, hframes⟩ := h.ends hfirst s hs
    refine .of_ok hrun ⟨hshape, congrArg List.length hframes⟩ fun mention hmention => ?_
    exact ⟨List.findSome?_eq_none_iff.mp hfirst mention hmention, hlocated mention hmention⟩
  | some diagnostic =>
    obtain ⟨s', hrun, hshape, hframes⟩ := h.stops _ hfirst s hs
    refine .of_error hrun ⟨hshape, congrArg List.length hframes⟩ ?_
    rintro _ ⟨⟩ -
    exact List.exists_of_findSome?_eq_some hfirst

/-- An answer to a question that is not about mentions. -/
theorem answer {found : Inference → Except (Halt Diagnostic) α} (hm : ∀ s, m s = InferM.answer (found s) s)
    (hother : ∀ s diagnostic, found s = .error (.failure diagnostic) → ¬ diagnostic.cause.IsAboutMention) :
    Checks g inside m [] := by
  intro s _ _
  have hrun := hm s
  cases hfound : found s with
  | ok a => exact .of_ok (hrun.trans (by rw [hfound]; rfl)) (.refl s) (List.forall_mem_nil _)
  | error reason =>
    refine .of_error (hrun.trans (by rw [hfound]; rfl)) (.refl s) ?_
    rintro diagnostic rfl habout
    exact absurd habout (hother s diagnostic hfound)

/-- A question about types or scopes has no refusal for an answer. -/
theorem ofQuery {found : Inference → Except Fault α} (hm : ∀ s, m s = InferM.answer (Halt.ofQuery (found s)) s) :
    Checks g inside m [] :=
  .answer hm fun s _ h => by cases hfound : found s <;> rw [hfound] at h <;> cases h

end Checks

/-! ## Steps without mentions -/

section Steps

variable {α β : Type}

/-- A refusal after a question comes from the rest. -/
theorem exists_of_ofQuery_bind_eq_failure {ε : Type} {ask : Except Fault α} {next : α → Except (Halt ε) β} {reason : ε}
    (h : (Halt.ofQuery ask >>= next) = .error (.failure reason)) : ∃ a, next a = .error (.failure reason) := by
  cases ask with
  | error f => cases h
  | ok a => exact ⟨a, h⟩

theorem checks_query (ask : Store → Except Fault α) : Checks g inside (query ask) [] := .ofQuery (query_run ask)

theorem checks_getLocal (scope : ScopeId) (name : String) : Checks g inside (getLocal scope name) [] :=
  .ofQuery (getLocal_run scope name)

theorem checks_create (make : Store → TypeId × Store) : Checks g inside (create make) [] := fun s _ _ =>
  .of_ok (create_run make s) ⟨.refl _, rfl⟩ (List.forall_mem_nil _)

theorem checks_instantiate (pinned : List TypeId) (ty : TypeId) : Checks g inside (instantiate pinned ty) [] := by
  intro s _ _
  have hrun := instantiate_run pinned ty s
  cases hcopy : s.types.instantiate pinned ty with
  | ok made =>
    rw [hcopy] at hrun
    exact .of_ok hrun ⟨.refl _, rfl⟩ (List.forall_mem_nil _)
  | error fault =>
    rw [hcopy] at hrun
    exact .of_error hrun (.refl s) (.fault _ _)

/-- A clash that is refused for another reason. -/
theorem checks_unifyOr {refusal : Clash → Diagnostic} (hother : ∀ clash, ¬ (refusal clash).cause.IsAboutMention)
    (a b : TypeId) : Checks g inside (unifyOr refusal a b) [] := by
  intro s _ _
  have hrun := unifyOr_run refusal a b s
  cases hunify : Store.unify a b s.types with
  | ok _ types =>
    rw [hunify] at hrun
    exact .of_ok hrun ⟨.refl _, rfl⟩ (List.forall_mem_nil _)
  | error reason types =>
    rw [hunify] at hrun
    cases reason with
    | fault f => exact .of_error hrun ⟨.refl _, rfl⟩ (.fault _ _)
    | failure clash => exact .of_error hrun ⟨.refl _, rfl⟩ (.other (hother clash) _)

theorem checks_unify (span : Span) (a b : TypeId) : Checks g inside (unify span a b) [] :=
  checks_unifyOr (fun clash => by cases clash <;> exact id) a b

/-- A change of one symbol leaves its kind alone, and with it the shape of the arena. -/
theorem checks_update (id : ScopeId) (name : String) {change : Symbol → Symbol}
    (hkind : ∀ symbol, (change symbol).kind = symbol.kind) : Checks g inside (update id name change) [] := by
  intro s _ _
  have hrun := update_run id name change s
  cases hchanged : s.scopes.update id name change with
  | error fault =>
    rw [hchanged] at hrun
    exact .of_error hrun (.refl s) (.fault _ _)
  | ok scopes =>
    rw [hchanged] at hrun
    exact .of_ok hrun ⟨sameShape_of_update hchanged hkind, rfl⟩ (List.forall_mem_nil _)

theorem checks_setType (id : ScopeId) (name : String) (ty : TypeId) : Checks g inside (setType id name ty) [] :=
  checks_update id name fun _ => rfl

theorem checks_typeOf (id : ScopeId) (name : String) (declared : Option TypeId) :
    Checks g inside (typeOf id name declared) [] := by
  cases declared with
  | some ty => exact .pure ty
  | none => exact .after (checks_create _) fun ty => .after (checks_setType id name ty) fun _ => .pure ty

theorem checks_declaredType (scope : ScopeId) (name : String) : Checks g inside (declaredType scope name) [] :=
  .after (checks_getLocal scope name) fun _ => checks_typeOf scope name _

theorem checks_markReturned : Checks g inside markReturned []
  | ⟨_, _, []⟩, _, _ => .of_ok rfl ⟨.refl _, rfl⟩ (List.forall_mem_nil _)
  | ⟨_, _, _ :: _⟩, _, _ => .of_ok rfl ⟨.refl _, rfl⟩ (List.forall_mem_nil _)

/-! ### Bodies, operators and parts of functions -/

/-- **A function's body** stands inside a function, wherever the function itself stands. -/
theorem Checks.inFrame {body : InferM α} {mentions : List Mention} (h : Checks g true body mentions)
    (result : TypeId) : Checks g inside (withFrame result body) mentions := by
  intro s hs _
  have hbody := h { s with frames := ⟨result, false⟩ :: s.frames } hs rfl
  have hclosed : ∀ {s' : Inference}, Inference.Steady { s with frames := ⟨result, false⟩ :: s.frames } s' →
      s.Steady { s' with frames := s'.frames.tail } := fun hsteady =>
    ⟨hsteady.shape, by rw [List.length_tail, hsteady.depth]; rfl⟩
  cases hrun : body { s with frames := ⟨result, false⟩ :: s.frames } with
  | error reason s' =>
    obtain ⟨hsteady, hrefused⟩ := hbody.error hrun
    exact .of_error (withFrame_of_error hrun) (hclosed hsteady) hrefused
  | ok a s' =>
    obtain ⟨hsteady, hgranted⟩ := hbody.ok hrun
    exact .of_ok (withFrame_of_ok hrun) (hclosed hsteady) hgranted

/-- A node that has recorded its scope is looked at there. -/
theorem Checks.recorded {mark : Mark} {next : ScopeId → InferM α} {mentions : List Mention}
    (hmark : mark.scope = some scope) (h : Checks g inside (next scope) mentions) :
    Checks g inside (requireScope mark >>= next) mentions := by
  rw [requireScope, hmark, pure_bind]
  exact h

theorem inferUnary_checks (op : UnaryOp) (operand : TypeId) (span : Span) :
    Checks g inside (inferUnary op operand span) [] :=
  .after (checks_query _) fun _ => .after (checks_unifyOr (fun _ => id) _ _) fun _ => .pure _

theorem inferBinary_checks (op : BinaryOp) (left right : TypeId) (span : Span) :
    Checks g inside (inferBinary op left right span) [] := by
  refine .after (checks_query _) fun _ => .after (checks_query _) fun _ => ?_
  dsimp only
  split
  · exact .after (checks_unifyOr (fun _ => id) _ _) fun _ => .after (checks_unifyOr (fun _ => id) _ _) fun _ =>
      .pure _
  · exact .after (checks_unifyOr (fun _ => id) _ _) fun _ => .pure _

/-- Refused pairs of types are refused for another reason. -/
theorem not_isAboutMention_of_refuseShowing {cause : String → Cause} (hcause : ∀ shown, ¬ (cause shown).IsAboutMention)
    {ty : TypeId} {span : Span} {types : Store} {diagnostic : Diagnostic}
    (h : (types.refuseShowing cause ty span : Except (Halt Diagnostic) α) = .error (.failure diagnostic)) :
    ¬ diagnostic.cause.IsAboutMention := by
  obtain ⟨shown, h⟩ := exists_of_ofQuery_bind_eq_failure h
  cases h
  exact hcause shown

/-- An access is refused for what the types are, and not for a mention. -/
theorem checks_access (left index : TypeId) (span indexSpan : Span) :
    Checks g inside (consult (·.access left index span indexSpan)) [] := by
  refine .answer (consult_run _) fun s diagnostic h => ?_
  obtain ⟨found, h⟩ := exists_of_ofQuery_bind_eq_failure h
  split at h
  · cases h
  · obtain ⟨number, h⟩ := exists_of_ofQuery_bind_eq_failure h
    cases number with
    | true => cases h
    | false => exact not_isAboutMention_of_refuseShowing (fun _ => id) h
  · obtain ⟨same, h⟩ := exists_of_ofQuery_bind_eq_failure h
    cases same with
    | true => cases h
    | false =>
      obtain ⟨expected, h⟩ := exists_of_ofQuery_bind_eq_failure h
      exact not_isAboutMention_of_refuseShowing (fun _ => id) h
  · exact not_isAboutMention_of_refuseShowing (fun _ => id) h

theorem newVars_checks : ∀ count : Nat, Checks g inside (newVars count) []
  | 0 => .pure []
  | count + 1 => .after (checks_create _) fun _ => .after (newVars_checks count) fun _ => .pure _

/-- The parts of a function type are taken or made without a look at any name. -/
theorem functionParts_checks (span : Span) (ty : TypeId) (arity : Nat) :
    Checks g inside (functionParts span ty arity) [] := by
  refine .after (checks_query _) fun found => ?_
  dsimp only
  split
  · exact .pure _
  · exact .after (newVars_checks arity) fun params => .after (checks_create _) fun result =>
      .after (checks_create _) fun expected => .after (checks_unify _ _ _) fun _ => .pure _

theorem setParamTypes_checks (own : ScopeId) : ∀ (params : List Param) (types : List TypeId),
    Checks g inside (setParamTypes own params types) []
  | p :: params, ty :: types => by
    rw [setParamTypes]
    exact .after (checks_setType own p.name.name ty) fun _ => setParamTypes_checks own params types
  | [], _ | _ :: _, [] => .pure _

theorem checkVariants_checks : ∀ (seen : List String) (variants : List Ident),
    Checks g inside (checkVariants seen variants) []
  | _, [] => .pure _
  | seen, v :: rest => by
    rw [checkVariants]
    split
    · exact .refuse id _
    · exact checkVariants_checks _ rest

theorem Stmt.settle_checks (scope : ScopeId) (pins : Pins) (stmt : Stmt) :
    Checks g inside (stmt.settle scope pins) [] := by
  unfold Stmt.settle
  split
  · refine .after (checks_getLocal scope _) fun symbol => ?_
    split
    · exact .pure _
    · exact .pure _
  · exact .pure _

end Steps

/-! ## Names -/

/-- **A name that is looked up**: the rest goes on with a declaration of a kind that fits, and refuses any other.
    The three sorts of lookups, for values, targets and labels, are cases of this lemma. -/
theorem Checks.resolving {α : Type} {next : ScopeId × Symbol → InferM α} {mention : Mention} {more : List Mention}
    {name : Ident} {fits : SymbolKind → Bool} {cause : SymbolKind → String → Cause} (hl : g.Layered scope layers)
    (ho : g.Ordered) (hmention : mention.refusal? = nameRefusal? layers name fits cause) (hlocated : mention.Located g)
    (hfits : ∀ found, fits found.2.kind = true → Checks g inside (next found) more)
    (hmisfit : ∀ found, fits found.2.kind = false →
      next found = InferM.refuse (cause found.2.kind name.name) name.span) :
    Checks g inside (resolve scope name >>= next) (mention :: more) := by
  intro s hs hinside
  cases hrefusal : nameRefusal? layers name fits cause with
  | none =>
    obtain ⟨found, hrun, hfit⟩ := hl.chain.resolve_eq_ok ho hs hrefusal
    refine .bind_of_ok hrun ((hfits found hfit s hs hinside).imp
      (fun _ hstop => hstop.mono (List.subset_cons_self _ _)) fun _ _ _ hmore => ?_)
    exact List.forall_mem_cons.mpr ⟨⟨hmention.trans hrefusal, hlocated⟩, hmore⟩
  | some diagnostic =>
    have hrefused : RefusedAt (mention :: more) (.failure diagnostic) := by
      rintro _ ⟨⟩ -
      exact ⟨mention, List.mem_cons_self, hmention.trans hrefusal⟩
    rcases hl.chain.resolve_eq_error ho hs hrefusal with hrun | ⟨found, hrun, hkind, rfl⟩
    · exact .of_error (run_bind_of_error hrun) (.refl s) hrefused
    · refine .of_error ((run_bind_of_ok hrun).trans ?_) (.refl s) hrefused
      rw [hmisfit found hkind]
      rfl

/-! ### One lemma for each sort of mention -/

theorem located_typeMentions (hl : g.Layered scope layers) (names : List Ident) :
    ∀ mention ∈ typeMentions layers names, mention.Located g := by
  intro mention hmention
  obtain ⟨name, -, rfl⟩ := List.mem_map.mp hmention
  exact ⟨scope, hl⟩

section Names

variable (hl : g.Layered scope layers) (ho : g.Ordered)

include hl ho

/-- **A name that is used** has to be a value. -/
theorem inferName_checks (name : Ident) (pinned : List TypeId) :
    Checks g inside (inferName scope name pinned) [.value name layers] := by
  refine .resolving hl ho rfl ⟨scope, hl⟩ (fun found hvalue => ?_) fun found hvalue => ?_
  · have hno : ¬ (found.2.kind = .label ∨ found.2.kind.isType = true) := by
      revert hvalue
      cases found.2.kind <;> decide
    dsimp only
    rw [if_neg hno]
    exact .after (checks_typeOf _ _ _) fun ty => checks_instantiate pinned ty
  · have hyes : found.2.kind = .label ∨ found.2.kind.isType = true := by
      revert hvalue
      cases found.2.kind <;> decide
    exact if_pos hyes

/-- **The target of an assignment** has to be a variable; that it is no constant is another matter. -/
theorem assignable_checks (target : Ident) : Checks g inside (assignable scope target) [.target target layers] := by
  have hrefusal : (Mention.target target layers).refusal? = nameRefusal? layers target (· = .var) .notAValue := rfl
  refine .resolving hl ho hrefusal ⟨scope, hl⟩ (fun found hvar => ?_) fun found hvar => ?_
  · dsimp only
    rw [if_neg (not_not.mpr (of_decide_eq_true hvar))]
    split
    · exact .refuse id _
    · exact .pure _
  · exact if_pos (of_decide_eq_false hvar)

/-- **A jump** has to name the label of a statement around, if it names one. -/
theorem checkJump_checks (label : Option Ident) :
    Checks g inside (checkJump scope label) (label.toList.map (.jump · layers)) := by
  cases label with
  | none => exact .pure _
  | some label =>
    have hrefusal : (Mention.jump label layers).refusal? = nameRefusal? layers label (· = .label) .notALabel := rfl
    refine .resolving hl ho hrefusal ⟨scope, hl⟩ (fun found hlabel => ?_) fun found hlabel => ?_
    · dsimp only
      rw [if_neg (not_not.mpr (of_decide_eq_true hlabel))]
      exact .pure _
    · exact if_pos (of_decide_eq_false hlabel)

theorem Signature.denote_checks (signature : Signature) :
    Checks g inside (signature.denote scope) (typeMentions layers signature.names) :=
  .of_decided (signature.denote_decided hl.chain ho) (located_typeMentions hl _)

theorem predeclareAll_checks (stmts : List Stmt) :
    Checks g inside (predeclareAll scope stmts) (announcedMentions layers stmts) :=
  .of_decided (predeclareAll_decided hl.chain ho stmts) (located_typeMentions hl _)

/-- The signatures of fields are looked up in the scope in which their struct stands. -/
theorem inferFields_checks : ∀ (seen : List String) (fields : List Field),
    Checks g inside (inferFields scope seen fields) (typeMentions layers (fields.flatMap fun f => f.signature.names))
  | _, [] => .pure _
  | seen, f :: rest => by
    rw [inferFields, List.flatMap_cons, typeMentions_append]
    split
    · exact .refuse id _
    · exact (f.signature.denote_checks hl ho).bind fun _ => inferFields_checks _ rest

end Names

/-! ## Expressions -/

/-- An expression is looked at in the scope that it has recorded. -/
theorem Checks.expr {e : Expr} {pinned : List TypeId} {mentions : List Mention} {body : ScopeId → InferM TypeId}
    (hinfer : e.infer pinned = requireScope e.mark >>= body) (hmark : e.mark.scope = some scope)
    (h : Checks g inside (body scope) mentions) : Checks g inside (e.infer pinned) mentions :=
  hinfer ▸ .recorded hmark h

/-- The parameters of a lambda or a function make a layer. -/
theorem Scopes.Layered.params {params : List Param} (hl : g.Layered scope layers)
    (hopened : g.Opened own scope (Param.symbols params)) :
    g.Layered own (⟨some own, none, Param.frame params⟩ :: layers) :=
  hl.opened hopened (entriesOf_params params) (faithful_params _ params)

mutual

/-- **Inference of an expression** checks the mentions in it. By recursion on the expression; each case goes through
    the steps of inference and lists the mentions of the parts where they are looked at. -/
theorem Expr.infer_checks (ho : g.Ordered) : ∀ (e : Expr) {pinned : List TypeId} {scope : ScopeId}
    {layers : List Layer} {n n' : Nat}, g.Layered scope layers → e.Placed g scope n n' →
    Checks g inside (e.infer pinned) (e.mentions layers)
  | .number _, _, _, _, _, _, _, ⟨hmark, _⟩ | .string _ _, _, _, _, _, _, _, ⟨hmark, _⟩
  | .bool _ _, _, _, _, _, _, _, ⟨hmark, _⟩ => by
    rw [Expr.mentions]
    exact .expr (by rw [Expr.infer]) hmark (.pure _)
  | .name _ id, pinned, _, _, _, _, hl, ⟨hmark, _⟩ => by
    rw [Expr.mentions]
    exact .expr (by rw [Expr.infer]) hmark (inferName_checks hl ho id pinned)
  | .list _ items, _, _, _, _, _, hl, ⟨hmark, hitems⟩ => by
    rw [Expr.mentions]
    refine .expr (by rw [Expr.infer]) hmark ?_
    exact .after (checks_create _) fun element => (inferElements_checks ho items hl hitems element).before fun _ =>
      checks_create _
  | .map _ entries, _, _, _, _, _, hl, ⟨hmark, hentries⟩ => by
    rw [Expr.mentions]
    refine .expr (by rw [Expr.infer]) hmark ?_
    exact .after (checks_create _) fun key => .after (checks_create _) fun value =>
      (inferEntries_checks ho entries hl hentries key value).before fun _ => checks_create _
  | .tuple _ items, _, _, _, _, _, hl, ⟨hmark, hitems⟩ => by
    rw [Expr.mentions]
    refine .expr (by rw [Expr.infer]) hmark ?_
    exact (inferExprs_checks ho items hl hitems).before fun _ => checks_create _
  | .access _ left index, _, _, _, _, _, hl, ⟨hmark, _, hleft, hindex⟩ => by
    rw [Expr.mentions]
    refine .expr (by rw [Expr.infer]) hmark ?_
    exact (left.infer_checks ho hl hleft).bind fun _ => (index.infer_checks ho hl hindex).before fun _ =>
      checks_access _ _ _ _
  | .unary _ op operand, _, _, _, _, _, hl, ⟨hmark, hoperand⟩ => by
    rw [Expr.mentions]
    refine .expr (by rw [Expr.infer]) hmark ?_
    exact (operand.infer_checks ho hl hoperand).before fun ty => inferUnary_checks op ty _
  | .binary _ op left right, _, _, _, _, _, hl, ⟨hmark, _, hleft, hright⟩ => by
    rw [Expr.mentions]
    refine .expr (by rw [Expr.infer]) hmark ?_
    exact (left.infer_checks ho hl hleft).bind fun leftType => (right.infer_checks ho hl hright).before fun rightType =>
      inferBinary_checks op leftType rightType _
  | .call _ callee args, _, _, _, _, _, hl, ⟨hmark, _, hcallee, hargs⟩ => by
    rw [Expr.mentions]
    refine .expr (by rw [Expr.infer]) hmark ?_
    exact (callee.infer_checks ho hl hcallee).bind fun _ => (inferExprs_checks ho args hl hargs).before fun _ =>
      .after (checks_create _) fun _ => .after (checks_create _) fun _ => .after (checks_unify _ _ _) fun _ => .pure _
  -- The signatures of the parameters are looked up in the scope of the lambda, as its mentions say.
  | .lambda _ own params body, _, _, _, _, _, hl, ⟨hmark, hown, hopened, hbody⟩ => by
    subst hown
    rw [Expr.mentions]
    have hinner := hl.params hopened
    refine .expr (by rw [Expr.infer]) hmark (.recorded rfl ?_)
    have hparams := typeParams_decided hinner.chain ho params
    refine Checks.bind (.of_decided hparams (located_typeMentions hinner _)) fun _ => ?_
    exact (body.infer_checks ho hinner hbody).before fun _ => checks_create _
  | .when _ cond yes no, _, _, _, _, _, hl, ⟨hmark, _, _, hcond, hyes, hno⟩ => by
    rw [Expr.mentions]
    refine .expr (by rw [Expr.infer]) hmark ?_
    exact (cond.infer_checks ho hl hcond).bind fun _ => .after (checks_unify _ _ _) fun _ =>
      (yes.infer_checks ho hl hyes).bind fun _ => (no.infer_checks ho hl hno).before fun _ =>
        .after (checks_unify _ _ _) fun _ => .pure _
  | .assign _ target value, _, _, _, _, _, hl, ⟨hmark, hvalue⟩ => by
    rw [Expr.mentions]
    refine .expr (by rw [Expr.infer]) hmark ?_
    refine (assignable_checks hl ho target).bind fun found => ?_
    exact (value.infer_checks ho hl hvalue).before fun _ => .after (checks_typeOf _ _ _) fun _ =>
      .after (checks_unify _ _ _) fun _ => .after (checks_update _ _ fun _ => rfl) fun _ => .pure _

theorem inferExprs_checks (ho : g.Ordered) : ∀ (items : List Expr) {pinned : List TypeId} {scope : ScopeId}
    {layers : List Layer} {n n' : Nat}, g.Layered scope layers → PlacedExprs g scope items n n' →
    Checks g inside (inferExprs pinned items) (exprsMentions layers items)
  | [], _, _, _, _, _, _, _ => by
    rw [inferExprs, exprsMentions]
    exact .pure _
  | e :: rest, _, _, _, _, _, hl, ⟨_, he, hrest⟩ => by
    rw [inferExprs, exprsMentions]
    exact (e.infer_checks ho hl he).bind fun _ => (inferExprs_checks ho rest hl hrest).before fun _ => .pure _

theorem inferElements_checks (ho : g.Ordered) : ∀ (items : List Expr) {pinned : List TypeId} {scope : ScopeId}
    {layers : List Layer} {n n' : Nat}, g.Layered scope layers → PlacedExprs g scope items n n' →
    ∀ element : TypeId, Checks g inside (inferElements pinned element items) (exprsMentions layers items)
  | [], _, _, _, _, _, _, _, _ => by
    rw [inferElements, exprsMentions]
    exact .pure _
  | e :: rest, _, _, _, _, _, hl, ⟨_, he, hrest⟩, element => by
    rw [inferElements, exprsMentions]
    exact (e.infer_checks ho hl he).bind fun _ => .after (checks_unify _ _ _) fun _ =>
      inferElements_checks ho rest hl hrest element

theorem inferEntries_checks (ho : g.Ordered) : ∀ (entries : List (Expr × Expr)) {pinned : List TypeId}
    {scope : ScopeId} {layers : List Layer} {n n' : Nat}, g.Layered scope layers →
    PlacedEntries g scope entries n n' → ∀ keyType valueType : TypeId,
    Checks g inside (inferEntries pinned keyType valueType entries) (entriesMentions layers entries)
  | [], _, _, _, _, _, _, _, _, _ => by
    rw [inferEntries, entriesMentions]
    exact .pure _
  | (key, value) :: rest, _, _, _, _, _, hl, ⟨_, _, hkey, hvalue, hrest⟩, keyType, valueType => by
    rw [inferEntries, entriesMentions]
    exact (key.infer_checks ho hl hkey).bind fun _ => .after (checks_unify _ _ _) fun _ =>
      (value.infer_checks ho hl hvalue).bind fun _ => .after (checks_unify _ _ _) fun _ =>
        inferEntries_checks ho rest hl hrest keyType valueType

end

/-! ## Statements -/

theorem inferCondition_checks {cond : Expr} {pinned : List TypeId} {n n' : Nat} (ho : g.Ordered)
    (hl : g.Layered scope layers) (hcond : cond.Placed g scope n n') :
    Checks g inside (inferCondition pinned cond) (cond.mentions layers) :=
  (cond.infer_checks ho hl hcond).before fun _ => checks_unify _ _ _

theorem inferDefs_checks (ho : g.Ordered) (hl : g.Layered scope layers) : ∀ (defs : List VarDef)
    {pinned : List TypeId} {n n' : Nat}, PlacedDefs g scope defs n n' →
    Checks g inside (inferDefs scope pinned defs) (defsMentions layers defs)
  | [], _, _, _, _ => .pure _
  | d :: rest, _, _, _, ⟨_, hvalue, hrest⟩ => by
    rw [inferDefs, defsMentions]
    refine .after (checks_declaredType scope d.name.name) fun declared => ?_
    cases hd : d.value with
    | none => exact inferDefs_checks ho hl rest hrest
    | some value =>
      rw [hd] at hvalue
      replace hvalue : value.Placed g scope _ _ := hvalue
      exact (value.infer_checks ho hl hvalue).bind fun _ => .after (checks_unify _ _ _) fun _ =>
        inferDefs_checks ho hl rest hrest

/-! ### Returns -/

/-- **A `return`** is refused if no function is open. -/
theorem Checks.ret {α : Type} {next : TypeId → InferM α} {span : Span} {mentions : List Mention}
    (h : ∀ expected, Checks g inside (next expected) mentions) :
    Checks g inside (expectedResult? >>= fun expected =>
        match expected with
        | none => InferM.refuse .returnOutsideFunction span
        | some expected => next expected) (.ret span inside :: mentions) := by
  intro s hs hinside
  cases hframes : s.frames with
  | nil =>
    have hrun : expectedResult? s = .ok none s := by
      show (EStateM.Result.ok (s.frames.head?.map Frame.result) s : EStateM.Result _ _ _) = _
      rw [hframes]
      rfl
    obtain rfl : inside = false := hinside.symm.trans (by rw [Inference.inside, hframes]; rfl)
    refine .of_error ((run_bind_of_ok hrun).trans (refuse_run _ _ s)) (.refl s) ?_
    rintro _ ⟨⟩ -
    exact ⟨_, List.mem_cons_self, rfl⟩
  | cons frame frames =>
    have hrun : expectedResult? s = .ok (some frame.result) s := by
      show (EStateM.Result.ok (s.frames.head?.map Frame.result) s : EStateM.Result _ _ _) = _
      rw [hframes]
      rfl
    obtain rfl : inside = true := hinside.symm.trans (by rw [Inference.inside, hframes]; rfl)
    refine .bind_of_ok hrun ((h frame.result s hs hinside).imp
      (fun _ hstop => hstop.mono (List.subset_cons_self _ _)) fun _ _ _ hgranted => ?_)
    exact List.forall_mem_cons.mpr ⟨⟨rfl, trivial⟩, hgranted⟩

mutual

/-- **Inference of a statement** checks the mentions in it, apart from those in the signatures that it declares,
    which are checked ahead of the list that the statement stands in. -/
theorem Stmt.infer_checks (ho : g.Ordered) : ∀ (stmt : Stmt) {inside : Bool} {pinned : List TypeId} {scope : ScopeId}
    {layers : List Layer} {n n' : Nat}, g.Layered scope layers → stmt.Placed g scope n n' →
    Checks g inside (stmt.infer scope pinned) (stmt.mentions inside layers)
  | .vars _ _ defs, _, _, _, _, _, _, hl, hdefs => by
    rw [Stmt.infer, Stmt.mentions]
    exact (inferDefs_checks ho hl defs hdefs).before fun _ => .pure _
  -- Parameters and result have been mentioned when the function was declared.
  | .function mark name params _ body, _, _, scope, _, _, _, hl, ⟨hmark, hopened, hbody⟩ => by
    rw [Stmt.infer, Stmt.mentions, hmark]
    refine .recorded hmark (.after (checks_declaredType scope name.name) fun ty => ?_)
    refine .after (functionParts_checks _ ty params.length) fun parts => ?_
    refine .after (setParamTypes_checks _ params parts.1) fun _ => ?_
    refine ((body.infer_checks ho (hl.params hopened) hbody).inFrame parts.2).before fun returned => ?_
    cases returned with
    | true => exact .pure _
    | false => exact .after (checks_unify _ _ _) fun _ => .pure _
  | .blueprint _ name body, _, _, scope, _, _, _, hl, hbody | .trait _ name body, _, _, scope, _, _, _, hl, hbody => by
    rw [Stmt.infer, Stmt.mentions]
    exact (body.infer_checks ho hl hbody).before fun _ => checks_declaredType scope name.name
  | .struct _ name fields, _, _, scope, _, _, _, hl, _ => by
    rw [Stmt.infer, Stmt.mentions]
    exact (inferFields_checks hl ho [] fields).before fun _ => checks_declaredType scope name.name
  | .enum _ name variants, _, _, scope, _, _, _, _, _ => by
    rw [Stmt.infer, Stmt.mentions]
    exact .after (checkVariants_checks [] variants) fun _ => checks_declaredType scope name.name
  | .label mark name stmt, _, _, _, _, _, _, hl, ⟨hmark, hopened, hstmt⟩ => by
    rw [Stmt.infer, Stmt.mentions, hmark]
    have hinner := hl.opened hopened (entriesOf_label name stmt) (faithful_label _ name stmt)
    refine .recorded hmark (Checks.bind (.of_decided ?_ (located_typeMentions hinner _)) fun pins =>
      stmt.infer_checks ho hinner hstmt)
    rw [announcedMentions, List.flatMap_singleton]
    exact stmt.predeclare_decided hinner.chain ho
  | .block body, _, _, _, _, _, _, hl, hbody => by
    rw [Stmt.infer, Stmt.mentions]
    exact body.infer_checks ho hl hbody
  | .branch _ cond body elifs none, _, _, _, _, _, _, hl, ⟨_, _, hcond, hbody, helifs⟩ => by
    rw [Stmt.infer, Stmt.mentions]
    exact (inferCondition_checks ho hl hcond).bind fun _ => (body.infer_checks ho hl hbody).bind fun _ =>
      (inferElifs_checks ho elifs hl helifs).before fun _ => .pure _
  | .branch _ cond body elifs (some last), _, _, _, _, _, _, hl, ⟨_, _, _, hcond, hbody, helifs, hlast⟩ => by
    rw [Stmt.infer, Stmt.mentions]
    exact (inferCondition_checks ho hl hcond).bind fun _ => (body.infer_checks ho hl hbody).bind fun _ =>
      (inferElifs_checks ho elifs hl helifs).bind fun _ => last.infer_checks ho hl hlast
  | .loop _ cond body, _, _, _, _, _, _, hl, ⟨_, hcond, hbody⟩ => by
    rw [Stmt.infer, Stmt.mentions]
    exact (inferCondition_checks ho hl hcond).bind fun _ => body.infer_checks ho hl hbody
  | .ret span value, inside, _, _, _, _, _, hl, hvalue => by
    rw [Stmt.infer, Stmt.mentions]
    refine .ret fun expected => ?_
    have hreturn : ∀ actual, Checks g inside (do unify span expected actual; markReturned; pure TypeId.unit) [] :=
      fun actual => .after (checks_unify span expected actual) fun _ => .after checks_markReturned fun _ => .pure _
    cases value with
    | none => exact hreturn .unit
    | some value => exact (value.infer_checks ho hl hvalue).before hreturn
  | .jump _ _ label, _, _, scope, _, _, _, hl, _ => by
    rw [Stmt.infer, Stmt.mentions]
    exact (checkJump_checks hl ho label).before fun _ => .pure _
  | .expr e, _, _, _, _, _, _, hl, he => by
    rw [Stmt.infer, Stmt.mentions]
    exact e.infer_checks ho hl he

theorem Block.infer_checks (ho : g.Ordered) : ∀ (block : Block) {inside : Bool} {pinned : List TypeId}
    {scope : ScopeId} {layers : List Layer} {n n' : Nat}, g.Layered scope layers → block.Placed g scope n n' →
    Checks g inside (block.infer pinned) (block.mentions inside layers)
  | .mk mark stmts, _, _, _, _, _, _, hl, ⟨hmark, hopened, hstmts⟩ => by
    rw [Block.infer, Block.mentions, hmark]
    have hinner := hl.opened hopened (entriesOf_stmts stmts) (faithful_stmts _ stmts)
    refine .recorded hmark ((predeclareAll_checks hinner ho stmts).bind fun pins => ?_)
    exact (inferStmts_checks ho stmts hinner hstmts pins).before fun _ => .pure _

/-- **Statements one after another** check their mentions in this order. -/
theorem inferStmts_checks (ho : g.Ordered) : ∀ (stmts : List Stmt) {inside : Bool} {pinned : List TypeId}
    {scope : ScopeId} {layers : List Layer} {n n' : Nat}, g.Layered scope layers →
    PlacedStmts g scope stmts n n' → ∀ pins : Pins,
    Checks g inside (inferStmts scope pinned pins stmts) (stmtsMentions inside layers stmts)
  | [], _, _, _, _, _, _, _, _, _ => by
    rw [inferStmts, stmtsMentions]
    exact .pure _
  | stmt :: rest, _, _, scope, _, _, _, hl, ⟨_, hstmt, hrest⟩, pins => by
    rw [inferStmts, stmtsMentions]
    refine (stmt.infer_checks ho hl hstmt).bind fun ty => .after (stmt.settle_checks scope pins) fun pins' => ?_
    exact (inferStmts_checks ho rest hl hrest pins').before fun _ => .pure _

theorem inferElifs_checks (ho : g.Ordered) : ∀ (elifs : List Elif) {inside : Bool} {pinned : List TypeId}
    {scope : ScopeId} {layers : List Layer} {n n' : Nat}, g.Layered scope layers →
    PlacedElifs g scope elifs n n' →
    Checks g inside (inferElifs pinned elifs) (elifsMentions inside layers elifs)
  | [], _, _, _, _, _, _, _, _ => by
    rw [inferElifs, elifsMentions]
    exact .pure _
  | .mk _ cond body :: rest, _, _, _, _, _, _, hl, ⟨_, _, hcond, hbody, hrest⟩ => by
    rw [inferElifs, elifsMentions]
    exact (inferCondition_checks ho hl hcond).bind fun _ => (body.infer_checks ho hl hbody).bind fun _ =>
      inferElifs_checks ho rest hl hrest

end

/-! ### Lists of statements -/

/-- **A list of statements** with its declarations. -/
theorem inferList_checks (ho : g.Ordered) (hl : g.Layered scope layers) {stmts : List Stmt} {pinned : List TypeId}
    {n n' : Nat} (hstmts : PlacedStmts g scope stmts n n') :
    Checks g inside (inferList scope pinned stmts)
      (announcedMentions layers stmts ++ stmtsMentions inside layers stmts) :=
  (predeclareAll_checks hl ho stmts).bind fun pins => inferStmts_checks ho stmts hl hstmts pins

end TypeInference
