import TypeInference.Inference.Statement
import TypeInference.Proofs.Run

/-!
# `Proofs.Inference.Quiet` — computations that leave names and functions alone

Much of inference works on the store of types only: questions, new types, copies, unification, the types that
signatures stand for, and the checks that a statement makes of its parts. Such a computation is `Quiet`: wherever it
stops, the scopes and the open functions are as they were. A signature even leaves the types that are there alone,
and only adds nodes after them.

## Contents
* `Quiet`, with `Quiet.bind` — computations that leave names and functions alone;
* `quiet_query`, `quiet_unify`, … — one lemma for each step;
* `Inference.Adds`, `Signature.denote_adds` — a signature only adds nodes;
* `inferUnary_quiet`, `functionParts_quiet`, … — the parts of trees.
-/

namespace TypeInference

open InferM

variable {α β : Type} {m : InferM α} {next : α → InferM β} {Q Q' : α → Prop} {P : β → Prop}

/-! ## Quiet computations -/

/-- Every run leaves the scopes and the open functions as they are, and one that ends has a result in `Q`. Nothing
    is said about the state from which the run starts. -/
def Quiet (m : InferM α) (Q : α → Prop) : Prop :=
  ∀ s : Inference, Within (fun s s' => s'.scopes = s.scopes ∧ s'.frames = s.frames) (fun _ => True) m s fun a _ => Q a

namespace Quiet

theorem pure {a : α} (hQ : Q a) : Quiet (pure a) Q := fun _ => .pure ⟨rfl, rfl⟩ hQ

theorem refuse (cause : Cause) (span : Span) : Quiet (refuse cause span) Q := fun _ =>
  .of_error rfl ⟨rfl, rfl⟩ trivial

theorem mono (h : Quiet m Q') (hQ : ∀ a, Q' a → Q a) : Quiet m Q := fun s => (h s).mono fun a _ _ => hQ a

theorem bind (h : Quiet m Q) (hnext : ∀ a, Q a → Quiet (next a) P) : Quiet (m >>= next) P := fun s =>
  (h s).bind (fun h h' => ⟨h'.1.trans h.1, h'.2.trans h.2⟩) fun a s' _ hQ => hnext a hQ s'

/-- An answer to a question about the state changes nothing at all. -/
theorem answer {found : Inference → Except (Halt Diagnostic) α} (hm : ∀ s, m s = InferM.answer (found s) s) :
    Quiet m fun _ => True := by
  intro s
  have hrun := hm s
  cases hfound : found s with
  | ok a => exact .of_ok (hrun.trans (by rw [hfound]; rfl)) ⟨rfl, rfl⟩ trivial
  | error reason => exact .of_error (hrun.trans (by rw [hfound]; rfl)) ⟨rfl, rfl⟩ trivial

end Quiet

/-! ## Steps -/

theorem quiet_query (ask : Store → Except Fault α) : Quiet (query ask) fun _ => True := .answer (query_run ask)

theorem quiet_consult (ask : Store → Except (Halt Diagnostic) α) : Quiet (consult ask) fun _ => True :=
  .answer (consult_run ask)

theorem quiet_create (make : Store → TypeId × Store) : Quiet (create make) fun _ => True := fun s =>
  .of_ok (create_run make s) ⟨rfl, rfl⟩ trivial

/-- Unification works on the types alone, and a clash is turned into a refusal in the same state. -/
theorem quiet_unifyOr (refusal : Clash → Diagnostic) (a b : TypeId) : Quiet (unifyOr refusal a b) fun _ => True := by
  intro s
  have hrun := unifyOr_run refusal a b s
  cases hunify : Store.unify a b s.types with
  | ok _ types =>
    rw [hunify] at hrun
    exact .of_ok hrun ⟨rfl, rfl⟩ trivial
  | error reason types =>
    rw [hunify] at hrun
    cases reason <;> exact .of_error hrun ⟨rfl, rfl⟩ trivial

theorem quiet_unify (span : Span) (a b : TypeId) : Quiet (unify span a b) fun _ => True := quiet_unifyOr _ a b

/-- A copy adds types only. -/
theorem quiet_instantiate (pinned : List TypeId) (ty : TypeId) : Quiet (instantiate pinned ty) fun _ => True := by
  intro s
  have hrun := instantiate_run pinned ty s
  cases hcopy : s.types.instantiate pinned ty with
  | ok made =>
    rw [hcopy] at hrun
    exact .of_ok hrun ⟨rfl, rfl⟩ trivial
  | error fault =>
    rw [hcopy] at hrun
    exact .of_error hrun ⟨rfl, rfl⟩ trivial

/-! ### Questions about names -/

theorem quiet_requireScope (mark : Mark) : Quiet (requireScope mark) fun scope => mark.scope = some scope := by
  unfold requireScope
  split
  · next hscope => exact .pure hscope
  · exact .refuse _ _

/-- A scope that has been recorded is the one that is worked in. -/
theorem quiet_recorded {mark : Mark} {scope : ScopeId} (hmark : mark.scope = some scope) :
    Quiet (requireScope mark) (· = scope) :=
  (quiet_requireScope mark).mono fun _ hscope => Option.some.inj (hscope.symm.trans hmark)

theorem quiet_resolve (scope : ScopeId) (name : Ident) : Quiet (resolve scope name) fun _ => True :=
  .answer (resolve_run scope name)

theorem quiet_getLocal (scope : ScopeId) (name : String) : Quiet (getLocal scope name) fun _ => True :=
  .answer (getLocal_run scope name)

theorem quiet_expectedResult? : Quiet expectedResult? fun _ => True := fun _ => .of_ok rfl ⟨rfl, rfl⟩ trivial

/-! ## Signatures -/

/-- Nodes have been added at the end of the store, and everything else is as it was. -/
structure Inference.Adds (s s' : Inference) : Prop where
  nodes : ∃ more, s'.types.nodes = s.types.nodes ++ more
  trail : s'.types.trail = s.types.trail
  scopes : s'.scopes = s.scopes
  frames : s'.frames = s.frames

namespace Inference.Adds

variable {s s' s'' : Inference}

theorem refl (s : Inference) : s.Adds s := ⟨⟨#[], by simp⟩, rfl, rfl, rfl⟩

theorem trans (h : s.Adds s') (h' : s'.Adds s'') : s.Adds s'' := by
  obtain ⟨more, hmore⟩ := h.nodes
  obtain ⟨more', hmore'⟩ := h'.nodes
  exact ⟨⟨more ++ more', by rw [hmore', hmore, Array.append_assoc]⟩, h'.trail.trans h.trail, h'.scopes.trans h.scopes,
    h'.frames.trans h.frames⟩

end Inference.Adds

/-! ### Computations that only add nodes -/

/-- Every run of the computation only adds nodes, wherever it stops. -/
def Additive (m : InferM α) : Prop :=
  ∀ s : Inference, Within Inference.Adds (fun _ => True) m s fun _ _ => True

namespace Additive

theorem pure (a : α) : Additive (pure a : InferM α) := fun s => .pure (.refl s) trivial

theorem refuse (cause : Cause) (span : Span) : Additive (InferM.refuse cause span : InferM α) := fun s =>
  .of_error rfl (.refl s) trivial

theorem bind (h : Additive m) (hnext : ∀ a, Additive (next a)) : Additive (m >>= next) := fun s =>
  (h s).bind .trans fun a s' _ _ => hnext a s'

theorem operator (con : Constructor) (args : List TypeId) : Additive (create (Store.operator con args)) := fun s =>
  .of_ok (create_run _ s) ⟨⟨#[.op con args], Array.push_eq_append⟩, rfl, rfl, rfl⟩ trivial

theorem resolve (scope : ScopeId) (name : Ident) : Additive (InferM.resolve scope name) := by
  intro s
  have hrun := resolve_run scope name s
  cases hfound : s.scopes.resolve scope name with
  | ok found => exact .of_ok (hrun.trans (by rw [hfound]; rfl)) (.refl s) trivial
  | error reason => exact .of_error (hrun.trans (by rw [hfound]; rfl)) (.refl s) trivial

/-- What only adds nodes leaves names and functions alone. -/
theorem quiet (h : Additive m) : Quiet m fun _ => True := fun s =>
  (h s).relax fun _ hadds => ⟨hadds.scopes, hadds.frames⟩

end Additive

/-! ### The types of signatures -/

/-- **A written name** adds at most one node. -/
theorem Ident.denote_adds (scope : ScopeId) (id : Ident) : Additive (id.denote scope) := by
  unfold Ident.denote
  split
  · exact .pure _
  · refine (Additive.resolve scope id).bind fun found => ?_
    dsimp only
    split
    · exact .operator _ _
    · exact .refuse _ _

mutual

/-- **A signature only adds nodes**, also when one of its names is refused. By recursion on the signature. -/
theorem Signature.denote_adds (scope : ScopeId) : ∀ signature : Signature, Additive (signature.denote scope)
  | .name id => by
    rw [Signature.denote]
    exact id.denote_adds scope
  | .list _ element => by
    rw [Signature.denote]
    exact (element.denote_adds scope).bind fun _ => .operator _ _
  | .map _ key value => by
    rw [Signature.denote]
    exact (key.denote_adds scope).bind fun _ => (value.denote_adds scope).bind fun _ => .operator _ _
  | .tuple _ elements => by
    rw [Signature.denote]
    exact (denoteAll_adds scope elements).bind fun _ => .operator _ _
  | .function _ params result => by
    rw [Signature.denote]
    exact (denoteAll_adds scope params).bind fun _ => (result.denote_adds scope).bind fun _ => .operator _ _

theorem denoteAll_adds (scope : ScopeId) : ∀ signatures : List Signature, Additive (denoteAll scope signatures)
  | [] => .pure []
  | signature :: rest => by
    rw [denoteAll]
    exact (signature.denote_adds scope).bind fun _ => (denoteAll_adds scope rest).bind fun _ => .pure _

end

theorem denoteOrNew_quiet (scope : ScopeId) : ∀ signature : Option Signature,
    Quiet (denoteOrNew scope signature) fun _ => True
  | some signature => (signature.denote_adds scope).quiet
  | none => quiet_create Store.newVar

theorem paramTypes_quiet (scope : ScopeId) : ∀ params : List Param, Quiet (paramTypes scope params) fun _ => True
  | [] => .pure trivial
  | p :: rest => by
    rw [paramTypes]
    exact (denoteOrNew_quiet scope p.signature).bind fun _ _ => (paramTypes_quiet scope rest).bind fun _ _ =>
      .pure trivial

/-! ## Parts of expressions -/

theorem inferUnary_quiet (op : UnaryOp) (operand : TypeId) (span : Span) :
    Quiet (inferUnary op operand span) fun _ => True :=
  (quiet_query _).bind fun _ _ => (quiet_unifyOr _ _ _).bind fun _ _ => .pure trivial

/-- An operator looks at its operands' types and at nothing else. -/
theorem inferBinary_quiet (op : BinaryOp) (left right : TypeId) (span : Span) :
    Quiet (inferBinary op left right span) fun _ => True := by
  refine (quiet_query _).bind fun _ _ => (quiet_query _).bind fun _ _ => ?_
  dsimp only
  split
  · exact (quiet_unifyOr _ _ _).bind fun _ _ => (quiet_unifyOr _ _ _).bind fun _ _ => .pure trivial
  · exact (quiet_unifyOr _ _ _).bind fun _ _ => .pure trivial

/-- Whether a name can be assigned is asked, and answered or refused. -/
theorem assignable_quiet (scope : ScopeId) (target : Ident) : Quiet (assignable scope target) fun _ => True := by
  refine (quiet_resolve scope target).bind fun found _ => ?_
  dsimp only
  split
  · exact .refuse _ _
  · split
    · exact .refuse _ _
    · exact .pure trivial

/-! ## Parts of statements -/

/-- Settling a statement looks up the type of a function's name, to tell which types are pinned from then on, and
    changes nothing in the state. -/
theorem Stmt.settle_quiet (scope : ScopeId) (pins : Pins) (stmt : Stmt) :
    Quiet (stmt.settle scope pins) fun _ => True := by
  unfold Stmt.settle
  split
  · refine (quiet_getLocal scope _).bind fun symbol _ => ?_
    split
    · exact .pure trivial
    · exact .pure trivial
  · exact .pure trivial

theorem inferFields_quiet (scope : ScopeId) : ∀ (seen : List String) (fields : List Field),
    Quiet (inferFields scope seen fields) fun _ => True
  | _, [] => .pure trivial
  | seen, f :: rest => by
    rw [inferFields]
    split
    · exact .refuse _ _
    · exact (f.signature.denote_adds scope).quiet.bind fun _ _ => inferFields_quiet scope _ rest

theorem checkVariants_quiet : ∀ (seen : List String) (variants : List Ident),
    Quiet (checkVariants seen variants) fun _ => True
  | _, [] => .pure trivial
  | seen, v :: rest => by
    rw [checkVariants]
    split
    · exact .refuse _ _
    · exact checkVariants_quiet _ rest

theorem checkJump_quiet (scope : ScopeId) : ∀ label : Option Ident, Quiet (checkJump scope label) fun _ => True
  | none => .pure trivial
  | some label => by
    refine (quiet_resolve scope label).bind fun found _ => ?_
    dsimp only
    split
    · exact .refuse _ _
    · exact .pure trivial

theorem newVars_quiet : ∀ count : Nat, Quiet (newVars count) fun tys => tys.length = count
  | 0 => .pure rfl
  | count + 1 => by
    refine (quiet_create _).bind fun ty _ => (newVars_quiet count).bind fun tys hlength => .pure ?_
    rw [List.length_cons, hlength]

/-- A function has as many parameter types as it has parameters. They are those of its type if that is a function of
    as many parameters already, and new ones otherwise. -/
theorem functionParts_quiet (span : Span) (ty : TypeId) (arity : Nat) :
    Quiet (functionParts span ty arity) fun parts => parts.1.length = arity := by
  refine (quiet_query _).bind fun found _ => ?_
  dsimp only
  split
  · next parts hknown =>
    refine .pure ?_
    split at hknown
    · split at hknown
      · next hlength =>
        obtain ⟨result, -, rfl⟩ := Option.map_eq_some_iff.mp hknown
        rw [List.length_dropLast, hlength, Nat.add_sub_cancel]
      · cases hknown
    · cases hknown
  · exact (newVars_quiet arity).bind fun params hlength => (quiet_create _).bind fun _ _ =>
      (quiet_create _).bind fun _ _ => (quiet_unify _ _ _).bind fun _ _ => .pure hlength

end TypeInference
