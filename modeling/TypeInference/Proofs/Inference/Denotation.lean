import TypeInference.Inference.Statement
import TypeInference.Proofs.Run
import TypeInference.Proofs.Scoping.Mentions

/-!
# `Proofs.Inference.Denotation` — when signatures have types

Whether a signature has a type depends on the names in it alone: each of them has to be a primitive type or mean a
type where the signature is looked up. The first one, from left to right, that does not is the reason for the refusal.
Nothing else can go wrong, whatever the store of types looks like, so the lists of signatures that stand at
declarations are refused exactly at the first improper mention as well.

## Contents
* `Chain.resolve_eq_ok`, `Chain.resolve_eq_error` — the meaning of a name, told from the layers around;
* `Decided` — a computation that the mentions in it decide;
* `Ident.denote_decided`, `Signature.denote_decided` — signatures;
* `typeParams_decided`, `paramTypes_decided`, `predeclareAll_decided` — the signatures of declarations.
-/

namespace TypeInference

open Scopes InferM

variable {g : Scopes} {id : ScopeId} {layers : List Layer} {s : Inference}

/-! ## The meaning of a name -/

namespace Scopes.Chain

/-- What a name means while the shape of the arena stays is what the layers say: it is undefined in both, or it is
    found in both and of one kind. -/
theorem resolve_cases (hc : g.Chain id (layers.map Layer.table)) (ho : g.Ordered) (hs : SameShape g s.scopes)
    (name : Ident) :
    (declarationOf layers name.name = none ∧
        InferM.resolve id name s = .error (.failure ⟨.undefined name.name, name.span⟩) s) ∨
      ∃ layer symbol found, declarationOf layers name.name = some (layer, symbol) ∧
        InferM.resolve id name s = .ok found s ∧ found.2.kind = symbol.kind := by
  obtain ⟨found, hlookup, hinner⟩ := hc.lookup_eq_ok ho name.name
  have hdecl := (map_declarationOf layers name.name).trans hinner.findSome?_eq
  cases found with
  | none =>
    refine .inl ⟨Option.map_eq_none_iff.mp hdecl, ?_⟩
    -- A name that the arena has now it had before.
    obtain ⟨found', hlookup', -⟩ :=
      @Scopes.lookup_eq_ok s.scopes id name.name (hs.ordered ho) (hs.size_eq.symm ▸ hc.lt)
    cases found' with
    | none => rw [resolve_run, Scopes.resolve, hlookup']; rfl
    | some found' =>
      obtain ⟨symbol, hback, -⟩ := lookup_of_sameShape hs.symm hlookup'
      cases hlookup.symm.trans hback
  | some found =>
    obtain ⟨⟨layer, symbol⟩, hdecl, rfl⟩ := Option.map_eq_some_iff.mp hdecl
    obtain ⟨symbol', hlookup', hsymbol'⟩ := lookup_of_sameShape hs hlookup
    obtain ⟨symbol'', hsymbol'', hkind⟩ := hs.symbol (symbolAt_of_lookup hlookup)
    obtain rfl : symbol' = symbol'' := Option.some.inj (hsymbol'.symm.trans hsymbol'')
    exact .inr ⟨layer, _, (found.1, symbol'), hdecl, by rw [resolve_run, Scopes.resolve, hlookup']; rfl, hkind⟩

variable {name : Ident} {fits : SymbolKind → Bool} {cause : SymbolKind → String → Cause}

/-- A name that is not refused is found, and is of a kind that fits. -/
theorem resolve_eq_ok (hc : g.Chain id (layers.map Layer.table)) (ho : g.Ordered) (hs : SameShape g s.scopes)
    (h : nameRefusal? layers name fits cause = none) :
    ∃ found, InferM.resolve id name s = .ok found s ∧ fits found.2.kind = true := by
  obtain ⟨layer, symbol, hdecl, hfits⟩ := nameRefusal?_eq_none_iff.mp h
  rcases resolve_cases hc ho hs name with ⟨hnone, -⟩ | ⟨layer', symbol', found, hsome, hrun, hkind⟩
  · cases hdecl.symm.trans hnone
  · cases hdecl.symm.trans hsome
    exact ⟨found, hrun, hkind ▸ hfits⟩

/-- A name that is refused is not found, or is found and of another kind. In the second case it is the computation
    that asked for the name which refuses it, with the cause given here. -/
theorem resolve_eq_error (hc : g.Chain id (layers.map Layer.table)) (ho : g.Ordered) (hs : SameShape g s.scopes)
    {diagnostic : Diagnostic} (h : nameRefusal? layers name fits cause = some diagnostic) :
    InferM.resolve id name s = .error (.failure diagnostic) s ∨
      ∃ found, InferM.resolve id name s = .ok found s ∧ fits found.2.kind = false ∧
        diagnostic = ⟨cause found.2.kind name.name, name.span⟩ := by
  unfold nameRefusal? at h
  rcases resolve_cases hc ho hs name with ⟨hnone, hrun⟩ | ⟨layer, symbol, found, hsome, hrun, hkind⟩
  · rw [hnone] at h
    cases h
    exact .inl hrun
  · rw [hsome] at h
    dsimp only at h
    split at h
    · cases h
    · next hmisfit =>
      cases h
      exact .inr ⟨found, hrun, by rw [hkind]; exact Bool.eq_false_iff.mpr hmisfit, by rw [hkind]⟩

end Scopes.Chain

/-! ## Computations that their mentions decide -/

/-- A computation that makes types and records them, and asks for nothing but what names mean: in every state with
    the shape of the arena it ends, or is refused at the first mention that is. The store of types plays no part in
    which of the two it is. -/
structure Decided {α : Type} (g : Scopes) (m : InferM α) (mentions : List Mention) : Prop where
  ends : mentions.findSome? Mention.refusal? = none → ∀ s : Inference, SameShape g s.scopes →
    ∃ a s', m s = .ok a s' ∧ SameShape s.scopes s'.scopes ∧ s'.frames = s.frames
  stops : ∀ diagnostic, mentions.findSome? Mention.refusal? = some diagnostic → ∀ s : Inference,
    SameShape g s.scopes →
      ∃ s', m s = .error (.failure diagnostic) s' ∧ SameShape s.scopes s'.scopes ∧ s'.frames = s.frames

namespace Decided

variable {α β : Type} {m : InferM α} {next : α → InferM β} {mentions more : List Mention}

/-! ### Putting decided computations together -/

theorem pure (a : α) : Decided g (pure a : InferM α) [] :=
  ⟨fun _ s _ => ⟨a, s, rfl, .refl _, rfl⟩, fun _ h => nomatch h⟩

/-- Computations in sequence are decided by their mentions in sequence: the first refusal is that of the first
    computation, if it has one. -/
theorem bind (h : Decided g m mentions) (hnext : ∀ a, Decided g (next a) more) :
    Decided g (m >>= next) (mentions ++ more) := by
  refine ⟨fun hnone s hs => ?_, fun diagnostic hsome s hs => ?_⟩
  · rw [List.findSome?_append, Option.or_eq_none_iff] at hnone
    obtain ⟨a, s₁, hrun, hshape, hframes⟩ := h.ends hnone.1 s hs
    obtain ⟨b, s₂, hrun', hshape', hframes'⟩ := (hnext a).ends hnone.2 s₁ (hs.trans hshape)
    exact ⟨b, s₂, (run_bind_of_ok hrun).trans hrun', hshape.trans hshape', hframes'.trans hframes⟩
  · rw [List.findSome?_append] at hsome
    cases hfirst : mentions.findSome? Mention.refusal? with
    | some earlier =>
      rw [hfirst, Option.some_or] at hsome
      obtain ⟨s₁, hrun, hshape, hframes⟩ := h.stops _ (hfirst.trans hsome) s hs
      exact ⟨s₁, run_bind_of_error hrun, hshape, hframes⟩
    | none =>
      rw [hfirst, Option.none_or] at hsome
      obtain ⟨a, s₁, hrun, hshape, hframes⟩ := h.ends hfirst s hs
      obtain ⟨s₂, hrun', hshape', hframes'⟩ := (hnext a).stops _ hsome s₁ (hs.trans hshape)
      exact ⟨s₂, (run_bind_of_ok hrun).trans hrun', hshape.trans hshape', hframes'.trans hframes⟩

/-- A step after which no name is mentioned any more. -/
theorem then_ (h : Decided g m mentions) (hnext : ∀ a, Decided g (next a) []) : Decided g (m >>= next) mentions := by
  rw [← List.append_nil mentions]
  exact h.bind hnext

theorem create (make : Store → TypeId × Store) : Decided g (create make) [] :=
  ⟨fun _ s _ => ⟨_, _, create_run make s, .refl _, rfl⟩, fun _ h => nomatch h⟩

/-- A type can be recorded in a scope that is there. -/
theorem setType {own : ScopeId} (hown : own.index < g.size) (name : String) (ty : TypeId) :
    Decided g (setType own name ty) [] := by
  refine ⟨fun _ s hs => ?_, fun _ h => nomatch h⟩
  obtain ⟨scopes, hupdate⟩ : ∃ scopes, s.scopes.update own name ({ · with ty := some ty }) = .ok scopes :=
    exists_mapTable (hs.size_eq.symm ▸ hown) _
  exact ⟨(), { s with scopes }, (update_run _ _ _ _).trans (by rw [hupdate]; rfl),
    sameShape_of_update hupdate fun _ => rfl, rfl⟩

end Decided

/-! ## Signatures -/

/-- The mentions of names in sequence are those of the first names, and then those of the others. -/
theorem typeMentions_append (layers : List Layer) (names more : List Ident) :
    typeMentions layers (names ++ more) = typeMentions layers names ++ typeMentions layers more :=
  List.map_append

/-- **A written name** is refused exactly if it is neither a primitive type nor means a type. -/
theorem Ident.denote_decided (hc : g.Chain id (layers.map Layer.table)) (ho : g.Ordered) (name : Ident) :
    Decided g (name.denote id) (typeMentions layers [name]) := by
  have hsingle : (typeMentions layers [name]).findSome? Mention.refusal? = (Mention.type name layers).refusal? := by
    rw [typeMentions, List.map_singleton, List.findSome?_singleton]
  unfold Ident.denote
  refine ⟨fun hnone s hs => ?_, fun diagnostic hsome s hs => ?_⟩
  · rw [hsingle, Mention.refusal?] at hnone
    cases hprimitive : primitive? name.name with
    | some ty => exact ⟨ty, s, rfl, .refl _, rfl⟩
    | none =>
      rw [hprimitive] at hnone
      obtain ⟨found, hrun, htype⟩ := hc.resolve_eq_ok ho hs hnone
      refine ⟨_, _, (run_bind_of_ok hrun).trans ((congrFun (if_pos htype) s).trans (create_run _ s)), .refl _, rfl⟩
  · rw [hsingle, Mention.refusal?] at hsome
    cases hprimitive : primitive? name.name with
    | some ty =>
      rw [hprimitive] at hsome
      cases hsome
    | none =>
      rw [hprimitive] at hsome
      rcases hc.resolve_eq_error ho hs hsome with hrun | ⟨found, hrun, hmisfit, rfl⟩
      · exact ⟨s, run_bind_of_error hrun, .refl _, rfl⟩
      · refine ⟨s, (run_bind_of_ok hrun).trans ?_, .refl _, rfl⟩
        simp only [hmisfit, Bool.false_eq_true, ↓reduceIte]
        exact refuse_run _ _ s

mutual

/-- **A signature** is refused exactly at its first name that is no type. By recursion on the signature, along the
    list of its names. -/
theorem Signature.denote_decided (hc : g.Chain id (layers.map Layer.table)) (ho : g.Ordered) : ∀ signature : Signature,
    Decided g (signature.denote id) (typeMentions layers signature.names)
  | .name name => by
    rw [Signature.denote, Signature.names]
    exact name.denote_decided hc ho
  | .list _ element => by
    rw [Signature.denote, Signature.names]
    exact (element.denote_decided hc ho).then_ fun _ => .create _
  | .map _ key value => by
    rw [Signature.denote, Signature.names, typeMentions_append]
    exact (key.denote_decided hc ho).bind fun _ => (value.denote_decided hc ho).then_ fun _ => .create _
  | .tuple _ elements => by
    rw [Signature.denote, Signature.names]
    exact (denoteAll_decided hc ho elements).then_ fun _ => .create _
  | .function _ params result => by
    rw [Signature.denote, Signature.names, typeMentions_append]
    exact (denoteAll_decided hc ho params).bind fun _ => (result.denote_decided hc ho).then_ fun _ => .create _

theorem denoteAll_decided (hc : g.Chain id (layers.map Layer.table)) (ho : g.Ordered) : ∀ signatures : List Signature,
    Decided g (denoteAll id signatures) (typeMentions layers (namesOfAll signatures))
  | [] => by
    rw [denoteAll, namesOfAll]
    exact .pure []
  | signature :: rest => by
    rw [denoteAll, namesOfAll, typeMentions_append]
    exact (signature.denote_decided hc ho).bind fun _ => (denoteAll_decided hc ho rest).then_ fun _ => .pure _

end

/-! ## Declarations -/

section Declarations

variable (hc : g.Chain id (layers.map Layer.table)) (ho : g.Ordered)

include hc ho

/-- A signature that may be absent; without one a variable is made, and nothing can go wrong. -/
theorem denoteOrNew_decided (signature : Option Signature) :
    Decided g (denoteOrNew id signature) (typeMentions layers (writtenNames signature)) := by
  cases signature with
  | none => exact Decided.create Store.newVar
  | some signature => exact signature.denote_decided hc ho

/-- **The parameters of a function** are refused exactly at the first name in a signature that is no type. -/
theorem paramTypes_decided : ∀ params : List Param,
    Decided g (paramTypes id params) (typeMentions layers (Param.writtenNames params))
  | [] => .pure []
  | p :: rest => by
    rw [paramTypes, Param.writtenNames, List.flatMap_cons, typeMentions_append]
    exact (denoteOrNew_decided hc ho p.signature).bind fun _ => (paramTypes_decided rest).then_ fun _ => .pure _

/-- **The parameters of a lambda**, likewise, but in the scope of the lambda, where the parameters themselves are
    declared as well. -/
theorem typeParams_decided : ∀ params : List Param,
    Decided g (typeParams id params) (typeMentions layers (Param.writtenNames params))
  | [] => .pure []
  | p :: rest => by
    rw [typeParams, Param.writtenNames, List.flatMap_cons, typeMentions_append]
    exact (denoteOrNew_decided hc ho p.signature).bind fun ty =>
      (Decided.setType hc.lt p.name.name ty).bind fun _ => (typeParams_decided rest).then_ fun _ => .pure _

/-- The variables of one definition, in their order. -/
theorem predeclareVars_decided : ∀ defs : List VarDef,
    Decided g (predeclareVars id defs) (typeMentions layers (defs.flatMap fun d => writtenNames d.signature))
  | [] => .pure []
  | d :: rest => by
    rw [predeclareVars, List.flatMap_cons, typeMentions_append]
    exact (denoteOrNew_decided hc ho d.signature).bind fun ty =>
      (Decided.setType hc.lt d.name.name ty).bind fun _ => (predeclareVars_decided rest).then_ fun _ => .pure _

/-- **A declaration** is refused exactly at the first name in its signatures that is no type; most statements
    declare nothing and are never refused here. -/
theorem Stmt.predeclare_decided (stmt : Stmt) :
    Decided g (stmt.predeclare id) (typeMentions layers stmt.writtenNames) := by
  have htype : ∀ kind name, Decided g (Declaration.predeclare id (.type kind name)) [] := fun kind name =>
    (Decided.create _).bind fun ty => (Decided.setType hc.lt name.name ty).bind fun _ => .pure _
  cases stmt with
  | vars _ kind defs => exact (predeclareVars_decided hc ho defs).then_ fun _ => .pure _
  | function _ name params result _ =>
    rw [Stmt.writtenNames, typeMentions_append]
    exact (paramTypes_decided hc ho params).bind fun _ => (denoteOrNew_decided hc ho result).then_ fun _ =>
      (Decided.create _).bind fun ty => (Decided.setType hc.lt name.name ty).bind fun _ => .pure _
  | blueprint _ name _ => exact htype .blueprint name
  | trait _ name _ => exact htype .trait name
  | struct _ name _ => exact htype .struct name
  | enum _ name _ => exact htype .enum name
  | label | block | branch | loop | ret | jump | expr => exact .pure _

/-- **The declarations of a list of statements**, likewise. -/
theorem predeclareAll_decided (stmts : List Stmt) :
    Decided g (predeclareAll id stmts) (announcedMentions layers stmts) := by
  induction stmts with
  | nil => exact .pure _
  | cons stmt rest ih =>
    rw [predeclareAll, announcedMentions, List.flatMap_cons, typeMentions_append]
    exact (stmt.predeclare_decided hc ho).bind fun _ => ih.then_ fun _ => .pure _

end Declarations

end TypeInference
