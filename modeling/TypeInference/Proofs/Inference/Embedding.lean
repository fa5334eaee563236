import TypeInference.Proofs.Inference.Parallel
import TypeInference.Proofs.Scope.Renaming
import TypeInference.Proofs.Ty.Renaming

/-!
# `Proofs.Inference.Embedding` — one run of inference inside another

An `Embedding` puts a renaming of types and an overlay of scopes together: the state of one run is found again
in the state of another that knows more types, more global names and more scopes. A computation is *replayed*
when, from related states, the other run does the same with the corresponding types whenever the first one ends.
There is one lemma for each step of `Inference.State` and `Inference.Operation`.

## Contents
* `Embedding`, `Embedding.Relates`, `Embedding.Replays` — related states and replayed computations;
* `create_replays`, `instantiate_replays`, `unify_replays` — steps on the store;
* `resolve_replays`, `setType_replays`, `declaredType_replays` — steps on the scopes;
* `inferBinary_replays`, `access_replays` — operations;
* `Embedding.parallel` — signatures and declarations.
-/

namespace TypeInference

open InferM

/-! ## Related states -/

/-- The same open function under another type number; whether it has returned stays. -/
def Frame.rename (f : TypeId → TypeId) (frame : Frame) : Frame := { frame with result := f frame.result }

/-- How the types and the scopes of one run are found again in another: a renaming and an overlay, which know
    nothing of each other. -/
structure Embedding extends Renaming, Overlay

namespace Embedding

/-- The state `t` has what the state `s` has, under other type numbers. What else `t` has, foreign types and the
    overlay, is of no use to a run that starts from `s`. -/
structure Relates (E : Embedding) (s t : Inference) : Prop where
  types : E.Carries s.types t.types
  scopes : E.Embeds E.apply s.scopes t.scopes
  frames : t.frames = s.frames.map (Frame.rename E.apply)

/-- From related states, `m'` does what `m` does, if `m` ends. What happens when `m` stops is not asked, as only
    accepted programs are compared. -/
abbrev Replays {α α' : Type} (E : Embedding) (m : InferM α) (m' : InferM α') (Q : α → α' → Prop) : Prop :=
  Mirrors E.Relates m m' Q

variable {E : Embedding} {α α' : Type} {s t : Inference}

/-! ## Steps on the store -/

/-- An answer to a question about the state is the same, or corresponds, on both sides. -/
theorem answer_replays {ask : Inference → Except (Halt Diagnostic) α} {ask' : Inference → Except (Halt Diagnostic) α'}
    {Q : α → α' → Prop} (h : ∀ s t, E.Relates s t → ∀ a, ask s = .ok a → ∃ a', ask' t = .ok a' ∧ Q a a') :
    E.Replays (do answer (ask (← get))) (do answer (ask' (← get))) Q := by
  intro s t hst a s' hrun
  replace hrun : answer (ask s) s = .ok a s' := hrun
  show ∃ a' t', answer (ask' t) t = .ok a' t' ∧ _
  cases hask : ask s with
  | error reason => rw [hask] at hrun; cases hrun
  | ok found =>
    rw [hask] at hrun
    cases hrun
    obtain ⟨a', ha', hQ⟩ := h s t hst a hask
    exact ⟨a', t, by rw [ha']; rfl, hst, hQ⟩

theorem query_replays {ask : Store → Except Fault α} {ask' : Store → Except Fault α'} {Q : α → α' → Prop}
    (h : ∀ s t, E.Carries s t → ∀ a, ask s = .ok a → ∃ a', ask' t = .ok a' ∧ Q a a') :
    E.Replays (query ask) (query ask') Q :=
  answer_replays fun s t hst a ha => by
    obtain ⟨a', ha', hQ⟩ := h _ _ hst.types a (Halt.ofQuery_eq_ok.mp ha)
    exact ⟨a', Halt.ofQuery_eq_ok.mpr ha', hQ⟩

/-- **A new type** on both sides: the next numbers correspond, and so do the parts that the types are made of. -/
theorem create_replays {make make' : Store → TypeId × Store} (node : Node)
    (hmake : ∀ s, make s = s.allocate node) (hmake' : ∀ s, make' s = s.allocate (node.rename E.apply)) :
    E.Replays (create make) (create make') fun ty ty' => ty' = E.apply ty := by
  intro s t hst ty s' hrun
  rw [create_run, hmake] at hrun
  cases hrun
  refine ⟨_, _, create_run make' t, ⟨?_, hst.scopes, hst.frames⟩, ?_⟩
  · rw [hmake']
    exact hst.types.allocate node
  · rw [hmake']
    exact hst.types.next.symm

theorem newVar_replays : E.Replays (create Store.newVar) (create Store.newVar) fun ty ty' => ty' = E.apply ty :=
  create_replays (.var none) (fun _ => rfl) fun _ => rfl

/-- A new constructor around corresponding components. -/
theorem operator_replays (con : Constructor) (args : List TypeId) :
    E.Replays (create (Store.operator con args)) (create (Store.operator con (args.map E.apply)))
      fun ty ty' => ty' = E.apply ty :=
  create_replays (.op con args) (fun _ => rfl) fun _ => rfl

theorem function_replays (params : List TypeId) (result : TypeId) :
    E.Replays (create (Store.function params result))
      (create (Store.function (params.map E.apply) (E.apply result))) fun ty ty' => ty' = E.apply ty := by
  have h := operator_replays (E := E) .function (params ++ [result])
  rwa [List.map_append] at h

/-- **An instance** on both sides. The second run may have pinned foreign types as well. -/
theorem instantiate_replays {pinned pinned' : List TypeId} (hpins : E.Pins pinned pinned') (ty : TypeId) :
    E.Replays (instantiate pinned ty) (instantiate pinned' (E.apply ty)) fun copy copy' => copy' = E.apply copy := by
  intro s t hst copy s' hrun
  rw [instantiate_run] at hrun
  rw [instantiate_run]
  cases hmade : s.types.instantiate pinned ty with
  | error fault => rw [hmade] at hrun; cases hrun
  | ok made =>
    obtain ⟨made, types⟩ := made
    rw [hmade] at hrun
    cases hrun
    obtain ⟨types', hmade', hcarries⟩ := hst.types.instantiate hpins hmade
    rw [hmade']
    exact ⟨_, _, rfl, ⟨hcarries, hst.scopes, hst.frames⟩, rfl⟩

/-- **Unification** on both sides; only its success is followed, so refusals may differ. -/
theorem unifyOr_replays (refusal refusal' : Clash → Diagnostic) (a b : TypeId) :
    E.Replays (unifyOr refusal a b) (unifyOr refusal' (E.apply a) (E.apply b)) fun _ _ => True := by
  intro s t hst _ s' hrun
  obtain ⟨types, hunify, rfl⟩ := exists_of_unifyOr_eq_ok hrun
  obtain ⟨_, types', hunify', hcarries, -⟩ := Store.unify_mirrors a b s.types t.types hst.types () types hunify
  exact ⟨(), { t with types := types' }, unifyOr_of_ok hunify', ⟨hcarries, hst.scopes, hst.frames⟩, trivial⟩

theorem unify_replays (span : Span) (a b : TypeId) :
    E.Replays (unify span a b) (unify span (E.apply a) (E.apply b)) fun _ _ => True :=
  unifyOr_replays _ _ a b

/-- The primitive types have the same numbers on both sides, so what is unified with one of them may be written
    alike. -/
theorem unifyOr_primitive_replays (refusal refusal' : Clash → Diagnostic) (a : TypeId) {b : TypeId}
    (hb : b.index < Store.initial.size) :
    E.Replays (unifyOr refusal a b) (unifyOr refusal' (E.apply a) b) fun _ _ => True := by
  have h := unifyOr_replays (E := E) refusal refusal' a b
  rwa [E.primitive hb] at h

/-! ## Steps on the scopes -/

theorem requireScope_replays (mark : Mark) :
    E.Replays (requireScope mark) (requireScope mark) fun scope scope' => scope' = scope ∧ mark.scope = some scope := by
  unfold requireScope
  cases mark.scope with
  | some scope => exact .pure ⟨rfl, rfl⟩
  | none => exact .throw

/-- A name that is found means the same symbol. It is no added one, and none of the global scope if it has no type. -/
theorem resolve_replays (scope : ScopeId) (name : Ident) :
    E.Replays (resolve scope name) (resolve scope name) fun found found' =>
      found' = (found.1, found.2.rename E.apply) ∧ E.Owns found.1 name.name ∧
        (found.2.ty = none → E.Lacks found.1 name.name) :=
  answer_replays fun s t hst found hfound => by
    cases hlookup : s.scopes.lookup scope name.name with
    | error fault => rw [Scopes.resolve, hlookup] at hfound; cases hfound
    | ok result =>
      cases result with
      | none => rw [Scopes.resolve, hlookup] at hfound; cases hfound
      | some result =>
        rw [Scopes.resolve, hlookup] at hfound
        cases hfound
        obtain ⟨owner, symbol⟩ := found
        obtain ⟨symbol', hlookup', hsymbol⟩ := Scopes.lookup_of_sameShape (.refl _) hlookup
        obtain rfl : symbol' = symbol := by
          rw [hlookup] at hlookup'
          cases hlookup'
          rfl
        refine ⟨_, by rw [Scopes.resolve, hst.scopes.lookup hlookup]; rfl, rfl, hst.scopes.owns hsymbol,
          fun hty => hst.scopes.lacks ?_⟩
        rw [hsymbol, Option.bind_some, hty]

/-- The symbol that a scope itself has. For a global name its kind and type are also among the facts that are held. -/
theorem getLocal_replays {scope : ScopeId} {name : String} (hname : E.Owns scope name) :
    E.Replays (getLocal scope name) (getLocal scope name) fun found found' =>
      found' = found.map (Symbol.rename E.apply) ∧ (found.bind Symbol.ty = none → E.Lacks scope name) ∧
        (scope = E.global → found.map (fun symbol => (symbol.kind, symbol.ty)) = E.held.lookup name) :=
  answer_replays fun s t hst found hfound => by
    have hfound := Halt.ofQuery_eq_ok.mp hfound
    have hlt : scope.index < s.scopes.size := by
      rw [Scopes.getLocal, Scopes.table] at hfound
      cases hget : s.scopes.get scope with
      | error fault => rw [hget] at hfound; cases hfound
      | ok there => exact Scopes.lt_of_scopeAt (Scopes.get_eq_ok_iff_scopeAt.mp hget)
    obtain rfl : s.scopes.symbolAt scope name = found :=
      Except.ok.inj ((Scopes.getLocal_eq_ok hlt).symm.trans hfound)
    refine ⟨_, Halt.ofQuery_eq_ok.mpr (Scopes.getLocal_eq_ok (hlt.trans_le hst.scopes.size_le)),
      hst.scopes.symbolAt hlt hname, hst.scopes.lacks, ?_⟩
    rintro rfl
    obtain ⟨table, htable, hheld⟩ := hst.scopes.global
    rw [← hheld, Table.lookup_facts, Scopes.symbolAt, htable, Option.bind_some]

/-- A change of a symbol that leaves the facts alone. -/
theorem update_replays {scope : ScopeId} {name : String} {change change' : Symbol → Symbol}
    (hchange : ∀ symbol, change' (symbol.rename E.apply) = (change symbol).rename E.apply)
    (hname : E.Owns scope name)
    (hfacts : scope = E.global → ∀ table : Table, table.facts = E.held →
      (table.update name change).facts = E.held) :
    E.Replays (update scope name change) (update scope name change') fun _ _ => True := by
  intro s t hst _ s' hrun
  rw [update_run] at hrun
  rw [update_run]
  cases hupdate : s.scopes.update scope name change with
  | error fault => rw [hupdate] at hrun; cases hrun
  | ok scopes =>
    rw [hupdate] at hrun
    cases hrun
    obtain ⟨scopes', hupdate', hembeds⟩ := hst.scopes.update hchange hname hfacts hupdate
    rw [hupdate']
    exact ⟨_, _, rfl, ⟨hst.types, hembeds, hst.frames⟩, trivial⟩

/-- The type of a name may be recorded unless the name is a global one, for those have types already. -/
theorem setType_replays {scope : ScopeId} {name : String} (hname : E.Owns scope name)
    (hlacks : E.Lacks scope name) (ty : TypeId) :
    E.Replays (setType scope name ty) (setType scope name (E.apply ty)) fun _ _ => True := by
  refine update_replays (fun _ => rfl) hname fun hglobal table hheld => ?_
  rw [Table.update_eq_self, hheld]
  rintro entry hentry rfl
  exact hlacks hglobal (entry.1, entry.2.kind, entry.2.ty) (hheld ▸ List.mem_map.mpr ⟨entry, hentry, rfl⟩) rfl

/-- A name gets a value, which is no matter of the facts. -/
theorem initialize_replays {scope : ScopeId} {name : String} (hname : E.Owns scope name) :
    E.Replays (update scope name ({ · with initialized := true }))
      (update scope name ({ · with initialized := true })) fun _ _ => True :=
  update_replays (fun _ => rfl) hname fun _ table hheld => by
    have hfacts : (table.update name ({ · with initialized := true })).facts = table.facts :=
      Table.facts_update fun _ => ⟨rfl, rfl⟩
    exact hfacts.trans hheld

/-- The type of a name is the corresponding one, or a new variable on both sides. -/
theorem typeOf_replays {scope : ScopeId} {name : String} (hname : E.Owns scope name) {ty : Option TypeId}
    (hlacks : ty = none → E.Lacks scope name) :
    E.Replays (typeOf scope name ty) (typeOf scope name (ty.map E.apply)) fun ty ty' => ty' = E.apply ty := by
  cases ty with
  | some ty => exact .pure rfl
  | none =>
    refine newVar_replays.bind ?_
    rintro ty _ rfl
    exact (setType_replays hname (hlacks rfl) ty).bind fun _ _ _ => .pure rfl

theorem declaredType_replays {scope : ScopeId} {name : String} (hname : E.Owns scope name) :
    E.Replays (declaredType scope name) (declaredType scope name) fun ty ty' => ty' = E.apply ty := by
  refine (getLocal_replays hname).bind ?_
  rintro found _ ⟨rfl, hlacks, -⟩
  have h := typeOf_replays hname hlacks
  rwa [show (found.bind Symbol.ty).map E.apply = (found.map (Symbol.rename E.apply)).bind Symbol.ty by
    cases found <;> rfl] at h

/-! ## Steps on the open functions -/

/-- The body of a function is replayed inside corresponding functions, and returns on both sides or on neither. -/
theorem withFrame_replays {result : TypeId} {body : InferM α} {body' : InferM α'} {Q : α → α' → Prop}
    (h : E.Replays body body' Q) :
    E.Replays (withFrame result body) (withFrame (E.apply result) body') fun returned returned' =>
      returned' = returned := by
  intro s t hst returned s' hrun
  unfold withFrame at hrun
  split at hrun
  · next a s₁ hbody =>
    cases hrun
    have hinner : E.Relates { s with frames := ⟨result, false⟩ :: s.frames }
        { t with frames := ⟨E.apply result, false⟩ :: t.frames } :=
      ⟨hst.types, hst.scopes, by rw [hst.frames]; rfl⟩
    obtain ⟨a', t₁, hbody', hst₁, -⟩ := h _ _ hinner _ _ hbody
    refine ⟨hasReturned t₁.frames, { t₁ with frames := t₁.frames.tail }, withFrame_of_ok hbody',
      ⟨hst₁.types, hst₁.scopes, ?_⟩, ?_⟩
    · rw [hst₁.frames, ← List.map_tail]
    · rw [hst₁.frames]
      cases s₁.frames <;> rfl
  · cases hrun

theorem expectedResult?_replays :
    E.Replays expectedResult? expectedResult? fun expected expected' => expected' = expected.map E.apply := by
  rintro s t hst _ _ ⟨⟩
  refine ⟨_, t, rfl, hst, ?_⟩
  rw [hst.frames]
  cases s.frames <;> rfl

theorem markReturned_replays : E.Replays markReturned markReturned fun _ _ => True := by
  rintro ⟨types, scopes, frames⟩ ⟨types', scopes', frames'⟩ ⟨htypes, hscopes, hframes⟩ _ _ ⟨⟩
  obtain rfl : frames' = frames.map (Frame.rename E.apply) := hframes
  refine ⟨(), _, rfl, ?_, trivial⟩
  cases frames with
  | nil => exact ⟨htypes, hscopes, rfl⟩
  | cons frame frames => exact ⟨htypes, hscopes, rfl⟩

/-! ## Operations -/

theorem display_replays (ty : TypeId) :
    E.Replays (query (·.display ty)) (query (·.display (E.apply ty))) fun _ _ => True :=
  query_replays fun _ _ hst _ htext => (hst.exists_display htext).imp fun _ h => ⟨h, trivial⟩

theorem inferUnary_replays (op : UnaryOp) (operand : TypeId) (span : Span) :
    E.Replays (inferUnary op operand span) (inferUnary op (E.apply operand) span) fun ty ty' => ty' = E.apply ty := by
  have htype : op.type.index < Store.initial.size := by cases op <;> decide
  refine (display_replays operand).bind fun _ _ _ => ?_
  exact (unifyOr_primitive_replays _ _ operand htype).bind fun _ _ _ => .pure (E.primitive htype).symm

theorem inferBinary_replays (op : BinaryOp) (left right : TypeId) (span : Span) :
    E.Replays (inferBinary op left right span) (inferBinary op (E.apply left) (E.apply right) span)
      fun ty ty' => ty' = E.apply ty := by
  have hresult : op.resultType.index < Store.initial.size := by cases op <;> decide
  refine (display_replays left).bind fun _ _ _ => ?_
  refine (display_replays right).bind fun _ _ _ => ?_
  cases hoperand : op.operandType? with
  | some expected =>
    have hexpected : expected.index < Store.initial.size := by
      cases op <;> cases hoperand <;> decide
    refine (unifyOr_primitive_replays _ _ left hexpected).bind fun _ _ _ => ?_
    exact (unifyOr_primitive_replays _ _ right hexpected).bind fun _ _ _ => .pure (E.primitive hresult).symm
  | none => exact (unifyOr_replays _ _ left right).bind fun _ _ _ => .pure (E.primitive hresult).symm

theorem refuseShowing_ne_ok {cause : String → Cause} {ty : TypeId} {span : Span} {types : Store} {a : α} :
    (types.refuseShowing cause ty span : Except (Halt Diagnostic) α) ≠ .ok a := by
  unfold Store.refuseShowing
  cases types.display ty <;> exact fun h => nomatch h

/-! ### Components -/

/-- **A component that is found** corresponds to one that is found: both accesses see the same constructor and make
    the same comparison. -/
theorem access_eq_ok {types types' : Store} (h : E.Carries types types') {left index ty : TypeId}
    {span indexSpan : Span} (hs : types.access left index span indexSpan = .ok ty) :
    types'.access (E.apply left) (E.apply index) span indexSpan = .ok (E.apply ty) := by
  obtain ⟨found, hfound, hs⟩ := exists_of_bind_eq_ok hs
  have hfound' := Halt.ofQuery_eq_ok.mpr (h.operator? (Halt.ofQuery_eq_ok.mp hfound))
  rw [Store.access, hfound', ok_bind]
  match found with
  | some (.string, args) =>
    cases hs
    exact congrArg Except.ok (E.primitive (by decide)).symm
  | some (.list, [element]) =>
    obtain ⟨isNumber, hnumber, hs⟩ := exists_of_bind_eq_ok hs
    have hnumber' := Halt.ofQuery_eq_ok.mpr (h.hasConstructor (Halt.ofQuery_eq_ok.mp hnumber))
    cases isNumber with
    | true =>
      cases hs
      simp [hnumber']
    | false => exact absurd hs refuseShowing_ne_ok
  | some (.map, [key, value]) =>
    obtain ⟨isKey, hkey, hs⟩ := exists_of_bind_eq_ok hs
    have hkey' := Halt.ofQuery_eq_ok.mpr (h.same (Halt.ofQuery_eq_ok.mp hkey))
    cases isKey with
    | true =>
      cases hs
      simp [hkey']
    | false =>
      obtain ⟨expected, -, hs⟩ := exists_of_bind_eq_ok hs
      exact absurd hs refuseShowing_ne_ok
  | none | some (.number, _) | some (.bool, _) | some (.unit, _) | some (.list, []) | some (.list, _ :: _ :: _)
  | some (.map, []) | some (.map, [_]) | some (.map, _ :: _ :: _ :: _) | some (.tuple _, _)
  | some (.function, _) | some (.named _, _) => exact absurd hs refuseShowing_ne_ok

theorem access_replays (left index : TypeId) (span indexSpan : Span) :
    E.Replays (consult (·.access left index span indexSpan))
      (consult (·.access (E.apply left) (E.apply index) span indexSpan)) fun ty ty' => ty' = E.apply ty :=
  answer_replays fun _ _ hst _ hty => ⟨_, access_eq_ok hst.types hty, rfl⟩

/-! ## Signatures and declarations -/

/-- Signatures and declarations are made alike, since new types and the kinds of names correspond. -/
theorem parallel (E : Embedding) (scope : ScopeId) : Parallel E.Relates E.apply (fun _ => True) scope where
  newVar := newVar_replays.mono fun _ _ hty => ⟨hty, trivial⟩
  operator := fun con args _ => (operator_replays con args).mono fun _ _ hty => ⟨hty, trivial⟩
  kind := fun name => (resolve_replays scope name).mono fun _ _ hfound => by rw [hfound.1]; rfl
  primitive := fun {name ty} hty => by
    refine ⟨E.primitive ?_, trivial⟩
    unfold primitive? at hty
    split at hty <;> cases hty <;> decide

/-- In a scope other than the global one all types may be recorded. -/
theorem records {own : ScopeId} (h : own ≠ E.global) (names : List String) :
    Parallel.Records E.Relates E.apply (fun _ => True) own names :=
  fun _ _ ty _ => setType_replays (fun he => absurd he h) (fun he => absurd he h) ty

end Embedding

end TypeInference
