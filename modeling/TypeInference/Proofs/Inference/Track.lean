import TypeInference.Proofs.Inference.Visit
import TypeInference.Proofs.Run
import TypeInference.Proofs.Scope.Chain
import TypeInference.Proofs.Ty.Confinement
import TypeInference.Proofs.Ty.PinnedCopy
import TypeInference.Scope.Declaration

/-!
# `Proofs.Inference.Track` — what every run does to its state

Whatever inference is given and wherever it stops, it only adds: types persist, the scopes keep their shape, a
symbol goes on being what it was declared as, and once it has a value it has one for good. A symbol that has a
type keeps it, too, unless an assignment to it began before it had one; *anchors* are names whose types are known
from the start, and they are out of reach of such assignments.

`Moves` is this relation between states. `Keeps` says that all runs of a computation move along it, and `Tracks`
also that the visits along a run that ends are those to the given expressions, in their order.

## Contents
* `Moves`, `Inference.Anchored` — states on the way, and the names that keep their types;
* `Traced` — the visits of a run that has ended;
* `Keeps`, `Tracks` — computations that can be followed, with `Tracks.visiting`, `Tracks.after` and `Tracks.node`;
* `keeps_create`, `keeps_unify`, `keeps_setType`, … — one lemma for each step.
-/

namespace TypeInference

open Store Scopes InferM

/-! ## States on the way -/

/-- Names together with types that they have for good: whatever inference does, these are not taken away. -/
abbrev Anchors := ScopeId → String → TypeId → Prop

/-- The anchors have their types in the state. -/
def Inference.Anchored (A : Anchors) (s : Inference) : Prop :=
  ∀ ⦃id name ty⦄, A id name ty → s.scopes.typeAt id name = some ty

/-- The anchors stand in scopes before number `n`, so a scope that is opened later has none of them. -/
def Anchors.Below (A : Anchors) (n : Nat) : Prop := ∀ ⦃id name ty⦄, A id name ty → id.index < n

/-- The name of the scope is no anchor, so its type may be recorded. -/
def Anchors.Lacks (A : Anchors) (id : ScopeId) (name : String) : Prop := ∀ ty, ¬ A id name ty

/-- If the name of the scope is an anchor, then it is known to have this type. -/
def Anchors.Agrees (A : Anchors) (id : ScopeId) (name : String) (declared : Option TypeId) : Prop :=
  ∀ ⦃ty⦄, A id name ty → declared = some ty

/-! ### What a run does -/

/-- What a symbol can become: it may get a type, and a value for good. Its kind, whether it can be assigned again,
    and where it was declared stay. -/
structure Symbol.Becomes (symbol symbol' : Symbol) : Prop where
  kind_eq : symbol'.kind = symbol.kind
  mutable_eq : symbol'.mutable = symbol.mutable
  span_eq : symbol'.span = symbol.span
  initialized : symbol.initialized = true → symbol'.initialized = true

/-- What a run does to its state, wherever it stops. The types of names other than anchors are not mentioned, for an
    assignment may give a name a type that is given another one later. -/
structure Moves (A : Anchors) (s s' : Inference) : Prop where
  types : s.types.Persists s'.types
  shape : SameShape s.scopes s'.scopes
  symbol : ∀ {id name symbol}, s.scopes.symbolAt id name = some symbol →
    ∃ symbol', s'.scopes.symbolAt id name = some symbol' ∧ symbol.Becomes symbol'
  anchored : s'.Anchored A

variable {A : Anchors} {s s' s'' : Inference}

theorem Anchors.Agrees.lacks {id : ScopeId} {name : String} (h : A.Agrees id name none) : A.Lacks id name :=
  fun _ hA => nomatch h hA

/-- A symbol that is found has the type that the anchor says. -/
theorem Inference.Anchored.ty_eq (hs : s.Anchored A) {id : ScopeId} {name : String} {symbol : Symbol}
    (hsymbol : s.scopes.symbolAt id name = some symbol) {ty : TypeId} (hA : A id name ty) : symbol.ty = some ty := by
  have htype := hs hA
  rwa [typeAt, hsymbol, Option.bind_some] at htype

theorem Symbol.Becomes.refl (symbol : Symbol) : symbol.Becomes symbol := ⟨rfl, rfl, rfl, id⟩

theorem Symbol.Becomes.trans {symbol symbol' symbol'' : Symbol} (h : symbol.Becomes symbol')
    (h' : symbol'.Becomes symbol'') : symbol.Becomes symbol'' :=
  ⟨h'.kind_eq.trans h.kind_eq, h'.mutable_eq.trans h.mutable_eq, h'.span_eq.trans h.span_eq,
    fun hi => h'.initialized (h.initialized hi)⟩

namespace Moves

theorem refl (h : s.Anchored A) : Moves A s s :=
  ⟨.refl _, .refl _, fun hsymbol => ⟨_, hsymbol, .refl _⟩, h⟩

theorem trans (h : Moves A s s') (h' : Moves A s' s'') : Moves A s s'' where
  types := h.types.trans h'.types
  shape := h.shape.trans h'.shape
  symbol := fun hsymbol => by
    obtain ⟨symbol', hsymbol', hbecomes⟩ := h.symbol hsymbol
    obtain ⟨symbol'', hsymbol'', hbecomes'⟩ := h'.symbol hsymbol'
    exact ⟨symbol'', hsymbol'', hbecomes.trans hbecomes'⟩
  anchored := h'.anchored

theorem of_types {types : Store} {frames : List Frame} (h : s.Anchored A) (hpersists : s.types.Persists types) :
    Moves A s ⟨types, s.scopes, frames⟩ :=
  ⟨hpersists, .refl _, fun hsymbol => ⟨_, hsymbol, .refl _⟩, h⟩

end Moves

/-! ## Traces -/

/-- One expression is visited before another that does not contain it, or is inside it. -/
def Visit.Precedes (A : Anchors) (v w : Visit) : Prop := Moves A v.after w.before ∨ v.expr ∈ w.expr.inner

/-- A visit takes place between two states, with these types pinned at least. That it is a run of inference is one
    of its fields, so that everything proved of such runs holds of it. -/
structure Visit.Between (A : Anchors) (pinned : List TypeId) (s s' : Inference) (v : Visit) : Prop where
  before : Moves A s v.before
  run : v.expr.infer v.pinned v.before = .ok v.type v.after
  moves : Moves A v.before v.after
  after : Moves A v.after s'
  pinned : pinned ⊆ v.pinned

/-- The visits of a run from `s` to `s'` are those to `nodes`, one after another. -/
structure Traced (A : Anchors) (pinned : List TypeId) (s s' : Inference) (nodes : List Expr)
    (visits : List Visit) : Prop where
  listed : visits.map Visit.expr = nodes
  visited : ∀ v ∈ visits, v.Between A pinned s s'
  ordered : visits.Pairwise (Visit.Precedes A)

namespace Traced

variable {pinned pinned' : List TypeId} {nodes nodes' : List Expr} {visits visits' : List Visit}

theorem nil : Traced A pinned s s' [] [] := ⟨rfl, by simp, .nil⟩

theorem pins (h : Traced A pinned' s s' nodes visits) (hsub : pinned ⊆ pinned') :
    Traced A pinned s s' nodes visits :=
  ⟨h.listed, fun v hv => { h.visited v hv with pinned := List.Subset.trans hsub (h.visited v hv).pinned },
    h.ordered⟩

theorem widen {t t' : Inference} (h : Traced A pinned s s' nodes visits) (hbefore : Moves A t s)
    (hafter : Moves A s' t') : Traced A pinned t t' nodes visits :=
  ⟨h.listed, fun v hv => { h.visited v hv with
    before := hbefore.trans (h.visited v hv).before, after := (h.visited v hv).after.trans hafter }, h.ordered⟩

/-- Two runs one after another; every visit of the first precedes every visit of the second. -/
theorem append (h : Traced A pinned s s' nodes visits) (h' : Traced A pinned s' s'' nodes' visits')
    (hs : Moves A s s') (hs' : Moves A s' s'') : Traced A pinned s s'' (nodes ++ nodes') (visits ++ visits') := by
  refine ⟨by rw [List.map_append, h.listed, h'.listed], fun v hv => ?_, ?_⟩
  · rcases List.mem_append.mp hv with hv | hv
    · exact { h.visited v hv with after := (h.visited v hv).after.trans hs' }
    · exact { h'.visited v hv with before := hs.trans (h'.visited v hv).before }
  · refine List.pairwise_append.mpr ⟨h.ordered, h'.ordered, fun v hv w hw => .inl ?_⟩
    exact (h.visited v hv).after.trans (h'.visited w hw).before

/-- The visit to an expression, after those to the expressions inside it. -/
theorem node {e : Expr} {ty : TypeId} (h : Traced A pinned s s' e.inner visits) (hs : s.Anchored A)
    (hmoves : Moves A s s') (hrun : e.infer pinned s = .ok ty s') :
    Traced A pinned s s' (e.inner ++ [e]) (visits ++ e.visit pinned s) := by
  rw [Expr.visit, hrun]
  refine ⟨by rw [List.map_append, h.listed]; rfl, fun v hv => ?_, ?_⟩
  · rcases List.mem_append.mp hv with hv | hv
    · exact h.visited v hv
    · obtain rfl := List.mem_singleton.mp hv
      exact ⟨.refl hs, hrun, hmoves, .refl hmoves.anchored, List.Subset.refl _⟩
  · refine List.pairwise_append.mpr ⟨h.ordered, List.pairwise_singleton _ _, fun v hv w hw => .inr ?_⟩
    obtain rfl := List.mem_singleton.mp hw
    rw [← h.listed]
    exact List.mem_map_of_mem hv

end Traced

/-! ## Computations that can be followed -/

section Combinators

variable {α β : Type}

/-- Every run of the computation from a state that has the anchors moves along, and has a result in `Q` if it ends. -/
def Keeps (A : Anchors) (m : InferM α) (Q : α → Prop) : Prop :=
  ∀ s : Inference, s.Anchored A → Within (Moves A) (fun _ => True) m s fun a _ => Q a

/-- Every such run moves along and, if it ends, its visits are those to `nodes`. -/
def Tracks (A : Anchors) (pinned : List TypeId) (m : InferM α) (visits : Inference → List Visit)
    (nodes : List Expr) : Prop :=
  ∀ s : Inference, s.Anchored A → Within (Moves A) (fun _ => True) m s fun _ s' =>
    Traced A pinned s s' nodes (visits s)

variable {pinned pinned' : List TypeId} {m : InferM α} {next : α → InferM β}
  {visits : Inference → List Visit} {rest : α → Inference → List Visit} {nodes nodes' : List Expr}
  {Q Q' : α → Prop} {P : β → Prop}

/-! ### Computations in sequence -/

theorem Keeps.mono (h : Keeps A m Q') (hQ : ∀ a, Q' a → Q a) : Keeps A m Q :=
  fun s hs => (h s hs).mono fun a _ _ => hQ a

theorem Keeps.pure {a : α} (hQ : Q a) : Keeps A (pure a) Q := fun _ hs => .pure (.refl hs) hQ

theorem Keeps.refuse (cause : Cause) (span : Span) : Keeps A (refuse cause span) Q := fun _ hs =>
  .of_error rfl (.refl hs) trivial

theorem Keeps.bind (h : Keeps A m Q) (hnext : ∀ a, Q a → Keeps A (next a) P) : Keeps A (m >>= next) P :=
  fun s hs => (h s hs).bind .trans fun a s' hmoves hQ => hnext a hQ s' hmoves.anchored

theorem Tracks.pure {a : α} : Tracks A pinned (pure a) unvisited [] := fun _ hs => .pure (.refl hs) .nil

/-- A refusal ends every run, and there are no visits to speak of. -/
theorem Tracks.refuse (cause : Cause) (span : Span) :
    Tracks A pinned (refuse cause span : InferM α) visits nodes := fun _ hs =>
  .of_error rfl (.refl hs) trivial

theorem Keeps.tracks (h : Keeps A m Q) : Tracks A pinned m unvisited [] :=
  fun s hs => (h s hs).mono fun _ _ _ _ => .nil

theorem Tracks.keeps (h : Tracks A pinned m visits nodes) : Keeps A m fun _ => True :=
  fun s hs => (h s hs).mono fun _ _ _ _ => trivial

theorem Tracks.pins (h : Tracks A pinned' m visits nodes) (hsub : pinned ⊆ pinned') :
    Tracks A pinned m visits nodes :=
  fun s hs => (h s hs).mono fun _ _ _ htraced => htraced.pins hsub

/-! ### Visits in sequence -/

/-- Visits, with results to go on with, and further ones in the rest. -/
theorem Tracks.thenVisiting (h : Tracks A pinned m visits nodes) (hm : Keeps A m Q)
    (hnext : ∀ a, Q a → Tracks A pinned (next a) (rest a) nodes') :
    Tracks A pinned (m >>= next) (InferM.visiting visits m rest) (nodes ++ nodes') := by
  intro s hs
  cases hrun : m s with
  | error reason s' => exact .of_error (run_bind_of_error hrun) ((h s hs).error hrun).1 trivial
  | ok a s' =>
    obtain ⟨hmoves, htraced⟩ := (h s hs).ok hrun
    have hrest := hnext a ((hm s hs).ok hrun).2 s' hmoves.anchored
    have hvisits : InferM.visiting visits m rest s = visits s ++ rest a s' := by
      rw [InferM.visiting, after_of_ok hrun]
    cases hrun' : next a s' with
    | error reason s'' =>
      exact .of_error ((run_bind_of_ok hrun).trans hrun') (hmoves.trans (hrest.error hrun').1) trivial
    | ok b s'' =>
      obtain ⟨hmoves', htraced'⟩ := hrest.ok hrun'
      rw [hvisits]
      exact .of_ok ((run_bind_of_ok hrun).trans hrun') (hmoves.trans hmoves') (htraced.append htraced' hmoves hmoves')

/-- **Visits, and further ones in the rest.** -/
theorem Tracks.visiting (h : Tracks A pinned m visits nodes)
    (hnext : ∀ a, Tracks A pinned (next a) (rest a) nodes') :
    Tracks A pinned (m >>= next) (InferM.visiting visits m rest) (nodes ++ nodes') :=
  h.thenVisiting h.keeps fun a _ => hnext a

/-- **A step without visits, and visits in the rest.** -/
theorem Tracks.after (h : Keeps A m Q) (hnext : ∀ a, Q a → Tracks A pinned (next a) (rest a) nodes) :
    Tracks A pinned (m >>= next) (InferM.after m rest) nodes :=
  h.tracks.thenVisiting h hnext

/-- **Visits, and a rest without.** What comes after the visits only has to move along. -/
theorem Tracks.before (h : Tracks A pinned m visits nodes) (hnext : ∀ a, Keeps A (next a) fun _ => True) :
    Tracks A pinned (m >>= next) visits nodes :=
  fun s hs => (h s hs).bind .trans fun a s' hmoves htraced =>
    (hnext a s' hmoves.anchored).mono fun _ _ hmoves' _ => htraced.widen (.refl hs) hmoves'

/-- **An expression**, after those inside it. The visit to the expression itself comes last, when its run has ended. -/
theorem Tracks.node {e : Expr} {inner : List Expr} (he : e.nodes = inner ++ [e])
    (h : Tracks A pinned (e.infer pinned) visits inner) :
    Tracks A pinned (e.infer pinned) (fun s => visits s ++ e.visit pinned s) e.nodes := by
  obtain rfl : e.inner = inner := by rw [Expr.inner, he, List.dropLast_concat]
  intro s hs
  rw [he]
  cases hrun : e.infer pinned s with
  | error reason s' => exact .of_error hrun ((h s hs).error hrun).1 trivial
  | ok ty s' =>
    obtain ⟨hmoves, htraced⟩ := (h s hs).ok hrun
    exact .of_ok hrun hmoves (htraced.node hs hmoves hrun)

end Combinators

/-! ## Steps on the store -/

section Steps

variable {α : Type} {Q : α → Prop} {id scope own : ScopeId} {name : String}

theorem Keeps.answer {m : InferM α} {found : Inference → Except (Halt Diagnostic) α}
    (hm : ∀ s, m s = answer (found s) s) (hQ : ∀ s a, s.Anchored A → found s = .ok a → Q a) : Keeps A m Q := by
  intro s hs
  have hrun := hm s
  cases hfound : found s with
  | ok a => exact .of_ok (hrun.trans (by rw [hfound]; rfl)) (.refl hs) (hQ s a hs hfound)
  | error reason => exact .of_error (hrun.trans (by rw [hfound]; rfl)) (.refl hs) trivial

theorem keeps_query (ask : Store → Except Fault α) : Keeps A (query ask) fun _ => True :=
  .answer (query_run ask) fun _ _ _ _ => trivial

theorem keeps_consult (ask : Store → Except (Halt Diagnostic) α) : Keeps A (consult ask) fun _ => True :=
  .answer (consult_run ask) fun _ _ _ _ => trivial

theorem keeps_create {make : Store → TypeId × Store} (hmake : ∀ s, ∃ node, make s = s.allocate node) :
    Keeps A (create make) fun _ => True := by
  intro s hs
  obtain ⟨node, hnode⟩ := hmake s.types
  exact .of_ok (create_run make s) (.of_types hs (hnode ▸ .allocate _ _)) trivial

theorem keeps_newVar : Keeps A (create Store.newVar) fun _ => True := keeps_create fun _ => ⟨_, rfl⟩

/-- Unification persists, whether it ends or clashes. -/
theorem keeps_unifyOr (refusal : Clash → Diagnostic) (a b : TypeId) :
    Keeps A (unifyOr refusal a b) fun _ => True := by
  intro s hs
  have hpersists := unify_persists a b s.types
  have hrun := unifyOr_run refusal a b s
  cases hunify : Store.unify a b s.types with
  | ok _ types =>
    rw [hunify] at hrun
    exact .of_ok hrun (.of_types hs (hpersists.ok hunify).1) trivial
  | error reason types =>
    rw [hunify] at hrun
    cases reason <;> exact .of_error hrun (.of_types hs (hpersists.error hunify).1) trivial

theorem keeps_unify (span : Span) (a b : TypeId) : Keeps A (unify span a b) fun _ => True :=
  keeps_unifyOr _ a b

theorem keeps_instantiate (pinned : List TypeId) (ty : TypeId) :
    Keeps A (instantiate pinned ty) fun _ => True := by
  intro s hs
  have hrun := instantiate_run pinned ty s
  cases hcopy : s.types.instantiate pinned ty with
  | ok made =>
    rw [hcopy] at hrun
    exact .of_ok hrun (.of_types hs (instantiate_persists hcopy)) trivial
  | error fault =>
    rw [hcopy] at hrun
    exact .of_error hrun (.refl hs) trivial

/-! ## Steps on the scopes -/

theorem keeps_requireScope (mark : Mark) : Keeps A (requireScope mark) fun scope => mark.scope = some scope := by
  unfold requireScope
  split
  · next hscope => exact .pure hscope
  · exact .refuse _ _

/-- A name that is looked up agrees with the anchors. -/
theorem keeps_resolve (scope : ScopeId) (name : Ident) :
    Keeps A (resolve scope name) fun found => A.Agrees found.1 name.name found.2.ty := by
  refine .answer (resolve_run scope name) fun s found hs hfound ty hA => ?_
  obtain ⟨found', hlookup, hfound⟩ := exists_of_bind_eq_ok hfound
  cases found' with
  | none => cases hfound
  | some found' =>
    cases hfound
    exact hs.ty_eq (symbolAt_of_lookup (Halt.ofQuery_eq_ok.mp hlookup)) hA

theorem keeps_getLocal (scope : ScopeId) (name : String) :
    Keeps A (getLocal scope name) fun symbol => A.Agrees scope name (symbol.bind Symbol.ty) := by
  refine .answer (getLocal_run scope name) fun s symbol hs hsymbol ty hA => ?_
  rw [← symbolAt_of_getLocal (Halt.ofQuery_eq_ok.mp hsymbol)]
  exact hs hA

/-- **A change of one symbol** that leaves the types of anchors alone. -/
theorem keeps_update {change : Symbol → Symbol} (hbecomes : ∀ symbol, Symbol.Becomes symbol (change symbol))
    (hty : ∀ {ty}, A id name ty → ∀ symbol, (change symbol).ty = symbol.ty) :
    Keeps A (update id name change) fun _ => True := by
  intro s hs
  have hrun := update_run id name change s
  cases hchanged : s.scopes.update id name change with
  | error fault =>
    rw [hchanged] at hrun
    exact .of_error hrun (.refl hs) trivial
  | ok scopes =>
    rw [hchanged] at hrun
    have hat := symbolAt_of_update hchanged
    refine .of_ok hrun ⟨.refl _, sameShape_of_update hchanged fun symbol => (hbecomes symbol).kind_eq,
      fun {other n symbol} hsymbol => ?_, fun other n ty hA => ?_⟩ trivial
    · show ∃ symbol', scopes.symbolAt other n = some symbol' ∧ _
      rw [hat]
      split
      · next he => exact ⟨change symbol, by rw [← he.1, hsymbol]; rfl, hbecomes symbol⟩
      · exact ⟨symbol, hsymbol, .refl symbol⟩
    · obtain ⟨symbol, hsymbol, htype⟩ := Option.bind_eq_some_iff.mp (hs hA)
      show scopes.typeAt other n = some ty
      rw [typeAt, hat]
      split
      · next he =>
        obtain ⟨rfl, rfl⟩ := he
        rw [hsymbol, Option.map_some, Option.bind_some, hty hA, htype]
      · exact hs hA

theorem keeps_setType (hlacks : A.Lacks id name) (ty : TypeId) : Keeps A (setType id name ty) fun _ => True :=
  keeps_update (fun _ => ⟨rfl, rfl, rfl, fun hi => hi⟩) fun hA => absurd hA (hlacks _)

theorem keeps_markInitialized (id : ScopeId) (name : String) :
    Keeps A (update id name ({ · with initialized := true })) fun _ => True :=
  keeps_update (fun _ => ⟨rfl, rfl, rfl, fun _ => rfl⟩) fun _ _ => rfl

/-- A name without a type is no anchor, so a new type may be recorded for it. -/
theorem keeps_typeOf {declared : Option TypeId} (h : A.Agrees id name declared) :
    Keeps A (typeOf id name declared) fun _ => True := by
  cases declared with
  | some ty => exact .pure trivial
  | none => exact keeps_newVar.bind fun ty _ => (keeps_setType h.lacks ty).bind fun _ _ => .pure trivial

theorem keeps_declaredType (scope : ScopeId) (name : String) :
    Keeps A (declaredType scope name) fun _ => True :=
  (keeps_getLocal scope name).bind fun _ hsymbol => keeps_typeOf hsymbol

/-! ## Steps on the open functions -/

/-- Which functions are open makes no difference. -/
theorem Moves.frames (h : Moves A s s') (frames frames' : List Frame) :
    Moves A { s with frames } { s' with frames := frames' } :=
  ⟨h.types, h.shape, h.symbol, h.anchored⟩

/-- **A function's body** is followed like any other computation. -/
theorem Tracks.inFrame {pinned : List TypeId} {body : InferM α} {visits : Inference → List Visit} {nodes : List Expr}
    (h : Tracks A pinned body visits nodes) (result : TypeId) :
    Tracks A pinned (withFrame result body) (InferM.inFrame result visits) nodes := by
  intro s hs
  have hbody := h { s with frames := ⟨result, false⟩ :: s.frames } hs
  cases hrun : body { s with frames := ⟨result, false⟩ :: s.frames } with
  | error reason s' => exact .of_error (withFrame_of_error hrun) ((hbody.error hrun).1.frames _ _) trivial
  | ok a s' =>
    obtain ⟨hmoves, htraced⟩ := hbody.ok hrun
    exact .of_ok (withFrame_of_ok hrun) (hmoves.frames _ _)
      (htraced.widen ((Moves.refl hs).frames _ _) ((Moves.refl hmoves.anchored).frames _ _))

theorem keeps_expectedResult? : Keeps A expectedResult? fun _ => True := fun _ hs => .of_ok rfl (.refl hs) trivial

theorem keeps_markReturned : Keeps A markReturned fun _ => True
  | ⟨_, _, []⟩, hs => .of_ok rfl (.refl hs) trivial
  | ⟨_, _, _ :: _⟩, hs => .of_ok rfl ((Moves.refl hs).frames _ _) trivial

end Steps

end TypeInference
