import TypeInference.Inference.State
import TypeInference.Proofs.Run
import TypeInference.Proofs.Scope.Growth
import TypeInference.Proofs.Ty.Instance
import TypeInference.Proofs.Ty.Unification

/-!
# `Proofs.Inference.Guard` — what inference may do to its state

A *guard* names what inference must not touch: type variables that are hidden, and scopes that are not
visible. A state is **admitted** when nothing that inference uses as it is can lead it to a hidden variable:
the types of the names that are used directly, and the results of the open functions. Names that are not
direct may have any type, because a use of them copies the type first.

Every run from an admitted state is a `Step`: the store evolves around the hidden variables, the arena keeps
its shape, scopes that are not visible stay as they are, and every type that a name is newly given is clear.
So the next state is admitted again, and a run only stops with a refusal.

A guard can also demand that the state is *tidy*: no name in sight lacks a type, so that a name that has a
type keeps it. Refused programs that are not rolled back leave names without types; sessions that always roll
back stay tidy.

## Contents
* `Guard`, `Guard.Admits` — guards, and the states they admit;
* `Guard.Step`, `Admits.step` — runs keep to the guard;
* `Henceforth`, `Later`, `Eventually` — what holds from a state on, whatever inference does next;
* `Guard.Allows` — a run that keeps to the guard.
-/

namespace TypeInference

open Store Scopes

/-! ## Frames and fresh scopes -/

/-- The innermost open function has returned; the functions around it are as they were. -/
def returned : List Frame → List Frame
  | frame :: frames => { frame with returned := true } :: frames
  | [] => []

@[simp] theorem returned_returned (frames : List Frame) : returned (returned frames) = returned frames := by
  cases frames <;> rfl

theorem exists_of_mem_returned {frames : List Frame} {frame : Frame} (h : frame ∈ returned frames) :
    ∃ old ∈ frames, old.result = frame.result := by
  cases frames with
  | nil => cases h
  | cons first frames =>
    rcases List.mem_cons.mp h with rfl | h
    · exact ⟨first, List.mem_cons_self, rfl⟩
    · exact ⟨frame, List.mem_cons_of_mem _ h, rfl⟩

/-- No scope from the number `n` on gives a name a type. The scopes of what has not been looked at yet are fresh in
    this sense. -/
def Inference.Fresh (s : Inference) (n : Nat) : Prop :=
  ∀ (id : ScopeId) (kind : SymbolKind) (ty : TypeId), n ≤ id.index → ¬ s.scopes.Gives id kind ty

theorem Inference.Fresh.typeAt {s : Inference} {n : Nat} (h : s.Fresh n) {id : ScopeId} (hid : n ≤ id.index)
    (name : String) : s.scopes.typeAt id name = none := by
  rw [Option.eq_none_iff_forall_ne_some]
  intro ty hty
  obtain ⟨kind, hg⟩ := gives_of_typeAt hty
  exact h id kind ty hid hg

theorem Inference.Fresh.mono {s : Inference} {n n' : Nat} (h : s.Fresh n) (hle : n ≤ n') : s.Fresh n' :=
  fun id kind ty hid => h id kind ty (hle.trans hid)

/-! ## Guards -/

/-- What inference is watched for. Hidden variables and the arena stay the same during a whole run, so a guard is
    given once and every step is measured by it. -/
structure Guard where
  /-- Type variables that no type in use leads to. -/
  hidden : Set TypeId
  /-- The scopes whose symbols may change. -/
  visible : Set ScopeId
  /-- The names whose types are used as they are. -/
  direct : ScopeId → String → Prop
  /-- The arena with which inference began; it goes on having this shape. -/
  base : Scopes
  /-- Whether every name in sight has a type. -/
  tidy : Prop
  ordered : base.Ordered
  visible_lt : ∀ id ∈ visible, id.index < base.size

/-- A state from which the guard is kept. Besides being well-formed it has to keep clear of hidden variables
    whatever is used without being copied: direct names, and the results of open functions. -/
structure Guard.Admits (G : Guard) (s : Inference) : Prop where
  wf : s.types.WellFormed
  unbound : ∀ v ∈ G.hidden, s.types.IsUnbound v
  shape : SameShape G.base s.scopes
  inRange : ∀ {id kind ty}, s.scopes.Gives id kind ty → ty.index < s.types.size
  direct : ∀ {id name ty}, G.direct id name → s.scopes.typeAt id name = some ty → s.types.Clear G.hidden ty
  frames : ∀ frame ∈ s.frames, s.types.Clear G.hidden frame.result

/-- What a run does under a guard; `returns` tells whether it may return from the innermost open function. `gives`
    is about entries and `typed` about names, for it is not known here that a table lists each name once. -/
structure Guard.Step (G : Guard) (returns : Bool) (s s' : Inference) : Prop where
  types : Evolves G.hidden s.types s'.types
  shape : SameShape s.scopes s'.scopes
  outside : ∀ id, id ∉ G.visible → s'.scopes.scopeAt id = s.scopes.scopeAt id
  gives : ∀ {id kind ty}, s'.scopes.Gives id kind ty → s.scopes.Gives id kind ty ∨ s'.types.Clear G.hidden ty
  typed : ∀ {id name ty}, s'.scopes.typeAt id name = some ty →
    s.scopes.typeAt id name = some ty ∨ s'.types.Clear G.hidden ty
  kept : G.tidy → ∀ {id name ty}, s.scopes.typeAt id name = some ty → s'.scopes.typeAt id name = some ty
  frames : s'.frames = s.frames ∨ returns = true ∧ s'.frames = returned s.frames

namespace Guard

variable {G : Guard} {r r' : Bool} {s s' s'' : Inference}

/-! ### What is known of admitted states -/

theorem Admits.ordered (h : G.Admits s) : s.scopes.Ordered := h.shape.ordered G.ordered

theorem Admits.lt_of_visible (h : G.Admits s) {id : ScopeId} (hid : id ∈ G.visible) :
    id.index < s.scopes.size :=
  h.shape.size_eq ▸ G.visible_lt id hid

theorem Admits.lt_of_typeAt (h : G.Admits s) {id : ScopeId} {name : String} {ty : TypeId}
    (hty : s.scopes.typeAt id name = some ty) : ty.index < s.types.size := by
  obtain ⟨kind, hg⟩ := gives_of_typeAt hty
  exact h.inRange hg

theorem Admits.hidden_lt (h : G.Admits s) : ∀ v ∈ G.hidden, v.index < s.types.size :=
  fun v hv => lt_of_get (h.unbound v hv)

/-- The primitive types are clear, as they reach nothing. -/
theorem Admits.clear_primitive (h : G.Admits s) {id : TypeId} {con : Constructor}
    (hid : initial.get id = .ok (.op con [])) : s.types.Clear G.hidden id := by
  have hget := h.wf.primitives _ _ hid
  refine ⟨lt_of_get hget, fun v hr hmem => ?_⟩
  rcases hr.cases_head with rfl | ⟨b, ⟨node, hnode, hb⟩, -⟩
  · cases hget.symm.trans (h.unbound _ hmem)
  · cases hget.symm.trans hnode
    cases hb

namespace Step

theorem refl (h : G.Admits s) : G.Step r s s :=
  ⟨.refl h.wf, .refl _, fun _ _ => rfl, .inl, .inl, fun _ _ _ _ => id, .inl rfl⟩

theorem trans (h : G.Step r s s') (h' : G.Step r s' s'') : G.Step r s s'' where
  types := h.types.trans h'.types
  shape := h.shape.trans h'.shape
  outside := fun id hid => (h'.outside id hid).trans (h.outside id hid)
  gives := fun hg => (h'.gives hg).elim (fun hg => (h.gives hg).imp_right (h'.types.clear h.types.wf)) .inr
  typed := fun hty => (h'.typed hty).elim
    (fun hty => (h.typed hty).imp_right (h'.types.clear h.types.wf)) .inr
  kept := fun ht _ _ _ hty => h'.kept ht (h.kept ht hty)
  frames := by
    rcases h.frames with he | ⟨hr, he⟩ <;> rcases h'.frames with he' | ⟨hr', he'⟩
    · exact .inl (he'.trans he)
    · exact .inr ⟨hr', by rw [he', he]⟩
    · exact .inr ⟨hr, by rw [he', he]⟩
    · exact .inr ⟨hr, by rw [he', he, returned_returned]⟩

theorem mayReturn (h : G.Step r s s') (hle : r = true → r' = true) : G.Step r' s s' :=
  { h with frames := h.frames.imp_right fun ⟨hr, he⟩ => ⟨hle hr, he⟩ }

/-- A run that may not return leaves the open functions alone. -/
theorem frames_eq (h : G.Step false s s') : s'.frames = s.frames :=
  h.frames.resolve_right fun hr => Bool.false_ne_true hr.1

end Step

/-- **Runs lead from admitted states to admitted states.** Clear types stay clear, and whatever a name is newly
    given is clear itself. -/
theorem Admits.step (h : G.Admits s) (hs : G.Step r s s') : G.Admits s' where
  wf := hs.types.wf
  unbound := fun v hv => hs.types.isUnbound (h.unbound v hv) hv
  shape := h.shape.trans hs.shape
  inRange := fun hg => (hs.gives hg).elim (fun hg => hs.types.lt (h.inRange hg)) Clear.lt
  direct := fun hd hty => (hs.typed hty).elim (fun hty => hs.types.clear h.wf (h.direct hd hty)) fun hc => hc
  frames := by
    intro frame hmem
    have hold : ∃ old ∈ s.frames, old.result = frame.result := by
      rcases hs.frames with he | ⟨-, he⟩
      · exact ⟨frame, he ▸ hmem, rfl⟩
      · exact exists_of_mem_returned (he ▸ hmem)
    obtain ⟨old, hmem, he⟩ := hold
    exact he ▸ hs.types.clear h.wf (h.frames old hmem)

end Guard

/-! ## From now on -/

/-- `J` holds of the store and of what becomes of it, as long as `hidden` variables are not touched. Facts about
    trees are stated in this form, so that what comes later never has to be looked at. -/
def Henceforth (hidden : Set TypeId) (types : Store) (J : Store → Prop) : Prop :=
  ∀ later, Evolves hidden types later → J later

theorem Henceforth.step {hidden : Set TypeId} {types types' : Store} {J : Store → Prop}
    (h : Henceforth hidden types J) (hs : Evolves hidden types types') : Henceforth hidden types' J :=
  fun later hl => h later (hs.trans hl)

theorem Henceforth.always {hidden : Set TypeId} {types types' : Store} {J : Store → Prop}
    (h : Henceforth ∅ types J) (hs : Evolves hidden types types') : Henceforth ∅ types' J :=
  h.step (hs.mono (Set.empty_subset _))

/-! ### States to come -/

/-- A store and an arena that inference may lead to from a state, without touching `hidden` variables or giving
    another type to a name that has one. -/
structure Later (hidden : Set TypeId) (s : Inference) (types : Store) (scopes : Scopes) : Prop where
  types : Evolves hidden s.types types
  shape : SameShape s.scopes scopes
  kept : ∀ {id name ty}, s.scopes.typeAt id name = some ty → scopes.typeAt id name = some ty

/-- `J` holds from now on, of the store and the arena together, in every later state in which no variable of
    `hidden` has been touched. -/
def Eventually (hidden : Set TypeId) (s : Inference) (J : Store → Scopes → Prop) : Prop :=
  ∀ types scopes, Later hidden s types scopes → J types scopes

variable {hidden hidden' : Set TypeId} {G : Guard} {r r' : Bool} {s s' s'' : Inference}

theorem Later.mono (hsub : hidden' ⊆ hidden) {types : Store} {scopes : Scopes}
    (h : Later hidden s types scopes) : Later hidden' s types scopes :=
  ⟨h.types.mono hsub, h.shape, h.kept⟩

theorem Later.of_step (ht : G.tidy) (hsub : hidden ⊆ G.hidden) (hs : G.Step r s s') {types : Store}
    {scopes : Scopes} (h : Later hidden s' types scopes) : Later hidden s types scopes :=
  ⟨(hs.types.mono hsub).trans h.types, hs.shape.trans h.shape, fun hty => h.kept (hs.kept ht hty)⟩

theorem Eventually.step {J : Store → Scopes → Prop} (h : Eventually G.hidden s J) (ht : G.tidy)
    (hs : G.Step r s s') : Eventually G.hidden s' J :=
  fun types scopes hl => h types scopes (hl.of_step ht subset_rfl hs)

theorem Eventually.always {J : Store → Scopes → Prop} (h : Eventually ∅ s J) (ht : G.tidy)
    (hs : G.Step r s s') : Eventually ∅ s' J :=
  fun types scopes hl => h types scopes (hl.of_step ht (Set.empty_subset _) hs)

namespace Guard

/-! ## Runs that keep to a guard -/

/-- The run keeps to the guard and, if it ends, has a result in `Q`; if it stops, the program is refused. All lemmas
    about the steps of inference have this form. -/
abbrev Allows {α : Type} (G : Guard) (returns : Bool) (m : InferM α) (s : Inference)
    (Q : α → Inference → Prop) : Prop :=
  Within (G.Step returns) Halt.IsRefusal m s Q

/-- **One run, then the next.** The second starts from an admitted state, since the first has kept to the guard. -/
theorem Allows.bind {α β : Type} {G : Guard} {returns : Bool} {m : InferM α} {next : α → InferM β}
    {s : Inference} {P : α → Inference → Prop} {Q : β → Inference → Prop} (h : G.Allows returns m s P)
    (hnext : ∀ a s', G.Step returns s s' → P a s' → G.Allows returns (next a) s' Q) :
    G.Allows returns (m >>= next) s Q :=
  Within.bind .trans h hnext

/-- Under a tidy guard, the scopes from `n` on have no types yet and `J` holds from now on. -/
def Concludes (G : Guard) (n : Nat) (s : Inference) (J : Store → Scopes → Prop) : Prop :=
  G.tidy → s.Fresh n ∧ Eventually G.hidden s J

/-- What a state must be like to look at a tree that stands in `scope` and whose own scopes begin at `n`. -/
structure Stands (G : Guard) (pinned : List TypeId) (scope : ScopeId) (n : Nat) (s : Inference) : Prop where
  admits : G.Admits s
  pinsClear : ∀ p ∈ pinned, s.types.Clear G.hidden p
  inside : ∀ {owner}, G.base.Sees scope owner → owner ∈ G.visible
  vars : ∀ {owner name symbol}, G.base.Sees scope owner → G.base.symbolAt owner name = some symbol →
    symbol.kind = .var → G.direct owner name
  ahead : ∀ id : ScopeId, n ≤ id.index → id.index < G.base.size → id ∈ G.visible ∧ ∀ name, G.direct id name
  fresh : G.tidy → s.Fresh n

/-- What a state must be like to look at an expression: under a tidy guard every variable of the type of a name in
    sight is hidden or pinned, so that its copies are instances of it. -/
structure Ready (G : Guard) (pinned : List TypeId) (scope : ScopeId) (n : Nat) (s : Inference) : Prop
    extends G.Stands pinned scope n s where
  typed : G.tidy → ∀ {owner name symbol}, G.base.Sees scope owner →
    s.scopes.symbolAt owner name = some symbol → symbol.kind.isValue = true →
    ∃ ty, symbol.ty = some ty ∧ s.types.Covered G.hidden pinned ty

variable {G : Guard} {pinned : List TypeId} {scope : ScopeId} {n n' : Nat} {r : Bool} {s s' : Inference}

theorem Stands.visible (h : G.Stands pinned scope n s) : scope ∈ G.visible := h.inside .refl

theorem Stands.step (h : G.Stands pinned scope n s) (hs : G.Step r s s') (hle : n ≤ n')
    (hfresh : G.tidy → s'.Fresh n') : G.Stands pinned scope n' s' where
  admits := h.admits.step hs
  pinsClear := fun p hp => hs.types.clear h.admits.wf (h.pinsClear p hp)
  inside := h.inside
  vars := h.vars
  ahead := fun id hid => h.ahead id (hle.trans hid)
  fresh := hfresh

/-- **The next tree may be looked at** after a run that was allowed. Covered types stay covered, and no new name has
    come into sight. -/
theorem Ready.step (h : G.Ready pinned scope n s) (hs : G.Step r s s') (hle : n ≤ n')
    (hfresh : G.tidy → s'.Fresh n') : G.Ready pinned scope n' s' where
  toStands := h.toStands.step hs hle hfresh
  typed := fun ht {owner name symbol'} hsees hsymbol hvalue => by
    -- The symbol had its type before, for a tidy run keeps the types of names.
    obtain ⟨symbol, hold, hkind⟩ := hs.shape.symm.symbol hsymbol
    obtain ⟨ty, hty, hcovered⟩ := h.typed ht hsees hold (hkind ▸ hvalue)
    have hkept := hs.kept ht (typeAt_of_symbolAt hold hty)
    rw [typeAt, hsymbol] at hkept
    exact ⟨ty, hkept, hs.types.covered h.admits.wf hcovered⟩

theorem fresh_of_eq (h : s'.scopes = s.scopes) (hfresh : s.Fresh n) : s'.Fresh n := by
  intro id kind ty hid
  rw [h]
  exact hfresh id kind ty hid

end Guard

end TypeInference
