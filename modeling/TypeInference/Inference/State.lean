import TypeInference.Scope.Arena
import TypeInference.Ty.Instantiate

/-!
# `Inference.State` — what inference works on

Inference reads and extends the store of types, fills in the types of symbols, and keeps a stack of the
functions whose bodies it is in. It stops with a diagnostic, or by misuse; either way what it has done so far
stays in the state.

## Contents
* `Frame`, `Inference`, `InferM` — open functions, the state, and computations on it;
* `query`, `create`, `instantiate`, `unify` — steps on the store;
* `resolve`, `getLocal`, `update`, `declaredType` — steps on the scopes;
* `withFrame`, `expectedResult?`, `markReturned` — steps on the open functions.
-/

namespace TypeInference

/-! ## States -/

/-- A function whose body is being looked at: its result type, and whether it has returned anywhere. Lambdas have no
    frame, for their bodies are expressions, in which no `return` can stand. -/
structure Frame where
  result : TypeId
  returned : Bool
  deriving DecidableEq, Repr

/-- The state of inference; the innermost open function comes first. Types and scopes are those of the session, as
    far as this submission has changed them. -/
structure Inference where
  types : Store
  scopes : Scopes
  frames : List Frame

/-- The state at the beginning of a submission: the session's types, the scopes that the first pass has left, and no
    open function. -/
def Inference.start (types : Store) (scopes : Scopes) : Inference := ⟨types, scopes, []⟩

/-- Computations of inference; the state is kept when they stop, so that the session can decide whether it goes
    back. -/
abbrev InferM := EStateM (Halt Diagnostic) Inference

namespace InferM

/-! ## Answers and refusals -/

/-- Goes on with an answer, or stops for the reason given. The state is left alone either way. -/
def answer {α : Type} (found : Except (Halt Diagnostic) α) : InferM α := fun s =>
  match found with
  | .ok a => .ok a s
  | .error reason => .error reason s

/-- Refuses the program for a cause at a place. What has been done so far is not undone here. -/
def refuse {α : Type} (cause : Cause) (span : Span) : InferM α := throw (.failure ⟨cause, span⟩)

/-- A refusal is an error that leaves the state alone. -/
@[simp] theorem refuse_run {α : Type} (cause : Cause) (span : Span) (s : Inference) :
    (refuse cause span : InferM α) s = .error (.failure ⟨cause, span⟩) s := rfl

@[simp] theorem answer_ok_run {α : Type} (a : α) (s : Inference) :
    (answer (.ok a) : InferM α) s = .ok a s := rfl

@[simp] theorem answer_error_run {α : Type} (reason : Halt Diagnostic) (s : Inference) :
    (answer (.error reason) : InferM α) s = .error reason s := rfl

/-! ## Steps on the store -/

/-- Asks the store a question that has an answer unless handles are misused. Nothing is changed by it. -/
def query {α : Type} (ask : Store → Except Fault α) : InferM α := do
  answer (Halt.ofQuery (ask (← get).types))

@[simp] theorem query_run {α : Type} (ask : Store → Except Fault α) (s : Inference) :
    query ask s = answer (Halt.ofQuery (ask s.types)) s := rfl

/-- Asks the store a question that can refuse the program, such as what the component of a type at an index is. -/
def consult {α : Type} (ask : Store → Except (Halt Diagnostic) α) : InferM α := do
  answer (ask (← get).types)

@[simp] theorem consult_run {α : Type} (ask : Store → Except (Halt Diagnostic) α) (s : Inference) :
    consult ask s = answer (ask s.types) s := rfl

/-- Makes a new type: `make` says which node is added, and the answer is its number. -/
def create (make : Store → TypeId × Store) : InferM TypeId := fun ⟨types, scopes, frames⟩ =>
  let (id, types) := make types
  .ok id ⟨types, scopes, frames⟩

/-- Only the store changes, and there is always a new type. -/
@[simp] theorem create_run (make : Store → TypeId × Store) (s : Inference) :
    create make s = .ok (make s.types).1 { s with types := (make s.types).2 } := rfl

/-- A copy of a type with new variables for those that are not pinned. -/
def instantiate (pinned : List TypeId) (ty : TypeId) : InferM TypeId := do
  let (id, types) ← answer (Halt.ofQuery ((← get).types.instantiate pinned ty))
  modify ({ · with types })
  pure id

theorem instantiate_run (pinned : List TypeId) (ty : TypeId) (s : Inference) :
    instantiate pinned ty s =
      match Halt.ofQuery (s.types.instantiate pinned ty) with
      | .ok (copy, types) => .ok copy { s with types }
      | .error reason => .error reason s := by
  let ask : InferM (TypeId × Store) := get >>= fun t => answer (Halt.ofQuery (t.types.instantiate pinned ty))
  have hanswer : ask s = answer (Halt.ofQuery (s.types.instantiate pinned ty)) s := rfl
  cases hcopy : Halt.ofQuery (s.types.instantiate pinned ty) with
  | ok made => exact run_bind_of_ok (m := ask) (hanswer.trans (by rw [hcopy]; rfl))
  | error reason => exact run_bind_of_error (m := ask) (hanswer.trans (by rw [hcopy]; rfl))

/-- Makes two types equal; a clash is refused as `refusal` says. Operators use it to refuse in their own words, and
    everything else goes through `unify`. -/
def unifyOr (refusal : Clash → Diagnostic) (a b : TypeId) : InferM Unit := fun ⟨types, scopes, frames⟩ =>
  match Store.unify a b types with
  | .ok () types => .ok () ⟨types, scopes, frames⟩
  | .error (.fault f) types => .error (.fault f) ⟨types, scopes, frames⟩
  | .error (.failure clash) types => .error (.failure (refusal clash)) ⟨types, scopes, frames⟩

theorem unifyOr_run (refusal : Clash → Diagnostic) (a b : TypeId) (s : Inference) :
    unifyOr refusal a b s =
      match Store.unify a b s.types with
      | .ok () types => .ok () { s with types }
      | .error (.fault f) types => .error (.fault f) { s with types }
      | .error (.failure clash) types => .error (.failure (refusal clash)) { s with types } := rfl

/-- A unification that succeeds is a step that changes the store only. -/
theorem unifyOr_of_ok {refusal : Clash → Diagnostic} {a b : TypeId} {s : Inference} {types : Store}
    (h : Store.unify a b s.types = .ok () types) : unifyOr refusal a b s = .ok () { s with types } := by
  rw [unifyOr_run, h]

/-- A unification that clashes is refused, and what it has bound by then stays bound. -/
theorem unifyOr_of_clash {refusal : Clash → Diagnostic} {a b : TypeId} {s : Inference} {clash : Clash} {types : Store}
    (h : Store.unify a b s.types = .error (.failure clash) types) :
    unifyOr refusal a b s = .error (.failure (refusal clash)) { s with types } := by
  rw [unifyOr_run, h]

/-- What is not refused has been unified: a step that ends comes from a unification that succeeds. -/
theorem exists_of_unifyOr_eq_ok {refusal : Clash → Diagnostic} {a b : TypeId} {s s' : Inference}
    (h : unifyOr refusal a b s = .ok () s') :
    ∃ types, Store.unify a b s.types = .ok () types ∧ s' = { s with types } := by
  rw [unifyOr_run] at h
  cases hunify : Store.unify a b s.types with
  | ok _ types =>
    rw [hunify] at h
    cases h
    exact ⟨types, rfl, rfl⟩
  | error reason types =>
    rw [hunify] at h
    cases reason <;> cases h

/-- Makes two types equal; a clash is refused at `span`, in the words of the clash. -/
def unify (span : Span) (a b : TypeId) : InferM Unit := unifyOr (·.diagnostic span) a b

/-! ## Steps on the scopes -/

/-- The scope recorded for a node. A node that no pass has visited has none, and inference refuses to guess one. -/
def requireScope (mark : Mark) : InferM ScopeId :=
  match mark.scope with
  | some scope => pure scope
  | none => refuse .missingScope mark.span

/-- The meaning of a name in a scope, with the scope that declares it. -/
def resolve (scope : ScopeId) (name : Ident) : InferM (ScopeId × Symbol) := do
  answer ((← get).scopes.resolve scope name)

@[simp] theorem resolve_run (scope : ScopeId) (name : Ident) (s : Inference) :
    resolve scope name s = answer (s.scopes.resolve scope name) s := rfl

/-- The symbol that a scope itself has for a name; the scopes around it are not asked. -/
def getLocal (scope : ScopeId) (name : String) : InferM (Option Symbol) := do
  answer (Halt.ofQuery ((← get).scopes.getLocal scope name))

@[simp] theorem getLocal_run (scope : ScopeId) (name : String) (s : Inference) :
    getLocal scope name s = answer (Halt.ofQuery (s.scopes.getLocal scope name)) s := rfl

/-- Changes the symbol that a scope itself has for a name. All that inference does to scopes goes through here, so
    the shape of an arena is never changed by it. -/
def update (scope : ScopeId) (name : String) (change : Symbol → Symbol) : InferM Unit := do
  let scopes ← answer (Halt.ofQuery ((← get).scopes.update scope name change))
  modify ({ · with scopes })

theorem update_run (scope : ScopeId) (name : String) (change : Symbol → Symbol) (s : Inference) :
    update scope name change s =
      match Halt.ofQuery (s.scopes.update scope name change) with
      | .ok scopes => .ok () { s with scopes }
      | .error reason => .error reason s := by
  let ask : InferM Scopes := get >>= fun t => answer (Halt.ofQuery (t.scopes.update scope name change))
  have hanswer : ask s = answer (Halt.ofQuery (s.scopes.update scope name change)) s := rfl
  cases hchanged : Halt.ofQuery (s.scopes.update scope name change) with
  | ok scopes => exact run_bind_of_ok (m := ask) (hanswer.trans (by rw [hchanged]; rfl))
  | error reason => exact run_bind_of_error (m := ask) (hanswer.trans (by rw [hchanged]; rfl))

/-- Records the type of a name in the scope that declares it, whatever was recorded there before. -/
def setType (scope : ScopeId) (name : String) (ty : TypeId) : InferM Unit :=
  update scope name ({ · with ty := some ty })

/-- A new variable, recorded as the type of a name. A name whose type is asked for before its declaration has given
    it one gets its type this way. -/
def newTypeFor (scope : ScopeId) (name : String) : InferM TypeId := do
  let ty ← create Store.newVar
  setType scope name ty
  pure ty

/-- The type of a symbol, or a new variable, recorded as the type of its name. -/
def typeOf (scope : ScopeId) (name : String) : Option TypeId → InferM TypeId
  | some ty => pure ty
  | none => newTypeFor scope name

/-- The type recorded for a name in the scope that declares it, or a new one. After the declarations of a list of
    statements have been given types, it is recorded for every name of them. -/
def declaredType (scope : ScopeId) (name : String) : InferM TypeId := do
  let symbol ← getLocal scope name
  typeOf scope name (symbol.bind Symbol.ty)

/-! ## Steps on the open functions -/

/-- Whether the innermost open function has returned. Outside of functions there is nothing that would still have to
    be returned. -/
def hasReturned : List Frame → Bool
  | frame :: _ => frame.returned
  | [] => true

/-- Works inside a function with this result type, and tells whether it returned. The function is closed again in
    any case, so frames are balanced also in runs that stop. -/
def withFrame {α : Type} (result : TypeId) (body : InferM α) : InferM Bool := fun s =>
  match body { s with frames := ⟨result, false⟩ :: s.frames } with
  | .ok _ s => .ok (hasReturned s.frames) { s with frames := s.frames.tail }
  | .error reason s => .error reason { s with frames := s.frames.tail }

/-- The function is closed after its body, which tells whether it returned; types and scopes are as the body has
    left them. -/
theorem withFrame_of_ok {α : Type} {body : InferM α} {result : TypeId} {s s' : Inference} {a : α}
    (h : body { s with frames := ⟨result, false⟩ :: s.frames } = .ok a s') :
    withFrame result body s = .ok (hasReturned s'.frames) { s' with frames := s'.frames.tail } := by
  rw [withFrame, h]

/-- The function is closed after a stop as well, and the reason is that of the body. -/
theorem withFrame_of_error {α : Type} {body : InferM α} {result : TypeId} {s s' : Inference}
    {reason : Halt Diagnostic} (h : body { s with frames := ⟨result, false⟩ :: s.frames } = .error reason s') :
    withFrame result body s = .error reason { s' with frames := s'.frames.tail } := by
  rw [withFrame, h]

/-- The result type of the innermost open function, if there is one: a `return` outside of functions is refused. -/
def expectedResult? : InferM (Option TypeId) := do
  pure ((← get).frames.head?.map Frame.result)

/-- Notes that the innermost open function returns. Outside of functions nothing is noted. -/
def markReturned : InferM Unit :=
  modify fun s =>
    match s.frames with
    | frame :: frames => { s with frames := { frame with returned := true } :: frames }
    | [] => s

end InferM

end TypeInference
