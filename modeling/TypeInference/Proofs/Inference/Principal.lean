import TypeInference.Inference.Expression
import TypeInference.Proofs.Inference.Operation
import TypeInference.Proofs.Ty.MostGeneral
import TypeInference.Proofs.Ty.Reading

/-!
# `Proofs.Inference.Principal` — runs that find all answers

A run of inference asks something of the trees of types: that two of them are equal, or that an expression has
some tree. It is *principal* when it adds exactly this to what the store says. Every reading of the store it
leaves meets the condition, with the result read as an answer; every reading of the store it began with, and
every answer that meets the condition there, comes from a reading of the store it leaves. If it stops, it
refuses the program, and no reading has an answer.

Principal runs compose (`Principal.bind`): an answer to both conditions is found by answering the first, and
then the second in a reading that has not changed what was there. So nothing has to be said about most general
substitutions, or about the variables that are made on the way.

## Contents
* `Follows`, `Readable`, `Settles`, `Principal` — principal runs, with `Principal.bind`;
* `newVar_principal`, `operator_principal`, `unifyOr_principal`, `instantiate_principal` — steps on the store;
* `Principal.expect` — a result that has to be equal to a type;
* `application_principal`, `inferUnary_principal`, `inferBinary_principal` — applications and operators.
-/

namespace TypeInference

open Store Scopes InferM

/-! ## Principal runs -/

/-- Scopes from the number `n` on may have changed, but not their shape. Nothing is hidden here, since the parts of
    the language that need hiding have no principal runs. -/
structure Follows (n : Nat) (s s' : Inference) : Prop where
  types : Evolves ∅ s.types s'.types
  shape : SameShape s.scopes s'.scopes
  before : ∀ id : ScopeId, id.index < n → s'.scopes.scopeAt id = s.scopes.scopeAt id

namespace Follows

variable {n n' : Nat} {s s' s'' : Inference}

theorem of_types {types : Store} (hs : Evolves ∅ s.types types) : Follows n s { s with types } :=
  ⟨hs, .refl _, fun _ _ => rfl⟩

theorem refl (h : s.types.WellFormed) : Follows n s s := of_types (.refl h)

theorem trans (h : Follows n s s') (h' : Follows n s' s'') : Follows n s s'' :=
  ⟨h.types.trans h'.types, h.shape.trans h'.shape, fun id hid => (h'.before id hid).trans (h.before id hid)⟩

/-- If fewer scopes may have changed, more scopes may have. -/
theorem mono (hle : n' ≤ n) (h : Follows n s s') : Follows n' s s' :=
  ⟨h.types, h.shape, fun id hid => h.before id (hid.trans_le hle)⟩

end Follows

/-! ### Answers -/

/-- Results that can be read as trees, so that a condition can be stated for a type, for a list of types and for no
    result at all in one way. -/
class Readable (α : Type) (β : outParam Type) where
  read : (TypeId → Tree) → α → β

export Readable (read)

instance : Readable TypeId Tree := ⟨fun reading ty => reading ty⟩

instance : Readable (List TypeId) (List Tree) := ⟨fun reading tys => tys.map reading⟩

instance : Readable Unit Unit := ⟨fun _ _ => ()⟩

/-- The later store says what the earlier one says, and that `answer` meets the condition. `sound` and `complete`
    are the two halves of being most general, and both are about all readings. -/
structure Settles {β : Type} (s s' : Store) (answer : (TypeId → Tree) → β)
    (condition : (TypeId → Tree) → β → Prop) : Prop where
  sound : ∀ reading, s'.Reads reading → condition reading (answer reading)
  complete : ∀ reading b, s.Reads reading → condition reading b →
    ∃ reading', s'.Reads reading' ∧ s.Agree reading reading' ∧ answer reading' = b

/-- A refusal of a program for which no reading of the store has an answer. -/
def Rejects {β : Type} (s : Store) (condition : (TypeId → Tree) → β → Prop) (reason : Halt Diagnostic) : Prop :=
  reason.IsRefusal ∧ ∀ reading b, s.Reads reading → ¬ condition reading b

variable {α β γ δ : Type} [Readable α β] [Readable γ δ] {n n' : Nat} {s s' : Inference}

/-- **The run is principal** for the condition: see the head of this file. Besides, its result satisfies `Q`,
    and it leaves scopes before `n` alone. -/
abbrev Principal (n : Nat) (m : InferM α) (s : Inference) (condition : (TypeId → Tree) → β → Prop)
    (Q : α → Inference → Prop) : Prop :=
  Within (Follows n) (Rejects s.types condition) m s fun a s' =>
    Q a s' ∧ Settles s.types s'.types (read · a) condition

namespace Principal

variable {m : InferM α} {next : α → InferM γ} {condition condition' : (TypeId → Tree) → β → Prop}
  {Q Q' : α → Inference → Prop}

/-! ### Principal runs in sequence -/

theorem pure {a : α} (hwf : s.types.WellFormed) (hQ : Q a s) :
    Principal n (pure a : InferM α) s (fun reading b => b = read reading a) Q :=
  Within.pure (.refl hwf) ⟨hQ, fun _ _ => rfl, fun reading _ hreads he => ⟨reading, hreads, .refl, he.symm⟩⟩

/-- The condition may be said in another way, if it is the same in all readings of the store. -/
theorem congr (h : Principal n m s condition Q)
    (hiff : ∀ reading b, s.types.Reads reading → (condition reading b ↔ condition' reading b)) :
    Principal n m s condition' Q := by
  refine Within.imp h ?_ ?_
  · rintro reason ⟨hrefusal, hnone⟩
    exact ⟨hrefusal, fun reading b hreads => mt (hiff reading b hreads).mpr (hnone reading b hreads)⟩
  · rintro a s' hs ⟨hQ, hsettles⟩
    refine ⟨hQ, fun reading hreads => ?_, fun reading b hreads hb => ?_⟩
    · exact (hiff _ _ (hs.types.reads hreads)).mp (hsettles.sound reading hreads)
    · exact hsettles.complete reading b hreads ((hiff _ _ hreads).mpr hb)

/-- A run that may change fewer scopes may change more. -/
theorem relax (hle : n' ≤ n) (h : Principal n m s condition Q) : Principal n' m s condition Q :=
  Within.relax h fun _ hs => hs.mono hle

/-- **One run, then the next.** The second condition is about the answer to the first; it must not depend on the
    trees of types that the store does not have yet. -/
theorem bind {P : (TypeId → Tree) → β → δ → Prop} {R : γ → Inference → Prop}
    (h : Principal n m s condition Q)
    (hlocal : ∀ {reading reading' b d}, s.types.Agree reading reading' → P reading b d → P reading' b d)
    (hnext : ∀ a s₁, Follows n s s₁ → Q a s₁ →
      Principal n (next a) s₁ (fun reading d => P reading (read reading a) d) R) :
    Principal n (m >>= next) s (fun reading d => ∃ b, condition reading b ∧ P reading b d) R := by
  -- An answer to both conditions is one to the first, in a reading of the store that the first run leaves.
  have hfirst : ∀ {a : α} {s₁ : Inference}, Settles s.types s₁.types (read · a) condition → ∀ reading b d,
      s.types.Reads reading → condition reading b → P reading b d →
      ∃ reading₁, s₁.types.Reads reading₁ ∧ s.types.Agree reading reading₁ ∧ read reading₁ a = b ∧
        P reading₁ (read reading₁ a) d := by
    intro a s₁ hsettles reading b d hreads hb hd
    obtain ⟨reading₁, hreads₁, hagree, rfl⟩ := hsettles.complete reading b hreads hb
    exact ⟨reading₁, hreads₁, hagree, rfl, hlocal hagree hd⟩
  refine Within.bind .trans (Within.imp h ?_ fun _ _ _ hQ => hQ) ?_
  · rintro reason ⟨hrefusal, hnone⟩
    exact ⟨hrefusal, fun reading d hreads ⟨b, hb, _⟩ => hnone reading b hreads hb⟩
  · rintro a s₁ hs ⟨hQ, hsettles⟩
    refine Within.imp (hnext a s₁ hs hQ) ?_ ?_
    · rintro reason ⟨hrefusal, hnone⟩
      refine ⟨hrefusal, fun reading d hreads ⟨b, hb, hd⟩ => ?_⟩
      obtain ⟨reading₁, hreads₁, -, -, hd₁⟩ := hfirst hsettles reading b d hreads hb hd
      exact hnone reading₁ d hreads₁ hd₁
    · rintro c s₂ hs₂ ⟨hR, hsettles₂⟩
      refine ⟨hR, fun reading hreads => ?_, fun reading d hreads ⟨b, hb, hd⟩ => ?_⟩
      · exact ⟨_, hsettles.sound reading (hs₂.types.reads hreads), hsettles₂.sound reading hreads⟩
      · obtain ⟨reading₁, hreads₁, hagree₁, -, hd₁⟩ := hfirst hsettles reading b d hreads hb hd
        obtain ⟨reading₂, hreads₂, hagree₂, hanswer⟩ := hsettles₂.complete reading₁ d hreads₁ hd₁
        exact ⟨reading₂, hreads₂, hagree₁.trans hs.types.size_le hagree₂, hanswer⟩

/-- A run without a result adds its condition to that of the next. -/
theorem andThen {m : InferM Unit} {C : (TypeId → Tree) → Prop} {P : (TypeId → Tree) → δ → Prop}
    {Q : Unit → Inference → Prop} {next : InferM γ} {R : γ → Inference → Prop}
    (h : Principal n m s (fun reading _ => C reading) Q)
    (hlocal : ∀ {reading reading' d}, s.types.Agree reading reading' → P reading d → P reading' d)
    (hnext : ∀ s₁, Follows n s s₁ → Principal n next s₁ P R) :
    Principal n (do m; next) s (fun reading d => C reading ∧ P reading d) R :=
  (bind (P := fun reading _ d => P reading d) h hlocal fun _ s₁ hs₁ _ => hnext s₁ hs₁).congr
    fun _ _ _ => exists_const Unit

end Principal

/-! ## Steps on the store -/

/-- The result is a type of the store, so that its tree stays what it is when the store grows. -/
abbrev Inside (ty : TypeId) (s : Inference) : Prop := ty.index < s.types.size

/-- A growth without bindings after which the result has its answers. -/
theorem Principal.of_grows {m : InferM α} {condition : (TypeId → Tree) → β → Prop} {Q : α → Inference → Prop}
    {a : α} {types : Store} (hrun : m s = .ok a { s with types }) (hgrows : Grows ∅ s.types types)
    (hQ : Q a { s with types }) (hsettles : Settles s.types types (read · a) condition) :
    Principal n m s condition Q :=
  Within.of_ok hrun (.of_types hgrows.toEvolves) ⟨hQ, hsettles⟩

theorem newVar_principal (hwf : s.types.WellFormed) :
    Principal n (create Store.newVar) s (fun _ _ => True) fun ty s' => Inside ty s' ∧ s'.scopes = s.scopes := by
  have hgrows : Grows ∅ s.types s.types.newVar.2 := (Grows.refl hwf).allocate trivial (by simp [Node.refs])
  refine .of_grows (create_run _ s) hgrows ⟨?_, rfl⟩ ⟨fun _ _ => trivial, fun reading t hreads _ => ?_⟩
  · show s.types.size < s.types.newVar.2.size
    rw [Store.newVar, Store.size_allocate]
    exact Nat.lt_succ_self _
  · exact hreads.allocate hwf.grounded (by simp [Node.refs]) trivial

/-- A new constructor has the tree that its components make, and no other. -/
theorem operator_principal (hwf : s.types.WellFormed) {make : Store → TypeId × Store} {con : Constructor}
    {args : List TypeId} (hmake : make s.types = s.types.operator con args) (hfits : con.Takes args.length)
    (hargs : ∀ a ∈ args, Inside a s) :
    Principal n (create make) s (fun reading t => t = .app con (args.map reading)) Inside := by
  have hgrows : Grows ∅ s.types (s.types.operator con args).2 := (Grows.refl hwf).allocate hfits hargs
  have hnew : (s.types.operator con args).2.get (s.types.operator con args).1 = .ok (.op con args) :=
    get_allocate_self _ _
  have hrun : create make s = .ok (s.types.operator con args).1
      { s with types := (s.types.operator con args).2 } := by rw [create_run, hmake]
  refine .of_grows hrun hgrows (lt_of_get hnew) ⟨fun reading hreads => hreads.op hnew, ?_⟩
  intro reading t hreads ht
  have hrefs : ∀ b ∈ (Node.op con args).refs, b.index < s.types.size := hargs
  exact hreads.allocate hwf.grounded hrefs ht

/-- **Unification** asks that the two types have one tree. That it is principal for this condition is what most
    general solutions are. -/
theorem unifyOr_principal (hwf : s.types.WellFormed) {refusal : Clash → Diagnostic}
    (href : ∀ clash, (refusal clash).cause ≠ .missingScope) {a b : TypeId} (ha : Inside a s)
    (hb : Inside b s) :
    Principal n (unifyOr refusal a b) s (fun reading _ => reading a = reading b)
      fun _ s' => s'.scopes = s.scopes := by
  have hunify := hwf.grounded.unify_adds ha hb
  have hclear : ∀ {ty}, Inside ty s → s.types.Clear ∅ ty := fun hty => ⟨hty, by simp⟩
  have hevolves := Store.unify_within hwf (hclear ha) (hclear hb)
  cases hrun : Store.unify a b s.types with
  | ok _ types =>
    obtain ⟨-, hadded⟩ := hunify.ok hrun
    refine Within.of_ok (unifyOr_of_ok hrun) (.of_types (hevolves.ok hrun).1.toEvolves)
      ⟨rfl, fun reading hreads => ?_, ?_⟩
    · exact ((hadded reading).mp hreads).2
    · exact fun reading _ hreads heq => ⟨reading, (hadded reading).mpr ⟨hreads, heq⟩, .refl, rfl⟩
  | error reason types =>
    obtain ⟨-, hfailure, hnone⟩ := hunify.error hrun
    cases reason with
    | fault f => exact hfailure.elim
    | failure clash =>
      exact Within.of_error (unifyOr_of_clash hrun) (.of_types (hevolves.error hrun).1.toEvolves)
        ⟨⟨_, rfl, href clash⟩, fun reading _ => hnone reading⟩

theorem unify_principal (hwf : s.types.WellFormed) (span : Span) {a b : TypeId} (ha : Inside a s)
    (hb : Inside b s) :
    Principal n (unify span a b) s (fun reading _ => reading a = reading b) fun _ s' => s'.scopes = s.scopes :=
  unifyOr_principal hwf (fun clash => by cases clash <;> simp [Clash.diagnostic]) ha hb

/-- A new function type has the tree that its parts make. -/
theorem function_principal (hwf : s.types.WellFormed) {params : List TypeId} {result : TypeId}
    (hparams : ∀ a ∈ params, Inside a s) (hresult : Inside result s) :
    Principal n (create (Store.function params result)) s
      (fun reading t => t = Tree.function (params.map reading) (reading result)) Inside := by
  have hparts : ∀ a ∈ params ++ [result], Inside a s := by
    intro a ha
    rcases List.mem_append.mp ha with ha | ha
    · exact hparams a ha
    · exact List.mem_singleton.mp ha ▸ hresult
  refine (operator_principal hwf rfl (by simp [Constructor.Takes]) hparts).congr fun reading t _ => ?_
  rw [List.map_append, List.map_singleton]
  rfl

/-! ### Results that are expected -/

/-- Two types are made equal, and a type that is there is the answer. -/
theorem unifyThen_principal (hwf : s.types.WellFormed) (span : Span) {a b answer : TypeId} (ha : Inside a s)
    (hb : Inside b s) (hanswer : Inside answer s) :
    Principal n (do unify span a b; Pure.pure answer) s
      (fun reading t => reading a = reading b ∧ t = reading answer) Inside := by
  exact (unify_principal hwf span ha hb).andThen (fun hagree ht => ht.trans (by rw [hagree answer hanswer]))
    fun s₁ hs₁ => .pure hs₁.types.wf (hs₁.types.lt hanswer)

/-- **A result that has to be equal to a type that is there**: the answer to the first run is known. -/
theorem Principal.expect {m : InferM TypeId} {condition : (TypeId → Tree) → Tree → Prop}
    {P : (TypeId → Tree) → δ → Prop} {next : InferM γ} {R : γ → Inference → Prop} (span : Span)
    {expected : TypeId} (hexpected : Inside expected s) (h : Principal n m s condition Inside)
    (hlocal : ∀ {reading reading' d}, s.types.Agree reading reading' → P reading d → P reading' d)
    (hnext : ∀ s₁, Follows n s s₁ → Principal n next s₁ P R) :
    Principal n (do let ty ← m; unify span expected ty; next) s
      (fun reading d => condition reading (reading expected) ∧ P reading d) R := by
  refine (h.bind (P := fun reading t d => reading expected = t ∧ P reading d) ?_ ?_).congr fun reading d _ => ?_
  · rintro reading reading' t d hagree ⟨ht, hd⟩
    exact ⟨(hagree expected hexpected).trans ht, hlocal hagree hd⟩
  · intro ty s₁ hs₁ hty
    exact (unify_principal hs₁.types.wf span (hs₁.types.lt hexpected) hty).andThen
      (fun hagree => hlocal fun a ha => hagree a (hs₁.types.lt ha)) fun s₂ hs₂ => hnext s₂ (hs₁.trans hs₂)
  · constructor
    · rintro ⟨_, hcondition, rfl, hd⟩
      exact ⟨hcondition, hd⟩
    · rintro ⟨hcondition, hd⟩
      exact ⟨_, hcondition, rfl, hd⟩

/-- **An application** asks that what is called has the tree of a function of the arguments. The tree of the result
    is not asked for in advance; it is the answer. -/
theorem application_principal (hwf : s.types.WellFormed) (span : Span) {callee : TypeId} {args : List TypeId}
    (hcallee : Inside callee s) (hargs : ∀ a ∈ args, Inside a s) :
    Principal n (do
      let result ← create Store.newVar
      let expected ← create (Store.function args result)
      unify span callee expected
      Pure.pure result) s (fun reading t => reading callee = Tree.function (args.map reading) t) Inside := by
  refine (Principal.bind (P := fun reading result t => ∃ expected,
    expected = Tree.function (args.map reading) result ∧ reading callee = expected ∧ t = result)
    (newVar_principal hwf) ?_ ?_).congr ?_
  · intro reading reading' result t hagree
    rw [hagree callee hcallee, hagree.map hargs]
    exact id
  · rintro result s₁ hs₁ ⟨hresult, -⟩
    have hcallee₁ : Inside callee s₁ := hs₁.types.lt hcallee
    refine Principal.bind (P := fun reading expected t => reading callee = expected ∧ t = reading result)
      (function_principal hs₁.types.wf (fun a ha => hs₁.types.lt (hargs a ha)) hresult) ?_ ?_
    · intro reading reading' expected t hagree
      rw [hagree callee hcallee₁, hagree result hresult]
      exact id
    · intro expected s₂ hs₂ hexpected
      exact unifyThen_principal hs₂.types.wf span (hs₂.types.lt hcallee₁) hexpected (hs₂.types.lt hresult)
  · intro reading t _
    constructor
    · rintro ⟨result, -, _, rfl, ht, rfl⟩
      exact ht
    · intro ht
      exact ⟨t, trivial, _, rfl, ht, rfl⟩

/-- **An instance** of a type whose variables are all pinned has the tree of the type. -/
theorem instantiate_principal (hwf : s.types.WellFormed) {pinned : List TypeId}
    (hpinned : ∀ p ∈ pinned, Inside p s) {ty : TypeId} (hty : s.types.Covered ∅ pinned ty) :
    Principal n (instantiate pinned ty) s (fun reading t => t = reading ty) Inside := by
  have hclears : ∀ p ∈ pinned, s.types.Clear ∅ p := fun p hp => ⟨hpinned p hp, by simp⟩
  obtain ⟨copy, types, hcopy, hgrows, hclear, hinstance⟩ := hwf.instantiate_eq_ok (by simp) hclears hty
  have hrun : instantiate pinned ty s = .ok copy { s with types } := by
    rw [instantiate_run, hcopy]
    rfl
  -- Nothing is hidden, so the copy and the type have one tree.
  have htree : types.tree copy = types.tree ty := by
    obtain ⟨σ, hσ, htree⟩ := hinstance types (.refl hgrows.wf)
    rw [htree, Tree.subst_eq_self fun v _ => hσ v (by simp)]
  have hvalue : ∀ reading, types.Reads reading → reading copy = reading ty := by
    intro reading hreads
    have h := fun (a : TypeId) (ha : a.index < types.size) => hgrows.wf.grounded.value_eq hreads (fun _ _ => rfl) ha
    rw [← h copy hclear.lt, ← h ty (hgrows.toEvolves.lt hty.1), Store.value, htree, Store.value]
  refine .of_grows hrun hgrows hclear.lt ⟨fun reading hreads => hvalue reading hreads, ?_⟩
  rintro reading b hreads rfl
  obtain ⟨hreads', hagree⟩ := hgrows.reads hwf hreads
  exact ⟨_, hreads', hagree, (hvalue _ hreads').trans (hagree ty hty.1)⟩

/-! ## Operators -/

/-- **A unary operator** asks for its operand's tree. -/
theorem inferUnary_principal (hwf : s.types.WellFormed) (op : UnaryOp) {operand : TypeId}
    (hoperand : Inside operand s) (span : Span) :
    Principal n (inferUnary op operand span) s
      (fun reading t => reading operand = op.tree ∧ t = op.tree) Inside := by
  obtain ⟨shown, hshown⟩ := hwf.grounded.exists_display hoperand
  obtain ⟨con, hcon, htree⟩ := op.exists_type
  have hread : ∀ {types : Store} {reading}, types.WellFormed → types.Reads reading → reading op.type = op.tree :=
    fun hwf hreads => (hreads.primitive hwf hcon).trans htree.symm
  refine Within.bind_of_ok (Guard.query_eq_ok hshown) ?_
  have hexpected : Inside op.type s := lt_of_get (hwf.primitives _ _ hcon)
  refine ((unifyOr_principal hwf (fun _ => by simp) hoperand hexpected).andThen
    (P := fun _ t => t = op.tree) (fun _ h => h) fun s₁ hs₁ => ?_).congr fun reading t hreads => ?_
  · refine (Principal.pure hs₁.types.wf (hs₁.types.lt hexpected)).congr fun reading t hreads => ?_
    rw [← hread hs₁.types.wf hreads]
    rfl
  · rw [hread hwf hreads]

/-- **A binary operator** asks that its operands have one tree, and which one it is. -/
theorem inferBinary_principal (hwf : s.types.WellFormed) (op : BinaryOp) {left right : TypeId}
    (hleft : Inside left s) (hright : Inside right s) (span : Span) :
    Principal n (inferBinary op left right span) s (fun reading t => reading left = reading right ∧
      (∀ v, op.operandTree? = some v → reading left = v) ∧ t = op.resultTree) Inside := by
  obtain ⟨shownLeft, hshownLeft⟩ := hwf.grounded.exists_display hleft
  obtain ⟨shownRight, hshownRight⟩ := hwf.grounded.exists_display hright
  obtain ⟨con, hcon, htree⟩ := op.exists_resultType
  have hresult : ∀ {s₁ : Inference}, s₁.types.WellFormed →
      Principal n (Pure.pure op.resultType : InferM TypeId) s₁ (fun _ t => t = op.resultTree) Inside := by
    intro s₁ hwf₁
    refine (Principal.pure hwf₁ (lt_of_get (hwf₁.primitives _ _ hcon))).congr fun reading t hreads => ?_
    rw [htree, ← hreads.primitive hwf₁ hcon]
    rfl
  unfold inferBinary
  refine Within.bind_of_ok (Guard.query_eq_ok hshownLeft)
    (Within.bind_of_ok (Guard.query_eq_ok hshownRight) ?_)
  -- What the operator asks of its operands: to be alike, or each to be of one type.
  cases hoperand : op.operandType? with
  | none =>
    refine ((unifyOr_principal hwf (fun _ => by simp) hleft hright).andThen (fun _ h => h)
      fun s₁ hs₁ => hresult hs₁.types.wf).congr fun reading t _ => ?_
    simp [op.operandTree?_eq_none hoperand]
  | some expected =>
    obtain ⟨con', hcon', htree'⟩ := BinaryOp.exists_operandType hoperand
    have hexpected : Inside expected s := lt_of_get (hwf.primitives _ _ hcon')
    refine ((unifyOr_principal hwf (fun _ => by simp) hleft hexpected).andThen
      (P := fun reading t => reading right = reading expected ∧ t = op.resultTree) ?_ fun s₁ hs₁ => ?_).congr ?_
    · intro reading reading' t hagree
      rw [hagree right hright, hagree expected hexpected]
      exact id
    · exact (unifyOr_principal hs₁.types.wf (fun _ => by simp) (hs₁.types.lt hright)
        (hs₁.types.lt hexpected)).andThen (fun _ h => h) fun s₂ hs₂ => hresult hs₂.types.wf
    · intro reading t hreads
      rw [hreads.primitive hwf hcon', htree']
      constructor
      · rintro ⟨hl, hr, ht⟩
        exact ⟨hl.trans hr.symm, fun v hv => Option.some.inj hv ▸ hl, ht⟩
      · rintro ⟨heq, hv, ht⟩
        exact ⟨hv _ rfl, heq ▸ hv _ rfl, ht⟩

end TypeInference
