import TypeInference.Inference.Denotation
import TypeInference.Inference.Operation
import TypeInference.Proofs.Inference.Steps
import TypeInference.Proofs.Typing.Rules

/-!
# `Proofs.Inference.Operation` — written types, operators and indexing

A written type has no variables, so its tree is settled when it is made. An operator makes its operands'
trees what it asks for. Indexing binds nothing: it compares what is known when the access is met, and
because trees that agree go on agreeing, what it has found stays right.
-/

namespace TypeInference

open Store Scopes InferM Guard

variable {G : Guard} {r : Bool} {s : Inference} {scope : ScopeId}

/-! ## Function types -/

/-- **A new function type** goes on being a function from its parameters to its result. -/
theorem Guard.Admits.function (h : G.Admits s) {params : List TypeId} {result : TypeId}
    (hparams : ∀ a ∈ params, s.types.Clear G.hidden a) (hresult : s.types.Clear G.hidden result) :
    G.Allows r (InferM.create (Store.function params result)) s fun ty s' => s'.types.Clear G.hidden ty ∧
      s'.scopes = s.scopes ∧ ty = ⟨s.types.size⟩ ∧ ∀ {hidden}, Henceforth hidden s'.types fun f =>
        f.tree ty = .function (params.map f.tree) (f.tree result) := by
  have hparts : ∀ a ∈ params ++ [result], s.types.Clear G.hidden a :=
    List.forall_mem_append.mpr ⟨hparams, List.forall_mem_singleton.mpr hresult⟩
  refine (h.operator rfl (by simp [Constructor.Takes]) hparts).mono fun ty s' _ ⟨hclear, hscopes, hty, htree⟩ =>
    ⟨hclear, hscopes, hty, fun f hl => ?_⟩
  show f.tree ty = _
  rw [htree f hl, List.map_append, List.map_singleton, Tree.function]

/-! ## Written types -/

/-- A primitive type stands at its number in every store, for it stands there in the first. -/
theorem primitive?_eq_some {name : String} {ty : TypeId} (h : primitive? name = some ty) :
    ∃ con, initial.get ty = .ok (.op con []) ∧ nameTree name = .app con [] := by
  unfold primitive? at h
  split at h <;> cases h
  · exact ⟨.number, rfl, rfl⟩
  · exact ⟨.bool, rfl, rfl⟩
  · exact ⟨.string, rfl, rfl⟩
  · exact ⟨.unit, rfl, rfl⟩

theorem nameTree_of_none {name : String} (h : primitive? name = none) : nameTree name = .named name := by
  unfold nameTree
  split <;> first | rfl | cases h

/-- The tree of a primitive type is the constructor alone. -/
theorem tree_primitive {types : Store} (hwf : types.WellFormed) {ty : TypeId} {con : Constructor}
    (h : initial.get ty = .ok (.op con [])) : types.tree ty = .app con [] := by
  rw [hwf.grounded.tree_op (hwf.primitives _ _ h), List.map_nil]

/-! ### Names and signatures -/

/-- **A written name has its tree** for good, or is refused. -/
theorem Ident.denote_allows (h : G.Admits s) (hscope : scope ∈ G.visible) (id : Ident) :
    G.Allows r (id.denote scope) s fun ty s' => s'.types.Clear G.hidden ty ∧ s'.scopes = s.scopes ∧
      Henceforth ∅ s'.types fun f => f.tree ty = nameTree id.name := by
  unfold Ident.denote
  split
  · next ty hprimitive =>
    obtain ⟨con, hcon, htree⟩ := primitive?_eq_some hprimitive
    exact h.pure ⟨h.clear_primitive hcon, rfl, fun f hl => (tree_primitive hl.wf hcon).trans htree.symm⟩
  · next hnone =>
    apply Allows.bind (h.resolve hscope id)
    intro found s₁ h₁ hafter
    obtain ⟨hs, _⟩ := hafter
    subst hs
    by_cases htype : found.2.kind.isType = true
    · simp only [htype, ↓reduceIte]
      refine (h.operator rfl (by exact rfl) (by simp)).mono fun ty s' _ ⟨hclear, hscopes, _, htree⟩ =>
        ⟨hclear, hscopes, ?_⟩
      exact fun f hl => (htree f hl).trans (nameTree_of_none hnone).symm
    · simp only [htype]
      exact h.refuse (by simp) _

mutual

/-- **A written type has its tree** for good. By recursion on the signature: its components have no variables, so
    nothing that happens later can change them. -/
theorem Signature.denote_allows (hscope : scope ∈ G.visible) :
    ∀ (signature : Signature) {s : Inference}, G.Admits s →
    G.Allows r (signature.denote scope) s fun ty s' => s'.types.Clear G.hidden ty ∧ s'.scopes = s.scopes ∧
      Henceforth ∅ s'.types fun f => f.tree ty = signature.tree
  | .name id, s, h => by
    rw [Signature.denote]
    exact id.denote_allows h hscope
  | .list _ element, s, h => by
    rw [Signature.denote]
    apply Allows.bind (element.denote_allows hscope h)
    intro ty s₁ h₁ hafter
    obtain ⟨hclear₁, hscopes₁, htree₁⟩ := hafter
    apply ((h.step h₁).operator rfl (by exact rfl) (by simpa)).mono
    intro ty₂ s₂ h₂ hafter
    obtain ⟨hclear₂, hscopes₂, _, htree₂⟩ := hafter
    refine ⟨hclear₂, hscopes₂.trans hscopes₁, fun f hl => ?_⟩
    show f.tree ty₂ = _
    rw [htree₂ f hl, List.map_singleton, htree₁.always h₂.types f hl, Signature.tree, Tree.list]
  | .map _ key value, s, h => by
    rw [Signature.denote]
    apply Allows.bind (key.denote_allows hscope h)
    intro key₁ s₁ h₁ hafter
    obtain ⟨hclear₁, hscopes₁, htree₁⟩ := hafter
    apply Allows.bind (value.denote_allows hscope (h.step h₁))
    intro value₂ s₂ h₂ hafter
    obtain ⟨hclear₂, hscopes₂, htree₂⟩ := hafter
    have h' := (h.step h₁).step h₂
    apply (h'.operator rfl (by exact rfl) (by simpa using ⟨h₂.types.clear h₁.types.wf hclear₁, hclear₂⟩)).mono
    intro ty₃ s₃ h₃ hafter
    obtain ⟨hclear₃, hscopes₃, _, htree₃⟩ := hafter
    refine ⟨hclear₃, hscopes₃.trans (hscopes₂.trans hscopes₁), fun f hl => ?_⟩
    show f.tree ty₃ = _
    rw [htree₃ f hl, List.map_cons, List.map_singleton, (htree₁.always h₂.types).always h₃.types f hl,
      htree₂.always h₃.types f hl, Signature.tree, Tree.map]
  | .tuple _ elements, s, h => by
    rw [Signature.denote]
    apply Allows.bind (denoteAll_allows hscope elements h)
    intro tys s₁ h₁ hafter
    obtain ⟨hclear₁, hscopes₁, htree₁⟩ := hafter
    apply ((h.step h₁).operator rfl (by exact rfl) hclear₁).mono
    intro ty₂ s₂ h₂ hafter
    obtain ⟨hclear₂, hscopes₂, _, htree₂⟩ := hafter
    refine ⟨hclear₂, hscopes₂.trans hscopes₁, fun f hl => ?_⟩
    show f.tree ty₂ = _
    have hlength : tys.length = (treesOf elements).length := by
      rw [← htree₁.always h₂.types f hl, List.length_map]
    rw [htree₂ f hl, htree₁.always h₂.types f hl, Signature.tree, Tree.tuple, hlength]
  -- The parts of a function are made before the function, and stay as they are.
  | .function _ params result, s, h => by
    rw [Signature.denote]
    apply Allows.bind (denoteAll_allows hscope params h)
    intro tys s₁ h₁ hafter
    obtain ⟨hclear₁, hscopes₁, htree₁⟩ := hafter
    apply Allows.bind (result.denote_allows hscope (h.step h₁))
    intro ty s₂ h₂ hafter
    obtain ⟨hclear₂, hscopes₂, htree₂⟩ := hafter
    have h' := (h.step h₁).step h₂
    apply (h'.function (fun a ha => h₂.types.clear h₁.types.wf (hclear₁ a ha)) hclear₂).mono
    intro ty₃ s₃ h₃ hafter
    obtain ⟨hclear₃, hscopes₃, _, htree₃⟩ := hafter
    refine ⟨hclear₃, hscopes₃.trans (hscopes₂.trans hscopes₁), fun f hl => ?_⟩
    show f.tree ty₃ = _
    rw [htree₃ f hl, (htree₁.always h₂.types).always h₃.types f hl, htree₂.always h₃.types f hl, Signature.tree]

theorem denoteAll_allows (hscope : scope ∈ G.visible) :
    ∀ (signatures : List Signature) {s : Inference}, G.Admits s →
    G.Allows r (denoteAll scope signatures) s fun tys s' => (∀ ty ∈ tys, s'.types.Clear G.hidden ty) ∧
      s'.scopes = s.scopes ∧ Henceforth ∅ s'.types fun f => tys.map f.tree = treesOf signatures
  | [], s, h => by
    rw [denoteAll]
    exact h.pure ⟨by simp, rfl, fun _ _ => rfl⟩
  | signature :: rest, s, h => by
    rw [denoteAll]
    apply Allows.bind (signature.denote_allows hscope h)
    intro ty s₁ h₁ hafter
    obtain ⟨hclear₁, hscopes₁, htree₁⟩ := hafter
    apply Allows.bind (denoteAll_allows hscope rest (h.step h₁))
    intro tys s₂ h₂ hafter
    obtain ⟨hclear₂, hscopes₂, htree₂⟩ := hafter
    refine ((h.step h₁).step h₂).pure ⟨?_, hscopes₂.trans hscopes₁, fun f hl => ?_⟩
    · exact List.forall_mem_cons.mpr ⟨h₂.types.clear h₁.types.wf hclear₁, hclear₂⟩
    · show (ty :: tys).map f.tree = _
      rw [List.map_cons, htree₁.always h₂.types f hl, htree₂ f hl, treesOf]

end

/-- The tree of a type that may have been written. If none has, a new variable stands for it and nothing is said of
    its tree. -/
theorem denoteOrNew_allows (h : G.Admits s) (hscope : scope ∈ G.visible) (signature : Option Signature) :
    G.Allows r (denoteOrNew scope signature) s fun ty s' => s'.types.Clear G.hidden ty ∧
      s'.scopes = s.scopes ∧
      Henceforth ∅ s'.types fun f => ∀ sig, signature = some sig → f.tree ty = sig.tree := by
  cases signature with
  | none => exact h.newVar.mono fun ty s' _ ⟨hclear, hscopes⟩ => ⟨hclear, hscopes, by rintro f _ _ ⟨⟩⟩
  | some signature =>
    refine (signature.denote_allows hscope h).mono fun ty s' _ ⟨hclear, hscopes, htree⟩ =>
      ⟨hclear, hscopes, ?_⟩
    intro f hl _ hafter
    obtain ⟨⟩ := hafter
    exact htree f hl

/-! ## Operators -/

/-- What a unary operator asks for is a primitive type, and is what the typing rules say. -/
theorem UnaryOp.exists_type (op : UnaryOp) :
    ∃ con, initial.get op.type = .ok (.op con []) ∧ op.tree = .app con [] := by
  cases op
  · exact ⟨.number, rfl, rfl⟩
  · exact ⟨.number, rfl, rfl⟩
  · exact ⟨.bool, rfl, rfl⟩

/-- What a binary operator gives is a primitive type. -/
theorem BinaryOp.exists_resultType (op : BinaryOp) :
    ∃ con, initial.get op.resultType = .ok (.op con []) ∧ op.resultTree = .app con [] := by
  cases op <;> first | exact ⟨.number, rfl, rfl⟩ | exact ⟨.string, rfl, rfl⟩ | exact ⟨.bool, rfl, rfl⟩

/-- What a binary operator asks for is a primitive type, if it asks for a type at all. -/
theorem BinaryOp.exists_operandType {op : BinaryOp} {ty : TypeId} (h : op.operandType? = some ty) :
    ∃ con, initial.get ty = .ok (.op con []) ∧ op.operandTree? = some (.app con []) := by
  cases op <;> cases h <;> first | exact ⟨.number, rfl, rfl⟩ | exact ⟨.string, rfl, rfl⟩ |
    exact ⟨.bool, rfl, rfl⟩

theorem BinaryOp.operandTree?_eq_none {op : BinaryOp} (h : op.operandType? = none) :
    op.operandTree? = none := by
  cases op <;> first | rfl | cases h

/-- **A unary operator's operand** has the tree that the operator asks for. -/
theorem inferUnary_allows (h : G.Admits s) (op : UnaryOp) {operand : TypeId}
    (hclear : s.types.Clear G.hidden operand) (span : Span) :
    G.Allows r (inferUnary op operand span) s fun ty s' => s'.types.Clear G.hidden ty ∧ s'.scopes = s.scopes ∧
      Henceforth G.hidden s'.types fun f => f.tree ty = op.tree ∧ f.tree operand = op.tree := by
  obtain ⟨shown, hshown⟩ := h.wf.grounded.exists_display hclear.lt
  obtain ⟨con, hcon, htree⟩ := op.exists_type
  refine .bind_of_ok (query_eq_ok hshown) ?_
  apply Allows.bind (h.unifyOr (fun _ => by simp) hclear (h.clear_primitive hcon))
  intro _ s₁ h₁ hafter
  obtain ⟨hscopes, heq⟩ := hafter
  refine (h.step h₁).pure ⟨(h.step h₁).clear_primitive hcon, hscopes, fun f hl => ?_⟩
  have hop : f.tree op.type = op.tree := (tree_primitive hl.wf hcon).trans htree.symm
  exact ⟨hop, (heq f hl).trans hop⟩

/-- **A binary operator's operands** have one tree, and it is what the operator asks for. Equality asks for nothing
    more than that they are alike. -/
theorem inferBinary_allows (h : G.Admits s) (op : BinaryOp) {left right : TypeId}
    (hleft : s.types.Clear G.hidden left) (hright : s.types.Clear G.hidden right) (span : Span) :
    G.Allows r (inferBinary op left right span) s fun ty s' => s'.types.Clear G.hidden ty ∧
      s'.scopes = s.scopes ∧
      Henceforth G.hidden s'.types fun f =>
        f.tree ty = op.resultTree ∧ f.tree left = f.tree right ∧ ∀ u, op.operandTree? = some u →
          f.tree left = u := by
  obtain ⟨shownLeft, hshownLeft⟩ := h.wf.grounded.exists_display hleft.lt
  obtain ⟨shownRight, hshownRight⟩ := h.wf.grounded.exists_display hright.lt
  obtain ⟨con, hcon, htree⟩ := op.exists_resultType
  have hresult : ∀ {f : Store}, f.WellFormed → f.tree op.resultType = op.resultTree := fun hwf =>
    (tree_primitive hwf hcon).trans htree.symm
  unfold inferBinary
  refine .bind_of_ok (query_eq_ok hshownLeft) (.bind_of_ok (query_eq_ok hshownRight) ?_)
  cases hoperand : op.operandType? with
  | none =>
    -- No type is asked for: the operands are made equal to each other.
    apply Allows.bind (h.unifyOr (fun _ => by simp) hleft hright)
    intro _ s₁ h₁ hafter
    obtain ⟨hscopes, heq⟩ := hafter
    refine (h.step h₁).pure ⟨(h.step h₁).clear_primitive hcon, hscopes,
      fun f hl => ⟨hresult hl.wf, heq f hl, ?_⟩⟩
    rw [op.operandTree?_eq_none hoperand]
    intro _ hafter
    obtain ⟨⟩ := hafter
  | some expected =>
    obtain ⟨con', hcon', htree'⟩ := BinaryOp.exists_operandType hoperand
    -- Other operators: each operand is made equal to the type that is asked for.
    have hexpected := h.clear_primitive hcon'
    apply Allows.bind (h.unifyOr (fun _ => by simp) hleft hexpected)
    intro _ s₁ h₁ hafter
    obtain ⟨hscopes₁, heq₁⟩ := hafter
    have h' := h.step h₁
    apply Allows.bind (h'.unifyOr (fun _ => by simp) (h₁.types.clear h.wf hright) (h'.clear_primitive hcon'))
    intro _ s₂ h₂ hafter
    obtain ⟨hscopes₂, heq₂⟩ := hafter
    refine (h'.step h₂).pure ⟨(h'.step h₂).clear_primitive hcon, hscopes₂.trans hscopes₁, fun f hl => ?_⟩
    have hl₁ := heq₁.step h₂.types f hl
    refine ⟨hresult hl.wf, hl₁.trans (heq₂ f hl).symm, fun u hu => ?_⟩
    rw [htree'] at hu
    cases hu
    exact hl₁.trans (tree_primitive hl.wf hcon')

/-! ## Indexing -/

/-- A value of the tree `left` can be indexed by one of the tree `index`, and has components of the tree `t`. A
    string can be indexed by anything, as the analysis does not look at the index there. -/
inductive Indexable : Tree → Tree → Tree → Prop
  | string {index : Tree} : Indexable .string index .string
  | list {element : Tree} : Indexable (.list element) .number element
  | map {key value : Tree} : Indexable (.map key value) key value

namespace Store

variable {types : Store} {hidden : Set TypeId}

/-- Showing a type in a refusal never fails, in a well-formed store. -/
theorem refuseShowing_eq {α : Type} (hwf : types.WellFormed) {ty : TypeId} (hty : ty.index < types.size)
    (cause : String → Cause) (span : Span) :
    ∃ text, (types.refuseShowing cause ty span : Except (Halt Diagnostic) α) =
      .error (.failure ⟨cause text, span⟩) := by
  obtain ⟨text, htext⟩ := hwf.grounded.exists_display hty
  exact ⟨text, by rw [refuseShowing, htext]; rfl⟩

/-- **A component that is found** has the tree that the indexed tree tells; it goes on having it. An access that is
    refused is refused for what is known at that moment, and nothing is bound. -/
theorem access_cases (hwf : types.WellFormed) {left index : TypeId} (hleft : types.Clear hidden left)
    (hindex : types.Clear hidden index) (hstring : types.Clear hidden .string) (span indexSpan : Span) :
    (∃ ty, types.access left index span indexSpan = .ok ty ∧ types.Clear hidden ty ∧
        Henceforth hidden types fun f => Indexable (f.tree left) (f.tree index) (f.tree ty)) ∨
      ∃ reason, types.access left index span indexSpan = .error reason ∧ reason.IsRefusal := by
  have hrefuse : ∀ {ty : TypeId} {cause : String → Cause} {span : Span}, ty.index < types.size →
      (∀ text, cause text ≠ .missingScope) →
      ∃ reason, (types.refuseShowing cause ty span : Except (Halt Diagnostic) TypeId) = .error reason ∧
        reason.IsRefusal := by
    intro ty cause span hty hcause
    obtain ⟨text, hrun⟩ := @refuseShowing_eq _ TypeId hwf ty hty cause span
    exact ⟨_, hrun, _, rfl, hcause text⟩
  obtain ⟨v, hv, hoperator⟩ := hwf.grounded.operator?_eq_ok hleft.lt
  obtain ⟨isNumber, hnumber, hnumberIff⟩ := hwf.grounded.hasConstructor_eq_ok hindex.lt .number
  unfold access
  rw [hoperator]
  match v, hv with
  | .op _ .string args, hv =>
    refine .inl ⟨.string, rfl, hstring, fun f hl => ?_⟩
    obtain rfl : args = [] := List.eq_nil_of_length_eq_zero (hwf.fits hv.get_op)
    have hresult : f.tree .string = .string :=
      tree_primitive hl.wf (show initial.get .string = .ok (.op .string []) from rfl)
    show Indexable (f.tree left) (f.tree index) (f.tree .string)
    rw [hl.tree_op hv, hresult]
    exact .string
  | .op _ .list [element], hv =>
    cases isNumber with
    | true =>
      -- The index shows a number now, so it will show one later.
      obtain ⟨_, args, hop⟩ := hnumberIff.mp rfl
      obtain rfl : args = [] := List.eq_nil_of_length_eq_zero (hwf.fits hop.get_op)
      refine .inl ⟨element, by simp [View.operator?, Halt.ofQuery, hnumber],
        hleft.reaches hwf (hv.reaches_arg List.mem_cons_self), fun f hl => ?_⟩
      show Indexable (f.tree left) (f.tree index) (f.tree element)
      rw [hl.tree_op hv, hl.tree_op hop]
      exact .list
    | false =>
      refine .inr ?_
      simp only [View.operator?, Halt.ofQuery, hnumber, ok_bind]
      exact hrefuse hindex.lt (by simp)
  | .op _ .map [key, value], hv =>
    have hkey := hleft.reaches hwf (hv.reaches_arg List.mem_cons_self)
    obtain ⟨isKey, hsame, hsameIff⟩ := hwf.grounded.same_eq_ok hindex.lt hkey.lt
    cases isKey with
    | true =>
      -- The index has the tree of the keys now, and trees that agree go on agreeing.
      refine .inl ⟨value, by simp [View.operator?, Halt.ofQuery, hsame],
        hleft.reaches hwf (hv.reaches_arg (by simp)), fun f hl => ?_⟩
      show Indexable (f.tree left) (f.tree index) (f.tree value)
      rw [hl.tree_op hv, hl.tree_congr hwf hindex.lt hkey.lt (hsameIff.mp rfl)]
      exact .map
    | false =>
      refine .inr ?_
      obtain ⟨expected, hexpected⟩ := hwf.grounded.exists_display hkey.lt
      simp only [View.operator?, Halt.ofQuery, hsame, hexpected, ok_bind]
      exact hrefuse hindex.lt (by simp)
  | .var _, _ | .op _ .number _, _ | .op _ .bool _, _ | .op _ .unit _, _ | .op _ .list [], _
  | .op _ .list (_ :: _ :: _), _ | .op _ .map [], _ | .op _ .map [_], _ | .op _ .map (_ :: _ :: _ :: _), _
  | .op _ (.tuple _) _, _ | .op _ .function _, _ | .op _ (.named _) _, _ =>
    exact .inr (hrefuse hleft.lt (by simp))

end Store

/-- An access leaves the state as it is, and what it has found holds from then on. -/
theorem access_allows (h : G.Admits s) {left index : TypeId} (hleft : s.types.Clear G.hidden left)
    (hindex : s.types.Clear G.hidden index) (span indexSpan : Span) :
    G.Allows r (consult (·.access left index span indexSpan)) s fun ty s' => s' = s ∧
      s.types.Clear G.hidden ty ∧
      Henceforth G.hidden s.types fun f => Indexable (f.tree left) (f.tree index) (f.tree ty) := by
  have hstring : s.types.Clear G.hidden .string :=
    h.clear_primitive (show initial.get .string = .ok (.op .string []) from rfl)
  rcases access_cases h.wf hleft hindex hstring span indexSpan with
    ⟨ty, haccess, hclear, hindexable⟩ | ⟨reason, haccess, hrefusal⟩
  · exact .of_ok (by rw [consult_run, haccess]; rfl) (.refl h) ⟨rfl, hclear, hindexable⟩
  · exact .of_error (by rw [consult_run, haccess]; rfl) (.refl h) hrefusal

end TypeInference
