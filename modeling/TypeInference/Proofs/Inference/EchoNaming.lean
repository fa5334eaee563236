import TypeInference.Proofs.Inference.Companion
import TypeInference.Proofs.Inference.Statement
import TypeInference.Proofs.Scoping.Relocation

/-!
# `Proofs.Inference.EchoNaming` — names get types in the companion's run

Signatures ask of which kinds names are, and so mean the same in the companion's scopes. A name that gets a type in
the first run has none there before; nor has it in the companion's scopes, and it gets the type that is linked.
The functions of a list of statements have different types in either run, so that in either run one of them is
settled by taking away its type.

## Contents
* `Signature.denote_echoes`, `denoteOrNew_echoes`, `paramTypes_echoes` — signatures;
* `nameAll_echoes`, `setParamTypes_echoes` — names one after another;
* `Foretold`, `predeclareAll_echoes` — declarations.
-/

namespace TypeInference

open Store Scopes InferM Guard

variable {R : Relocation} {F : Store} {G : Guard} {s s' : Inference} {w w' : Companion} {scope own : ScopeId}
  {ty : TypeId} {tys : List TypeId}

/-! ## Signatures -/

/-- A name in place of a type means a type of the same kind in the scope that has moved, and its type is linked. -/
theorem Ident.denote_echoes (h : G.Admits s) (hscope : scope ∈ G.visible) (id : Ident)
    (hrun : id.denote scope s = .ok ty s') (hF : Evolves G.hidden s'.types F) (hb : Beside R F s w) :
    Echoed R F s' w (id.denote (R.move scope)) fun w' ty' => w'.links ty ty' := by
  cases hprimitive : primitive? id.name with
  | some found =>
    rw [Ident.denote, hprimitive] at hrun ⊢
    cases hrun
    obtain ⟨con, hcon, -⟩ := primitive?_eq_some hprimitive
    exact .pure hb (hb.primitive hcon)
  | none =>
    rw [Ident.denote, hprimitive] at hrun ⊢
    obtain ⟨⟨owner, symbol⟩, s₁, -, -, ⟨rfl, hlookup, -, -⟩, hrest⟩ :=
      (h.resolve (r := false) hscope id).exists_of_run hrun
    obtain ⟨symbol', hresolve, htwins⟩ := hb.resolve hlookup
    refine .skip hresolve ?_
    dsimp only at hrest ⊢
    rw [htwins.kind_eq]
    cases hkind : symbol.kind.isType with
    | true =>
      rw [hkind] at hrest
      exact hb.operator h.wf (by exact rfl) .nil hrest hF
    | false =>
      rw [hkind] at hrest
      cases hrest

mutual

/-- **A signature** means the same: the types made for it are linked, part by part. By recursion on the signature. -/
theorem Signature.denote_echoes (hscope : scope ∈ G.visible) : ∀ (signature : Signature) {ty : TypeId}
    {s s' : Inference} {w : Companion}, G.Admits s → signature.denote scope s = .ok ty s' →
    Evolves G.hidden s'.types F → Beside R F s w →
    Echoed R F s' w (signature.denote (R.move scope)) fun w' ty' => w'.links ty ty'
  | .name id, ty, s, s', w, h, hrun, hF, hb => by
    rw [Signature.denote] at hrun ⊢
    exact id.denote_echoes h hscope hrun hF hb
  | .list _ element, ty, s, s', w, h, hrun, hF, hb => by
    rw [Signature.denote] at hrun ⊢
    obtain ⟨a, s₁, hfirst, h₁, ⟨hclear₁, -⟩, hrun⟩ :=
      (element.denote_allows (r := false) hscope h).exists_of_run hrun
    have hF₁ := (evolves_of_operator h₁.types.wf (by exact rfl) (by simpa using hclear₁.lt) hrun).trans hF
    refine (element.denote_echoes hscope h hfirst hF₁ hb).bind fun a' w₁ _ hb₁ ha => ?_
    exact hb₁.operator h₁.types.wf (by exact rfl) (.cons ha .nil) hrun hF
  | .map _ key value, ty, s, s', w, h, hrun, hF, hb => by
    rw [Signature.denote] at hrun ⊢
    obtain ⟨k, s₁, hkeyRun, h₁, ⟨hclear₁, -⟩, hrun⟩ := (key.denote_allows (r := false) hscope h).exists_of_run hrun
    have hadmits₁ := h.step h₁
    obtain ⟨v, s₂, hvalueRun, h₂, ⟨hclear₂, -⟩, hrun⟩ :=
      (value.denote_allows (r := false) hscope hadmits₁).exists_of_run hrun
    have hF₂ := (evolves_of_operator h₂.types.wf (by exact rfl)
      (by simpa using ⟨h₂.types.lt hclear₁.lt, hclear₂.lt⟩) hrun).trans hF
    refine (key.denote_echoes hscope h hkeyRun (h₂.types.trans hF₂) hb).bind fun k' w₁ _ hb₁ hk => ?_
    refine (value.denote_echoes hscope hadmits₁ hvalueRun hF₂ hb₁).bind fun v' w₂ hle₂ hb₂ hv => ?_
    exact hb₂.operator h₂.types.wf (by exact rfl) (.cons (hle₂.link hk) (.cons hv .nil)) hrun hF
  | .tuple _ elements, ty, s, s', w, h, hrun, hF, hb => by
    rw [Signature.denote] at hrun ⊢
    obtain ⟨as, s₁, hfirst, h₁, ⟨hclear₁, -⟩, hrun⟩ :=
      (denoteAll_allows (r := false) hscope elements h).exists_of_run hrun
    have hF₁ := (evolves_of_operator h₁.types.wf (by exact rfl) (fun a ha => (hclear₁ a ha).lt) hrun).trans hF
    refine (denoteAll_echoes hscope elements h hfirst hF₁ hb).bind fun as' w₁ _ hb₁ has => ?_
    unfold Store.tuple
    rw [← has.length_eq]
    exact hb₁.operator h₁.types.wf (by exact rfl) has hrun hF
  | .function _ params result, ty, s, s', w, h, hrun, hF, hb => by
    rw [Signature.denote] at hrun ⊢
    obtain ⟨ps, s₁, hparamsRun, h₁, ⟨hclear₁, -⟩, hrun⟩ :=
      (denoteAll_allows (r := false) hscope params h).exists_of_run hrun
    have hadmits₁ := h.step h₁
    obtain ⟨a, s₂, hresultRun, h₂, ⟨hclear₂, -⟩, hrun⟩ :=
      (result.denote_allows (r := false) hscope hadmits₁).exists_of_run hrun
    have hF₂ := (evolves_of_function h₂.types.wf (fun p hp => h₂.types.lt (hclear₁ p hp).lt) hclear₂.lt hrun).trans hF
    refine (denoteAll_echoes hscope params h hparamsRun (h₂.types.trans hF₂) hb).bind fun ps' w₁ _ hb₁ hps =>
      ?_
    refine (result.denote_echoes hscope hadmits₁ hresultRun hF₂ hb₁).bind fun a' w₂ hle₂ hb₂ ha => ?_
    exact hb₂.function h₂.types.wf (hle₂.all hps) ha hrun hF

/-- Signatures side by side, each in the state that the one before it has left. -/
theorem denoteAll_echoes (hscope : scope ∈ G.visible) : ∀ (signatures : List Signature) {tys : List TypeId}
    {s s' : Inference} {w : Companion}, G.Admits s → denoteAll scope signatures s = .ok tys s' →
    Evolves G.hidden s'.types F → Beside R F s w →
    Echoed R F s' w (denoteAll (R.move scope) signatures) fun w' tys' => List.Forall₂ w'.links tys tys'
  | [], tys, s, s', w, h, hrun, hF, hb => by
    rw [denoteAll] at hrun ⊢
    cases hrun
    exact .pure hb .nil
  | signature :: rest, tys, s, s', w, h, hrun, hF, hb => by
    rw [denoteAll] at hrun ⊢
    obtain ⟨a, s₁, hfirst, h₁, -, hrun⟩ := (signature.denote_allows (r := false) hscope h).exists_of_run hrun
    have hadmits₁ := h.step h₁
    obtain ⟨as, s₂, hsecond, h₂, -, hrun⟩ := (denoteAll_allows (r := false) hscope rest hadmits₁).exists_of_run hrun
    cases hrun
    refine (signature.denote_echoes hscope h hfirst (h₂.types.trans hF) hb).bind fun a' w₁ _ hb₁ ha => ?_
    refine (denoteAll_echoes hscope rest hadmits₁ hsecond hF hb₁).bind fun as' w₂ hle₂ hb₂ has => ?_
    exact .pure hb₂ (.cons (hle₂.link ha) has)

end

/-! ### Types of parameters -/

/-- The written type, or a new variable on both sides. -/
theorem denoteOrNew_echoes (h : G.Admits s) (hscope : scope ∈ G.visible) (signature : Option Signature)
    (hrun : denoteOrNew scope signature s = .ok ty s') (hF : Evolves G.hidden s'.types F) (hb : Beside R F s w) :
    Echoed R F s' w (denoteOrNew (R.move scope) signature) fun w' ty' => w'.links ty ty' := by
  cases signature with
  | none => exact hb.newVar h.wf hrun hF
  | some signature => exact signature.denote_echoes hscope h hrun hF hb

theorem paramTypes_echoes (hscope : scope ∈ G.visible) : ∀ (params : List Param) {tys : List TypeId}
    {s s' : Inference} {w : Companion}, G.Admits s → paramTypes scope params s = .ok tys s' →
    Evolves G.hidden s'.types F → Beside R F s w →
    Echoed R F s' w (paramTypes (R.move scope) params) fun w' tys' => List.Forall₂ w'.links tys tys'
  | [], tys, s, s', w, h, hrun, hF, hb => by
    rw [paramTypes] at hrun ⊢
    cases hrun
    exact .pure hb .nil
  | p :: rest, tys, s, s', w, h, hrun, hF, hb => by
    rw [paramTypes] at hrun ⊢
    obtain ⟨a, s₁, hfirst, h₁, -, hrun⟩ := (denoteOrNew_allows (r := false) h hscope p.signature).exists_of_run hrun
    have hadmits₁ := h.step h₁
    obtain ⟨as, s₂, hsecond, h₂, -, hrun⟩ := (paramTypes_allows (r := false) hscope rest hadmits₁).exists_of_run hrun
    cases hrun
    refine (denoteOrNew_echoes h hscope p.signature hfirst (h₂.types.trans hF) hb).bind fun a' w₁ _ hb₁ ha => ?_
    refine (paramTypes_echoes hscope rest hadmits₁ hsecond hF hb₁).bind fun as' w₂ hle₂ hb₂ has => ?_
    exact .pure hb₂ (.cons (hle₂.link ha) has)

/-! ## Names one after another -/

/-- **A name gets its type** on both sides. It had none before, and so it has none in the companion's scopes. -/
theorem Nameable.setType_echoes {name : String} {ty' : TypeId} {u : Unit} (hname : Nameable G own [name] s)
    (ht : G.tidy) (h : G.Admits s) (hb : Beside R F s w) (hty : w.links ty ty')
    (hrun : setType own name ty s = .ok u s') :
    Echoed R F s' w (setType (R.move own) name ty') fun w' _ =>
      w'.state.scopes.typeAt (R.move own) name = some ty' := by
  obtain ⟨symbol, hsymbol⟩ := Option.isSome_iff_exists.mp (hname.there name List.mem_cons_self)
  obtain ⟨symbol', hsymbol', -⟩ := h.shape.symbol hsymbol
  exact hb.setType hsymbol' (hname.untyped ht name List.mem_cons_self) hty hrun

/-- Written types, recorded for names one after another. By induction on the names: those that are left still have
    no types. -/
theorem nameAll_echoes (ht : G.tidy) : ∀ (written : List (String × Option Signature)) {tys : List TypeId}
    {s s' : Inference} {w : Companion}, G.Admits s → Nameable G own (written.map Prod.fst) s →
    nameAll own written s = .ok tys s' → Evolves G.hidden s'.types F → Beside R F s w →
    Echoed R F s' w (nameAll (R.move own) written) fun w' tys' => List.Forall₂ w'.links tys tys'
  | [], tys, s, s', w, h, hname, hrun, hF, hb => by
    rw [nameAll] at hrun ⊢
    cases hrun
    exact .pure hb .nil
  | (name, signature) :: rest, tys, s, s', w, h, hname, hrun, hF, hb => by
    rw [nameAll] at hrun ⊢
    obtain ⟨a, s₁, hfirst, h₁, ⟨hclear₁, hscopes₁, -⟩, hrun⟩ :=
      (denoteOrNew_allows (r := false) h hname.visible signature).exists_of_run hrun
    have hadmits₁ := h.step h₁
    obtain ⟨hone₁, hrest₁⟩ := hname.first hscopes₁
    obtain ⟨u, s₂, hset, h₂, ⟨-, hnamed₂⟩, hrun⟩ :=
      (setType_named (r := false) hadmits₁ hone₁ hclear₁).exists_of_run hrun
    have hadmits₂ := hadmits₁.step h₂
    have hrest₂ := hrest₁ hnamed₂
    obtain ⟨as, s₃, hsecond, h₃, -, hrun⟩ := (nameAll_allows (r := false) rest hadmits₂ hrest₂).exists_of_run hrun
    cases hrun
    have hF₂ := h₃.types.trans hF
    refine (denoteOrNew_echoes h hname.visible signature hfirst (h₂.types.trans hF₂) hb).bind
      fun a' w₁ _ hb₁ ha => ?_
    refine (hone₁.setType_echoes ht hadmits₁ hb₁ ha hset).bind fun _ w₂ hle₂ hb₂ _ => ?_
    refine (nameAll_echoes ht rest hadmits₂ hrest₂ hsecond hF hb₂).bind fun as' w₃ hle₃ hb₃ has => ?_
    exact .pure hb₃ (.cons (hle₃.link (hle₂.link ha)) has)

/-! ### Parameters -/

/-- The parameters of a lambda get the types that are written, or new ones. -/
theorem typeParams_echoes (ht : G.tidy) (params : List Param) (h : G.Admits s)
    (hname : Nameable G own (namesOf (Param.symbols params)) s) (hrun : typeParams own params s = .ok tys s')
    (hF : Evolves G.hidden s'.types F) (hb : Beside R F s w) :
    Echoed R F s' w (typeParams (R.move own) params) fun w' tys' => List.Forall₂ w'.links tys tys' := by
  have hnames : namesOf (Param.symbols params) =
      (params.map fun p => (p.name.name, p.signature)).map Prod.fst := by
    simp [namesOf, Param.symbols]
  rw [typeParams_eq] at hrun ⊢
  exact nameAll_echoes ht _ h (hnames ▸ hname) hrun hF hb

/-- The parameters of a function get the parts of its type, which have been made before. -/
theorem setParamTypes_echoes (ht : G.tidy) : ∀ (params : List Param) {tys tys' : List TypeId} {u : Unit}
    {s s' : Inference} {w : Companion}, G.Admits s → params.length = tys.length →
    (∀ ty ∈ tys, s.types.Clear G.hidden ty) → Nameable G own (namesOf (Param.symbols params)) s →
    List.Forall₂ w.links tys tys' → setParamTypes own params tys s = .ok u s' → Beside R F s w →
    Echoed R F s' w (setParamTypes (R.move own) params tys') fun _ _ => True
  | [], tys, tys', u, s, s', w, h, hlength, hclear, hname, hlinks, hrun, hb => by
    obtain rfl := List.eq_nil_of_length_eq_zero hlength.symm
    obtain rfl := List.forall₂_nil_left_iff.mp hlinks
    cases hrun
    exact .pure hb trivial
  | p :: params, tys, tys', u, s, s', w, h, hlength, hclear, hname, hlinks, hrun, hb => by
    obtain ⟨ty, tys, rfl⟩ := List.exists_cons_of_length_eq_add_one hlength.symm
    obtain ⟨ty', rest', hty, hrest, rfl⟩ := List.forall₂_cons_left_iff.mp hlinks
    obtain ⟨hclear, hclears⟩ := List.forall_mem_cons.mp hclear
    rw [setParamTypes] at hrun ⊢
    obtain ⟨hone, hnext⟩ := hname.first rfl
    obtain ⟨u', s₁, hset, h₁, ⟨-, hnamed₁⟩, hrun⟩ := (setType_named (r := false) h hone hclear).exists_of_run hrun
    refine (hone.setType_echoes ht h hb hty hset).bind fun _ w₁ hle₁ hb₁ _ => ?_
    exact setParamTypes_echoes ht params (h.step h₁) (Nat.succ.inj hlength)
      (fun a ha => h₁.types.clear h.wf (hclears a ha)) (hnext hnamed₁) (hle₁.all hrest) hrun hb₁

/-! ## Declarations -/

/-- What the companion's names have got: its variables have linked types, and its functions new ones that differ
    from each other. The functions' types need not be those that the links give, as it only matters that they can be
    told apart. -/
structure Foretold (R : Relocation) (own : ScopeId) (names : List String) (pins pins' : Pins)
    (w w' : Companion) : Prop where
  vars : List.Forall₂ w'.links pins.vars pins'.vars
  functions : List.Forall₂ (fun name ty => w'.state.scopes.typeAt (R.move own) name = some ty) names pins'.functions
  nodup : pins'.functions.Nodup
  new : ∀ ty ∈ pins'.functions, w.state.types.size ≤ ty.index ∧ ty.index < w'.state.types.size

/-- Without functions only variables have to be linked. -/
theorem Foretold.nil {vars vars' : List TypeId} (hvars : List.Forall₂ w'.links vars vars') :
    Foretold R own [] ⟨vars, []⟩ ⟨vars', []⟩ w w' :=
  ⟨hvars, .nil, List.nodup_nil, List.forall_mem_nil _⟩

/-- **Declarations one after another.** The functions of the second list are newer than those of the first, so all
    of them differ. -/
theorem Foretold.append {w₁ : Companion} {names names₁ : List String} {pins pins' pins₁ pins₁' : Pins}
    (h : Foretold R own names pins pins' w w₁) (hle : w.Le w₁) (h₁ : Foretold R own names₁ pins₁ pins₁' w₁ w')
    (hle₁ : w₁.Le w') : Foretold R own (names ++ names₁) (pins.append pins₁) (pins'.append pins₁') w w' where
  vars := List.rel_append (hle₁.all h.vars) h₁.vars
  functions := List.rel_append (h.functions.imp fun _ _ hty => hle₁.kept hty) h₁.functions
  nodup := List.nodup_append.mpr ⟨h.nodup, h₁.nodup, fun ty hty ty' hty' he =>
    Nat.lt_irrefl _ (((h.new ty hty).2.trans_le (h₁.new ty' hty').1).trans_eq (he ▸ rfl))⟩
  new := fun ty hty => (List.mem_append.mp hty).elim
    (fun hty => ⟨(h.new ty hty).1, (h.new ty hty).2.trans_le hle₁.size_le⟩)
    fun hty => ⟨hle.size_le.trans (h₁.new ty hty).1, (h₁.new ty hty).2⟩

/-! ### Declarations on both sides -/

/-- **A declaration** gets its types on both sides, by cases on its kind. -/
theorem Declaration.predeclare_echoes (ht : G.tidy) (h : G.Admits s) : ∀ (decl : Declaration) {pins : Pins},
    Nameable G own (namesOf decl.symbols) s → decl.predeclare own s = .ok pins s' → Evolves G.hidden s'.types F →
    Beside R F s w →
    Echoed R F s' w (decl.predeclare (R.move own)) fun w' pins' =>
      Foretold R own (functionNames [decl]) pins pins' w w'
  | .vars kind defs, pins, hname, hrun, hF, hb => by
    have hnames : namesOf (Declaration.vars kind defs).symbols =
        (defs.map fun d => (d.name.name, d.signature)).map Prod.fst := by
      simp [namesOf, Declaration.symbols]
    rw [hnames] at hname
    rw [Declaration.predeclare, predeclareVars_eq] at hrun ⊢
    obtain ⟨tys, s₁, hnaming, -, -, hrun⟩ := (nameAll_allows (r := false) _ h hname).exists_of_run hrun
    cases hrun
    refine (nameAll_echoes ht _ h hname hnaming hF hb).bind fun tys' w₁ _ hb₁ hlinks => ?_
    exact .pure hb₁ (.nil hlinks)
  | .function name params result, pins, hname, hrun, hF, hb => by
    have hscope := hname.visible
    rw [Declaration.predeclare] at hrun ⊢
    obtain ⟨tys, s₁, hparamsRun, h₁, ⟨hclear₁, hscopes₁, -⟩, hrun⟩ :=
      (paramTypes_allows (r := false) hscope params h).exists_of_run hrun
    have hadmits₁ := h.step h₁
    obtain ⟨res, s₂, hresultRun, h₂, ⟨hclear₂, hscopes₂, -⟩, hrun⟩ :=
      (denoteOrNew_allows (r := false) hadmits₁ hscope result).exists_of_run hrun
    have hadmits₂ := hadmits₁.step h₂
    obtain ⟨ty, s₃, hfunction, h₃, ⟨hclear₃, hscopes₃, -⟩, hrun⟩ := (hadmits₂.function (r := false)
      (fun a ha => h₂.types.clear h₁.types.wf (hclear₁ a ha)) hclear₂).exists_of_run hrun
    have hadmits₃ := hadmits₂.step h₃
    -- No scope has changed since, so the name still has no type.
    obtain ⟨hone, -⟩ := hname.first (hscopes₃.trans (hscopes₂.trans hscopes₁))
    obtain ⟨u, s₄, hset, h₄, -, hrun⟩ := (setType_named (r := false) hadmits₃ hone hclear₃).exists_of_run hrun
    cases hrun
    have hF₃ := h₄.types.trans hF
    have hF₂ := h₃.types.trans hF₃
    refine (paramTypes_echoes hscope params h hparamsRun (h₂.types.trans hF₂) hb).bind fun tys' w₁ hle₁ hb₁ htys => ?_
    refine (denoteOrNew_echoes hadmits₁ hscope result hresultRun hF₂ hb₁).bind fun res' w₂ hle₂ hb₂ hres => ?_
    -- The companion makes its own function type, of linked parts.
    have hargs := List.rel_append (hle₂.all htys) (.cons hres .nil)
    refine (hb₂.create h₂.types.wf rfl rfl (.op hargs) (by simp [Node.Fits, Constructor.Takes]) hfunction hF₃).bind
      fun ty' w₃ hle₃ hb₃ hafter => ?_
    obtain ⟨hty, hnew⟩ := hafter
    refine (hone.setType_echoes ht hadmits₃ hb₃ hty hset).bind fun _ w₄ hle₄ hb₄ hat => ?_
    refine .pure hb₄ ⟨.nil, .cons hat .nil, List.nodup_singleton ty', List.forall_mem_singleton.mpr ⟨?_, ?_⟩⟩
    · rw [hnew]
      exact hle₁.size_le.trans hle₂.size_le
    · exact (hb₃.types.lt hty).2.trans_le hle₄.size_le
  | .type kind name, pins, hname, hrun, hF, hb => by
    rw [Declaration.predeclare] at hrun ⊢
    obtain ⟨ty, s₁, hnamed, h₁, ⟨hclear₁, hscopes₁, -⟩, hrun⟩ :=
      (h.operator (r := false) rfl (by exact rfl) (by simp)).exists_of_run hrun
    have hadmits₁ := h.step h₁
    obtain ⟨hone, -⟩ := hname.first hscopes₁
    obtain ⟨u, s₂, hset, h₂, -, hrun⟩ := (setType_named (r := false) hadmits₁ hone hclear₁).exists_of_run hrun
    cases hrun
    refine (hb.operator h.wf (by exact rfl) .nil hnamed (h₂.types.trans hF)).bind fun ty' w₁ _ hb₁ hty => ?_
    refine (hone.setType_echoes ht hadmits₁ hb₁ hty hset).bind fun _ w₂ _ hb₂ _ => ?_
    exact .pure hb₂ (.nil .nil)

/-- A statement's declaration, if it is one; otherwise neither run does anything. -/
theorem Stmt.predeclare_echoes (ht : G.tidy) (h : G.Admits s) (stmt : Stmt) {pins : Pins}
    (hname : Nameable G own (namesOf stmt.symbols) s) (hrun : stmt.predeclare own s = .ok pins s')
    (hF : Evolves G.hidden s'.types F) (hb : Beside R F s w) :
    Echoed R F s' w (stmt.predeclare (R.move own)) fun w' pins' =>
      Foretold R own (functionNames (declarations [stmt])) pins pins' w w' := by
  rw [Stmt.predeclare] at hrun ⊢
  rw [Stmt.symbols] at hname
  cases hdecl : stmt.declaration? with
  | none =>
    rw [hdecl] at hrun
    cases hrun
    have hnone : declarations [stmt] = [] := by simp [declarations, hdecl]
    rw [hnone]
    exact .pure hb (.nil .nil)
  | some decl =>
    rw [hdecl] at hrun hname
    simpa [declarations, hdecl] using decl.predeclare_echoes ht h hname hrun hF hb

/-- **All declarations of a list of statements** get their types on both sides. By induction on the list. -/
theorem predeclareAll_echoes (ht : G.tidy) : ∀ (stmts : List Stmt) {pins : Pins} {s s' : Inference} {w : Companion},
    G.Admits s → Nameable G own (namesOf (stmts.flatMap Stmt.symbols)) s →
    predeclareAll own stmts s = .ok pins s' → Evolves G.hidden s'.types F → Beside R F s w →
    Echoed R F s' w (predeclareAll (R.move own) stmts) fun w' pins' =>
      Foretold R own (functionNames (declarations stmts)) pins pins' w w'
  | [], pins, s, s', w, h, hname, hrun, hF, hb => by
    rw [predeclareAll] at hrun ⊢
    cases hrun
    exact .pure hb (.nil .nil)
  | stmt :: rest, pins, s, s', w, h, hname, hrun, hF, hb => by
    rw [predeclareAll] at hrun ⊢
    obtain ⟨hfirst, hafter⟩ := hname.stmt
    obtain ⟨pins₁, s₁, hrun₁, h₁, hpre₁, hrun⟩ := (stmt.predeclare_allows (r := false) h hfirst).exists_of_run hrun
    have hadmits₁ := h.step h₁
    have hrest := hafter hpre₁
    obtain ⟨pins₂, s₂, hrun₂, h₂, -, hrun⟩ := (predeclareAll_allows (r := false) rest hadmits₁ hrest).exists_of_run hrun
    cases hrun
    refine (stmt.predeclare_echoes ht h hfirst hrun₁ (h₂.types.trans hF) hb).bind fun pins₁' w₁ hle₁ hb₁ hpins₁ => ?_
    refine (predeclareAll_echoes ht rest hadmits₁ hrest hrun₂ hF hb₁).bind fun pins₂' w₂ hle₂ hb₂ hpins₂ => ?_
    rw [declarations_cons, functionNames_append]
    exact .pure hb₂ (hpins₁.append hle₁ hpins₂ hle₂)

/-! ## Trees at other places -/

/-- A tree declares the same names with the same types at any place, since predeclaration looks at no mark. -/
@[simp] theorem Stmt.predeclare_relocate (place : ScopeId → ScopeId) (own : ScopeId) (stmt : Stmt) :
    (stmt.relocate place).predeclare own = stmt.predeclare own := by
  cases stmt with
  | vars span kind defs =>
    show Declaration.predeclare own (.vars kind (defs.map (VarDef.relocate place))) =
      Declaration.predeclare own (.vars kind defs)
    rw [Declaration.predeclare, Declaration.predeclare, predeclareVars_eq, predeclareVars_eq, List.map_map]
    rfl
  | branch span cond body elifs otherwise => cases otherwise <;> rfl
  | _ => rfl

@[simp] theorem predeclareAll_relocate (place : ScopeId → ScopeId) (own : ScopeId) (stmts : List Stmt) :
    predeclareAll own (relocateStmts place stmts) = predeclareAll own stmts := by
  induction stmts with
  | nil => rfl
  | cons stmt rest ih => rw [relocateStmts, predeclareAll, predeclareAll, stmt.predeclare_relocate place own, ih]

/-- The functions among statements are the same at any place. -/
@[simp] theorem functionNames_relocate (place : ScopeId → ScopeId) (stmts : List Stmt) :
    functionNames (declarations (relocateStmts place stmts)) = functionNames (declarations stmts) := by
  induction stmts with
  | nil => rfl
  | cons stmt rest ih =>
    rw [relocateStmts, declarations_cons, declarations_cons stmt, functionNames_append, functionNames_append, ih]
    cases stmt with
    | branch span cond body elifs otherwise => cases otherwise <;> rfl
    | _ => rfl

end TypeInference
