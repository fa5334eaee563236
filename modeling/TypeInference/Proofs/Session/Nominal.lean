import TypeInference.Proofs.Session.Mentions

/-!
# `Proofs.Session.Nominal` — declared types are told apart by their names

A blueprint, struct, enum or trait has a type whose constructor is the written name, and nothing else. Every use of the
name in a signature makes such a type anew. So two uses have the same type exactly if the names are written the same,
wherever they are declared: types of different names never meet, and a type that hides another of its name in a nested
scope is the same type as the hidden one.

## Contents
* `view_of_op`, `same_of_leaves`, `unify_of_leaves` — constructors without components;
* `Ident.Built` — the types that are made for a name, as they are found later on;
* `Reachable.types_nominal` — the types of two names in an accepted program.
-/

namespace TypeInference

open Scopes InferM

/-! ## Constructors without components -/

namespace Store

variable {types : Store} {a b : TypeId} {con con' : Constructor} {args : List TypeId}

/-- A constructor shows itself, as only bound variables are followed. -/
theorem view_of_op (h : types.get a = .ok (.op con args)) : types.view a = .ok (.op a con args) := by
  have hroot : types.root a = .ok a := by simp [root, walkBound, rootWithin, binding?, h]
  simp [view, hroot, h]

/-- Two constructors without components are the same type exactly if they are the same constructor. -/
theorem same_of_leaves (ha : types.get a = .ok (.op con [])) (hb : types.get b = .ok (.op con' [])) :
    types.same a b = .ok (decide (con = con')) := by
  obtain ⟨fuel, hfuel⟩ := Nat.exists_eq_succ_of_ne_zero (Nat.ne_zero_of_lt types.size_lt_pairBound)
  rw [same, hfuel, sameWithin, view_of_op ha, view_of_op hb]
  by_cases hcon : con = con' <;> simp [hcon]

theorem display_of_leaf {name : String} (h : types.get a = .ok (.op (.named name) [])) :
    types.display a = .ok name := by
  simp [display, walkBound, displayWithin, view_of_op h, Constructor.shown, Constructor.display, Constructor.text]

/-- Such types are made equal without a change if they are the same, and clash otherwise, with both names in the
    message. -/
theorem unify_of_leaves {name name' : String} (ha : types.get a = .ok (.op (.named name) []))
    (hb : types.get b = .ok (.op (.named name') [])) :
    Store.unify a b types =
      if name = name' then .ok () types else .error (.failure (.mismatch name name')) types := by
  obtain ⟨fuel, hfuel⟩ := Nat.exists_eq_succ_of_ne_zero (Nat.ne_zero_of_lt types.size_lt_pairBound)
  have hleft : UnifyM.query (·.view a) types = .ok (.op a (.named name) []) types := by
    rw [UnifyM.query, view_of_op ha]
  have hright : UnifyM.query (·.view b) types = .ok (.op b (.named name') []) types := by
    rw [UnifyM.query, view_of_op hb]
  rw [Store.unify, hfuel, UnifyM.unifyWithin, run_bind_of_ok hleft, run_bind_of_ok hright]
  dsimp only
  by_cases hname : name = name'
  · subst hname
    rw [if_pos rfl, if_pos ⟨rfl, rfl⟩]
    rfl
  · have hshown : UnifyM.query (·.display a) types = .ok name types := by
      rw [UnifyM.query, display_of_leaf ha]
    have hshown' : UnifyM.query (·.display b) types = .ok name' types := by
      rw [UnifyM.query, display_of_leaf hb]
    rw [if_neg hname, if_neg fun hcon => hname (Constructor.named.inj hcon.1), UnifyM.clash, run_bind_of_ok hshown,
      run_bind_of_ok hshown']
    rfl

end Store

/-! ## The types of names -/

/-- The type was made for the name in the scope, when the arena had this shape; and it is still kept in the store. -/
def Ident.Built (g : Scopes) (scope : ScopeId) (name : Ident) (types : Store) (ty : TypeId) : Prop :=
  ∃ s s' : Inference, SameShape g s.scopes ∧ name.denote scope s = .ok ty s' ∧ s'.types.Persists types

variable {g g' : Scopes} {scope : ScopeId} {name : Ident} {layers : List Layer}

/-- Kinds are all that matters of the arena, so one of the same shape will do. -/
theorem Ident.Built.of_sameShape {types : Store} {ty : TypeId} (h : name.Built g scope types ty) (hg : SameShape g g') :
    name.Built g' scope types ty := by
  obtain ⟨s, s', hs, hbuilt⟩ := h
  exact ⟨s, s', hg.symm.trans hs, hbuilt⟩

/-- **What is made for a declared type** is its name. The declaration plays no part but for its kind. -/
theorem Ident.Built.get {types : Store} {ty : TypeId} (h : name.Built g scope types ty)
    (hprimitive : primitive? name.name = none) : types.get ty = .ok (.op (.named name.name) []) := by
  obtain ⟨s, s', -, hrun, hpersists⟩ := h
  unfold Ident.denote at hrun
  rw [hprimitive] at hrun
  obtain ⟨found, s₁, -, hmake⟩ := exists_of_run_bind hrun
  refine hpersists.kept ?_ Node.noConfusion
  dsimp only at hmake
  split at hmake
  · cases hmake
    exact Store.get_allocate_self _ _
  · cases hmake

/-- **Types are made for two names** whose mentions are granted, one after the other, in every state with the shape of
    the arena. -/
theorem Mention.Granted.exists_built {name' : Ident} {layers' : List Layer} (ho : g.Ordered)
    (h : (Mention.type name layers).Granted g) (h' : (Mention.type name' layers').Granted g) :
    ∃ scope scope', layers.head?.bind Layer.scope = some scope ∧ layers'.head?.bind Layer.scope = some scope' ∧
      ∀ s : Inference, SameShape g s.scopes → ∃ types a b, s.types.Persists types ∧
        name.Built g scope types a ∧ name'.Built g scope' types b := by
  obtain ⟨hrefusal, scope, hl⟩ := h
  obtain ⟨hrefusal', scope', hl'⟩ := h'
  have hdenote : ∀ {name : Ident} {layers : List Layer} {scope : ScopeId}, g.Layered scope layers →
      (Mention.type name layers).refusal? = none → ∀ s : Inference, SameShape g s.scopes →
        ∃ ty s', name.denote scope s = .ok ty s' ∧ Moves (fun _ _ _ => False) s s' := by
    intro name layers scope hl hrefusal s hs
    have hnone : (typeMentions layers [name]).findSome? Mention.refusal? = none := by
      rw [typeMentions, List.map_singleton, List.findSome?_singleton, hrefusal]
    obtain ⟨ty, s', hrun, -⟩ := (name.denote_decided hl.chain ho).ends hnone s hs
    exact ⟨ty, s', hrun, ((name.denote_keeps scope s fun _ _ _ hA => hA.elim).ok hrun).1⟩
  refine ⟨scope, scope', hl.head, hl'.head, fun s hs => ?_⟩
  obtain ⟨a, s₁, hrun, hmoves⟩ := hdenote hl hrefusal s hs
  obtain ⟨b, s₂, hrun', hmoves'⟩ := hdenote hl' hrefusal' s₁ (hs.trans hmoves.shape)
  exact ⟨s₂.types, a, b, hmoves.types.trans hmoves'.types, ⟨s, s₁, hs, hrun, hmoves'.types⟩,
    ⟨s₁, s₂, hs.trans hmoves.shape, hrun', .refl _⟩⟩

namespace Session

variable {session : Session} {program : Program} {outcome : Outcome} {under : Options → Prop}

/-! ## The names of a program -/

/-- All mentions in an accepted program are granted, and the arena keeps its shape. -/
theorem Course.granted (c : session.Course program) (h : session.Sound) (hdeclares : session.Declares) :
    (∀ mention ∈ c.annotated.mentions c.table, mention.Granted c.scopes) ∧ SameShape c.scopes c.final.scopes := by
  have hscoping : session.scoping program = (c.annotated, ⟨c.scopes, none⟩) := c.annotate
  have hhalt : (session.scoping program).2.halt = none := by rw [hscoping]
  have hchecks := h.checks hdeclares c.found hhalt (pinnedTypes c.table)
  rw [hscoping] at hchecks
  have hrun : inferList session.global (pinnedTypes c.table) c.annotated.stmts (.start session.types c.scopes) =
      .ok c.tys c.final :=
    (run_bind_of_ok c.declared).trans c.inferred
  obtain ⟨hsteady, hgranted⟩ := (hchecks (.start session.types c.scopes) (.refl _) rfl).ok hrun
  exact ⟨hgranted, hsteady.shape⟩

/-- **Declared types are told apart by their names.** For two names that are mentioned as types in an accepted program
    and are no primitive types, types are made in every state with the shape of the arena. They are the same, and unify
    without a change, if the names are written the same; otherwise they are not the same, and unification ends with a
    mismatch. Where the names are declared makes no difference. -/
theorem Reachable.types_nominal (h : Reachable under session) (hcheck : session.check program = .ok outcome)
    {tys : List TypeId} (haccepted : outcome.result = .ok tys) :
    ∃ held, session.scopes.table session.global = .ok held ∧
      ∀ name layers name' layers', Mention.type name layers ∈ outcome.program.mentions held →
        Mention.type name' layers' ∈ outcome.program.mentions held →
        primitive? name.name = none → primitive? name'.name = none →
        ∃ scope scope', layers.head?.bind Layer.scope = some scope ∧ layers'.head?.bind Layer.scope = some scope' ∧
          (∀ s : Inference, SameShape outcome.session.scopes s.scopes → ∃ types a b, s.types.Persists types ∧
            name.Built outcome.session.scopes scope types a ∧ name'.Built outcome.session.scopes scope' types b) ∧
          ∀ (types : Store) (a b : TypeId), name.Built outcome.session.scopes scope types a →
            name'.Built outcome.session.scopes scope' types b →
            types.same a b = .ok (decide (name.name = name'.name)) ∧
              Store.unify a b types =
                if name.name = name'.name then .ok () types
                else .error (.failure (.mismatch name.name name'.name)) types := by
  obtain ⟨c, -, rfl⟩ := h.sound.exists_course hcheck haccepted
  obtain ⟨hgranted, hshape⟩ := c.granted h.sound h.declares
  refine ⟨c.table, table_eq_ok c.found, ?_⟩
  intro name layers name' layers' hmention hmention' hprimitive hprimitive'
  obtain ⟨scope, scope', hscope, hscope', hbuilt⟩ :=
    Mention.Granted.exists_built (c.submitted h.sound).ordered (hgranted _ hmention) (hgranted _ hmention')
  refine ⟨scope, scope', hscope, hscope', fun s hs => ?_, fun types a b ha hb => ?_⟩
  · obtain ⟨types, a, b, hpersists, ha, hb⟩ := hbuilt s (hshape.trans hs)
    exact ⟨types, a, b, hpersists, ha.of_sameShape hshape, hb.of_sameShape hshape⟩
  · have hleft := ha.get hprimitive
    have hright := hb.get hprimitive'
    refine ⟨?_, Store.unify_of_leaves hleft hright⟩
    rw [Store.same_of_leaves hleft hright]
    simp only [Constructor.named.injEq]

/-! ### Structs of one name and of two -/

/-- A struct, and in a block two more, one of which has the name of the first. -/
def sameNames : Program :=
  let mark : Mark := .fresh .origin
  let use (name : String) (span : Span) (ty : String) : Stmt :=
    .vars .origin .mutable [⟨.origin, ⟨name, .origin⟩, some (.name ⟨ty, span⟩), none⟩]
  ⟨[.struct .origin ⟨"P", ⟨1, 1⟩⟩ [], use "a" ⟨2, 1⟩ "P",
    .block (.mk mark [.struct .origin ⟨"P", ⟨3, 1⟩⟩ [], .struct .origin ⟨"Q", ⟨4, 1⟩⟩ [], use "b" ⟨5, 1⟩ "P",
      use "c" ⟨6, 1⟩ "Q"])], none⟩

/-- The names at the top level of that program. -/
def outerNames : Layer :=
  ⟨some ⟨0⟩, none, [("P", .declared .struct ⟨1, 1⟩), ("a", { Symbol.declared .var .origin with
    mutable := true, initialized := false })]⟩

/-- The names of its block. -/
def innerNames : Layer :=
  ⟨some ⟨1⟩, none, [("P", .declared .struct ⟨3, 1⟩), ("Q", .declared .struct ⟨4, 1⟩),
    ("b", { Symbol.declared .var .origin with mutable := true, initialized := false }),
    ("c", { Symbol.declared .var .origin with mutable := true, initialized := false })]⟩

/-- The program is accepted, and the signatures of its three variables mention the structs around them. -/
theorem exists_sameNames : ∃ outcome tys, (new {}).check sameNames = .ok outcome ∧ outcome.result = .ok tys ∧
    outcome.program.mentions [] = [.type ⟨"P", ⟨2, 1⟩⟩ [outerNames], .type ⟨"P", ⟨5, 1⟩⟩ [innerNames, outerNames],
      .type ⟨"Q", ⟨6, 1⟩⟩ [innerNames, outerNames]] := by
  obtain ⟨outcome, tys, hcheck, haccepted⟩ :=
    exists_of_accepts (by decide +kernel : (new {}).accepts sameNames = true)
  obtain ⟨c, -, rfl⟩ := (sound_new {}).exists_course hcheck haccepted
  have hannotated : ((new {}).scoping sameNames).1 = c.annotated := congrArg Prod.fst c.annotate
  refine ⟨c.outcome, tys, hcheck, haccepted, ?_⟩
  show c.annotated.mentions [] = _
  rw [← hannotated]
  decide +kernel

/-- Structs of different names have different types. -/
theorem types_nominal_sameNames : ∃ outcome scope scope' types a b, (new {}).check sameNames = .ok outcome ∧
    (⟨"P", ⟨2, 1⟩⟩ : Ident).Built outcome.session.scopes scope types a ∧
    (⟨"Q", ⟨6, 1⟩⟩ : Ident).Built outcome.session.scopes scope' types b ∧
    types.same a b = .ok false ∧ Store.unify a b types = .error (.failure (.mismatch "P" "Q")) types := by
  obtain ⟨outcome, tys, hcheck, haccepted, hmentions⟩ := exists_sameNames
  have hreachable : Reachable (fun _ => True) (new {}) := .new {}
  obtain ⟨held, hheld, hnominal⟩ := hreachable.types_nominal hcheck haccepted
  obtain rfl : [] = held := Except.ok.inj hheld
  rw [hmentions] at hnominal
  obtain ⟨scope, scope', -, -, hbuilt, htypes⟩ :=
    hnominal ⟨"P", ⟨2, 1⟩⟩ [outerNames] ⟨"Q", ⟨6, 1⟩⟩ [innerNames, outerNames] (by simp) (by simp) rfl rfl
  obtain ⟨types, a, b, -, ha, hb⟩ := hbuilt ⟨outcome.session.types, outcome.session.scopes, []⟩ (.refl _)
  obtain ⟨hsame, hunify⟩ := htypes types a b ha hb
  exact ⟨outcome, scope, scope', types, a, b, hcheck, ha, hb, hsame, hunify⟩

/-- But the two structs of one name, of which one hides the other, have the same type, and a value of one can be used
    where the other is asked for. -/
theorem types_confused_sameNames : ∃ outcome tys types a b, (new {}).check sameNames = .ok outcome ∧
    outcome.result = .ok tys ∧
    Mention.type ⟨"P", ⟨2, 1⟩⟩ [outerNames] ∈ outcome.program.mentions [] ∧
    declarationOf [outerNames] "P" = some (outerNames, .declared .struct ⟨1, 1⟩) ∧
    Mention.type ⟨"P", ⟨5, 1⟩⟩ [innerNames, outerNames] ∈ outcome.program.mentions [] ∧
    declarationOf [innerNames, outerNames] "P" = some (innerNames, .declared .struct ⟨3, 1⟩) ∧
    (⟨"P", ⟨2, 1⟩⟩ : Ident).Built outcome.session.scopes ⟨0⟩ types a ∧
    (⟨"P", ⟨5, 1⟩⟩ : Ident).Built outcome.session.scopes ⟨1⟩ types b ∧
    types.same a b = .ok true ∧ Store.unify a b types = .ok () types := by
  obtain ⟨outcome, tys, hcheck, haccepted, hmentions⟩ := exists_sameNames
  obtain ⟨c, -, rfl⟩ := (sound_new {}).exists_course hcheck haccepted
  obtain ⟨hgranted, hshape⟩ := c.granted (sound_new {}) fun _ _ hsymbol => nomatch hsymbol
  have htable : c.table = [] := (congrArg Scope.table (Option.some.inj c.found)).symm
  rw [htable] at hgranted
  have houter : Mention.type ⟨"P", ⟨2, 1⟩⟩ [outerNames] ∈ c.annotated.mentions [] := by
    rw [show c.annotated.mentions [] = _ from hmentions]; simp
  have hinner : Mention.type ⟨"P", ⟨5, 1⟩⟩ [innerNames, outerNames] ∈ c.annotated.mentions [] := by
    rw [show c.annotated.mentions [] = _ from hmentions]; simp
  obtain ⟨scope, scope', hscope, hscope', hbuilt⟩ :=
    Mention.Granted.exists_built (c.submitted (sound_new {})).ordered (hgranted _ houter) (hgranted _ hinner)
  cases hscope
  cases hscope'
  obtain ⟨types, a, b, -, ha, hb⟩ := hbuilt c.final hshape
  exact ⟨c.outcome, tys, types, a, b, hcheck, haccepted, houter, rfl, hinner, rfl, ha.of_sameShape hshape,
    hb.of_sameShape hshape, Store.same_of_leaves (ha.get rfl) (hb.get rfl),
    Store.unify_of_leaves (ha.get rfl) (hb.get rfl)⟩

end Session

end TypeInference
