import TypeInference.Proofs.Inference.Denotation
import TypeInference.Proofs.Inference.Operation
import TypeInference.Proofs.Inference.Quiet

/-!
# `Proofs.Inference.Signature` — signatures denote what they say

A signature has a type exactly if each of its names stands for one: the four primitive types do, and so does a name
whose innermost declaration is a blueprint, struct, enum or trait. The type that is made has the tree of the
signature. Otherwise the first name that stands for no type is refused. Either way the state has only gained nodes.

Three facts about `Signature.denote` meet here: which names decide (`Signature.denote_decided`), which tree is made
(`Signature.denote_allows`), and what is left alone (`Signature.denote_adds`).

## Contents
* `StandsForType`, `typeCause` — names that stand for types, and the refusal of others;
* `Inference.WellFormed`, `Guard.unrestricted` — states in which every number means something, and their guard;
* `Signature.denote_exact` — the main result.
-/

namespace TypeInference

open Store Scopes InferM Guard

/-! ## Names that stand for types -/

/-- A name that stands for a type: it is the name of a primitive type, or its innermost declaration is a type. -/
def StandsForType (frames : List Table) (name : String) : Prop :=
  name ∈ ["Number", "Bool", "String", "Unit"] ∨
    ∃ symbol, frames.findSome? (·.find? name) = some symbol ∧ symbol.kind ∈ [.blueprint, .struct, .enum, .trait]

/-- What is wrong with a name that stands for no type: it means nothing, or something else. -/
def typeCause (frames : List Table) (name : String) : Cause :=
  match frames.findSome? (·.find? name) with
  | none => .undefined name
  | some symbol => .notAType symbol.kind name

theorem isSome_primitive?_iff {name : String} :
    (primitive? name).isSome = true ↔ name ∈ ["Number", "Bool", "String", "Unit"] := by
  unfold primitive?
  split <;> simp_all

theorem SymbolKind.isType_iff {kind : SymbolKind} :
    kind.isType = true ↔ kind ∈ [.blueprint, .struct, .enum, .trait] := by
  cases kind <;> decide

/-! ### Frames as layers -/

/-- Frames as layers; which scopes they belong to makes no difference to types. -/
def layersOfFrames (frames : List Table) : List Layer := frames.map fun table => ⟨none, none, table⟩

theorem map_table_layersOfFrames (frames : List Table) : (layersOfFrames frames).map Layer.table = frames := by
  rw [layersOfFrames, List.map_map]
  exact List.map_id frames

/-- A name that is mentioned as a type is refused exactly if it stands for none. -/
theorem refusal?_type_cases (frames : List Table) (name : Ident) :
    (StandsForType frames name.name ∧ (Mention.type name (layersOfFrames frames)).refusal? = none) ∨
      (¬ StandsForType frames name.name ∧
        (Mention.type name (layersOfFrames frames)).refusal? = some ⟨typeCause frames name.name, name.span⟩) := by
  have hdecl := map_declarationOf (layersOfFrames frames) name.name
  rw [map_table_layersOfFrames] at hdecl
  rw [Mention.refusal?, StandsForType, typeCause, ← hdecl, nameRefusal?]
  by_cases hprimitive : (primitive? name.name).isSome = true
  · exact .inl ⟨.inl (isSome_primitive?_iff.mp hprimitive), if_pos hprimitive⟩
  · rw [if_neg hprimitive, ← isSome_primitive?_iff]
    cases declarationOf (layersOfFrames frames) name.name with
    | none => exact .inr ⟨by simpa using hprimitive, rfl⟩
    | some found =>
      simp only [Option.map_some, Option.some.injEq, exists_eq_left', ← SymbolKind.isType_iff]
      by_cases htype : found.2.kind.isType = true
      · exact .inl ⟨.inr htype, if_pos htype⟩
      · exact .inr ⟨not_or.mpr ⟨hprimitive, htype⟩, if_neg htype⟩

/-- Of names that are mentioned as types the first one is refused that stands for none. -/
theorem findSome?_typeMentions_cases (frames : List Table) (names : List Ident) :
    ((∀ name ∈ names, StandsForType frames name.name) ∧
      (typeMentions (layersOfFrames frames) names).findSome? Mention.refusal? = none) ∨
      ∃ before name after, names = before ++ name :: after ∧
        (∀ earlier ∈ before, StandsForType frames earlier.name) ∧ ¬ StandsForType frames name.name ∧
        (typeMentions (layersOfFrames frames) names).findSome? Mention.refusal? =
          some ⟨typeCause frames name.name, name.span⟩ := by
  induction names with
  | nil => exact .inl ⟨List.forall_mem_nil _, rfl⟩
  | cons name names ih =>
    rw [typeMentions, List.map_cons, List.findSome?_cons, ← typeMentions]
    rcases refusal?_type_cases frames name with ⟨hstands, hrefusal⟩ | ⟨hnot, hrefusal⟩
    · rw [hrefusal]
      rcases ih with ⟨hall, hnone⟩ | ⟨before, first, after, rfl, hbefore, hfirst, hsome⟩
      · exact .inl ⟨List.forall_mem_cons.mpr ⟨hstands, hall⟩, hnone⟩
      · exact .inr ⟨name :: before, first, after, rfl, List.forall_mem_cons.mpr ⟨hstands, hbefore⟩, hfirst, hsome⟩
    · rw [hrefusal]
      exact .inr ⟨[], name, names, rfl, List.forall_mem_nil _, hnot, rfl⟩

/-! ## Trees of signatures -/

theorem not_hasVar_nameTree (name : String) (v : TypeId) : ¬ (nameTree name).HasVar v := by
  unfold nameTree
  split <;> simp [Tree.number, Tree.bool, Tree.string, Tree.unit, Tree.named]

mutual

/-- A signature has no variables, by recursion on it; the type that it denotes is therefore the same whatever is
    bound later. -/
theorem Signature.not_hasVar_tree (v : TypeId) : ∀ signature : Signature, ¬ signature.tree.HasVar v
  | .name id => by
    rw [Signature.tree]
    exact not_hasVar_nameTree id.name v
  | .list _ element => by
    rw [Signature.tree, Tree.list, Tree.hasVar_app]
    simpa using element.not_hasVar_tree v
  | .map _ key value => by
    rw [Signature.tree, Tree.map, Tree.hasVar_app]
    simpa using ⟨key.not_hasVar_tree v, value.not_hasVar_tree v⟩
  | .tuple _ elements => by
    rw [Signature.tree, Tree.tuple, Tree.hasVar_app]
    rintro ⟨t, ht, hv⟩
    exact not_hasVar_treesOf v elements t ht hv
  | .function _ params result => by
    rw [Signature.tree, Tree.function, Tree.hasVar_app]
    rintro ⟨t, ht, hv⟩
    rcases List.mem_append.mp ht with ht | ht
    · exact not_hasVar_treesOf v params t ht hv
    · obtain rfl := List.mem_singleton.mp ht
      exact result.not_hasVar_tree v hv

theorem not_hasVar_treesOf (v : TypeId) : ∀ signatures : List Signature, ∀ t ∈ treesOf signatures, ¬ t.HasVar v
  | [] => by simp [treesOf]
  | signature :: rest => by
    rw [treesOf]
    exact List.forall_mem_cons.mpr ⟨signature.not_hasVar_tree v, not_hasVar_treesOf v rest⟩

end

/-! ## Well-formed states -/

/-- A state in which all numbers of types and scopes mean something. Nothing is asked of the trees or of the names. -/
structure Inference.WellFormed (s : Inference) : Prop where
  types : s.types.WellFormed
  ordered : s.scopes.Ordered
  inRange : ∀ {id kind ty}, s.scopes.Gives id kind ty → ty.index < s.types.size
  frames : ∀ frame ∈ s.frames, frame.result.index < s.types.size

/-- The guard that watches for nothing: no variable is hidden, and inference may be in every scope of the arena. -/
def Guard.unrestricted (base : Scopes) (ordered : base.Ordered) : Guard where
  hidden := ∅
  visible := {id | id.index < base.size}
  direct := fun _ _ => False
  base := base
  tidy := False
  ordered := ordered
  visible_lt := fun _ hid => hid

/-- A well-formed state is admitted by the guard of every arena that its scopes have the shape of. -/
theorem Inference.WellFormed.admits {s : Inference} (h : s.WellFormed) {base : Scopes}
    (hshape : SameShape base s.scopes) (ordered : base.Ordered) : (Guard.unrestricted base ordered).Admits s where
  wf := h.types
  unbound := fun _ hv => absurd hv (Set.notMem_empty _)
  shape := hshape
  inRange := h.inRange
  direct := fun hd => hd.elim
  frames := fun frame hframe => ⟨h.frames frame hframe, fun _ _ => Set.notMem_empty _⟩

/-- The way out of a scope of an ordered arena. -/
theorem Scopes.Ordered.exists_chain {g : Scopes} (ho : g.Ordered) {id : ScopeId} (hid : id.index < g.size) :
    ∃ frames, g.Chain id frames := by
  refine ho.inwards (P := fun id => ∃ frames, g.Chain id frames) (fun hscope => ?_) (fun hscope hframes => ?_) hid
  · exact ⟨_, .outermost hscope⟩
  · obtain ⟨frames, hchain⟩ := hframes
    exact ⟨_, .inside hscope hchain⟩

/-! ## What signatures denote -/

/-- **Signatures denote exactly what they say.** There is a type if and only if each name stands for one among the
    frames around the scope; it has the tree of the signature, in which there are no variables. Otherwise the first name
    that stands for no type is refused. Nothing but new nodes is left behind. -/
theorem Signature.denote_exact {s : Inference} (h : s.WellFormed) {scope : ScopeId}
    (hscope : scope.index < s.scopes.size) (signature : Signature) :
    ∃ frames, s.scopes.Chain scope frames ∧
      ((∃ ty s', signature.denote scope s = .ok ty s') ↔
        ∀ name ∈ signature.names, StandsForType frames name.name) ∧
      (∀ ty s', signature.denote scope s = .ok ty s' → s.Adds s' ∧ s'.types.WellFormed ∧
        ty.index < s'.types.size ∧ s'.types.tree ty = signature.tree ∧ ∀ v, ¬ signature.tree.HasVar v) ∧
      ∀ reason s', signature.denote scope s = .error reason s' → s.Adds s' ∧ s'.types.WellFormed ∧
        ∃ before name after, signature.names = before ++ name :: after ∧
          (∀ earlier ∈ before, StandsForType frames earlier.name) ∧ ¬ StandsForType frames name.name ∧
          reason = .failure ⟨typeCause frames name.name, name.span⟩ := by
  obtain ⟨frames, hchain⟩ := h.ordered.exists_chain hscope
  have hlayers : s.scopes.Chain scope ((layersOfFrames frames).map Layer.table) := by
    rwa [map_table_layersOfFrames]
  -- Which names refuse it, what a run makes of the types, and that it only adds are known separately.
  have hdecided := signature.denote_decided hlayers h.ordered
  have hallows := signature.denote_allows (r := false) (G := .unrestricted s.scopes h.ordered) hscope
    (h.admits (.refl _) h.ordered)
  have hadds := signature.denote_adds scope s
  refine ⟨frames, hchain, ⟨?_, fun hall => ?_⟩, fun ty s' hrun => ?_, fun reason s' hrun => ?_⟩
  · rintro ⟨ty, s', hrun⟩
    rcases findSome?_typeMentions_cases frames signature.names with ⟨hall, -⟩ | ⟨_, _, _, -, -, -, hsome⟩
    · exact hall
    · obtain ⟨_, hstop, -⟩ := hdecided.stops _ hsome s (.refl _)
      cases hrun.symm.trans hstop
  · rcases findSome?_typeMentions_cases frames signature.names with ⟨-, hnone⟩ | ⟨_, name, _, heq, -, hnot, -⟩
    · obtain ⟨ty, s', hrun, -⟩ := hdecided.ends hnone s (.refl _)
      exact ⟨ty, s', hrun⟩
    · exact absurd (hall name (heq ▸ List.mem_append_right _ List.mem_cons_self)) hnot
  · obtain ⟨hstep, hclear, -, htree⟩ := hallows.ok hrun
    exact ⟨(hadds.ok hrun).1, hstep.types.wf, hclear.lt, htree _ (.refl hstep.types.wf),
      fun v => signature.not_hasVar_tree v⟩
  · refine ⟨(hadds.error hrun).1, (hallows.error hrun).1.types.wf, ?_⟩
    rcases findSome?_typeMentions_cases frames signature.names with
      ⟨-, hnone⟩ | ⟨before, name, after, heq, hbefore, hnot, hsome⟩
    · obtain ⟨_, _, hend, -⟩ := hdecided.ends hnone s (.refl _)
      cases hrun.symm.trans hend
    · obtain ⟨_, hstop, -⟩ := hdecided.stops _ hsome s (.refl _)
      cases hrun.symm.trans hstop
      exact ⟨before, name, after, heq, hbefore, hnot, rfl⟩

/-- Whether a signature has a type here, told by running its denotation. -/
def Signature.denotes (signature : Signature) (scope : ScopeId) (s : Inference) : Bool :=
  match signature.denote scope s with
  | .ok _ _ => true
  | .error _ _ => false

/-- A scope with a struct and a variable, and one inside it with an enum; no type has been made. -/
def shapeNames : Inference :=
  .start .initial ⟨#[⟨none, [("Point", .declared .struct .origin), ("x", .declared .var .origin)]⟩,
    ⟨some ⟨0⟩, [("Color", .declared .enum .origin)]⟩]⟩

/-- Functions from maps of points and lists of numbers to pairs with a colour. -/
def shapeFunction : Signature :=
  let named : String → Signature := fun name => .name ⟨name, .origin⟩
  .function .origin [.map .origin (named "String") (named "Point"), .list .origin (named "Number")]
    (.tuple .origin [named "Bool", named "Color"])

/-- Lists of something that is a variable and stands for no type. -/
def variableList : Signature := .list .origin (.name ⟨"x", .origin⟩)

theorem wellFormed_shapeNames : shapeNames.WellFormed where
  types := wellFormed_initial
  ordered := by
    rintro ⟨_ | _ | i⟩ parent hparent
    · cases hparent
    · cases hparent; exact Nat.zero_lt_one
    · cases hparent
  inRange := by
    have huntyped : ∀ scope ∈ shapeNames.scopes.toArray, ∀ entry ∈ scope.table, entry.2.ty = none := by decide
    rintro id kind ty ⟨scope, hscope, entry, hentry, -, hty⟩
    rw [huntyped scope (Array.mem_of_getElem? hscope) entry hentry] at hty
    cases hty
  frames := fun _ hframe => nomatch hframe

/-- Each name of the first signature stands for a type in the inner scope, and that of the second one does not. -/
theorem denote_exact_shapeFunction :
    (∃ ty s', shapeFunction.denote ⟨1⟩ shapeNames = .ok ty s' ∧ s'.types.tree ty = shapeFunction.tree) ∧
      ∃ reason s', variableList.denote ⟨1⟩ shapeNames = .error reason s' ∧ shapeNames.Adds s' := by
  have hends : shapeFunction.denotes ⟨1⟩ shapeNames = true := by decide +kernel
  have hstops : variableList.denotes ⟨1⟩ shapeNames = false := by decide +kernel
  have hscope : (⟨1⟩ : ScopeId).index < shapeNames.scopes.size := by decide
  obtain ⟨_, -, -, hok, -⟩ := shapeFunction.denote_exact wellFormed_shapeNames hscope
  obtain ⟨_, -, -, -, herror⟩ := variableList.denote_exact wellFormed_shapeNames hscope
  constructor
  · cases hrun : shapeFunction.denote ⟨1⟩ shapeNames with
    | ok ty s' => exact ⟨ty, s', rfl, (hok ty s' hrun).2.2.2.1⟩
    | error reason s' => rw [Signature.denotes, hrun] at hends; cases hends
  · cases hrun : variableList.denote ⟨1⟩ shapeNames with
    | ok ty s' => rw [Signature.denotes, hrun] at hstops; cases hstops
    | error reason s' => exact ⟨reason, s', rfl, (herror reason s' hrun).1⟩

end TypeInference
