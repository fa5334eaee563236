import TypeInference.Proofs.Inference.Predeclaration
import TypeInference.Proofs.Inference.Signature
import TypeInference.Proofs.Scoping.Strict
import TypeInference.Proofs.Session.Course
import TypeInference.Proofs.Session.Lexical

/-!
# `Proofs.Session.Parameters` — the parameters of lambdas and of functions

The signatures of a function's parameters are looked up around the function, those of a lambda's parameters in the scope
of the lambda itself, where the parameters are declared already. So a name in a signature is *captured* if a parameter
of the lambda has it, and captured names are variables, not types.

Where no name is captured the two agree at any place: they are refused for the same first reason, or end with the types
that are written. Where a name is captured the lambda is refused, whether the function is or not.

## Contents
* `Param.captures` — the names that a lambda with these parameters captures;
* `findSome?_refusal?_eq`, `findSome?_refusal?_of_captured` — the first refusal in and around the scope of a lambda;
* `Param.Written`, `Inference.Fits` — the types of parameters, and the states in which they are looked up;
* `params_of_not_captured`, `params_of_captured` — parameters at one place;
* `Reachable.params_alike` — the parameters of a lambda beside those of a function.
-/

namespace TypeInference

open Store Scopes InferM Guard

/-! ## Captured names -/

/-- In the scope of a lambda with these parameters the name means one of them, unless it is a primitive type, which
    is never looked up. -/
def Param.captures (params : List Param) (name : Ident) : Bool :=
  (primitive? name.name).isNone && name.name ∈ namesOf (Param.symbols params)

section Captures

variable {params : List Param} {name : Ident} {scope : Option ScopeId} {layers : List Layer}

/-- The names of parameters are variables, and there are no others in their frame. -/
theorem Param.find?_frame (params : List Param) (key : String) :
    (Param.frame params).find? key = none ∧ key ∉ namesOf (Param.symbols params) ∨
      ∃ symbol, (Param.frame params).find? key = some symbol ∧ symbol.kind = .var ∧
        key ∈ namesOf (Param.symbols params) := by
  rw [← entriesOf_params]
  cases hfind : (entriesOf (Param.symbols params)).find? key with
  | none =>
    refine .inl ⟨rfl, fun hmem => ?_⟩
    rw [← names_entriesOf] at hmem
    obtain ⟨entry, hentry, rfl⟩ := List.mem_map.mp hmem
    exact Table.ne_of_find?_eq_none hfind entry hentry rfl
  | some symbol =>
    obtain ⟨entry, hentry, rfl, rfl⟩ := exists_of_find?_entriesOf hfind
    obtain ⟨p, -, rfl⟩ := List.mem_map.mp hentry
    exact .inr ⟨_, rfl, rfl, List.mem_map.mpr ⟨_, hentry, rfl⟩⟩

/-- A name that is not captured means in the scope what it means around it, so it is refused in one exactly if it is
    in the other. -/
theorem refusal?_of_not_captured (h : Param.captures params name = false) :
    (Mention.type name (⟨scope, none, Param.frame params⟩ :: layers)).refusal? =
      (Mention.type name layers).refusal? := by
  cases hprimitive : primitive? name.name with
  | some ty => rw [Mention.refusal?, Mention.refusal?, hprimitive]; rfl
  | none =>
    rcases Param.find?_frame params name.name with ⟨hnone, -⟩ | ⟨-, -, -, hmem⟩
    · rw [Mention.refusal?, Mention.refusal?, nameRefusal?, nameRefusal?, declarationOf_cons, hnone]
      rfl
    · simp [Param.captures, hprimitive, hmem] at h

/-- A name that is captured is refused in the scope, as one that means a variable. -/
theorem refusal?_of_captured (h : Param.captures params name = true) :
    (Mention.type name (⟨scope, none, Param.frame params⟩ :: layers)).refusal? =
      some ⟨.notAType .var name.name, name.span⟩ := by
  rw [Param.captures, Bool.and_eq_true, Option.isNone_iff_eq_none, decide_eq_true_iff] at h
  obtain ⟨hprimitive, hmem⟩ := h
  rcases Param.find?_frame params name.name with ⟨-, hnot⟩ | ⟨symbol, hfind, hkind, -⟩
  · exact absurd hmem hnot
  · rw [Mention.refusal?, hprimitive, nameRefusal?, declarationOf_cons, hfind]
    simp [hkind, SymbolKind.isType]

/-! ### The first refusal -/

/-- **Without captured names** the first refusal in the scope is the one around it. -/
theorem findSome?_refusal?_eq {names : List Ident} (h : ∀ name ∈ names, Param.captures params name = false) :
    (typeMentions (⟨scope, none, Param.frame params⟩ :: layers) names).findSome? Mention.refusal? =
      (typeMentions layers names).findSome? Mention.refusal? := by
  induction names with
  | nil => rfl
  | cons name rest ih =>
    obtain ⟨hname, hrest⟩ := List.forall_mem_cons.mp h
    rw [typeMentions, typeMentions, List.map_cons, List.map_cons, List.findSome?_cons, List.findSome?_cons,
      refusal?_of_not_captured hname]
    cases (Mention.type name layers).refusal? with
    | some diagnostic => rfl
    | none => exact ih hrest

/-- **With a captured name** the first one is refused in the scope, if not an earlier name that is refused around it. -/
theorem findSome?_refusal?_of_captured {names : List Ident} (h : names.find? (Param.captures params) = some name) :
    ∃ diagnostic,
      (typeMentions (⟨scope, none, Param.frame params⟩ :: layers) names).findSome? Mention.refusal? = some diagnostic ∧
        (diagnostic = ⟨.notAType .var name.name, name.span⟩ ∨
          (typeMentions layers names).findSome? Mention.refusal? = some diagnostic) := by
  obtain ⟨hcaptured, before, after, rfl, hbefore⟩ := List.find?_eq_some_iff_append.mp h
  rw [typeMentions_append, List.findSome?_append,
    findSome?_refusal?_eq fun other hother => by simpa using hbefore other hother]
  have hname : (typeMentions (⟨scope, none, Param.frame params⟩ :: layers) (name :: after)).findSome? Mention.refusal? =
      some ⟨.notAType .var name.name, name.span⟩ := by
    rw [typeMentions, List.map_cons, List.findSome?_cons, refusal?_of_captured hcaptured]
  rw [hname]
  cases hearlier : (typeMentions layers before).findSome? Mention.refusal? with
  | none => exact ⟨_, rfl, .inl rfl⟩
  | some diagnostic =>
    refine ⟨diagnostic, rfl, .inr ?_⟩
    rw [typeMentions_append, List.findSome?_append, hearlier]
    rfl

end Captures

/-! ## The types that are written -/

/-- Types for parameters, where the written ones have the trees of their signatures. -/
def Param.Written (types : Store) (params : List Param) (tys : List TypeId) : Prop :=
  List.Forall₂ (fun p ty => ∀ signature, p.signature = some signature → types.tree ty = signature.tree) params tys

/-! ### States in which parameters are looked up -/

/-- A state in which inference may be in this arena: every number means something, and the scopes are those of the
    arena but for what inference has found out about their symbols. Inference starts in such a state
    (`Session.Sound.fits`), and goes on in such states (`Inference.Fits.step`). -/
structure Inference.Fits (g : Scopes) (s : Inference) : Prop extends s.WellFormed where
  shape : SameShape g s.scopes

variable {g : Scopes} {s t : Inference} {own place : ScopeId} {params : List Param} {frames : List Table} {r : Bool}

/-- Such a state meets the guard that forbids nothing. -/
theorem Inference.Fits.admits (h : s.Fits g) (ho : g.Ordered) : (Guard.unrestricted g ho).Admits s :=
  h.toWellFormed.admits h.shape ho

/-- Runs that the guard allows go on in such states. -/
theorem Inference.Fits.step {ho : g.Ordered} (h : s.Fits g) (hs : (Guard.unrestricted g ho).Step r s t) :
    t.Fits g := by
  have hadmits := (h.admits ho).step hs
  exact ⟨⟨hadmits.wf, hadmits.shape.ordered ho, hadmits.inRange, fun frame hframe => (hadmits.frames frame hframe).lt⟩,
    hadmits.shape⟩

/-- The parameters of a lambda get the types that are written, whether their names have had types or not. -/
theorem typeParams_denotes {ho : g.Ordered} (hown : own ∈ (Guard.unrestricted g ho).visible) :
    ∀ (params : List Param) {s : Inference}, (Guard.unrestricted g ho).Admits s →
      (Guard.unrestricted g ho).Allows r (typeParams own params) s fun tys s' => Henceforth ∅ s'.types fun f =>
        List.Forall₂ (fun p tree => ∀ sig, p.signature = some sig → tree = sig.tree) params (tys.map f.tree)
  | [], s, h => h.pure fun _ _ => .nil
  | p :: rest, s, h => by
    rw [typeParams]
    apply Allows.bind (denoteOrNew_allows h hown p.signature)
    intro ty s₁ h₁ hafter
    obtain ⟨hclear₁, -, htree₁⟩ := hafter
    apply Allows.bind ((h.step h₁).setType hown p.name.name hclear₁ False.elim)
    intro _ s₂ h₂ _
    apply Allows.bind (typeParams_denotes hown rest ((h.step h₁).step h₂))
    intro tys s₃ h₃ htrees₃
    refine (((h.step h₁).step h₂).step h₃).pure fun f hl => ?_
    exact .cons (((htree₁.always h₂.types).always h₃.types) f hl) (htrees₃ f hl)

/-- The same, read off the state in which the run ends. -/
theorem typeParams_written (ho : g.Ordered) (hown : own.index < g.size) (hs : s.Fits g) {tys : List TypeId}
    {s' : Inference} (hrun : typeParams own params s = .ok tys s') : Param.Written s'.types params tys := by
  have hvisible : own ∈ (Guard.unrestricted g ho).visible := hown
  obtain ⟨hstep, htrees⟩ := (typeParams_denotes (r := false) hvisible params (hs.admits ho)).ok hrun
  exact List.forall₂_map_right_iff.mp (htrees s'.types (.refl hstep.types.wf))

/-- The parameters of a function get the types that are written. -/
theorem paramTypes_written (ho : g.Ordered) (hplace : place.index < g.size) (ht : t.Fits g) {tys : List TypeId}
    {t' : Inference} (hrun : paramTypes place params t = .ok tys t') : Param.Written t'.types params tys := by
  have hvisible : place ∈ (Guard.unrestricted g ho).visible := hplace
  obtain ⟨hstep, -, -, htrees⟩ := (paramTypes_allows (r := false) hvisible params (ht.admits ho)).ok hrun
  exact List.forall₂_map_right_iff.mp (htrees t'.types (.refl hstep.types.wf))

/-! ## Lambdas and functions at one place -/

/-- What decides about the parameters of a lambda: the names in their signatures, looked up in the scope of the
    lambda. -/
theorem typeParams_decided_frames (ho : g.Ordered) (hown : g.Chain own (Param.frame params :: frames)) :
    Decided g (typeParams own params)
      (typeMentions (⟨none, none, Param.frame params⟩ :: layersOfFrames frames) (Param.writtenNames params)) := by
  refine typeParams_decided ?_ ho params
  rw [List.map_cons, map_table_layersOfFrames]
  exact hown

/-- What decides about the parameters of a function: the same names, looked up around it. -/
theorem paramTypes_decided_frames (ho : g.Ordered) (hplace : g.Chain place frames) :
    Decided g (paramTypes place params) (typeMentions (layersOfFrames frames) (Param.writtenNames params)) := by
  refine paramTypes_decided ?_ ho params
  rw [map_table_layersOfFrames]
  exact hplace

section Places

variable (ho : g.Ordered) (hown : g.Chain own (Param.frame params :: frames)) (hplace : g.Chain place frames)
  (hs : s.Fits g) (ht : t.Fits g)

include ho hown hplace hs ht

/-! ### With and without captured names -/

/-- **Without a captured name**, a lambda and a function in its place come to the same, for better or for worse. -/
theorem params_of_not_captured (hfree : (Param.writtenNames params).find? (Param.captures params) = none) :
    (∃ tys s' tys' t', typeParams own params s = .ok tys s' ∧ paramTypes place params t = .ok tys' t' ∧
        Param.Written s'.types params tys ∧ Param.Written t'.types params tys') ∨
      ∃ diagnostic s' t', typeParams own params s = .error (.failure diagnostic) s' ∧
        paramTypes place params t = .error (.failure diagnostic) t' := by
  have hlambda := typeParams_decided_frames ho hown
  have hfunction := @paramTypes_decided_frames _ _ params _ ho hplace
  rw [List.find?_eq_none] at hfree
  have hsame := @findSome?_refusal?_eq params none (layersOfFrames frames) (Param.writtenNames params) fun name hname =>
    Bool.eq_false_iff.mpr (hfree name hname)
  cases hrefusal : (typeMentions (layersOfFrames frames) (Param.writtenNames params)).findSome? Mention.refusal? with
  | none =>
    obtain ⟨tys, s', hrun, -⟩ := hlambda.ends (hsame.trans hrefusal) s hs.shape
    obtain ⟨tys', t', hrun', -⟩ := hfunction.ends hrefusal t ht.shape
    exact .inl ⟨tys, s', tys', t', hrun, hrun', typeParams_written ho hown.lt hs hrun,
      paramTypes_written ho hplace.lt ht hrun'⟩
  | some diagnostic =>
    obtain ⟨s', hrun, -⟩ := hlambda.stops diagnostic (hsame.trans hrefusal) s hs.shape
    obtain ⟨t', hrun', -⟩ := hfunction.stops diagnostic hrefusal t ht.shape
    exact .inr ⟨diagnostic, s', t', hrun, hrun'⟩

/-- **With a captured name**, the lambda is refused for the first one, or for what the function is refused for. -/
theorem params_of_captured {name : Ident}
    (hname : (Param.writtenNames params).find? (Param.captures params) = some name) :
    ∃ diagnostic s', typeParams own params s = .error (.failure diagnostic) s' ∧
      (diagnostic = ⟨.notAType .var name.name, name.span⟩ ∨
        ∃ t', paramTypes place params t = .error (.failure diagnostic) t') := by
  obtain ⟨diagnostic, hrefusal, hfirst⟩ :=
    @findSome?_refusal?_of_captured params name none (layersOfFrames frames) _ hname
  obtain ⟨s', hrun, -⟩ := (typeParams_decided_frames ho hown).stops diagnostic hrefusal s hs.shape
  refine ⟨diagnostic, s', hrun, hfirst.imp_right fun haround => ?_⟩
  obtain ⟨t', hrun', -⟩ := (paramTypes_decided_frames ho hplace).stops diagnostic haround t ht.shape
  exact ⟨t', hrun'⟩

end Places

namespace Session

variable {session : Session} {under : Options → Prop} {program : Program}

/-! ## Lambdas and functions in a program -/

/-- Inference over a scoped program starts in a state that fits the arena of the first pass. -/
theorem Sound.fits (h : session.Sound) (program : Program) : (Inference.start session.types
    (session.scoping program).2.scopes).Fits (session.scoping program).2.scopes := by
  obtain ⟨_, hfound⟩ := h.found
  have hscoped := h.scoped hfound program
  exact ⟨⟨h.wf, hscoped.ordered, fun hgives => h.inRange (hscoped.gives hgives), List.forall_mem_nil _⟩, .refl _⟩

/-- **The parameters of a lambda beside those of a function.** A lambda with these parameters has its own scope in a
    scoped program, and stands in a scope where a function might stand as well. If no name in the signatures is
    captured, then the signatures can be looked up for the lambda if and only if they can for the function; both are
    refused for the same reason otherwise; and written types have the trees of their signatures in both. If a name is
    captured, the lambda is refused, for the first such name or for the same reason as the function. -/
theorem Reachable.params_alike (h : Reachable under session) {held : Table}
    (hheld : session.scopes.table session.global = .ok held) (hhalt : (session.scoping program).2.halt = none)
    {opens : Bool} (hown : ⟨true, some own, Param.frame params :: frames⟩ ∈ (session.scoping program).1.sites held)
    (hplace : ⟨opens, some place, frames⟩ ∈ (session.scoping program).1.sites held)
    (hs : s.Fits (session.scoping program).2.scopes) (ht : t.Fits (session.scoping program).2.scopes) :
    ((Param.writtenNames params).find? (Param.captures params) = none →
        (∃ tys s' tys' t', typeParams own params s = .ok tys s' ∧ paramTypes place params t = .ok tys' t' ∧
            Param.Written s'.types params tys ∧ Param.Written t'.types params tys') ∨
          ∃ diagnostic s' t', typeParams own params s = .error (.failure diagnostic) s' ∧
            paramTypes place params t = .error (.failure diagnostic) t') ∧
      ∀ name, (Param.writtenNames params).find? (Param.captures params) = some name →
        ∃ diagnostic s', typeParams own params s = .error (.failure diagnostic) s' ∧
          (diagnostic = ⟨.notAType .var name.name, name.span⟩ ∨
            ∃ t', paramTypes place params t = .error (.failure diagnostic) t') := by
  obtain ⟨_, hfound⟩ := h.sound.found
  have ho : (session.scoping program).2.scopes.Ordered := (h.sound.scoped hfound program).ordered
  have hpass : session.scoping program = ((session.scoping program).1, ⟨(session.scoping program).2.scopes, none⟩) := by
    rw [← hhalt]
  obtain ⟨held', hheld', -, hlexical, -⟩ := h.scoped_lexically hpass
  obtain rfl : held = held' := Except.ok.inj (hheld.symm.trans hheld')
  obtain ⟨own', hsome, hownChain⟩ := hlexical.framed _ hown
  obtain rfl : own = own' := Option.some.inj hsome
  obtain ⟨place', hsome, hplaceChain⟩ := hlexical.framed _ hplace
  obtain rfl : place = place' := Option.some.inj hsome
  exact ⟨params_of_not_captured ho hownChain hplaceChain hs ht,
    fun _ hname => params_of_captured ho hownChain hplaceChain hs ht hname⟩

/-! ### A parameter with the name of a struct -/

/-- Two parameters, of which the second one is declared to be a `P`. -/
def structParams (first : String) : List Param :=
  [⟨.origin, ⟨first, ⟨2, 1⟩⟩, none⟩, ⟨.origin, ⟨"x", ⟨3, 1⟩⟩, some (.name ⟨"P", ⟨4, 1⟩⟩)⟩]

/-- A struct `P`, and a lambda with these parameters, which looks up `P` in its own scope. -/
def takesStruct (first : String) : Program :=
  let mark : Mark := .fresh .origin
  ⟨[.struct .origin ⟨"P", ⟨1, 1⟩⟩ [], .expr (.lambda mark none (structParams first) (.number mark))], none⟩

/-- The lambda and a function at its place, when the struct is not hidden. -/
theorem params_alike_takesStruct : ∃ (tys tys' : List TypeId) (s' t' : Inference),
    typeParams ⟨1⟩ (structParams "q") (.start (new {}).types ((new {}).scoping (takesStruct "q")).2.scopes) =
      .ok tys s' ∧
    paramTypes ⟨0⟩ (structParams "q") (.start (new {}).types ((new {}).scoping (takesStruct "q")).2.scopes) =
      .ok tys' t' ∧
    Param.Written s'.types (structParams "q") tys ∧ Param.Written t'.types (structParams "q") tys' := by
  have hreachable : Reachable (fun _ => True) (new {}) := .new {}
  have hfits := hreachable.sound.fits (takesStruct "q")
  have hown : ⟨true, some ⟨1⟩, Param.frame (structParams "q") :: [stmtsFrame (takesStruct "q").stmts]⟩ ∈
      ((new {}).scoping (takesStruct "q")).1.sites [] := List.mem_of_getElem? (show _[2]? = _ from rfl)
  have hplace : ⟨false, some ⟨0⟩, [stmtsFrame (takesStruct "q").stmts]⟩ ∈
      ((new {}).scoping (takesStruct "q")).1.sites [] := List.mem_of_getElem? (show _[1]? = _ from rfl)
  have hstruct : (Param.writtenNames (structParams "q")).find? (Param.captures (structParams "q")) = none := by
    decide +kernel
  have halike := hreachable.params_alike rfl (by decide +kernel) hown hplace hfits hfits
  rcases halike.1 hstruct with ⟨tys, s', tys', t', hrun, hrun', hwritten, hwritten'⟩ | ⟨diagnostic, s', t', hrun, -⟩
  · exact ⟨tys, tys', s', t', hrun, hrun', hwritten, hwritten'⟩
  · have hruns : (match typeParams ⟨1⟩ (structParams "q")
        (.start (new {}).types ((new {}).scoping (takesStruct "q")).2.scopes) with
      | .ok _ _ => true
      | .error _ _ => false) = true := by decide +kernel
    rw [hrun] at hruns
    cases hruns

/-- A struct `P`, and a function with the same parameters, which looks up `P` around itself. -/
def declaresStruct (first : String) : Program :=
  let mark : Mark := .fresh .origin
  ⟨[.struct .origin ⟨"P", ⟨1, 1⟩⟩ [], .function mark ⟨"f", .origin⟩ (structParams first) none (.mk mark [])], none⟩

/-- **A parameter with the name of the struct** hides it from the signatures of a lambda, but not from those of a
    function: the function is accepted, and the lambda in its place refused. -/
theorem params_unlike_takesStruct : (new {}).accepts (declaresStruct "P") = true ∧
    ((new {}).check (takesStruct "P")).map Outcome.result = .ok (.error ⟨.notAType .var "P", ⟨4, 1⟩⟩) := by
  decide +kernel

end Session

end TypeInference
