import TypeInference.Inference.Statement
import TypeInference.Proofs.Run
import TypeInference.Proofs.Scoping.Placement

/-!
# `Proofs.Inference.Parallel` — signatures and declarations do not look at types

The types of signatures, and those that declarations are given in advance, are made without a look at any type
there is: all that is asked is of which kind a name is. Two runs side by side therefore make the same types up
to their numbers, as long as new types correspond and names are of the same kinds. `Parallel` collects what two
runs must have in common; the relation between their states is left open, because the runs may have little else
in common.

## Contents
* `Pins.rename` — pinned types under other numbers;
* `Parallel` — runs in which new types and the kinds of names correspond;
* `Parallel.denote`, `Parallel.denoteOrNew`, `Parallel.typeParams` — signatures;
* `Parallel.predeclareAll` — declarations.
-/

namespace TypeInference

open InferM

/-! ## Pins under other numbers -/

/-- The same pins under other numbers, variables and functions alike. -/
def Pins.rename (f : TypeId → TypeId) (pins : Pins) : Pins := ⟨pins.vars.map f, pins.functions.map f⟩

/-- Only the numbers of pinned types play a part. -/
theorem Pins.rename_congr {f g : TypeId → TypeId} {pins : Pins} (h : ∀ ty ∈ pins.all, f ty = g ty) :
    pins.rename f = pins.rename g := by
  obtain ⟨hvars, hfunctions⟩ := List.forall_mem_append.mp h
  rw [Pins.rename, Pins.rename, List.map_congr_left hvars, List.map_congr_left hfunctions]

@[simp]
theorem Pins.rename_id (pins : Pins) : pins.rename id = pins := by
  simp [Pins.rename]

/-! ## Parallel runs -/

/-- In related states, new types correspond under `f` and are in `V`, provided that their components are, and names
    that are looked up in `scope` are of the same kinds. Nothing else is asked of the two runs, so both a run inside
    a larger one and a run under other numbers are parallel. -/
structure Parallel (R : Inference → Inference → Prop) (f : TypeId → TypeId) (V : TypeId → Prop)
    (scope : ScopeId) : Prop where
  newVar : Mirrors R (create Store.newVar) (create Store.newVar) fun ty ty' => ty' = f ty ∧ V ty
  operator : ∀ con args, (∀ a ∈ args, V a) → Mirrors R (create (Store.operator con args))
    (create (Store.operator con (args.map f))) fun ty ty' => ty' = f ty ∧ V ty
  kind : ∀ name, Mirrors R (resolve scope name) (resolve scope name) fun found found' =>
    found'.2.kind = found.2.kind
  primitive : ∀ {name ty}, primitive? name = some ty → f ty = ty ∧ V ty

namespace Parallel

variable {R : Inference → Inference → Prop} {f : TypeId → TypeId} {V : TypeId → Prop} {scope : ScopeId}

theorem function (h : Parallel R f V scope) {params : List TypeId} {result : TypeId} (hparams : ∀ ty ∈ params, V ty)
    (hresult : V result) :
    Mirrors R (create (Store.function params result)) (create (Store.function (params.map f) (f result)))
      fun ty ty' => ty' = f ty ∧ V ty := by
  have hnew := h.operator .function (params ++ [result]) (by
    simpa [or_imp, forall_and, hresult] using hparams)
  rwa [List.map_append] at hnew

/-! ## Signatures -/

/-- **A written name** stands for a primitive type on both sides, or for a new type of that name. -/
theorem denoteName (h : Parallel R f V scope) (id : Ident) :
    Mirrors R (id.denote scope) (id.denote scope) fun ty ty' => ty' = f ty ∧ V ty := by
  unfold Ident.denote
  split
  · next ty hprimitive =>
    obtain ⟨hsame, hV⟩ := h.primitive hprimitive
    exact .pure ⟨hsame.symm, hV⟩
  · refine (h.kind id).bind ?_
    rintro ⟨owner, symbol⟩ ⟨owner', symbol'⟩ hkind
    dsimp only at hkind ⊢
    rw [hkind]
    cases symbol.kind.isType with
    | true => exact h.operator (.named id.name) [] (by simp)
    | false => exact .throw

mutual

/-- **The type of a signature** is the same under other numbers. By recursion on the signature: all its parts are
    new types. -/
theorem denote (h : Parallel R f V scope) : ∀ signature : Signature,
    Mirrors R (signature.denote scope) (signature.denote scope) fun ty ty' => ty' = f ty ∧ V ty
  -- A name is asked for its kind only, and kinds are the same on both sides.
  | .name id => by
    rw [Signature.denote]
    exact h.denoteName id
  | .list _ element => by
    rw [Signature.denote]
    refine (h.denote element).bind ?_
    rintro element _ ⟨rfl, hV⟩
    exact h.operator .list [element] (by simpa using hV)
  | .map _ key value => by
    rw [Signature.denote]
    refine (h.denote key).bind ?_
    rintro key _ ⟨rfl, hkey⟩
    refine (h.denote value).bind ?_
    rintro value _ ⟨rfl, hvalue⟩
    exact h.operator .map [key, value] (by simp [hkey, hvalue])
  | .tuple _ elements => by
    rw [Signature.denote]
    refine (h.denoteAll elements).bind ?_
    rintro elements _ ⟨rfl, hV⟩
    have hnew := h.operator (.tuple elements.length) elements hV
    unfold Store.tuple
    rwa [List.length_map]
  | .function _ params result => by
    rw [Signature.denote]
    refine (h.denoteAll params).bind ?_
    rintro params _ ⟨rfl, hparams⟩
    refine (h.denote result).bind ?_
    rintro result _ ⟨rfl, hresult⟩
    exact h.function hparams hresult

theorem denoteAll (h : Parallel R f V scope) : ∀ signatures : List Signature,
    Mirrors R (TypeInference.denoteAll scope signatures) (TypeInference.denoteAll scope signatures)
      fun tys tys' => tys' = tys.map f ∧ ∀ ty ∈ tys, V ty
  | [] => .pure ⟨rfl, by simp⟩
  | signature :: rest => by
    rw [TypeInference.denoteAll]
    refine (h.denote signature).bind ?_
    rintro ty _ ⟨rfl, hty⟩
    refine (h.denoteAll rest).bind ?_
    rintro tys _ ⟨rfl, htys⟩
    exact .pure ⟨rfl, List.forall_mem_cons.mpr ⟨hty, htys⟩⟩

end

/-- The type of a signature, or a new variable where none is written. -/
theorem denoteOrNew (h : Parallel R f V scope) (signature : Option Signature) :
    Mirrors R (TypeInference.denoteOrNew scope signature) (TypeInference.denoteOrNew scope signature)
      fun ty ty' => ty' = f ty ∧ V ty := by
  cases signature with
  | some signature => exact h.denote signature
  | none => exact h.newVar

/-- The types of the parameters of a function, which are made before the function is looked at. -/
theorem paramTypes (h : Parallel R f V scope) : ∀ params : List Param,
    Mirrors R (TypeInference.paramTypes scope params) (TypeInference.paramTypes scope params)
      fun tys tys' => tys' = tys.map f ∧ ∀ ty ∈ tys, V ty
  | [] => .pure ⟨rfl, by simp⟩
  | p :: rest => by
    rw [TypeInference.paramTypes]
    refine (h.denoteOrNew p.signature).bind ?_
    rintro ty _ ⟨rfl, hty⟩
    refine (h.paramTypes rest).bind ?_
    rintro tys _ ⟨rfl, htys⟩
    exact .pure ⟨rfl, List.forall_mem_cons.mpr ⟨hty, htys⟩⟩

/-! ## Declarations -/

/-- Types that correspond may be recorded for these names. This is the only thing that two runs may do differently
    with the names of a scope. -/
def Records (R : Inference → Inference → Prop) (f : TypeId → TypeId) (V : TypeId → Prop) (scope : ScopeId)
    (names : List String) : Prop :=
  ∀ name ∈ names, ∀ ty, V ty → Mirrors R (setType scope name ty) (setType scope name (f ty)) fun _ _ => True

theorem Records.subset {names names' : List String} (hsub : names' ⊆ names) (h : Records R f V scope names) :
    Records R f V scope names' :=
  fun name hname => h name (hsub hname)

theorem typeParams (h : Parallel R f V scope) : ∀ params : List Param,
    Records R f V scope (namesOf (Param.symbols params)) →
    Mirrors R (TypeInference.typeParams scope params) (TypeInference.typeParams scope params)
      fun tys tys' => tys' = tys.map f ∧ ∀ ty ∈ tys, V ty
  | [], _ => .pure ⟨rfl, by simp⟩
  | p :: rest, hset => by
    rw [TypeInference.typeParams]
    refine (h.denoteOrNew p.signature).bind ?_
    rintro ty _ ⟨rfl, hty⟩
    refine (hset p.name.name List.mem_cons_self ty hty).bind ?_
    rintro _ _ -
    refine (h.typeParams rest (hset.subset (List.subset_cons_self _ _))).bind ?_
    rintro tys _ ⟨rfl, htys⟩
    exact .pure ⟨rfl, List.forall_mem_cons.mpr ⟨hty, htys⟩⟩

/-- The variables of one definition are given the same types up to numbers. -/
theorem predeclareVars (h : Parallel R f V scope) : ∀ defs : List VarDef,
    Records R f V scope (defs.map fun d => d.name.name) →
    Mirrors R (TypeInference.predeclareVars scope defs) (TypeInference.predeclareVars scope defs)
      fun tys tys' => tys' = tys.map f ∧ ∀ ty ∈ tys, V ty
  | [], _ => .pure ⟨rfl, by simp⟩
  | d :: rest, hset => by
    rw [TypeInference.predeclareVars]
    refine (h.denoteOrNew d.signature).bind ?_
    rintro ty _ ⟨rfl, hty⟩
    refine (hset d.name.name List.mem_cons_self ty hty).bind ?_
    rintro _ _ -
    refine (h.predeclareVars rest (hset.subset (List.subset_cons_self _ _))).bind ?_
    rintro tys _ ⟨rfl, htys⟩
    exact .pure ⟨rfl, List.forall_mem_cons.mpr ⟨hty, htys⟩⟩

/-- A declaration of whatever sort gives the same types up to numbers, and the same pins. -/
theorem predeclareOne (h : Parallel R f V scope) : ∀ decl : Declaration,
    Records R f V scope (namesOf decl.symbols) →
    Mirrors R (decl.predeclare scope) (decl.predeclare scope)
      fun pins pins' => pins' = pins.rename f ∧ ∀ ty ∈ pins.all, V ty
  | .vars kind defs, hset => by
    have hnames : namesOf (Declaration.vars kind defs).symbols = defs.map fun d => d.name.name := by
      simp [namesOf, Declaration.symbols, Function.comp_def]
    rw [Declaration.predeclare]
    refine (h.predeclareVars defs (hnames ▸ hset)).bind ?_
    rintro tys _ ⟨rfl, htys⟩
    exact .pure ⟨rfl, by simpa [Pins.all] using htys⟩
  | .function name params result, hset => by
    rw [Declaration.predeclare]
    refine (h.paramTypes params).bind ?_
    rintro params _ ⟨rfl, hparams⟩
    refine (h.denoteOrNew result).bind ?_
    rintro result _ ⟨rfl, hresult⟩
    refine (h.function hparams hresult).bind ?_
    rintro ty _ ⟨rfl, hty⟩
    refine (hset name.name List.mem_cons_self ty hty).bind ?_
    rintro _ _ -
    exact .pure ⟨rfl, by simpa [Pins.all] using hty⟩
  | .type kind name, hset => by
    rw [Declaration.predeclare]
    refine (h.operator (.named name.name) [] (by simp)).bind ?_
    rintro ty _ ⟨rfl, hty⟩
    refine (hset name.name List.mem_cons_self ty hty).bind ?_
    rintro _ _ -
    exact .pure ⟨rfl, by simp [Pins.none, Pins.all]⟩

/-- A statement that declares nothing gives no types. -/
theorem predeclareStmt (h : Parallel R f V scope) (stmt : Stmt) (hset : Records R f V scope (namesOf stmt.symbols)) :
    Mirrors R (stmt.predeclare scope) (stmt.predeclare scope)
      fun pins pins' => pins' = pins.rename f ∧ ∀ ty ∈ pins.all, V ty := by
  rw [Stmt.predeclare]
  rw [Stmt.symbols] at hset
  cases hdecl : stmt.declaration? with
  | some decl => exact h.predeclareOne decl (by rwa [hdecl] at hset)
  | none => exact .pure ⟨rfl, by simp [Pins.none, Pins.all]⟩

/-! ### Lists of statements -/

/-- **Declarations** are given the same types up to numbers, one statement after another. -/
theorem predeclareAll (h : Parallel R f V scope) : ∀ stmts : List Stmt,
    Records R f V scope (namesOf (stmts.flatMap Stmt.symbols)) →
    Mirrors R (TypeInference.predeclareAll scope stmts) (TypeInference.predeclareAll scope stmts)
      fun pins pins' => pins' = pins.rename f ∧ ∀ ty ∈ pins.all, V ty
  | [], _ => .pure ⟨rfl, by simp [Pins.none, Pins.all]⟩
  | stmt :: rest, hset => by
    rw [List.flatMap_cons, namesOf_append] at hset
    rw [TypeInference.predeclareAll]
    refine (h.predeclareStmt stmt (hset.subset (List.subset_append_left _ _))).bind ?_
    rintro pins _ ⟨rfl, hpins⟩
    refine (h.predeclareAll rest (hset.subset (List.subset_append_right _ _))).bind ?_
    rintro more _ ⟨rfl, hmore⟩
    refine .pure ⟨by simp [Pins.append, Pins.rename], fun ty hty => ?_⟩
    have hmem : ty ∈ pins.all ∨ ty ∈ more.all := by
      simp only [Pins.append, Pins.all, List.mem_append] at hty ⊢
      tauto
    exact hmem.elim (hpins ty) (hmore ty)

end Parallel

end TypeInference
