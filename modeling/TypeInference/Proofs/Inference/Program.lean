import TypeInference.Proofs.Inference.Statement
import TypeInference.Proofs.Scoping.Annotation

/-!
# `Proofs.Inference.Program` — inference of a program keeps to a guard of its own

A program stands in the global scope, which holds names of earlier programs already. Its guard lets inference
change the global scope and the scopes of the program, and nothing else; the types of global variables are
used as they are, and so are the types of what the program declares. The variables to hide are chosen freely
among those that no global variable's type has.

## Contents
* `Submitted` — a scoped program, and the arena it was scoped in;
* `Submitted.guard`, `Submitted.admits` — the guard of a program, and that it is met at the start;
* `Submitted.infer_allows` — inference of the program.
-/

namespace TypeInference

open Store Scopes InferM Guard

/-! ## Submitted programs -/

/-- The types of the variables among names. A program is looked at with those of the global variables pinned. -/
def pinnedTypes (table : Table) : List TypeId := typesOf .var table

/-- They are the types that are recorded with variables. -/
theorem mem_pinnedTypes {table : Table} {ty : TypeId} :
    ty ∈ pinnedTypes table ↔ ∃ entry ∈ table, entry.2.kind = .var ∧ entry.2.ty = some ty := by
  simp only [pinnedTypes, typesOf, List.mem_filterMap]
  refine exists_congr fun entry => and_congr_right fun _ => ?_
  split <;> simp_all

/-- A program that has been scoped in the arena `before`, and a store for its types. Scoping has only added to the
    arena, and has recorded no types, so whatever has a type had it before. -/
structure Submitted (types : Store) (before scopes : Scopes) (global : ScopeId) (table : Table)
    (program : Program) : Prop where
  wf : types.WellFormed
  inRange : ∀ {id kind ty}, before.Gives id kind ty → ty.index < types.size
  grown : Extends {global} before scopes
  ordered : scopes.Ordered
  gives : ∀ {id kind ty}, scopes.Gives id kind ty → before.Gives id kind ty
  found : before.scopeAt global = some ⟨none, table⟩
  placed : program.Placed scopes global none table before.size

namespace Submitted

variable {r : Bool} {types : Store} {before scopes : Scopes} {global : ScopeId} {table : Table}
  {program : Program} {hidden : Set TypeId} {tidy : Prop}

/-- The global scope is there before the program is scoped. -/
theorem global_lt (h : Submitted types before scopes global table program) : global.index < before.size :=
  lt_of_scopeAt h.found

/-- The guard of a program. Which variables it hides and whether it is tidy is left open, since the different
    results about programs choose differently. -/
def guard (h : Submitted types before scopes global table program) (hidden : Set TypeId) (tidy : Prop) :
    Guard where
  hidden := hidden
  visible := {id | id = global ∨ before.size ≤ id.index ∧ id.index < scopes.size}
  direct := fun id name => (id = global ∧
    ((∃ symbol, scopes.symbolAt global name = some symbol ∧ symbol.kind = .var) ∨
    name ∈ declaredNames (declarations program.stmts))) ∨ before.size ≤ id.index
  base := scopes
  tidy := tidy
  ordered := h.ordered
  visible_lt := by
    rintro id (rfl | ⟨-, hlt⟩)
    · exact h.global_lt.trans_le h.grown.size_le
    · exact hlt

variable (h : Submitted types before scopes global table program)

include h

/-! ### Names of the global scope -/

/-- The global scope has the names it had, and after them those of the program. -/
theorem symbolAt_global (name : String) : scopes.symbolAt global name =
    (table ++ entriesOf (program.stmts.flatMap Stmt.symbols)).find? name := by
  rw [symbolAt, h.placed.scope, Option.bind_some]

/-- A name of the program is found as the program declares it, since the names before it are different. -/
theorem symbolAt_of_mem {entry : Ident × Symbol} (hentry : entry ∈ program.stmts.flatMap Stmt.symbols) :
    scopes.symbolAt global entry.1.name = some entry.2 := by
  rw [h.symbolAt_global, Table.find?, List.lookup_append, ← Table.find?,
    h.placed.fresh _ (List.mem_map_of_mem hentry), Option.none_or]
  exact find?_entriesOf h.placed.nodup hentry

/-- Another name is found as it was before the program. -/
theorem find?_of_not_mem {name : String} {symbol : Symbol}
    (hsymbol : scopes.symbolAt global name = some symbol)
    (hname : name ∉ declaredNames (declarations program.stmts)) : table.find? name = some symbol := by
  rw [h.symbolAt_global, Table.find?, List.lookup_append, Option.or_eq_some_iff] at hsymbol
  rcases hsymbol with hold | ⟨-, hnew⟩
  · exact hold
  · obtain ⟨entry, hentry, heq⟩ := List.mem_map.mp (mem_of_find? hnew)
    refine absurd ?_ hname
    rw [declaredNames, ← flatMap_symbols]
    exact List.mem_map.mpr ⟨entry, hentry, congrArg Prod.fst heq⟩

/-- From the global scope no other scope is seen. -/
theorem sees_global {owner : ScopeId} (hsees : scopes.Sees global owner) : owner = global := by
  rcases hsees.cases_head with he | ⟨parent, hparent, -⟩
  · exact he.symm
  · rw [parentOf, h.placed.scope] at hparent
    cases hparent

/-- The scopes of the program have no types at the start. -/
theorem fresh : (Inference.start types scopes).Fresh before.size := fun _ _ _ hle hg => by
  obtain ⟨scope, hscope, -⟩ := h.gives hg
  exact Nat.lt_irrefl _ ((lt_of_scopeAt hscope).trans_le hle)

/-- The names of the program have no types at the start. -/
theorem typeAt_of_mem {name : String} (hname : name ∈ declaredNames (declarations program.stmts)) :
    scopes.typeAt global name = none := by
  rw [declaredNames, ← flatMap_symbols] at hname
  obtain ⟨entry, hentry, rfl⟩ := List.mem_map.mp hname
  obtain ⟨stmt, -, hmem⟩ := List.mem_flatMap.mp hentry
  rw [typeAt, h.symbolAt_of_mem hentry, Option.bind_some, Stmt.ty_of_mem_symbols entry hmem]

/-- The names of the program may get types: they have none, and they are used as they are. -/
theorem nameable :
    Nameable (h.guard hidden tidy) global (namesOf (program.stmts.flatMap Stmt.symbols))
      (.start types scopes) where
  visible := .inl rfl
  nodup := h.placed.nodup
  there := fun name hname => by
    obtain ⟨entry, hentry, rfl⟩ := List.mem_map.mp hname
    show (scopes.symbolAt global entry.1.name).isSome
    rw [h.symbolAt_of_mem hentry]; rfl
  untyped := fun _ name hname => h.typeAt_of_mem (by rwa [declaredNames, ← flatMap_symbols])

/-- The declarations of the program are prepared once they have got types. -/
theorem prepared {s : Inference} {pins : Pins} (hpre : Predeclared (h.guard hidden tidy) global
    (declarations program.stmts) pins (.start types scopes) s) :
    Prepared (h.guard hidden tidy) global (declarations program.stmts) s where
  present := fun _ hentry => ⟨_, h.symbolAt_of_mem (flatMap_symbols program.stmts ▸ hentry), rfl⟩
  direct := fun _ hname => .inl ⟨rfl, .inr (mem_declaredNames hname)⟩
  announced := hpre.announced

/-! ## The start -/

variable (hunbound : ∀ v ∈ hidden, types.IsUnbound v)
  (hclear : ∀ {ty}, before.Gives global .var ty → types.Clear hidden ty)

include hunbound hclear

/-- **The guard is met at the start** when what it hides is unbound and no global variable's type has any of it. -/
theorem admits : (h.guard hidden tidy).Admits (.start types scopes) where
  wf := h.wf
  unbound := hunbound
  shape := .refl _
  inRange := fun hg => h.inRange (h.gives hg)
  direct := fun {id name ty} hdirect hty => by
    rcases hdirect with ⟨rfl, ⟨symbol, hsymbol, hkind⟩ | hmem⟩ | hle
    · rw [Inference.start, typeAt, hsymbol] at hty
      exact hclear (h.gives (hkind ▸ gives_of_symbolAt hsymbol hty))
    · cases (h.typeAt_of_mem hmem).symm.trans hty
    · cases (h.fresh.typeAt hle name).symm.trans hty
  frames := fun _ hframe => nomatch hframe

/-- A tree in the global scope may be looked at, with the global variables pinned. -/
theorem stands :
    (h.guard hidden tidy).Stands (pinnedTypes table) global before.size (.start types scopes) where
  admits := h.admits hunbound hclear
  pinsClear := fun ty hty => hclear ⟨_, h.found, mem_pinnedTypes.mp hty⟩
  inside := fun hsees => .inl (h.sees_global hsees)
  vars := fun {owner name symbol} hsees hsymbol hkind => by
    obtain rfl := h.sees_global hsees
    exact .inl ⟨rfl, .inl ⟨symbol, hsymbol, hkind⟩⟩
  ahead := fun id hle hlt => ⟨.inr ⟨hle, hlt⟩, fun _ => .inr hle⟩
  fresh := fun _ => h.fresh

/-! ## The statements -/

/-- The statements may be looked at when their names have got types. A global name that may be seen is one of the
    program, which has just got its type, or an earlier one; of those a tidy guard assumes that they have types. -/
theorem open_of_predeclared {s : Inference} {pins : Pins}
    (htyped : tidy → ∀ {name symbol}, table.find? name = some symbol → symbol.kind.isValue = true →
      symbol.ty.isSome) (hs : (h.guard hidden tidy).Step r (.start types scopes) s)
    (hpre : Predeclared (h.guard hidden tidy) global (declarations program.stmts) pins
      (.start types scopes) s) :
    (h.guard hidden tidy).Open (pinnedTypes table ++ pins.vars) global before.size s := by
  have hstands : (h.guard hidden tidy).Stands _ _ _ _ := h.stands hunbound hclear
  have hfresh : tidy → s.Fresh before.size := fun _ => hpre.fresh _ h.global_lt h.fresh
  have hstep := hstands.step hs (Nat.le_refl _) hfresh
  -- A value has got a type now, or it had one and was pinned if it is a variable.
  have hvalue : tidy → ∀ {name symbol}, s.scopes.symbolAt global name = some symbol →
      symbol.kind.isValue = true →
      ∃ ty, symbol.ty = some ty ∧ (symbol.kind = .var → ty ∈ pinnedTypes table ++ pins.vars) := by
    intro ht name symbol hsymbol hisValue
    obtain ⟨old, hold, hkind⟩ := hs.shape.symm.symbol hsymbol
    by_cases hmem : name ∈ declaredNames (declarations program.stmts)
    · obtain ⟨entry, hentry, rfl⟩ := List.mem_map.mp hmem
      obtain ⟨ty, hty, hvar⟩ := hpre.values ht entry hentry
      rw [typeAt, hsymbol, Option.bind_some] at hty
      refine ⟨ty, hty, fun he => List.mem_append_right _ (hvar ?_)⟩
      have hat : (Inference.start types scopes).scopes.symbolAt global entry.1.name = some entry.2 :=
        h.symbolAt_of_mem (flatMap_symbols program.stmts ▸ hentry)
      obtain rfl : entry.2 = old := Option.some.inj (hat.symm.trans hold)
      exact hkind.trans he
    · have hfind := h.find?_of_not_mem hold hmem
      obtain ⟨ty, hty⟩ := Option.isSome_iff_exists.mp (htyped ht hfind (hkind ▸ hisValue))
      have hat := hs.kept ht (typeAt_of_symbolAt hold hty)
      rw [typeAt, hsymbol, Option.bind_some] at hat
      refine ⟨ty, hat, fun he => List.mem_append_left _ ?_⟩
      exact mem_pinnedTypes.mpr ⟨_, mem_of_find? hfind, hkind.trans he, hty⟩
  have hpins : ∀ p ∈ pinnedTypes table ++ pins.vars, s.types.Clear hidden p := fun p hp =>
    (List.mem_append.mp hp).elim (hstep.pinsClear p) fun hp => hpre.clear p (Pins.mem_all.mpr (.inl hp))
  refine { toStands := { hstep with pinsClear := hpins }, typed := ?_, varsPinned := ?_, framesPinned := ?_ }
  · intro ht owner name symbol hsees hsymbol hisValue
    obtain rfl := h.sees_global hsees
    obtain ⟨ty, hty, -⟩ := hvalue ht hsymbol hisValue
    exact ⟨ty, hty⟩
  · intro ht owner name symbol ty hsees hsymbol hkind hty
    obtain rfl := h.sees_global hsees
    obtain ⟨ty', hty', hmem⟩ := hvalue ht hsymbol (by rw [hkind]; rfl)
    obtain rfl : ty = ty' := Option.some.inj (hty.symm.trans hty')
    exact covered_of_mem (hpins ty (hmem hkind)).lt (hmem hkind)
  · intro _ frame hframe
    obtain ⟨old, hold, -⟩ := hs.exists_frame hframe
    cases hold

/-- The statements of a program may be looked at after its declarations, by the induction that is used for blocks. -/
theorem underway {s : Inference} {pins : Pins}
    (htyped : tidy → ∀ {name symbol}, table.find? name = some symbol → symbol.kind.isValue = true →
      symbol.ty.isSome) (hs : (h.guard hidden tidy).Step r (.start types scopes) s)
    (hpre : Predeclared (h.guard hidden tidy) global (declarations program.stmts) pins (.start types scopes) s) :
    (h.guard hidden tidy).Underway (pinnedTypes table) pins global before.size program.stmts s where
  toOpen := h.open_of_predeclared hunbound hclear htyped hs hpre
  functions := fun ty hty => hpre.clear ty (Pins.mem_all.mpr (.inr hty))
  prepared := h.prepared hpre
  pending := fun ht => ⟨hpre.functions ht, hpre.nodup⟩

/-- **The statements of a program** are looked at after its declarations: one type for each statement, with which,
    under a tidy guard, the statements are well typed, and afterwards all global values have types. -/
theorem stmts_allows {s : Inference} {pins : Pins}
    (htyped : tidy → ∀ {name symbol}, table.find? name = some symbol → symbol.kind.isValue = true →
      symbol.ty.isSome) (hs : (h.guard hidden tidy).Step r (.start types scopes) s)
    (hpre : Predeclared (h.guard hidden tidy) global (declarations program.stmts) pins (.start types scopes) s) :
    (h.guard hidden tidy).Allows (stmtsReturn program.stmts)
      (inferStmts global (pinnedTypes table) pins program.stmts) s fun tys s' =>
        tys.length = program.stmts.length ∧ (∀ ty ∈ tys, ty.index < s'.types.size) ∧
        (tidy → StmtsTyped s'.types.tree s'.scopes none global program.stmts (tys.map s'.types.tree) ∧
          ∀ {name symbol}, s'.scopes.symbolAt global name = some symbol → symbol.kind.isValue = true →
            symbol.ty.isSome) := by
  have hunderway := h.underway hunbound hclear htyped hs hpre
  apply (inferStmts_allows program.stmts h.placed.stmts hunderway hs.expected_eq).mono
  intro tys s₂ h₂ hafter
  obtain ⟨hlength, hlt, hsettles⟩ := hafter
  refine ⟨hlength, hlt, fun ht =>
    ⟨(hsettles.holds ht).now h₂.types.wf, fun {name symbol} hsymbol hvalue => ?_⟩⟩
  have hopen₂ := hunderway.toOpen.step h₂ (PlacedStmts.le h.placed.stmts) hsettles.fresh
  obtain ⟨ty, hty⟩ := hopen₂.typed ht .refl hsymbol hvalue
  rw [hty]; rfl

/-- **Inference of a program**: its declarations are given types, and its statements are looked at. Under a tidy
    guard they are well typed at the end, with one type for each, and afterwards all global values have types. -/
theorem infer_allows
    (htyped : tidy → ∀ {name symbol}, table.find? name = some symbol → symbol.kind.isValue = true →
      symbol.ty.isSome) :
    (h.guard hidden tidy).Allows (stmtsReturn program.stmts)
      (inferList global (pinnedTypes table) program.stmts) (.start types scopes) fun tys s =>
        tys.length = program.stmts.length ∧ (∀ ty ∈ tys, ty.index < s.types.size) ∧
        (tidy → StmtsTyped s.types.tree s.scopes none global program.stmts (tys.map s.types.tree) ∧
          ∀ {name symbol}, s.scopes.symbolAt global name = some symbol → symbol.kind.isValue = true →
            symbol.ty.isSome) :=
  Allows.bind (predeclareAll_allows program.stmts (h.admits hunbound hclear) h.nameable) fun _ _ h₁ hpre =>
    h.stmts_allows hunbound hclear htyped h₁ hpre

end Submitted

end TypeInference
