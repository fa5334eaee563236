import Mathlib.Data.Set.Basic
import TypeInference.Proofs.Scope.Chain
import TypeInference.Proofs.Ty.Undo
import TypeInference.Scope.Declaration

/-!
# `Proofs.Scope.Growth` — how an arena grows

Scoping opens scopes at the end of the arena and fills each with its names; a submission also adds names to
the global scope. `Extends` says which scopes may have been touched, and that no parent has changed. What
has grown that way can go back: a snapshot of one scope is enough if no other was touched.

## Contents
* `Extends`, `lookup_of_extends` — growth, and what names go on to mean;
* `scopeAt_rollback`, `rollback_of_extends` — the way back;
* `Refilled`, `insert_cases`, `declare_cases` — one table with further names.
-/

namespace TypeInference

/-- A stop that tells something about the program, and is not for want of a scope. It is what a pass over a program
    may end with, if the numbers it is given are good. -/
def Halt.IsRefusal (reason : Halt Diagnostic) : Prop :=
  ∃ diagnostic, reason = .failure diagnostic ∧ diagnostic.cause ≠ .missingScope

namespace Scopes

variable {g g' g'' : Scopes} {id own : ScopeId} {touched touched' : Set ScopeId}

/-! ## Growth -/

/-- `g'` comes from `g` by new scopes, and by other names in the scopes that are `touched`. The names of the touched
    scopes are left open; their parents are not. -/
structure Extends (touched : Set ScopeId) (g g' : Scopes) : Prop where
  size_le : g.size ≤ g'.size
  scope : ∀ id : ScopeId, id.index < g.size → id ∉ touched → g'.scopeAt id = g.scopeAt id
  parent : ∀ id : ScopeId, id.index < g.size → g'.parentOf id = g.parentOf id

namespace Extends

theorem refl (g : Scopes) : Extends touched g g := ⟨Nat.le_refl _, fun _ _ _ => rfl, fun _ _ => rfl⟩

theorem trans (h : Extends touched g g') (h' : Extends touched g' g'') : Extends touched g g'' where
  size_le := h.size_le.trans h'.size_le
  scope := fun id hid hnot => (h'.scope id (hid.trans_le h.size_le) hnot).trans (h.scope id hid hnot)
  parent := fun id hid => (h'.parent id (hid.trans_le h.size_le)).trans (h.parent id hid)

theorem mono (hsub : touched ⊆ touched') (h : Extends touched g g') : Extends touched' g g' :=
  ⟨h.size_le, fun id hid hnot => h.scope id hid fun hmem => hnot (hsub hmem), h.parent⟩

end Extends

/-- **A name goes on meaning the same declaration** while the arena grows, if an outermost scope with further names
    has kept those that it had. A further name is found only where nothing was. -/
theorem lookup_of_extends (ho : g'.Ordered) {kept : ScopeId} (h : Extends {kept} g g') (hroot : g.parentOf kept = none)
    (hkept : ∀ {name symbol}, g.symbolAt kept name = some symbol → g'.symbolAt kept name = some symbol)
    {name : String} {owner : ScopeId} {symbol : Symbol} (hl : g.lookup id name = .ok (some (owner, symbol))) :
    g'.lookup id name = .ok (some (owner, symbol)) := by
  have hwithin : ∀ {fuel : Nat} {id : ScopeId}, g.lookupWithin name fuel id = .ok (some (owner, symbol)) →
      g'.lookup id name = .ok (some (owner, symbol)) := by
    intro fuel
    induction fuel with
    | zero => intro id hl; cases hl
    | succ fuel ih =>
      intro id hl
      obtain ⟨scope, hget, hl⟩ := exists_of_bind_eq_ok hl
      have hscope := get_eq_ok_iff_scopeAt.mp hget
      have hlt := lt_of_scopeAt hscope
      have hother : id ≠ kept → g'.symbolAt id name = g.symbolAt id name := fun hne => by
        rw [symbolAt, h.scope id hlt hne, symbolAt]
      have hat : g.symbolAt id name = scope.table.find? name := by rw [symbolAt, hscope, Option.bind_some]
      cases hfind : scope.table.find? name with
      | some found =>
        rw [hfind] at hl hat
        cases hl
        -- The name is found here: in a scope that has not changed, or in the one that keeps its names.
        refine lookup_of_symbolAt ?_
        by_cases hne : owner = kept
        · rw [hne] at hat ⊢
          exact hkept hat
        · exact (hother hne).trans hat
      | none =>
        rw [hfind] at hl hat
        cases hparent : scope.parent with
        | none => rw [hparent] at hl; cases hl
        | some parent =>
          rw [hparent] at hl
          have hup : g.parentOf id = some parent := by rw [parentOf, hscope, Option.bind_some, hparent]
          -- A scope with a parent is not the one that may have got more names.
          have hne : id ≠ kept := by
            rintro rfl
            cases hroot.symm.trans hup
          rw [lookup_of_parentOf ho ((h.parent id hlt).trans hup) ((hother hne).trans hat)]
          exact ih hl
  exact hwithin hl

/-! ## The way back -/

/-- An arena is what it holds. -/
theorem ext_scopeAt (h : ∀ id, g'.scopeAt id = g.scopeAt id) : g' = g :=
  congrArg Scopes.mk (Array.ext_getElem? fun i => h ⟨i⟩)

/-- Going back drops scopes, and gives other names to the kept one. -/
theorem scopeAt_rollback (g : Scopes) (snap : ScopeSnapshot) (id : ScopeId) :
    (g.rollback snap).scopeAt id =
      if id.index < snap.size then
        (g.scopeAt id).map fun scope => if id = snap.kept then { scope with table := snap.table } else scope
      else none := by
  have hindex : snap.kept.index = id.index ↔ id = snap.kept := by
    cases id
    cases snap.kept
    simp [eq_comm]
  simp only [scopeAt, rollback, Array.getElem?_modify, Store.getElem?_take, hindex]
  by_cases hkept : id = snap.kept
  · simp only [hkept, ↓reduceIte]
    split <;> rfl
  · simp only [hkept, ↓reduceIte, Option.map_id_fun', id_eq]

/-- No scope that is left has another parent, the kept one included. -/
theorem parentOf_rollback (g : Scopes) (snap : ScopeSnapshot) (id : ScopeId) :
    (g.rollback snap).parentOf id = if id.index < snap.size then g.parentOf id else none := by
  rw [parentOf, scopeAt_rollback, parentOf]
  split
  · cases g.scopeAt id with
    | none => rfl
    | some scope =>
      rw [Option.map_some, Option.bind_some, Option.bind_some]
      split <;> rfl
  · rfl

/-- **Going back to a snapshot** gives the arena, if only the kept scope was touched: new scopes are dropped, and
    the kept one gets back its names. -/
theorem rollback_of_extends {kept : ScopeId} {snap : ScopeSnapshot} (h : Extends {kept} g g')
    (hsnap : g.snapshot kept = .ok snap) : g'.rollback snap = g := by
  cases hget : g.get kept with
  | error f => simp [snapshot, table, hget, Functor.map, Except.map] at hsnap
  | ok scope =>
    have hscope := get_eq_ok_iff_scopeAt.mp hget
    cases (snapshot_eq_ok hscope).symm.trans hsnap
    refine ext_scopeAt fun id => ?_
    rw [scopeAt_rollback]
    split
    · next hlt =>
      by_cases hkept : id = kept
      · -- The kept scope has its parent still, and gets its names back.
        subst hkept
        obtain ⟨scope', hscope'⟩ := exists_scopeAt_iff.mpr (hlt.trans_le h.size_le)
        have hparent := h.parent id hlt
        rw [parentOf, hscope', parentOf, hscope, Option.bind_some, Option.bind_some] at hparent
        rw [hscope', hscope, Option.map_some, if_pos rfl, hparent]
      · rw [h.scope id hlt hkept]
        simp only [hkept, ↓reduceIte, Option.map_id_fun', id_eq]
    · next hge => exact (Array.getElem?_eq_none_iff.mpr (Nat.le_of_not_lt hge)).symm

/-! ## New scopes -/

/-- What an arena holds after a scope has been opened: the scope at the end, and what it held. -/
theorem scopeAt_allocate (g : Scopes) (scope : Scope) (id : ScopeId) :
    (g.allocate scope).2.scopeAt id = if id.index = g.size then some scope else g.scopeAt id := by
  simp only [scopeAt, allocate, Array.getElem?_push]
  rfl

theorem extends_allocate (g : Scopes) (scope : Scope) : Extends touched g (g.allocate scope).2 := by
  have hkeep : ∀ id : ScopeId, id.index < g.size → (g.allocate scope).2.scopeAt id = g.scopeAt id := by
    intro id hid
    rw [scopeAt_allocate, if_neg hid.ne]
  refine ⟨by rw [size_allocate]; exact Nat.le_succ _, fun id hid _ => hkeep id hid, fun id hid => ?_⟩
  rw [parentOf, hkeep id hid, parentOf]

/-! ## Further names in one scope -/

/-- The scope `own` has other names, and nothing else is different. -/
structure Refilled (g : Scopes) (own : ScopeId) (table : Table) (g' : Scopes) : Prop where
  size_eq : g'.size = g.size
  scope : ∀ id, g'.scopeAt id = if id = own then (g.scopeAt own).map ({ · with table }) else g.scopeAt id

namespace Refilled

variable {table table' : Table} {parent : Option ScopeId}

theorem refl (h : g.scopeAt own = some ⟨parent, table⟩) : Refilled g own table g :=
  ⟨rfl, fun id => by split <;> simp_all⟩

theorem trans (h : Refilled g own table g') (h' : Refilled g' own table' g'') :
    Refilled g own table' g'' where
  size_eq := h'.size_eq.trans h.size_eq
  scope := fun id => by
    rw [h'.scope]
    split
    · rw [h.scope, if_pos rfl, Option.map_map]; rfl
    · next hne => rw [h.scope, if_neg hne]

theorem scopeAt_own (h : Refilled g own table g') (hown : g.scopeAt own = some ⟨parent, table'⟩) :
    g'.scopeAt own = some ⟨parent, table⟩ := by
  rw [h.scope, if_pos rfl, hown]
  rfl

theorem parentOf (h : Refilled g own table g') (id : ScopeId) : g'.parentOf id = g.parentOf id := by
  rw [Scopes.parentOf, h.scope, Scopes.parentOf]
  split
  · next he => rw [he]; cases g.scopeAt own <;> rfl
  · rfl

theorem ordered (h : Refilled g own table g') (ho : g.Ordered) : g'.Ordered :=
  fun id parent hp => ho id parent (h.parentOf id ▸ hp)

theorem toExtends (h : Refilled g own table g') : Extends {own} g g' where
  size_le := h.size_eq.ge
  scope := fun id _ hnot => by rw [h.scope, if_neg (show id ≠ own from hnot)]
  parent := fun id _ => h.parentOf id

end Refilled

variable {table : Table} {parent : Option ScopeId} {name : String} {symbol : Symbol}

/-- A scope that is opened stands after the scope around it, which is there already. -/
theorem ordered_openChild (ho : g.Ordered) {outer : ScopeId} (hlt : outer.index < g.size) :
    (g.openChild outer).2.Ordered := by
  intro id parent hparent
  rw [Scopes.parentOf, openChild, scopeAt_allocate] at hparent
  split at hparent
  · next he =>
    cases hparent
    rwa [he]
  · exact ho id parent hparent

/-- Opening a scope and filling it leaves the scopes that are there alone. -/
theorem Refilled.extends_of_openChild {outer : ScopeId} {table : Table}
    (h : Refilled (g.openChild outer).2 ⟨g.size⟩ table g') : Extends touched g g' := by
  have hopen : Extends touched g (g.openChild outer).2 := extends_allocate g _
  have hother : ∀ id : ScopeId, id.index < g.size → id ≠ ⟨g.size⟩ := by
    rintro id hid rfl
    exact Nat.lt_irrefl _ hid
  exact ⟨hopen.size_le.trans_eq h.size_eq.symm,
    fun id hid hnot => by rw [h.scope, if_neg (hother id hid), hopen.scope id hid hnot],
    fun id hid => (h.parentOf id).trans (hopen.parent id hid)⟩

/-! ## Declaring a name -/

theorem insert_eq_ok (hown : g.scopeAt own = some ⟨parent, table⟩) (hnew : table.find? name = none)
    (symbol : Symbol) :
    ∃ g', g.insert own name symbol = .ok g' ∧ Refilled g own (table ++ [(name, symbol)]) g' := by
  have hlt := lt_of_scopeAt hown
  have hlocal : g.getLocal own name = .ok none := by
    rw [getLocal_eq_ok hlt, symbolAt, hown, Option.bind_some, hnew]
  obtain ⟨g', hmap⟩ := exists_mapTable hlt (·.insert name symbol)
  refine ⟨g', by simp only [insert, hlocal, Halt.ofQuery, ok_bind, hmap], size_of_mapTable hmap, fun id => ?_⟩
  rw [scopeAt_of_mapTable hmap, hown]
  rfl

/-- A symbol is changed, in the table of the one scope. -/
theorem update_eq_ok (hown : g.scopeAt own = some ⟨parent, table⟩) (name : String) (change : Symbol → Symbol) :
    ∃ g', g.update own name change = .ok g' ∧ Refilled g own (table.update name change) g' := by
  obtain ⟨g', hmap⟩ := exists_mapTable (lt_of_scopeAt hown) (·.update name change)
  exact ⟨g', hmap, size_of_mapTable hmap, fun id => by rw [scopeAt_of_mapTable hmap, hown]; rfl⟩

/-- A name that the scope has is refused, with the kind and the place of the symbol that came too late. -/
theorem insert_eq_error (hown : g.scopeAt own = some ⟨parent, table⟩) {earlier : Symbol}
    (hfind : table.find? name = some earlier) (symbol : Symbol) :
    g.insert own name symbol = .error (.failure ⟨.duplicate symbol.kind name, symbol.span⟩) := by
  have hlocal : g.getLocal own name = .ok (some earlier) := by
    rw [getLocal_eq_ok (lt_of_scopeAt hown), symbolAt, hown, Option.bind_some, hfind]
  simp only [insert, hlocal, Halt.ofQuery, ok_bind]
  rfl

/-- A name is inserted, or the scope has it already. There is no third case for a scope that is there. -/
theorem insert_cases (hown : g.scopeAt own = some ⟨parent, table⟩) (name : String) (symbol : Symbol) :
    (∃ g', g.insert own name symbol = .ok g' ∧ table.find? name = none ∧
        Refilled g own (table ++ [(name, symbol)]) g') ∨
      ∃ reason, g.insert own name symbol = .error reason ∧ reason.IsRefusal := by
  cases hfind : table.find? name with
  | some found => exact .inr ⟨_, insert_eq_error hown hfind symbol, _, rfl, by simp⟩
  | none =>
    obtain ⟨g', hinsert, hrefilled⟩ := insert_eq_ok hown hfind symbol
    exact .inl ⟨g', hinsert, rfl, hrefilled⟩

/-- **A name is declared, or refused**, for a duplicate or, under strict scoping, because a name further out would
    be hidden. -/
theorem declare_cases (ho : g.Ordered) (hown : g.scopeAt own = some ⟨parent, table⟩) (strict : Bool)
    (name : Ident) (symbol : Symbol) :
    (∃ g', g.declare strict own name symbol = .ok g' ∧ table.find? name.name = none ∧
        Refilled g own (table ++ [(name.name, symbol)]) g') ∨
      ∃ reason, g.declare strict own name symbol = .error reason ∧ reason.IsRefusal := by
  have hinsert := insert_cases hown name.name symbol
  obtain ⟨found, hlookup, -⟩ := @lookup_eq_ok g own name.name ho (lt_of_scopeAt hown)
  obtain ⟨hides, hhides⟩ : ∃ hides, g.hidesType own name.name = .ok hides := by
    cases found with
    | none => exact ⟨false, by simp [hidesType, hlookup]⟩
    | some found => exact ⟨_, by simp only [hidesType, hlookup, ok_bind]; rfl⟩
  -- Only a strict declaration of a value asks what it hides.
  cases hstrict : strict && !symbol.kind.isType with
  | false => simpa [declare, hstrict] using hinsert
  | true =>
    cases hides with
    | false => simpa [declare, hstrict, hhides, Halt.ofQuery] using hinsert
    | true =>
      refine .inr ⟨.failure ⟨.shadowsType name.name, name.span⟩, ?_, _, rfl, by simp⟩
      simp only [declare, hstrict, hhides, Halt.ofQuery, ok_bind, ↓reduceIte]
      rfl

end Scopes

end TypeInference
