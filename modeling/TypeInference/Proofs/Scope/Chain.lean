import Mathlib.Logic.Relation
import TypeInference.Proofs.Ty.Walk
import TypeInference.Scope.Arena

/-!
# `Proofs.Scope.Chain` — the way out of a scope, and what changes along it

The scopes around a scope form a chain. In an *ordered* arena every parent has a smaller number than its
child, so a chain ends, and looking up a name never runs out of steps. Once all scopes of a program are open,
the arena keeps its **shape**: parents, names and kinds stay, and only the rest of a symbol changes. A name
then goes on meaning the same declaration.

## Contents
* `scopeAt`, `parentOf`, `symbolAt`, `typeAt`, `Gives` — readings of an arena that cannot fail;
* `Ordered`, `Ordered.inwards`, `Sees`, `lookup_eq_ok` — the scopes a scope sees, and looking up a name in them;
* `lookup_of_symbolAt`, `lookup_of_parentOf`, `lookup_of_before` — where a name is found;
* `SameShape`, `lookup_of_sameShape` — what stays once all scopes are open;
* `exists_mapTable`, `symbolAt_of_update`, `sameShape_of_update` — a change of one table, and of one symbol in it.
-/

namespace TypeInference

open Relation

/-- A query has the same answers inside a computation that can also refuse the program. -/
theorem Halt.ofQuery_eq_ok {α : Type} {found : Except Fault α} {a : α} :
    (Halt.ofQuery found : Except (Halt Diagnostic) α) = .ok a ↔ found = .ok a := by
  cases found <;> simp [Halt.ofQuery]

namespace Scopes

variable {g g' g'' : Scopes} {id other owner : ScopeId} {name : String}

/-! ## Readings -/

/-- The scope of a number, if there is one. Unlike `get` it is no computation that can fail, so it can be written in
    a statement about any number. -/
def scopeAt (g : Scopes) (id : ScopeId) : Option Scope := g.toArray[id.index]?

/-- The scope around a scope, if there is one. A number that no scope has is treated like an outermost scope. -/
def parentOf (g : Scopes) (id : ScopeId) : Option ScopeId := (g.scopeAt id).bind Scope.parent

/-- The symbol that a scope itself has for a name, or none if there is no such scope. -/
def symbolAt (g : Scopes) (id : ScopeId) (name : String) : Option Symbol :=
  (g.scopeAt id).bind fun scope => scope.table.find? name

/-- The type of the symbol that a scope itself has for a name, if it has got one. -/
def typeAt (g : Scopes) (id : ScopeId) (name : String) : Option TypeId := (g.symbolAt id name).bind Symbol.ty

/-- Some entry of the scope, of this kind, has this type. Other than `typeAt` it does not ask which name the entry
    is found by, and is kept by changes of any symbol that leave kind and type alone. -/
def Gives (g : Scopes) (id : ScopeId) (kind : SymbolKind) (ty : TypeId) : Prop :=
  ∃ scope, g.scopeAt id = some scope ∧ ∃ entry ∈ scope.table, entry.2.kind = kind ∧ entry.2.ty = some ty

theorem get_eq_ok_iff_scopeAt {scope : Scope} : g.get id = .ok scope ↔ g.scopeAt id = some scope :=
  get_eq_ok_iff

theorem table_eq_ok {scope : Scope} (h : g.scopeAt id = some scope) : g.table id = .ok scope.table := by
  rw [table, get_eq_ok_iff_scopeAt.mpr h]
  rfl

theorem snapshot_eq_ok {scope : Scope} (h : g.scopeAt id = some scope) :
    g.snapshot id = .ok ⟨g.size, id, scope.table⟩ := by
  rw [snapshot, table_eq_ok h]
  rfl

theorem exists_scopeAt_iff : (∃ scope, g.scopeAt id = some scope) ↔ id.index < g.size := by
  constructor
  · rintro ⟨scope, h⟩
    exact (Array.getElem?_eq_some_iff.mp h).1
  · intro h
    exact ⟨_, Array.getElem?_eq_getElem h⟩

theorem lt_of_scopeAt {scope : Scope} (h : g.scopeAt id = some scope) : id.index < g.size :=
  exists_scopeAt_iff.mp ⟨scope, h⟩

/-! ### Entries and what they give -/

theorem mem_of_find? {table : Table} {symbol : Symbol} (h : table.find? name = some symbol) :
    (name, symbol) ∈ table := by
  induction table with
  | nil => cases h
  | cons entry table ih =>
    rw [Table.find?_cons] at h
    split at h
    · next he => cases h; subst he; exact List.mem_cons_self
    · exact List.mem_cons_of_mem _ (ih h)

theorem gives_of_symbolAt {symbol : Symbol} {ty : TypeId} (h : g.symbolAt id name = some symbol)
    (hty : symbol.ty = some ty) : g.Gives id symbol.kind ty := by
  obtain ⟨scope, hscope, hfind⟩ := Option.bind_eq_some_iff.mp h
  exact ⟨scope, hscope, _, mem_of_find? hfind, rfl, hty⟩

theorem gives_of_typeAt {ty : TypeId} (h : g.typeAt id name = some ty) : ∃ kind, g.Gives id kind ty := by
  obtain ⟨symbol, hsymbol, hty⟩ := Option.bind_eq_some_iff.mp h
  exact ⟨symbol.kind, gives_of_symbolAt hsymbol hty⟩

theorem typeAt_of_symbolAt {symbol : Symbol} {ty : TypeId} (h : g.symbolAt id name = some symbol)
    (hty : symbol.ty = some ty) : g.typeAt id name = some ty := by
  rw [typeAt, h, Option.bind_some, hty]

/-- Looking into a scope that is there finds what `symbolAt` says. -/
theorem getLocal_eq_ok (h : id.index < g.size) : g.getLocal id name = .ok (g.symbolAt id name) := by
  obtain ⟨scope, hscope⟩ := exists_scopeAt_iff.mpr h
  simp [getLocal, table, get_eq_ok_iff_scopeAt.mpr hscope, symbolAt, hscope]

theorem symbolAt_of_getLocal {found : Option Symbol} (h : g.getLocal id name = .ok found) :
    g.symbolAt id name = found := by
  cases hget : g.get id with
  | error f => simp [getLocal, table, hget, Functor.map, Except.map] at h
  | ok scope => exact Except.ok.inj ((getLocal_eq_ok (lt_of_scopeAt (get_eq_ok_iff_scopeAt.mp hget))).symm.trans h)

/-! ## Chains -/

/-- Every scope stands inside an earlier one. An arena that is built from outside in is ordered, and on an ordered
    one no way out goes round in a circle. -/
def Ordered (g : Scopes) : Prop := ∀ id parent, g.parentOf id = some parent → parent.index < id.index

/-- **From the outside in.** What holds of outermost scopes, and of a scope if it holds of the one around it, holds
    of every scope of an ordered arena. This is the induction for all statements about chains. -/
theorem Ordered.inwards (ho : g.Ordered) {P : ScopeId → Prop}
    (outermost : ∀ {id table}, g.scopeAt id = some ⟨none, table⟩ → P id)
    (inside : ∀ {id outer table}, g.scopeAt id = some ⟨some outer, table⟩ → P outer → P id) (hid : id.index < g.size) :
    P id := by
  -- Numbers fall on the way out.
  induction hindex : id.index using Nat.strong_induction_on generalizing id with
  | _ n ih =>
    obtain ⟨⟨around, table⟩, hscope⟩ := exists_scopeAt_iff.mpr hid
    cases around with
    | none => exact outermost hscope
    | some outer =>
      have hlt : outer.index < id.index := ho id outer (by rw [parentOf, hscope]; rfl)
      exact inside hscope (ih outer.index (hindex ▸ hlt) (hlt.trans hid) rfl)

/-! ### Looking up a name

A name is looked up in the scope itself, and then in the scopes around it one after another. In an ordered arena the
walk ends, and three lemmas say where: at the scope itself if it has the name, and otherwise where the parent finds
it. -/

/-- A scope sees itself and the scopes around it, which are those that a look-up asks. -/
abbrev Sees (g : Scopes) : ScopeId → ScopeId → Prop :=
  ReflTransGen fun id parent => g.parentOf id = some parent

/-- What a scope sees apart from itself, its parent sees. -/
theorem Sees.of_parent {parent : ScopeId} (hp : g.parentOf id = some parent) (h : g.Sees id owner) :
    owner = id ∨ g.Sees parent owner := by
  rcases h.cases_head with rfl | ⟨next, hnext, hrest⟩
  · exact .inl rfl
  · cases hp.symm.trans hnext
    exact .inr hrest

/-- With more steps than the number of the scope, looking up ends: the number falls on the way out. What is found is
    a symbol of a scope that is seen. -/
theorem lookupWithin_eq_ok (ho : g.Ordered) :
    ∀ {fuel : Nat} {id : ScopeId}, id.index < g.size → id.index < fuel →
    ∃ found, g.lookupWithin name fuel id = .ok found ∧
      ∀ owner symbol, found = some (owner, symbol) → g.Sees id owner ∧
        g.symbolAt owner name = some symbol := by
  -- Numbers fall along the chain, so a scope's number bounds the steps that are left.
  intro fuel
  induction fuel with
  | zero => intro id _ hfuel; exact absurd hfuel (Nat.not_lt_zero _)
  | succ fuel ih =>
    intro id hid hfuel
    obtain ⟨scope, hscope⟩ := exists_scopeAt_iff.mpr hid
    have hget := get_eq_ok_iff_scopeAt.mpr hscope
    cases hfind : scope.table.find? name with
    | some symbol =>
      refine ⟨some (id, symbol), by simp [lookupWithin, hget, hfind], ?_⟩
      rintro _ _ ⟨⟩
      exact ⟨.refl, by simp [symbolAt, hscope, hfind]⟩
    | none =>
      cases hparent : scope.parent with
      | none => exact ⟨none, by simp [lookupWithin, hget, hfind, hparent], fun _ _ he => nomatch he⟩
      | some parent =>
        have hp : g.parentOf id = some parent := by simp [parentOf, hscope, hparent]
        have hlt := ho _ _ hp
        obtain ⟨found, hfound, hmeans⟩ := @ih parent (hlt.trans hid) (by omega)
        refine ⟨found, by simp [lookupWithin, hget, hfind, hparent, hfound], fun owner symbol he => ?_⟩
        obtain ⟨hsees, hsymbol⟩ := hmeans owner symbol he
        exact ⟨hsees.head hp, hsymbol⟩

/-- **Looking up a name** ends, and finds a symbol of a scope that is seen. The bound that `lookup` uses is never
    met in an ordered arena. -/
theorem lookup_eq_ok (ho : g.Ordered) (hid : id.index < g.size) :
    ∃ found, g.lookup id name = .ok found ∧
      ∀ owner symbol, found = some (owner, symbol) → g.Sees id owner ∧ g.symbolAt owner name = some symbol :=
  lookupWithin_eq_ok ho hid (Nat.lt_succ_of_lt hid)

/-- **What is found by looking up a name** is a symbol of the scope that is named, in any arena, ordered or not. -/
theorem symbolAt_of_lookup {symbol : Symbol} (h : g.lookup id name = .ok (some (owner, symbol))) :
    g.symbolAt owner name = some symbol := by
  have hwithin : ∀ {fuel : Nat} {id : ScopeId}, g.lookupWithin name fuel id = .ok (some (owner, symbol)) →
      g.symbolAt owner name = some symbol := by
    intro fuel
    induction fuel with
    | zero => intro id h; cases h
    | succ fuel ih =>
      intro id h
      obtain ⟨scope, hget, h⟩ := exists_of_bind_eq_ok h
      cases hfind : scope.table.find? name with
      | some found =>
        rw [hfind] at h
        cases h
        rw [symbolAt, get_eq_ok_iff_scopeAt.mp hget, Option.bind_some, hfind]
      | none =>
        cases hparent : scope.parent with
        | none => rw [hfind, hparent] at h; cases h
        | some parent => rw [hfind, hparent] at h; exact ih h
  exact hwithin h

/-- A bound beyond the scope's number plays no part. -/
theorem lookupWithin_eq (ho : g.Ordered) : ∀ {fuel fuel' : Nat} {id : ScopeId}, id.index < fuel →
    id.index < fuel' → g.lookupWithin name fuel id = g.lookupWithin name fuel' id := by
  intro fuel
  induction fuel with
  | zero => intro fuel' id hfuel; exact absurd hfuel (Nat.not_lt_zero _)
  | succ fuel ih =>
    intro fuel' id hfuel hfuel'
    obtain ⟨fuel', rfl⟩ := Nat.exists_eq_succ_of_ne_zero (Nat.ne_zero_of_lt hfuel')
    cases hget : g.get id with
    | error f => simp [lookupWithin, hget]
    | ok scope =>
      cases hfind : scope.table.find? name with
      | some symbol => simp [lookupWithin, hget, hfind]
      | none =>
        cases hparent : scope.parent with
        | none => simp [lookupWithin, hget, hfind, hparent]
        | some parent =>
          have hlt := ho id parent (by simp [parentOf, get_eq_ok_iff_scopeAt.mp hget, hparent])
          simp [lookupWithin, hget, hfind, hparent, @ih fuel' parent (by omega) (by omega)]

theorem lookup_of_symbolAt {symbol : Symbol} (h : g.symbolAt id name = some symbol) :
    g.lookup id name = .ok (some (id, symbol)) := by
  obtain ⟨scope, hscope, hfind⟩ := Option.bind_eq_some_iff.mp h
  simp [lookup, lookupWithin, get_eq_ok_iff_scopeAt.mpr hscope, hfind]

/-- Any other name is looked up in the scope around. With the lemma above it this is the recursion by which names
    are looked up, without its bound. -/
theorem lookup_of_parentOf (ho : g.Ordered) {parent : ScopeId} (hp : g.parentOf id = some parent)
    (hnone : g.symbolAt id name = none) : g.lookup id name = g.lookup parent name := by
  obtain ⟨scope, hscope, hparent⟩ := Option.bind_eq_some_iff.mp hp
  rw [symbolAt, hscope, Option.bind_some] at hnone
  have hlt := ho id parent hp
  have hid := lt_of_scopeAt hscope
  have hfuel : g.lookupWithin name g.size parent = g.lookupWithin name (g.size + 1) parent :=
    lookupWithin_eq ho (by omega) (by omega)
  rw [lookup, lookup, ← hfuel, lookupWithin]
  simp [get_eq_ok_iff_scopeAt.mpr hscope, hnone, hparent]

/-- **What a name means does not depend on later scopes**: only scopes with smaller numbers are met on the way out. -/
theorem lookup_of_before (ho : g.Ordered) (hsize : g'.size = g.size) {n : Nat}
    (hsame : ∀ id : ScopeId, id.index < n → g'.scopeAt id = g.scopeAt id) (hid : id.index < n) :
    g'.lookup id name = g.lookup id name := by
  have hget : ∀ id : ScopeId, id.index < n → g'.get id = g.get id := fun id hid => by
    have h : g'.toArray[id.index]? = g.toArray[id.index]? := hsame id hid
    rw [get, h, get]
  have hwithin : ∀ {fuel : Nat} {id : ScopeId}, id.index < n →
      g'.lookupWithin name fuel id = g.lookupWithin name fuel id := by
    intro fuel
    induction fuel with
    | zero => intro id _; rfl
    | succ fuel ih =>
      intro id hid
      cases hfound : g.get id with
      | error f => simp [lookupWithin, hget id hid, hfound]
      | ok scope =>
        cases hparent : scope.parent with
        | none => simp [lookupWithin, hget id hid, hfound, hparent]
        | some parent =>
          have hlt := ho id parent (by simp [parentOf, get_eq_ok_iff_scopeAt.mp hfound, hparent])
          simp [lookupWithin, hget id hid, hfound, hparent, ih (hlt.trans hid)]
  rw [lookup, hsize, hwithin hid, lookup]

/-! ## Shape -/

/-- The arenas have the same scopes, with the same names in them, of the same kinds. Types, values and mutability
    may differ, which is all that inference changes. -/
structure SameShape (g g' : Scopes) : Prop where
  size_eq : g'.size = g.size
  parent : ∀ id, g'.parentOf id = g.parentOf id
  kind : ∀ id name, (g'.symbolAt id name).map Symbol.kind = (g.symbolAt id name).map Symbol.kind

namespace SameShape

theorem refl (g : Scopes) : SameShape g g := ⟨rfl, fun _ => rfl, fun _ _ => rfl⟩

theorem trans (h : SameShape g g') (h' : SameShape g' g'') : SameShape g g'' :=
  ⟨h'.size_eq.trans h.size_eq, fun id => (h'.parent id).trans (h.parent id),
    fun id name => (h'.kind id name).trans (h.kind id name)⟩

theorem symm (h : SameShape g g') : SameShape g' g :=
  ⟨h.size_eq.symm, fun id => (h.parent id).symm, fun id name => (h.kind id name).symm⟩

theorem ordered (h : SameShape g g') (ho : g.Ordered) : g'.Ordered :=
  fun id parent hp => ho id parent (h.parent id ▸ hp)

theorem sees (h : SameShape g g') (hs : g.Sees id owner) : g'.Sees id owner :=
  ReflTransGen.mono (fun _ _ hp => (h.parent _).trans hp) _ _ hs

theorem symbol (h : SameShape g g') {symbol : Symbol} (hs : g.symbolAt id name = some symbol) :
    ∃ symbol', g'.symbolAt id name = some symbol' ∧ symbol'.kind = symbol.kind := by
  have hk := h.kind id name
  rw [hs, Option.map_some] at hk
  exact Option.map_eq_some_iff.mp hk

end SameShape

/-! ### Names in arenas of one shape -/

/-- By induction on the bound: a scope has a name in both arenas or in neither, so both walks stop at the same
    scope. -/
theorem lookupWithin_of_sameShape (h : SameShape g g') {symbol : Symbol} : ∀ {fuel : Nat} {id : ScopeId},
    g.lookupWithin name fuel id = .ok (some (owner, symbol)) →
      ∃ symbol', g'.lookupWithin name fuel id = .ok (some (owner, symbol')) ∧
        g'.symbolAt owner name = some symbol' := by
  intro fuel
  induction fuel with
  | zero => intro id hl; cases hl
  | succ fuel ih =>
    intro id hl
    cases hget : g.get id with
    | error f => simp [lookupWithin, hget] at hl
    | ok scope =>
      have hscope := get_eq_ok_iff_scopeAt.mp hget
      obtain ⟨scope', hscope'⟩ := exists_scopeAt_iff.mpr (h.size_eq.symm ▸ lt_of_scopeAt hscope)
      have hget' := get_eq_ok_iff_scopeAt.mpr hscope'
      have hparent : scope'.parent = scope.parent := by simpa [parentOf, hscope, hscope'] using h.parent id
      -- Both scopes have the same names, so the name is found in both or in neither.
      have hkind : (scope'.table.find? name).map Symbol.kind = (scope.table.find? name).map Symbol.kind := by
        simpa [symbolAt, hscope, hscope'] using h.kind id name
      cases hfind : scope.table.find? name with
      | some found =>
        rw [hfind, Option.map_some] at hkind
        obtain ⟨found', hfind', -⟩ := Option.map_eq_some_iff.mp hkind
        simp only [lookupWithin, hget, hfind, ok_bind, pure_eq_ok, Except.ok.injEq, Option.some.injEq,
          Prod.mk.injEq] at hl
        obtain ⟨rfl, -⟩ := hl
        exact ⟨found', by simp [lookupWithin, hget', hfind'], by simp [symbolAt, hscope', hfind']⟩
      | none =>
        have hfind' : scope'.table.find? name = none := by simpa [hfind] using hkind
        cases hp : scope.parent with
        | none => simp [lookupWithin, hget, hfind, hp] at hl
        | some parent =>
          have hrest : g.lookupWithin name fuel parent = .ok (some (owner, symbol)) := by
            simpa [lookupWithin, hget, hfind, hp] using hl
          obtain ⟨symbol', hl', hsymbol'⟩ := ih hrest
          exact ⟨symbol', by simp [lookupWithin, hget', hfind', hparent, hp, hl'], hsymbol'⟩

/-- **A name goes on meaning the same declaration** while the shape stays. -/
theorem lookup_of_sameShape (h : SameShape g g') {symbol : Symbol}
    (hl : g.lookup id name = .ok (some (owner, symbol))) :
    ∃ symbol', g'.lookup id name = .ok (some (owner, symbol')) ∧ g'.symbolAt owner name = some symbol' := by
  unfold lookup at hl ⊢
  rw [h.size_eq]
  exact lookupWithin_of_sameShape h hl

/-! ## Changes of one table -/

/-- The names of a scope that is there can be changed. -/
theorem exists_mapTable (h : id.index < g.size) (change : Table → Table) :
    ∃ g', g.mapTable id change = .ok g' := by
  obtain ⟨scope, hscope⟩ := exists_scopeAt_iff.mpr h
  exact ⟨_, by rw [mapTable, get_eq_ok_iff_scopeAt.mpr hscope]; rfl⟩

theorem scopeAt_of_mapTable {change : Table → Table} (h : g.mapTable id change = .ok g') (other : ScopeId) :
    g'.scopeAt other =
      if other = id then (g.scopeAt id).map (fun scope => { scope with table := change scope.table })
      else g.scopeAt other := by
  cases hget : g.get id with
  | error f => simp [mapTable, hget] at h
  | ok scope =>
    have hscope := get_eq_ok_iff_scopeAt.mp hget
    have hlt := lt_of_scopeAt hscope
    simp only [mapTable, hget, ok_bind, pure_eq_ok, Except.ok.injEq] at h
    subst h
    by_cases he : other = id
    · subst he
      rw [if_pos rfl, hscope]
      simp only [scopeAt, Array.getElem?_setIfInBounds, ↓reduceIte, Option.map_some]
      exact if_pos hlt
    · have hindex : id.index ≠ other.index := fun hi => he (by cases id; cases other; simp_all)
      simp [scopeAt, he, hindex]

theorem size_of_mapTable {change : Table → Table} (h : g.mapTable id change = .ok g') : g'.size = g.size := by
  cases hget : g.get id with
  | error f => simp [mapTable, hget] at h
  | ok scope =>
    simp only [mapTable, hget, ok_bind, pure_eq_ok, Except.ok.injEq] at h
    subst h
    simp [size]

theorem parentOf_of_mapTable {change : Table → Table} (h : g.mapTable id change = .ok g') (other : ScopeId) :
    g'.parentOf other = g.parentOf other := by
  rw [parentOf, scopeAt_of_mapTable h, parentOf]
  split
  · next he => rw [he]; cases g.scopeAt id <;> rfl
  · rfl

section Update

variable {change : Symbol → Symbol}

/-- After an update the one symbol is changed, if the scope has it, and every other symbol is what it was. -/
theorem symbolAt_of_update (h : g.update id name change = .ok g') (other : ScopeId) (n : String) :
    g'.symbolAt other n =
      if other = id ∧ name = n then (g.symbolAt id n).map change else g.symbolAt other n := by
  rw [symbolAt, scopeAt_of_mapTable h]
  by_cases he : other = id
  · subst he
    cases hscope : g.scopeAt other with
    | none => simp [symbolAt, hscope]
    | some scope => simp [symbolAt, hscope, Table.find?_update]
  · simp [he, symbolAt]

/-- An update that leaves the kind alone keeps the shape, and inference makes no others. -/
theorem sameShape_of_update (h : g.update id name change = .ok g')
    (hkind : ∀ symbol, (change symbol).kind = symbol.kind) :
    SameShape g g' where
  size_eq := size_of_mapTable h
  parent := parentOf_of_mapTable h
  kind := fun other n => by
    rw [symbolAt_of_update h]
    split
    · next he => rw [he.1]; cases g.symbolAt id n <;> simp [hkind]
    · rfl

/-- What an entry gives after an update, it gave before, or its symbol has been changed. -/
theorem gives_of_update (h : g.update id name change = .ok g')
    (hkind : ∀ symbol, (change symbol).kind = symbol.kind) {kind : SymbolKind} {ty : TypeId}
    (hg : g'.Gives other kind ty) :
    g.Gives other kind ty ∨ other = id ∧ ∃ symbol, (change symbol).ty = some ty ∧
      (symbol.ty = some ty → g.Gives other kind ty) := by
  obtain ⟨scope', hscope', entry', hmem, hsame, hty⟩ := hg
  rw [scopeAt_of_mapTable h] at hscope'
  split at hscope'
  · next he =>
    obtain ⟨scope, hscope, rfl⟩ := Option.map_eq_some_iff.mp hscope'
    obtain ⟨⟨key, symbol⟩, hentry, heq⟩ := List.mem_map.mp hmem
    dsimp only at heq
    split at heq
    · cases heq
      rw [hkind] at hsame
      exact .inr ⟨he, symbol, hty, fun hold => ⟨scope, he ▸ hscope, _, hentry, hsame, hold⟩⟩
    · cases heq
      exact .inl ⟨scope, he ▸ hscope, _, hentry, hsame, hty⟩
  · exact .inl ⟨scope', hscope', entry', hmem, hsame, hty⟩

end Update

end Scopes

end TypeInference
