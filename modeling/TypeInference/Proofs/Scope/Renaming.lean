import TypeInference.Proofs.Scope.Chain

/-!
# `Proofs.Scope.Renaming` — one arena inside another, under other type numbers

An arena can hold all scopes of another one, with the types of symbols under other numbers, further names in one
outermost scope, and further scopes. As long as the further names are none of that scope's own, a name that
means something in the smaller arena means the same in the larger one, and changes of symbols correspond.

## Contents
* `Symbol.rename`, `Table.rename`, `Table.facts` — tables under other numbers, and what is to stay of a table;
* `Overlay`, `Overlay.Embeds` — what the larger arena has besides, and one arena inside another;
* `Embeds.lookup`, `Embeds.symbolAt`, `Embeds.update` — the meaning of names, and their changes.
-/

namespace TypeInference

/-! ## Symbols and tables under other numbers -/

/-- The same symbol under another type number; kind, flags and place are as they were. -/
def Symbol.rename (f : TypeId → TypeId) (symbol : Symbol) : Symbol := { symbol with ty := symbol.ty.map f }

namespace Table

variable {f : TypeId → TypeId} {table : Table} {name : String} {change change' : Symbol → Symbol}

/-- The same table under other type numbers, with the names in their order. -/
def rename (f : TypeId → TypeId) (table : Table) : Table := table.map fun entry => (entry.1, entry.2.rename f)

/-- The names with their kinds and types. Values and mutability are left out, as they may change while an analysis
    goes on. -/
def facts (table : Table) : List (String × SymbolKind × Option TypeId) :=
  table.map fun entry => (entry.1, entry.2.kind, entry.2.ty)

/-- A name is found where it was, with its type under the other number. -/
theorem find?_rename (f : TypeId → TypeId) (table : Table) (name : String) :
    (table.rename f).find? name = (table.find? name).map (Symbol.rename f) := by
  induction table with
  | nil => rfl
  | cons entry table ih =>
    rw [rename, List.map_cons, find?_cons, find?_cons, ← rename, ih]
    split <;> rfl

theorem find?_eq_none (h : ∀ entry ∈ table, entry.1 ≠ name) : table.find? name = none := by
  induction table with
  | nil => rfl
  | cons entry table ih =>
    rw [find?_cons, if_neg (h entry List.mem_cons_self), ih fun e he => h e (List.mem_cons_of_mem _ he)]

theorem ne_of_find?_eq_none (h : table.find? name = none) : ∀ entry ∈ table, entry.1 ≠ name := by
  induction table with
  | nil => simp
  | cons entry table ih =>
    rw [find?_cons] at h
    split at h
    · cases h
    · next hne => exact List.forall_mem_cons.mpr ⟨hne, ih h⟩

/-- Only the numbers of types that are there play a part. -/
theorem rename_congr {f g : TypeId → TypeId}
    (h : ∀ entry ∈ table, ∀ ty, entry.2.ty = some ty → f ty = g ty) : table.rename f = table.rename g := by
  refine List.map_congr_left fun entry hentry => ?_
  have hty : entry.2.ty.map f = entry.2.ty.map g := by
    cases hty : entry.2.ty with
    | none => rfl
    | some ty => exact congrArg some (h entry hentry ty hty)
  rw [Symbol.rename, Symbol.rename, hty]

theorem rename_id (table : Table) : table.rename id = table := by
  refine (List.map_congr_left fun entry _ => ?_).trans (List.map_id _)
  rw [Symbol.rename, Option.map_id]
  rfl

/-- Nothing is different if all types that are there keep their numbers. -/
theorem rename_eq_self (h : ∀ entry ∈ table, ∀ ty, entry.2.ty = some ty → f ty = ty) : table.rename f = table :=
  (rename_congr h).trans table.rename_id

/-- A change of a name that is not listed changes nothing. -/
theorem update_eq_self (h : ∀ entry ∈ table, entry.1 ≠ name) : table.update name change = table := by
  refine (List.map_congr_left fun entry hentry => ?_).trans (List.map_id table)
  rw [if_neg (h entry hentry)]
  rfl

theorem update_append (table more : Table) (name : String) (change : Symbol → Symbol) :
    (table ++ more).update name change = table.update name change ++ more.update name change :=
  List.map_append

/-- A change commutes with other type numbers if it does so on symbols. -/
theorem update_rename (h : ∀ symbol, change' (symbol.rename f) = (change symbol).rename f) :
    (table.rename f).update name change' = (table.update name change).rename f := by
  simp only [rename, update, List.map_map]
  refine List.map_congr_left fun entry _ => ?_
  simp only [Function.comp_apply]
  split <;> simp [h]

/-! ### The facts of a table -/

/-- The kind and the type of a name that is found are among the facts. -/
theorem mem_facts {symbol : Symbol} (h : table.find? name = some symbol) :
    (name, symbol.kind, symbol.ty) ∈ table.facts :=
  List.mem_map.mpr ⟨_, Scopes.mem_of_find? h, rfl⟩

/-- What is known of a table tells the type of a name. -/
theorem lookup_facts (table : Table) (name : String) :
    table.facts.lookup name = (table.find? name).map fun symbol => (symbol.kind, symbol.ty) := by
  induction table with
  | nil => rfl
  | cons entry table ih =>
    obtain ⟨key, symbol⟩ := entry
    rw [facts, List.map_cons, find?_cons, ← facts, List.lookup_cons, ih]
    by_cases he : key = name
    · simp [he]
    · rw [if_neg he, beq_eq_false_iff_ne.mpr (Ne.symm he)]

/-- A change that leaves kinds and types alone leaves the facts alone. -/
theorem facts_update (h : ∀ symbol, (change symbol).kind = symbol.kind ∧ (change symbol).ty = symbol.ty) :
    (table.update name change).facts = table.facts := by
  simp only [facts, update, List.map_map]
  refine List.map_congr_left fun entry _ => ?_
  simp only [Function.comp_apply]
  split <;> simp [h]

end Table

/-! ## Overlays -/

/-- What a larger arena has besides the scopes of a smaller one: the outermost scope `global`, which holds the facts
    `held` and in which every name has a type, has the names `added` as well, and there are further scopes `beyond`.
    No added name is one that is held, so the meaning of held names is not touched. -/
structure Overlay where
  global : ScopeId
  held : List (String × SymbolKind × Option TypeId)
  added : Table
  beyond : ScopeId → Option Scope
  typed : ∀ fact ∈ held, ∃ ty, fact.2.2 = some ty
  apart : ∀ entry ∈ added, ∀ fact ∈ held, entry.1 ≠ fact.1

namespace Overlay

open Scopes

/-- Nothing is added to what is held, neither names nor scopes. -/
def plain (global : ScopeId) (held : List (String × SymbolKind × Option TypeId))
    (typed : ∀ fact ∈ held, ∃ ty, fact.2.2 = some ty) : Overlay where
  global := global
  held := held
  added := []
  beyond := fun _ => none
  typed := typed
  apart := fun _ hentry => nomatch hentry

/-- The name, if it is one of the global scope, is not added. A run in the smaller arena comes across such names
    only. -/
def Owns (O : Overlay) (scope : ScopeId) (name : String) : Prop :=
  scope = O.global → ∀ entry ∈ O.added, entry.1 ≠ name

/-- If this is the global scope, the name is none of those that are held. -/
def Lacks (O : Overlay) (scope : ScopeId) (name : String) : Prop :=
  scope = O.global → ∀ fact ∈ O.held, fact.1 ≠ name

variable {O : Overlay} {f : TypeId → TypeId} {g g' h : Scopes} {id owner : ScopeId} {name : String}
  {symbol : Symbol} {fuel fuel' : Nat}

/-! ### One arena inside another -/

/-- The scopes of `g` are scopes of `h`, under other type numbers, and what else `h` has is the overlay. -/
structure Embeds (O : Overlay) (f : TypeId → TypeId) (g h : Scopes) : Prop where
  scope : ∀ {id scope}, g.scopeAt id = some scope →
    h.scopeAt id = some ⟨scope.parent, scope.table.rename f ++ if id = O.global then O.added else []⟩
  beyond : ∀ {id : ScopeId}, g.size ≤ id.index → h.scopeAt id = O.beyond id
  size_le : g.size ≤ h.size
  global : ∃ table, g.scopeAt O.global = some ⟨none, table⟩ ∧ table.facts = O.held

/-- A name that is not added is found alike in both tables. -/
theorem find?_overlay (hname : O.Owns id name) (table : Table) :
    (table.rename f ++ if id = O.global then O.added else []).find? name =
      (table.find? name).map (Symbol.rename f) := by
  rw [Table.find?_append, Table.find?_rename]
  split
  · next heq => rw [Table.find?_eq_none (hname heq), Option.or_none]
  · exact Option.or_none

namespace Embeds

variable (he : O.Embeds f g h)

include he

theorem mem_held (hsymbol : g.symbolAt O.global name = some symbol) :
    (name, symbol.kind, symbol.ty) ∈ O.held := by
  obtain ⟨table, htable, hheld⟩ := he.global
  rw [symbolAt, htable, Option.bind_some] at hsymbol
  exact hheld ▸ Table.mem_facts hsymbol

theorem owns (hsymbol : g.symbolAt id name = some symbol) : O.Owns id name := by
  rintro rfl entry hentry
  exact O.apart entry hentry _ (he.mem_held hsymbol)

/-- A name without a type is none of the global scope, where every name has one. -/
theorem lacks (hty : (g.symbolAt id name).bind Symbol.ty = none) : O.Lacks id name := by
  rintro rfl fact hfact rfl
  obtain ⟨table, htable, hheld⟩ := he.global
  obtain ⟨entry, hentry, rfl⟩ := List.mem_map.mp (hheld ▸ hfact : fact ∈ table.facts)
  rw [symbolAt, htable, Option.bind_some] at hty
  cases hfind : table.find? entry.1 with
  | none => exact Table.ne_of_find?_eq_none hfind entry hentry rfl
  | some symbol =>
    rw [hfind, Option.bind_some] at hty
    obtain ⟨ty, hsome⟩ := O.typed _ (hheld ▸ Table.mem_facts hfind)
    cases hty.symm.trans hsome

/-- What a scope itself has is the same in the larger arena. -/
theorem symbolAt (hlt : id.index < g.size) (hname : O.Owns id name) :
    h.symbolAt id name = (g.symbolAt id name).map (Symbol.rename f) := by
  obtain ⟨scope, hscope⟩ := exists_scopeAt_iff.mpr hlt
  rw [Scopes.symbolAt, he.scope hscope, Option.bind_some, find?_overlay hname, Scopes.symbolAt, hscope,
    Option.bind_some]

/-! ### Names and their changes -/

/-- By induction on the bound of the smaller walk; the larger arena has more scopes and so the larger bound. -/
theorem lookupWithin : ∀ {fuel fuel' : Nat} {id : ScopeId}, fuel ≤ fuel' →
    g.lookupWithin name fuel id = .ok (some (owner, symbol)) →
      h.lookupWithin name fuel' id = .ok (some (owner, symbol.rename f)) := by
  intro fuel
  induction fuel with
  | zero => rintro fuel' id - ⟨⟩
  | succ fuel ih =>
    intro fuel' id hle hl
    obtain ⟨fuel', rfl⟩ : ∃ n, fuel' = n + 1 := ⟨fuel' - 1, by omega⟩
    cases hget : g.get id with
    | error fault => simp [Scopes.lookupWithin, hget] at hl
    | ok scope =>
      have hscope := get_eq_ok_iff_scopeAt.mp hget
      have hget' := get_eq_ok_iff_scopeAt.mpr (he.scope hscope)
      cases hfind : scope.table.find? name with
      | some found =>
        have hfind' := @find?_overlay O f id name (he.owns (by rw [Scopes.symbolAt, hscope]; exact hfind))
          scope.table
        simp only [Scopes.lookupWithin, hget, hfind, ok_bind, pure_eq_ok, Except.ok.injEq, Option.some.injEq,
          Prod.mk.injEq] at hl
        obtain ⟨rfl, rfl⟩ := hl
        simp [Scopes.lookupWithin, hget', hfind', hfind]
      | none =>
        cases hparent : scope.parent with
        | none => simp [Scopes.lookupWithin, hget, hfind, hparent] at hl
        | some parent =>
          -- The global scope has none around it, so this is another one and has no added names.
          have hne : id ≠ O.global := by
            rintro rfl
            obtain ⟨table, htable, -⟩ := he.global
            cases hscope.symm.trans htable
            cases hparent
          have hfind' := @find?_overlay O f id name (fun heq => absurd heq hne) scope.table
          simp only [Scopes.lookupWithin, hget, hfind, hparent, ok_bind] at hl
          simp [Scopes.lookupWithin, hget', hfind', hfind, hparent, ih (Nat.le_of_succ_le_succ hle) hl]

/-- **A name that means something** means the same in the larger arena. A name that means nothing in the smaller one
    may be an added one, and nothing is said of it. -/
theorem lookup (hl : g.lookup id name = .ok (some (owner, symbol))) :
    h.lookup id name = .ok (some (owner, symbol.rename f)) :=
  he.lookupWithin (Nat.succ_le_succ he.size_le) hl

/-- **A change of a symbol** corresponds to a change in the larger arena, as long as the name is not an added one
    and the facts stay. -/
theorem update {change change' : Symbol → Symbol}
    (hchange : ∀ symbol, change' (symbol.rename f) = (change symbol).rename f) (hname : O.Owns id name)
    (hfacts : id = O.global → ∀ table : Table, table.facts = O.held →
      (table.update name change).facts = O.held) (hg : g.update id name change = .ok g') :
    ∃ h', h.update id name change' = .ok h' ∧ O.Embeds f g' h' := by
  have hlt : id.index < g.size := by
    rw [Scopes.update, mapTable] at hg
    cases hget : g.get id with
    | error fault => rw [hget] at hg; cases hg
    | ok scope => exact lt_of_scopeAt (get_eq_ok_iff_scopeAt.mp hget)
  obtain ⟨h', hh⟩ := exists_mapTable (hlt.trans_le he.size_le) (·.update name change')
  have hsize := size_of_mapTable hg
  have hsize' := size_of_mapTable hh
  -- The scopes that correspond, those beyond, and the facts of the global one.
  refine ⟨h', hh, ⟨fun {other scope} hscope => ?_, fun {other} hle => ?_, by rw [hsize, hsize']; exact he.size_le, ?_⟩⟩
  · rw [scopeAt_of_mapTable hg] at hscope
    rw [scopeAt_of_mapTable hh]
    split
    · next heq =>
      subst heq
      rw [if_pos rfl] at hscope
      obtain ⟨old, hold, rfl⟩ := Option.map_eq_some_iff.mp hscope
      rw [he.scope hold, Option.map_some]
      dsimp only
      rw [Table.update_append, Table.update_rename hchange]
      split
      · next hglobal => rw [Table.update_eq_self (hname hglobal)]
      · rfl
    · next hne =>
      rw [if_neg hne] at hscope
      exact he.scope hscope
  · have hne : other ≠ id := by
      rintro rfl
      exact absurd (hsize ▸ hle) (Nat.not_le.mpr hlt)
    rw [scopeAt_of_mapTable hh, if_neg hne]
    exact he.beyond (hsize ▸ hle)
  · obtain ⟨table, htable, hheld⟩ := he.global
    by_cases hglobal : O.global = id
    · refine ⟨table.update name change, ?_, hfacts hglobal.symm table hheld⟩
      rw [scopeAt_of_mapTable hg, if_pos hglobal, ← hglobal, htable]
      rfl
    · exact ⟨table, by rw [scopeAt_of_mapTable hg, if_neg hglobal, htable], hheld⟩

end Embeds

end Overlay

end TypeInference
