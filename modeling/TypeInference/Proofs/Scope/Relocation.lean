import TypeInference.Proofs.Scope.Chain

/-!
# `Proofs.Scope.Relocation` — the same scopes at other places

The scopes of a program can be opened in an arena that holds more scopes already. They then have other numbers, but
stand inside each other in the same way and have the same names, and the scopes from before have the numbers that
they had. One arena is *moved* to another if that is so, and the symbols correspond: they are of the same kind, and
their types, if they have any, are linked.

A name goes on meaning what it means, at the place to which its scope has moved. Symbols may differ in whether they
have a value already, but only where that makes no difference to an assignment that may still come: if they are no
variables, if they can be assigned again anyway, or if they are global names that nothing assigns (`settled`).

## Contents
* `Relocation`, `Relocation.move` — where the scopes are;
* `Symbol.Twin`, `Relocation.Moved` — symbols that correspond, and arenas;
* `Moved.lookup`, `Moved.symbolAt`, `Moved.update` — names, and changes of their symbols.
-/

namespace TypeInference

section Related

variable {α β γ δ : Type} {P Q : α → β → Prop} {R : γ → δ → Prop} {found : Option α} {found' : Option β}

theorem exists_of_rel (h : Option.Rel P found found') {a : α} (ha : found = some a) :
    ∃ b, found' = some b ∧ P a b := by
  cases h with
  | some hP => exact ⟨_, rfl, Option.some.inj ha ▸ hP⟩
  | none => cases ha

theorem none_of_rel (h : Option.Rel P found found') (hnone : found = none) : found' = none := by
  cases h with
  | some _ => cases hnone
  | none => rfl

theorem rel_mono (hPQ : ∀ a b, P a b → Q a b) (h : Option.Rel P found found') : Option.Rel Q found found' := by
  cases h with
  | some hP => exact .some (hPQ _ _ hP)
  | none => exact .none

theorem rel_bind {f : α → Option γ} {f' : β → Option δ} (h : Option.Rel P found found')
    (hf : ∀ a b, P a b → Option.Rel R (f a) (f' b)) : Option.Rel R (found.bind f) (found'.bind f') := by
  cases h with
  | some hP => exact hf _ _ hP
  | none => exact .none

theorem rel_map {f : α → γ} {f' : β → δ} (h : Option.Rel P found found') (hf : ∀ a b, P a b → R (f a) (f' b)) :
    Option.Rel R (found.map f) (found'.map f') := by
  cases h with
  | some hP => exact .some (hf _ _ hP)
  | none => exact .none

end Related

/-! ## Places -/

/-- Scopes from the number `start` on are `gap` places further on. The global scope stays, and so do other scopes
    before `start`; assignments to the global names that are `settled` are ruled out. -/
structure Relocation where
  start : Nat
  gap : Nat
  global : ScopeId
  settled : String → Prop
  lt : global.index < start

theorem Scopes.lt_of_symbolAt {g : Scopes} {id : ScopeId} {name : String} {symbol : Symbol}
    (h : g.symbolAt id name = some symbol) : id.index < g.size := by
  obtain ⟨scope, hscope, -⟩ := Option.bind_eq_some_iff.mp h
  exact lt_of_scopeAt hscope

namespace Relocation

open Scopes

variable (R : Relocation)

/-- Where a scope is: before `start` where it was, and from there on `gap` places further. -/
def move (id : ScopeId) : ScopeId := if id.index < R.start then id else ⟨id.index + R.gap⟩

theorem move_of_lt {id : ScopeId} (h : id.index < R.start) : R.move id = id := if_pos h

theorem move_of_le {n : Nat} (h : R.start ≤ n) : R.move ⟨n⟩ = ⟨n + R.gap⟩ := if_neg (Nat.not_lt.mpr h)

@[simp] theorem move_global : R.move R.global = R.global := R.move_of_lt R.lt

/-- Different scopes are at different places, since the gap is left free. -/
theorem move_injective : Function.Injective R.move := by
  rintro ⟨m⟩ ⟨n⟩ h
  simp only [move] at h
  split at h <;> split at h <;> simp only [ScopeId.mk.injEq] at h ⊢ <;> omega

end Relocation

/-! ## Symbols that correspond -/

/-- Two symbols that correspond; `settled` tells whether assignments are ruled out. Whether there is a value matters
    to a constant that can still be assigned, and to nothing else. -/
structure Symbol.Twin (settled : Prop) (links : TypeId → TypeId → Prop) (symbol symbol' : Symbol) : Prop where
  kind_eq : symbol'.kind = symbol.kind
  mutable_eq : symbol'.mutable = symbol.mutable
  initialized_eq : symbol.kind = .var →
    symbol'.initialized = symbol.initialized ∨ symbol.mutable = true ∨ settled
  ty : Option.Rel links symbol.ty symbol'.ty

namespace Relocation

open Scopes

variable {R : Relocation} {links links' : TypeId → TypeId → Prop} {g g' h h' : Scopes} {id owner : ScopeId}
  {name : String} {symbol : Symbol}

/-- Symbols of this name in this scope correspond. Assignments are ruled out for settled names of the global scope
    only. -/
abbrev Twins (R : Relocation) (links : TypeId → TypeId → Prop) (id : ScopeId) (name : String) :
    Symbol → Symbol → Prop :=
  Symbol.Twin (id = R.global ∧ R.settled name) links

/-! ## Arenas that have been moved -/

/-- The scopes of `g` are scopes of `h`, at their places there. Nothing is said of the other scopes of `h`, which
    may have come between or stand behind. -/
structure Moved (R : Relocation) (links : TypeId → TypeId → Prop) (g h : Scopes) : Prop where
  size_le : g.size ≤ h.size
  scope : ∀ {id outer table}, g.scopeAt id = some ⟨outer, table⟩ →
    ∃ table', h.scopeAt (R.move id) = some ⟨outer.map R.move, table'⟩ ∧
      ∀ name, Option.Rel (R.Twins links id name) (table.find? name) (table'.find? name)

theorem Twins.mono (hle : links ≤ links') {symbol' : Symbol} (h : R.Twins links id name symbol symbol') :
    R.Twins links' id name symbol symbol' where
  kind_eq := h.kind_eq
  mutable_eq := h.mutable_eq
  initialized_eq := h.initialized_eq
  ty := rel_mono hle h.ty

namespace Moved

theorem mono (h : R.Moved links g g') (hle : links ≤ links') : R.Moved links' g g' where
  size_le := h.size_le
  scope := fun hscope => by
    obtain ⟨table', hscope', htable⟩ := h.scope hscope
    exact ⟨table', hscope', fun name => rel_mono (fun _ _ => Twins.mono hle) (htable name)⟩

theorem lt (hm : R.Moved links g h) (hid : id.index < g.size) : (R.move id).index < h.size := by
  obtain ⟨⟨outer, table⟩, hscope⟩ := exists_scopeAt_iff.mpr hid
  obtain ⟨table', hscope', -⟩ := hm.scope hscope
  exact lt_of_scopeAt hscope'

/-- What a scope itself has for a name, the scope at the other place has for it, up to linked types. -/
theorem symbolAt (hm : R.Moved links g h) (hid : id.index < g.size) (name : String) :
    Option.Rel (R.Twins links id name) (g.symbolAt id name) (h.symbolAt (R.move id) name) := by
  obtain ⟨⟨outer, table⟩, hscope⟩ := exists_scopeAt_iff.mpr hid
  obtain ⟨table', hscope', htable⟩ := hm.scope hscope
  rw [Scopes.symbolAt, Scopes.symbolAt, hscope, hscope']
  exact htable name

theorem typeAt (hm : R.Moved links g h) (hid : id.index < g.size) (name : String) :
    Option.Rel links (g.typeAt id name) (h.typeAt (R.move id) name) :=
  rel_bind (hm.symbolAt hid name) fun _ _ htwin => htwin.ty

/-- A type that a name has in a scope is linked with one that it has at the other place. -/
theorem exists_typeAt (hm : R.Moved links g h) {ty : TypeId} (hty : g.typeAt id name = some ty) :
    ∃ ty', h.typeAt (R.move id) name = some ty' ∧ links ty ty' := by
  obtain ⟨symbol, hsymbol, -⟩ := Option.bind_eq_some_iff.mp hty
  exact exists_of_rel (hm.typeAt (lt_of_symbolAt hsymbol) name) hty

/-! ### Names and their changes -/

/-- **A name means the same** at the place where its scope is. By induction on the bound of the first walk: at each
    scope both have the name or neither has. -/
theorem lookup (hm : R.Moved links g h) (hl : g.lookup id name = .ok (some (owner, symbol))) :
    ∃ symbol', h.lookup (R.move id) name = .ok (some (R.move owner, symbol')) ∧
      R.Twins links owner name symbol symbol' := by
  -- The moved arena may have more scopes, so the bounds of the two walks are kept apart.
  have hwithin : ∀ {fuel fuel' : Nat} {id : ScopeId}, fuel ≤ fuel' →
      g.lookupWithin name fuel id = .ok (some (owner, symbol)) →
      ∃ symbol', h.lookupWithin name fuel' (R.move id) = .ok (some (R.move owner, symbol')) ∧
        R.Twins links owner name symbol symbol' := by
    intro fuel
    induction fuel with
    | zero => rintro fuel' id - ⟨⟩
    | succ fuel ih =>
      intro fuel' id hle hl
      obtain ⟨fuel', rfl⟩ : ∃ n, fuel' = n + 1 := ⟨fuel' - 1, by omega⟩
      obtain ⟨⟨outer, table⟩, hget, hl⟩ := exists_of_bind_eq_ok hl
      obtain ⟨table', hscope', htable⟩ := hm.scope (get_eq_ok_iff_scopeAt.mp hget)
      have hget' := get_eq_ok_iff_scopeAt.mpr hscope'
      dsimp only at hl
      cases hfind : table.find? name with
      | some found =>
        rw [hfind] at hl
        cases hl
        obtain ⟨found', hfind', htwin⟩ := exists_of_rel (htable name) hfind
        exact ⟨found', by simp [lookupWithin, hget', hfind'], htwin⟩
      | none =>
        rw [hfind] at hl
        have hfind' := none_of_rel (htable name) hfind
        cases outer with
        | none => cases hl
        | some parent =>
          obtain ⟨symbol', hl', htwin⟩ := ih (Nat.le_of_succ_le_succ hle) hl
          exact ⟨symbol', by simp [lookupWithin, hget', hfind', hl'], htwin⟩
  exact hwithin (Nat.succ_le_succ hm.size_le) hl

/-- **A change of a symbol** corresponds to a change at the other place, if it keeps symbols of this name related. -/
theorem update (hm : R.Moved links g h) {change change' : Symbol → Symbol}
    (hchange : ∀ {symbol symbol'}, R.Twins links id name symbol symbol' →
      R.Twins links id name (change symbol) (change' symbol'))
    (hg : g.update id name change = .ok g') :
    ∃ h', h.update (R.move id) name change' = .ok h' ∧ R.Moved links g' h' := by
  have hlt : id.index < g.size := by
    obtain ⟨scope, hget, -⟩ := exists_of_bind_eq_ok hg
    exact lt_of_scopeAt (get_eq_ok_iff_scopeAt.mp hget)
  obtain ⟨h', hh⟩ := exists_mapTable (hm.lt hlt) (·.update name change')
  refine ⟨h', hh, by rw [size_of_mapTable hg, size_of_mapTable hh]; exact hm.size_le,
    fun {other outer table} hscope => ?_⟩
  rw [scopeAt_of_mapTable hg] at hscope
  rw [scopeAt_of_mapTable hh]
  by_cases he : other = id
  · subst he
    rw [if_pos rfl] at hscope ⊢
    obtain ⟨old, hold, heq⟩ := Option.map_eq_some_iff.mp hscope
    cases heq
    obtain ⟨table', hscope', htable⟩ := hm.scope hold
    refine ⟨table'.update name change', by rw [hscope']; rfl, fun key => ?_⟩
    rw [Table.find?_update, Table.find?_update]
    split
    · next hname =>
      subst hname
      exact rel_map (htable name) fun _ _ => hchange
    · exact htable key
  · rw [if_neg he] at hscope
    rw [if_neg (R.move_injective.ne he)]
    exact hm.scope hscope

end Moved

end Relocation

end TypeInference
