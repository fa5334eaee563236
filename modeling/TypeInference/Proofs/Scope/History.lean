import TypeInference.Proofs.Scoping.Pass

/-!
# `Proofs.Scope.History` — what names mean in an arena with a past

An arena comes about by edits: scopes are opened, names are declared, and symbols are changed. In between it goes
back to snapshots, and none is ever used up. The number of a scope that was dropped is given to another one, which
may stand elsewhere, and an old snapshot may then put names into it that were never its own. But a scope is only
opened inside one that is there, no edit gives it another parent, and going back drops scopes from the end. So
through all of this every scope stands inside an earlier one.

The way out of a scope is therefore a list that ends, and a name means the first symbol on it. One more name in a
scope makes a difference to just the scopes from which it is not hidden, on their way out.

## Contents
* `WayOut`, `nearest`, `WayOut.lookup_eq_ok` — the scopes on the way out, and looking up a name in them;
* `Exposed`, `lookup_of_exposed`, `lookup_of_not_exposed` — the scopes to which one more name makes a difference;
* `Edit`, `Edit.run`, `Arises` — what can be done to an arena, and the arenas that come about;
* `Arises.lookup_nearest` — the meaning of names in all of them.
-/

namespace TypeInference

open ScopingM

namespace Scopes

variable {g g' : Scopes} {id inner : ScopeId} {way : List ScopeId} {name : String} {symbol : Symbol}

/-! ## The way out -/

/-- The scopes on the way out of a scope, from the scope itself to one with nothing around it. A list of numbers is
    used here rather than of tables, since edits change the tables and not the way. -/
inductive WayOut (g : Scopes) : ScopeId → List ScopeId → Prop
  | outermost {id : ScopeId} : id.index < g.size → g.parentOf id = none → WayOut g id [id]
  | inside {id outer : ScopeId} {way : List ScopeId} :
      g.parentOf id = some outer → WayOut g outer way → WayOut g id (id :: way)

/-- There is only one way out. -/
theorem WayOut.unique (h : g.WayOut id way) {way' : List ScopeId} (h' : g.WayOut id way') : way' = way := by
  induction h generalizing way' with
  | outermost _ hnone =>
    cases h' with
    | outermost => rfl
    | inside hparent _ => cases hnone.symm.trans hparent
  | inside hparent _ ih =>
    cases h' with
    | outermost _ hnone => cases hnone.symm.trans hparent
    | inside hparent' hrest =>
      cases hparent.symm.trans hparent'
      rw [ih hrest]

/-- In an ordered arena every way out ends. -/
theorem Ordered.exists_wayOut (ho : g.Ordered) (hid : id.index < g.size) : ∃ way, g.WayOut id way := by
  refine ho.inwards (P := fun id => ∃ way, g.WayOut id way) (fun hscope => ?_) (fun hscope hway => ?_) hid
  · exact ⟨_, .outermost (lt_of_scopeAt hscope) (by rw [parentOf, hscope]; rfl)⟩
  · obtain ⟨way, hway⟩ := hway
    exact ⟨_, .inside (by rw [parentOf, hscope]; rfl) hway⟩

theorem WayOut.of_parentOf (hsize : g'.size = g.size) (hparent : ∀ id, g'.parentOf id = g.parentOf id)
    (h : g.WayOut id way) : g'.WayOut id way := by
  induction h with
  | outermost hid hnone => exact .outermost (hsize ▸ hid) ((hparent _).trans hnone)
  | inside hp _ ih => exact .inside ((hparent _).trans hp) ih

/-! ### The nearest declaration -/

/-- The first of some scopes that has the name, with its symbol. This is what a name means if the scopes are a way
    out. -/
def nearest (g : Scopes) (way : List ScopeId) (name : String) : Option (ScopeId × Symbol) :=
  way.findSome? fun owner => (g.symbolAt owner name).map (owner, ·)

theorem nearest_cons_of_some (h : g.symbolAt id name = some symbol) (way : List ScopeId) :
    g.nearest (id :: way) name = some (id, symbol) := by
  simp [nearest, h]

theorem nearest_cons_of_none (h : g.symbolAt id name = none) (way : List ScopeId) :
    g.nearest (id :: way) name = g.nearest way name := by
  simp [nearest, h]

/-- A name that an outermost scope does not have means nothing there. -/
theorem lookup_of_outermost (hid : id.index < g.size) (hparent : g.parentOf id = none)
    (hnone : g.symbolAt id name = none) : g.lookup id name = .ok none := by
  obtain ⟨scope, hscope⟩ := exists_scopeAt_iff.mpr hid
  rw [parentOf, hscope, Option.bind_some] at hparent
  rw [symbolAt, hscope, Option.bind_some] at hnone
  simp [lookup, lookupWithin, get_eq_ok_iff_scopeAt.mpr hscope, hnone, hparent]

/-- In a scope that is not there nothing is looked up. -/
theorem lookup_eq_error (h : ¬ id.index < g.size) (name : String) : g.lookup id name = .error (.danglingScope id) := by
  have hget : g.get id = .error (.danglingScope id) := by
    rw [get, Array.getElem?_eq_none_iff.mpr (Nat.le_of_not_lt h)]
  rw [lookup, lookupWithin, hget, error_bind]

/-- **Looking up a name** finds the first symbol on the way out, or nothing if no scope on it has the name. By
    induction on the way. -/
theorem WayOut.lookup_eq_ok (ho : g.Ordered) (h : g.WayOut id way) (name : String) :
    g.lookup id name = .ok (g.nearest way name) := by
  induction h with
  | @outermost id hid hparent =>
    cases hsymbol : g.symbolAt id name with
    | some symbol => rw [lookup_of_symbolAt hsymbol, nearest_cons_of_some hsymbol]
    | none => rw [lookup_of_outermost hid hparent hsymbol, nearest_cons_of_none hsymbol]; rfl
  | @inside id outer way hparent _ ih =>
    cases hsymbol : g.symbolAt id name with
    | some symbol => rw [lookup_of_symbolAt hsymbol, nearest_cons_of_some hsymbol]
    | none => rw [lookup_of_parentOf ho hparent hsymbol, ih, nearest_cons_of_none hsymbol]

/-! ## One more name -/

/-- The scope `owner` is on the way out of `inner`, and no scope before it has the name, so that a name put into
    `owner` would be seen from `inner`. -/
def Exposed (g : Scopes) (inner owner : ScopeId) (name : String) : Prop :=
  ∃ nearer further, g.WayOut inner (nearer ++ owner :: further) ∧ ∀ id ∈ nearer, g.symbolAt id name = none

/-- In `g'` the scope `id` has the new name, and nothing else is different. -/
structure Named (g : Scopes) (id : ScopeId) (name : String) (symbol : Symbol) (g' : Scopes) : Prop where
  size_eq : g'.size = g.size
  parent : ∀ other, g'.parentOf other = g.parentOf other
  own : g'.symbolAt id name = some symbol
  other : ∀ owner n, ¬ (owner = id ∧ n = name) → g'.symbolAt owner n = g.symbolAt owner n

/-- An entry at the end of a table gives the name to the scope, if the table did not have it before. -/
theorem Refilled.named {outer : Option ScopeId} {table : Table} (hown : g.scopeAt id = some ⟨outer, table⟩)
    (hnew : table.find? name = none) (h : Refilled g id (table ++ [(name, symbol)]) g') :
    Named g id name symbol g' := by
  have hscope := h.scopeAt_own hown
  have hfind : ∀ n, g'.symbolAt id n = if name = n then some symbol else g.symbolAt id n := fun n => by
    rw [symbolAt, hscope, Option.bind_some, symbolAt, hown, Option.bind_some]
    exact Table.find?_insert symbol n hnew
  refine ⟨h.size_eq, h.parentOf, by rw [hfind, if_pos rfl], fun owner n hnot => ?_⟩
  by_cases hid : owner = id
  · subst hid
    rw [hfind, if_neg fun hn => hnot ⟨rfl, hn.symm⟩]
  · rw [symbolAt, h.scope, if_neg hid, symbolAt]

namespace Named

/-- The new symbol is the first that is found, if no scope before has the name. -/
theorem nearest_eq (h : Named g id name symbol g') {nearer : List ScopeId} (further : List ScopeId)
    (hnearer : ∀ owner ∈ nearer, g.symbolAt owner name = none) :
    g'.nearest (nearer ++ id :: further) name = some (id, symbol) := by
  induction nearer with
  | nil => exact nearest_cons_of_some h.own further
  | cons owner nearer ih =>
    obtain ⟨hnone, hrest⟩ := List.forall_mem_cons.mp hnearer
    by_cases hid : owner = id
    · rw [hid, List.cons_append, nearest_cons_of_some h.own]
    · have hnone' : g'.symbolAt owner name = none := (h.other owner name fun he => hid he.1).trans hnone
      rw [List.cons_append, nearest_cons_of_none hnone', ih hrest]

/-- Otherwise the first symbol is what it was: the scope is not on the way, or a nearer one has the name. -/
theorem nearest_eq_of_hidden (h : Named g id name symbol g') : ∀ {way : List ScopeId},
    (¬ ∃ nearer further, way = nearer ++ id :: further ∧ ∀ owner ∈ nearer, g.symbolAt owner name = none) →
      g'.nearest way name = g.nearest way name := by
  intro way
  induction way with
  | nil => intro _; rfl
  | cons owner way ih =>
    intro hhidden
    have hid : owner ≠ id := by
      rintro rfl
      exact hhidden ⟨[], way, rfl, fun _ hmem => nomatch hmem⟩
    have hsame : g'.symbolAt owner name = g.symbolAt owner name := h.other owner name fun he => hid he.1
    cases hsymbol : g.symbolAt owner name with
    | some found => rw [nearest_cons_of_some hsymbol, nearest_cons_of_some (hsame.trans hsymbol)]
    | none =>
      rw [nearest_cons_of_none hsymbol, nearest_cons_of_none (hsame.trans hsymbol)]
      refine ih fun ⟨nearer, further, hway, hnearer⟩ => hhidden ⟨owner :: nearer, further, ?_, ?_⟩
      · rw [hway, List.cons_append]
      · exact List.forall_mem_cons.mpr ⟨hsymbol, hnearer⟩

/-- What other names mean does not depend on it. -/
theorem nearest_eq_of_ne (h : Named g id name symbol g') (way : List ScopeId) {other : String} (hne : other ≠ name) :
    g'.nearest way other = g.nearest way other := by
  have hsame : ∀ owner, g'.symbolAt owner other = g.symbolAt owner other :=
    fun owner => h.other owner other fun he => hne he.2
  simp only [nearest, hsame]

theorem ordered (h : Named g id name symbol g') (ho : g.Ordered) : g'.Ordered :=
  fun other outer hparent => ho other outer ((h.parent other).symm.trans hparent)

/-- **Where the new name is exposed,** it is found, whatever was found before. -/
theorem lookup_of_exposed (h : Named g id name symbol g') (ho : g.Ordered) (hexposed : g.Exposed inner id name) :
    g'.lookup inner name = .ok (some (id, symbol)) := by
  obtain ⟨nearer, further, hway, hnearer⟩ := hexposed
  rw [(hway.of_parentOf h.size_eq h.parent).lookup_eq_ok (h.ordered ho), h.nearest_eq further hnearer]

/-- **Everything else** means what it meant: other names everywhere, and this name where it is not exposed. -/
theorem lookup_of_not_exposed (h : Named g id name symbol g') (ho : g.Ordered) {other : String}
    (hnot : ¬ (other = name ∧ g.Exposed inner id name)) : g'.lookup inner other = g.lookup inner other := by
  by_cases hinner : inner.index < g.size
  · obtain ⟨way, hway⟩ := ho.exists_wayOut hinner
    rw [hway.lookup_eq_ok ho, (hway.of_parentOf h.size_eq h.parent).lookup_eq_ok (h.ordered ho)]
    by_cases hother : other = name
    · subst hother
      rw [h.nearest_eq_of_hidden]
      rintro ⟨nearer, further, rfl, hnearer⟩
      exact hnot ⟨rfl, nearer, further, hway, hnearer⟩
    · rw [h.nearest_eq_of_ne way hother]
  · rw [lookup_eq_error hinner, lookup_eq_error (h.size_eq ▸ hinner)]

/-- **The new symbol is found** from just the scopes where it is exposed. -/
theorem lookup_eq_iff (h : Named g id name symbol g') (ho : g.Ordered) (hnew : g.symbolAt id name = none) :
    g'.lookup inner name = .ok (some (id, symbol)) ↔ g.Exposed inner id name := by
  refine ⟨fun hl => ?_, h.lookup_of_exposed ho⟩
  by_contra hnot
  rw [h.lookup_of_not_exposed ho fun he => hnot he.2] at hl
  cases hnew.symm.trans (symbolAt_of_lookup hl)

end Named

/-! ## Edits -/

/-- What can be done to an arena, short of going back: open a scope, declare a name, change a symbol. -/
inductive Edit
  | openRoot
  | openChild (outer : ScopeId)
  | insert (id : ScopeId) (name : String) (symbol : Symbol)
  | update (id : ScopeId) (name : String) (change : Symbol → Symbol)

namespace Edit

/-- The arena after an edit. Names are inserted as in a pass, which goes no further if a name is refused. -/
def run (g : Scopes) : Edit → Except Fault Scopes
  | .openRoot => .ok g.openRoot.2
  | .openChild outer => .ok (g.openChild outer).2
  | .insert id name symbol =>
    match (attempt (·.insert id name symbol) (.start g)).2 with
    | ⟨_, some (.fault f)⟩ => .error f
    | ⟨g', _⟩ => .ok g'
  | .update id name change => g.update id name change

/-- Every scope that the edit is given is there. -/
def Inside (g : Scopes) : Edit → Prop
  | .openRoot => True
  | .openChild outer => outer.index < g.size
  | .insert id _ _ => id.index < g.size
  | .update id _ _ => id.index < g.size

instance (g : Scopes) (edit : Edit) : Decidable (edit.Inside g) :=
  match edit with
  | .openRoot => inferInstanceAs (Decidable True)
  | .openChild _ | .insert _ _ _ | .update _ _ _ => inferInstanceAs (Decidable (_ < _))

theorem run_insert_of_ok (h : g.insert id name symbol = .ok g') : (Edit.insert id name symbol).run g = .ok g' := by
  have hattempt : (attempt (·.insert id name symbol) (.start g)).2 = ⟨g', none⟩ := attempt_of_ok h
  rw [run, hattempt]

theorem run_insert_of_refused {diagnostic : Diagnostic} (h : g.insert id name symbol = .error (.failure diagnostic)) :
    (Edit.insert id name symbol).run g = .ok g := by
  have hattempt : (attempt (·.insert id name symbol) (.start g)).2 = ⟨g, some (.failure diagnostic)⟩ :=
    attempt_of_error h
  rw [run, hattempt]

end Edit

/-! ### One edit -/

/-- A name that the scope has is refused. -/
theorem insert_of_symbolAt {found : Symbol} (h : g.symbolAt id name = some found) (symbol : Symbol) :
    g.insert id name symbol = .error (.failure ⟨.duplicate symbol.kind name, symbol.span⟩) := by
  obtain ⟨⟨outer, table⟩, hscope, hfind⟩ := Option.bind_eq_some_iff.mp h
  exact insert_eq_error hscope hfind symbol

/-- Any other name is inserted, and then the scope has it. -/
theorem exists_insert (hid : id.index < g.size) (h : g.symbolAt id name = none) (symbol : Symbol) :
    ∃ g', g.insert id name symbol = .ok g' ∧ Named g id name symbol g' := by
  obtain ⟨⟨outer, table⟩, hscope⟩ := exists_scopeAt_iff.mpr hid
  rw [symbolAt, hscope, Option.bind_some] at h
  obtain ⟨g', hinsert, hrefilled⟩ := insert_eq_ok hscope h symbol
  exact ⟨g', hinsert, hrefilled.named hscope h⟩

/-- A scope with nothing around it stands inside no other. -/
theorem ordered_openRoot (ho : g.Ordered) : g.openRoot.2.Ordered := by
  intro id outer hparent
  rw [parentOf, openRoot, scopeAt_allocate] at hparent
  split at hparent
  · cases hparent
  · exact ho id outer hparent

/-- **An edit of scopes that are there** ends, and leaves the arena ordered. A duplicate is no obstacle, for it
    leaves the arena as it is. -/
theorem Ordered.exists_run {edit : Edit} (ho : g.Ordered) (hinside : edit.Inside g) :
    ∃ g', edit.run g = .ok g' ∧ g'.Ordered := by
  cases edit with
  | openRoot => exact ⟨_, rfl, ordered_openRoot ho⟩
  | openChild outer => exact ⟨_, rfl, ordered_openChild ho hinside⟩
  | insert id name symbol =>
    cases hsymbol : g.symbolAt id name with
    | some found => exact ⟨g, Edit.run_insert_of_refused (insert_of_symbolAt hsymbol symbol), ho⟩
    | none =>
      obtain ⟨g', hinsert, hnamed⟩ := exists_insert hinside hsymbol symbol
      exact ⟨g', Edit.run_insert_of_ok hinsert, hnamed.ordered ho⟩
  | update id name change =>
    obtain ⟨⟨outer, table⟩, hscope⟩ := exists_scopeAt_iff.mpr hinside
    obtain ⟨g', hupdate, hrefilled⟩ := update_eq_ok hscope name change
    exact ⟨g', hupdate, hrefilled.ordered ho⟩

/-! ## Histories -/

/-- The arena `g` has come about from the one without scopes, and `snaps` are all the snapshots that have been taken
    on the way. -/
inductive Arises : Scopes → List ScopeSnapshot → Prop
  | empty : Arises .empty []
  | edit {g g' : Scopes} {snaps : List ScopeSnapshot} {edit : Edit} :
      Arises g snaps → edit.Inside g → edit.run g = .ok g' → Arises g' snaps
  | snapshot {g : Scopes} {snaps : List ScopeSnapshot} {kept : ScopeId} {snap : ScopeSnapshot} :
      Arises g snaps → g.snapshot kept = .ok snap → Arises g (snap :: snaps)
  /-- A snapshot can be gone back to any number of times, whatever has become of its scopes. -/
  | rollback {g : Scopes} {snaps : List ScopeSnapshot} {snap : ScopeSnapshot} :
      Arises g snaps → snap ∈ snaps → Arises (g.rollback snap) snaps

/-- Going back leaves the arena ordered, whatever the snapshot is of: no scope gets another parent, and scopes are
    dropped from the end. -/
theorem Ordered.rollback (ho : g.Ordered) (snap : ScopeSnapshot) : (g.rollback snap).Ordered := by
  intro id outer hparent
  rw [parentOf_rollback] at hparent
  split at hparent
  · exact ho id outer hparent
  · cases hparent

/-- **Every scope stands inside an earlier one,** after whatever has happened. By induction on the history. -/
theorem Arises.ordered {snaps : List ScopeSnapshot} (h : Arises g snaps) : g.Ordered := by
  induction h with
  | empty => intro id outer hparent; cases hparent
  | edit _ hinside hrun ih =>
    obtain ⟨g', hrun', ho⟩ := ih.exists_run hinside
    cases hrun.symm.trans hrun'
    exact ho
  | snapshot _ _ ih => exact ih
  | rollback _ _ ih => exact ih.rollback _

/-- **A name means its nearest declaration,** in every arena that comes about. Every scope stands inside an earlier
    one, so from a scope that is there the way out ends, and looking up a name gives the first symbol on it, or
    nothing when there is none. A name is refused as a duplicate if the scope itself has it, and then nothing is
    changed. Otherwise it is inserted: the new symbol is found from just the scopes to which it is exposed, and all
    that is looked up besides, from whatever scope, is what it was. No edit of scopes that are there holds the
    history up. -/
theorem Arises.lookup_nearest {snaps : List ScopeSnapshot} (h : Arises g snaps) :
    g.Ordered ∧
    (∀ id : ScopeId, id.index < g.size →
      ∃ way, g.WayOut id way ∧ ∀ name, g.lookup id name = .ok (g.nearest way name)) ∧
    (∀ (id : ScopeId) (name : String) (symbol : Symbol), id.index < g.size →
      (∀ found, g.symbolAt id name = some found →
        g.insert id name symbol = .error (.failure ⟨.duplicate symbol.kind name, symbol.span⟩) ∧
          (Edit.insert id name symbol).run g = .ok g) ∧
      (g.symbolAt id name = none →
        ∃ g', g.insert id name symbol = .ok g' ∧ (Edit.insert id name symbol).run g = .ok g' ∧
          ∀ inner, (g'.lookup inner name = .ok (some (id, symbol)) ↔ g.Exposed inner id name) ∧
            ∀ other, ¬ (other = name ∧ g.Exposed inner id name) →
              g'.lookup inner other = g.lookup inner other)) ∧
    ∀ edit : Edit, edit.Inside g → ∃ g', edit.run g = .ok g' ∧ Arises g' snaps := by
  have ho := h.ordered
  refine ⟨ho, fun id hid => ?_, fun id name symbol hid => ⟨fun found hfound => ?_, fun hnew => ?_⟩,
    fun edit hinside => ?_⟩
  · obtain ⟨way, hway⟩ := ho.exists_wayOut hid
    exact ⟨way, hway, hway.lookup_eq_ok ho⟩
  · have hrefused := insert_of_symbolAt hfound symbol
    exact ⟨hrefused, Edit.run_insert_of_refused hrefused⟩
  · obtain ⟨g', hinsert, hnamed⟩ := exists_insert hid hnew symbol
    exact ⟨g', hinsert, Edit.run_insert_of_ok hinsert,
      fun inner => ⟨hnamed.lookup_eq_iff ho hnew, fun other hnot => hnamed.lookup_of_not_exposed ho hnot⟩⟩
  · obtain ⟨g', hrun, -⟩ := ho.exists_run hinside
    exact ⟨g', hrun, h.edit hinside hrun⟩

/-- A variable in an outermost scope, with a scope inside it. -/
def shallow : Scopes := ⟨#[⟨none, [("x", .declared .var .origin)]⟩, ⟨some ⟨0⟩, []⟩]⟩

/-- A third scope, inside `outer`, with a function of the same name. -/
def deepened (outer : Nat) : Scopes := ⟨shallow.toArray.push ⟨some ⟨outer⟩, [("x", .declared .function .origin)]⟩⟩

/-- Nothing was declared in the third scope where it stands now: it has its names from a snapshot. A fourth scope
    stands inside it. -/
def rebuilt : Scopes := ((deepened 0).openChild ⟨2⟩).2

/-- The third scope is opened inside the second and then, under the same number, inside the first. The function is
    brought back from the first time, and once more after it has been changed. -/
theorem arises_rebuilt : ∃ snaps, Arises rebuilt snaps := by
  have hroot := @Arises.edit _ _ _ .openRoot .empty trivial rfl
  have hvar := @Arises.edit _ _ _ (.insert ⟨0⟩ "x" (.declared .var .origin)) hroot (by decide) rfl
  have hshallow : Arises shallow [] := @Arises.edit _ _ _ (.openChild ⟨0⟩) hvar (by decide) rfl
  have hearly := @Arises.snapshot _ _ ⟨0⟩ _ hshallow rfl
  have hopened := @Arises.edit _ _ _ (.openChild ⟨1⟩) hearly (by decide) rfl
  have hdeepened : Arises (deepened 1) _ :=
    @Arises.edit _ _ _ (.insert ⟨2⟩ "x" (.declared .function .origin)) hopened (by decide) rfl
  have hlate := @Arises.snapshot _ _ ⟨2⟩ _ hdeepened rfl
  have hdropped : Arises shallow _ := hlate.rollback (List.mem_cons_of_mem _ List.mem_cons_self)
  have hreopened := @Arises.edit _ _ _ (.openChild ⟨0⟩) hdropped (by decide) rfl
  have honce : Arises (deepened 0) _ := hreopened.rollback List.mem_cons_self
  have hchanged := @Arises.edit _ _ _ (.update ⟨2⟩ "x" ({ · with kind := .struct })) honce (by decide) rfl
  have htwice : Arises (deepened 0) _ := hchanged.rollback List.mem_cons_self
  exact ⟨_, @Arises.edit _ _ _ (.openChild ⟨2⟩) htwice (by decide) rfl⟩

/-- In the fourth scope the name means the function, beside which nothing of that name can be declared. Another name in
    the first scope is found from the fourth; the same name in the second scope is found from there, but makes no
    difference to the fourth. -/
theorem lookup_nearest_rebuilt :
    ∃ snaps, Arises rebuilt snaps ∧
      rebuilt.lookup ⟨3⟩ "x" = .ok (some (⟨2⟩, .declared .function .origin)) ∧
      (Edit.insert ⟨2⟩ "x" (.declared .var .origin)).run rebuilt = .ok rebuilt ∧
      (∃ g', rebuilt.insert ⟨0⟩ "y" (.declared .trait .origin) = .ok g' ∧
        g'.lookup ⟨3⟩ "y" = .ok (some (⟨0⟩, .declared .trait .origin))) ∧
      ∃ g', rebuilt.insert ⟨1⟩ "x" (.declared .trait .origin) = .ok g' ∧
        g'.lookup ⟨1⟩ "x" = .ok (some (⟨1⟩, .declared .trait .origin)) ∧
        g'.lookup ⟨3⟩ "x" = rebuilt.lookup ⟨3⟩ "x" := by
  obtain ⟨snaps, harises⟩ := arises_rebuilt
  have hone : rebuilt.WayOut ⟨1⟩ [⟨1⟩, ⟨0⟩] := .inside rfl (.outermost (by decide) rfl)
  have hthree : rebuilt.WayOut ⟨3⟩ [⟨3⟩, ⟨2⟩, ⟨0⟩] := .inside rfl (.inside rfl (.outermost (by decide) rfl))
  obtain ⟨-, hlookup, hinsert, -⟩ := harises.lookup_nearest
  refine ⟨snaps, harises, ?_, ?_, ?_, ?_⟩
  · obtain ⟨way, hway, hfound⟩ := hlookup ⟨3⟩ (by decide)
    rw [hfound, hthree.unique hway]
    rfl
  · exact ((hinsert ⟨2⟩ "x" _ (by decide)).1 _ rfl).2
  · obtain ⟨g', hok, -, hmeans⟩ := (hinsert ⟨0⟩ "y" (.declared .trait .origin) (by decide)).2 rfl
    refine ⟨g', hok, (hmeans ⟨3⟩).1.mpr ⟨[⟨3⟩, ⟨2⟩], [], hthree, ?_⟩⟩
    decide
  · obtain ⟨g', hok, -, hmeans⟩ := (hinsert ⟨1⟩ "x" (.declared .trait .origin) (by decide)).2 rfl
    refine ⟨g', hok, (hmeans ⟨1⟩).1.mpr ⟨[], [⟨0⟩], hone, by decide⟩, (hmeans ⟨3⟩).2 "x" ?_⟩
    -- The third scope stood inside the second only before it was dropped.
    rintro ⟨-, nearer, further, hway, -⟩
    have hmem : (⟨1⟩ : ScopeId) ∈ nearer ++ ⟨1⟩ :: further := List.mem_append_right _ List.mem_cons_self
    rw [hthree.unique hway] at hmem
    revert hmem
    decide

end Scopes

end TypeInference
