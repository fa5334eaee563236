import TypeInference.Proofs.Inference.Parallel
import TypeInference.Proofs.Inference.Predeclaration
import TypeInference.Proofs.Scope.Growth
import TypeInference.Proofs.Scope.Renaming
import TypeInference.Proofs.Ty.Shift

/-!
# `Proofs.Inference.Ahead` — declarations before anything is looked at

The declarations of a list of statements find their names in the table of a scope, without types, and fill the
types in where the names stand: the pinned types are those of the variables and of the functions, in the order
of the table. The types are made without a look at any other type, so the same declarations may just as well
come earlier, before other statements are looked at, or among more names: they are then given the same types up
to numbers.

## Contents
* `predeclareAll_append` — declarations one list after another;
* `Announces`, `predeclareAll_announces` — what one run does to the table;
* `Departure`, `Departure.Relates` — two places from which the same declarations may be run;
* `Departure.predeclareAll_mirrors` — both runs make the same types.
-/

namespace TypeInference

open InferM Scopes

/-! ## One list after another -/

/-- Pinned types may be collected from either end. -/
theorem Pins.append_assoc (a b c : Pins) : (a.append b).append c = a.append (b.append c) := by
  simp [Pins.append]

/-- **Two lists of declarations** are predeclared one after the other, and what they pin is joined. -/
theorem predeclareAll_append (own : ScopeId) (more : List Stmt) : ∀ stmts : List Stmt,
    predeclareAll own (stmts ++ more) = (do
      let pins ← predeclareAll own stmts
      let rest ← predeclareAll own more
      pure (pins.append rest))
  | [] => by simp [predeclareAll, Pins.append, Pins.none]
  | stmt :: rest => by
    rw [List.cons_append, predeclareAll, predeclareAll, predeclareAll_append own more rest]
    simp only [bind_assoc, pure_bind, Pins.append_assoc]

/-! ## Steps -/

variable {s s' : Inference} {own : ScopeId} {outer : Option ScopeId} {name : String} {ty : TypeId}

/-- A type is recorded in the table of the scope, and the number of the scope means the changed table from then on. -/
theorem setType_eq_ok {table : Table} (hown : s.scopes.scopeAt own = some ⟨outer, table⟩) (name : String)
    (ty : TypeId) :
    ∃ g, setType own name ty s = .ok () { s with scopes := g } ∧
      Refilled s.scopes own (table.update name ({ · with ty := some ty })) g := by
  obtain ⟨g, hupdate, hrefilled⟩ := update_eq_ok hown name ({ · with ty := some ty })
  refine ⟨g, ?_, hrefilled⟩
  rw [setType, update_run, hupdate]
  rfl

theorem scopes_of_create {make : Store → TypeId × Store} (h : create make s = .ok ty s') :
    s'.scopes = s.scopes := by
  cases h
  rfl

/-- A run beside itself that leaves the scopes alone. This is used to read off from the simulation of two runs what
    a single one does to the scopes. -/
theorem parallel_self (g : Scopes) (scope : ScopeId) :
    Parallel (fun s t => t = s ∧ s.scopes = g) id (fun _ => True) scope where
  newVar := by
    rintro s _ ⟨rfl, rfl⟩ ty s' ⟨⟩
    exact ⟨_, _, rfl, ⟨rfl, rfl⟩, rfl, trivial⟩
  operator := by
    rintro con args - s _ ⟨rfl, rfl⟩ ty s' ⟨⟩
    exact ⟨_, _, rfl, ⟨by rw [List.map_id], rfl⟩, rfl, trivial⟩
  kind := by
    rintro name s t ⟨ht, rfl⟩ found s' hrun
    subst ht
    rw [resolve_run] at hrun ⊢
    cases hresolve : t.scopes.resolve scope name with
    | error reason => rw [hresolve] at hrun; cases hrun
    | ok there =>
      rw [hresolve] at hrun
      cases hrun
      exact ⟨_, _, rfl, ⟨rfl, rfl⟩, rfl⟩
  primitive := fun _ => ⟨rfl, trivial⟩

/-- Looking at the type of a variable, written or not, leaves the scopes alone. -/
theorem scopes_of_denoteOrNew {signature : Option Signature} (h : denoteOrNew own signature s = .ok ty s') :
    s'.scopes = s.scopes := by
  obtain ⟨_, _, -, ⟨-, hscopes⟩, -⟩ := (parallel_self s.scopes own).denoteOrNew signature s s ⟨rfl, rfl⟩ ty s' h
  exact hscopes

theorem scopes_of_paramTypes {params : List Param} {tys : List TypeId}
    (h : paramTypes own params s = .ok tys s') : s'.scopes = s.scopes := by
  obtain ⟨_, _, -, ⟨-, hscopes⟩, -⟩ := (parallel_self s.scopes own).paramTypes params s s ⟨rfl, rfl⟩ tys s' h
  exact hscopes

/-! ## One run: names get types where they stand -/

/-- Each entry has got a type; those of variables and those of functions are pinned, in the order of the table. -/
structure Announces (entries typed : Table) (pins : Pins) : Prop where
  entries : List.Forall₂ (fun entry entry' => ∃ ty, entry' = (entry.1, { entry.2 with ty := some ty })) entries typed
  vars : pins.vars = typesOf .var typed
  functions : pins.functions = typesOf .function typed

namespace Announces

variable {entries entries' typed typed' : Table} {pins pins' : Pins}

theorem append (h : Announces entries typed pins) (h' : Announces entries' typed' pins') :
    Announces (entries ++ entries') (typed ++ typed') (pins.append pins') where
  entries := List.rel_append h.entries h'.entries
  vars := by rw [typesOf_append, ← h.vars, ← h'.vars]; rfl
  functions := by rw [typesOf_append, ← h.functions, ← h'.functions]; rfl

/-- The names are the same, and in the same order. -/
theorem names (h : Announces entries typed pins) : typed.map Prod.fst = entries.map Prod.fst := by
  have hall := h.entries
  clear h
  induction hall with
  | nil => rfl
  | cons hhead _ ih =>
    obtain ⟨ty, rfl⟩ := hhead
    rw [List.map_cons, List.map_cons, ih]

/-- Every name has a type, so nothing that is found through the table is without one. -/
theorem typed_facts (h : Announces entries typed pins) : ∀ fact ∈ typed.facts, ∃ ty, fact.2.2 = some ty := by
  have hall := h.entries
  clear h
  induction hall with
  | nil => simp [Table.facts]
  | cons hhead _ ih =>
    obtain ⟨ty, rfl⟩ := hhead
    exact List.forall_mem_cons.mpr ⟨⟨ty, rfl⟩, ih⟩

end Announces

/-- A change of a name that is listed once changes its entry, and leaves those before and after it. -/
theorem Table.update_middle {before after : Table} {symbol : Symbol} {change : Symbol → Symbol}
    (hnot : ∀ entry ∈ before ++ after, entry.1 ≠ name) :
    Table.update (before ++ (name, symbol) :: after) name change = before ++ (name, change symbol) :: after := by
  rw [Table.update_append, Table.update_eq_self fun entry hentry => hnot entry (List.mem_append_left _ hentry)]
  congr 1
  rw [Table.update, List.map_cons, if_pos rfl, ← Table.update,
    Table.update_eq_self fun entry hentry => hnot entry (List.mem_append_right _ hentry)]

/-! ### Entries among others in a table -/

/-- The entries stand once between others in the table of the scope: a change of one of their names is a change of
    their part of the table only. -/
structure Listed (own : ScopeId) (outer : Option ScopeId) (before entries after : Table) (s : Inference) :
    Prop where
  scope : s.scopes.scopeAt own = some ⟨outer, before ++ entries ++ after⟩
  nodup : (entries.map Prod.fst).Nodup
  apart : ∀ entry ∈ before ++ after, entry.1 ∉ entries.map Prod.fst

namespace Listed

variable {before entries entries' typed after : Table} {pins : Pins} {symbol : Symbol}

/-- What changes no scope leaves the entries where they are. -/
theorem of_scopes (h : Listed own outer before entries after s) (hscopes : s'.scopes = s.scopes) :
    Listed own outer before entries after s' :=
  ⟨hscopes ▸ h.scope, h.nodup, h.apart⟩

/-- The first entries stand before the others, which count as what follows them. -/
theorem left (h : Listed own outer before (entries ++ entries') after s) :
    Listed own outer before entries (entries' ++ after) s := by
  obtain ⟨hscope, hnodup, hapart⟩ := h
  rw [List.map_append] at hnodup hapart
  obtain ⟨hfirst, -, hdisjoint⟩ := List.nodup_append.mp hnodup
  refine ⟨by rw [hscope]; simp, hfirst, fun entry hentry hmem => ?_⟩
  rw [← List.append_assoc, List.append_assoc, List.mem_append, List.mem_append] at hentry
  rcases hentry with hbefore | hlater | hafter
  · exact hapart entry (List.mem_append_left _ hbefore) (List.mem_append_left _ hmem)
  · exact hdisjoint _ hmem _ (List.mem_map_of_mem hlater) rfl
  · exact hapart entry (List.mem_append_right _ hafter) (List.mem_append_left _ hmem)

/-- The other entries, when the first ones have got types. Those count as what stands before. -/
theorem right (h : Listed own outer before (entries ++ entries') after s)
    (hnames : typed.map Prod.fst = entries.map Prod.fst)
    (hscope : s'.scopes.scopeAt own = some ⟨outer, before ++ typed ++ (entries' ++ after)⟩) :
    Listed own outer (before ++ typed) entries' after s' := by
  obtain ⟨-, hnodup, hapart⟩ := h
  rw [List.map_append] at hnodup hapart
  obtain ⟨-, hlast, hdisjoint⟩ := List.nodup_append.mp hnodup
  refine ⟨by rw [hscope]; simp, hlast, fun entry hentry hmem => ?_⟩
  rw [List.append_assoc, List.mem_append, List.mem_append] at hentry
  rcases hentry with hbefore | hfirst | hafter
  · exact hapart entry (List.mem_append_left _ hbefore) (List.mem_append_right _ hmem)
  · exact hdisjoint _ (hnames ▸ List.mem_map_of_mem hfirst) _ hmem rfl
  · exact hapart entry (List.mem_append_right _ hafter) (List.mem_append_right _ hmem)

theorem setType (h : Listed own outer before [(name, symbol)] after s) {u : Unit}
    (hrun : InferM.setType own name ty s = .ok u s') :
    s'.scopes.scopeAt own = some ⟨outer, before ++ [(name, { symbol with ty := some ty })] ++ after⟩ := by
  obtain ⟨g, hset, hrefilled⟩ := setType_eq_ok h.scope name ty
  cases hset.symm.trans hrun
  rw [hrefilled.scopeAt_own h.scope, List.append_assoc, List.append_assoc, List.singleton_append,
    List.singleton_append, Table.update_middle]
  exact fun entry hentry he => h.apart entry hentry (by simp [he])

end Listed

/-! ### What declarations do to the table -/

/-- The computation gives the entries types where they stand, and touches nothing else in the table. What stands
    around them is quantified, so that such computations can be put one after another. -/
def Announcing (own : ScopeId) (entries : Table) (m : InferM Pins) : Prop :=
  ∀ s outer before after, Listed own outer before entries after s → ∀ pins s', m s = .ok pins s' →
    ∃ typed, s'.scopes.scopeAt own = some ⟨outer, before ++ typed ++ after⟩ ∧ Announces entries typed pins

namespace Announcing

variable {entries entries' : Table} {m m' : InferM Pins}

theorem pure_none : Announcing own [] (pure .none) := by
  rintro s outer before after h _ _ ⟨⟩
  exact ⟨[], by rw [h.scope], ⟨.nil, rfl, rfl⟩⟩

/-- **Declarations one after another.** The first run has the second part of the entries behind it, the second run
    has the first part, with types, before it. -/
theorem append (h : Announcing own entries m) (h' : Announcing own entries' m') :
    Announcing own (entries ++ entries') (do let pins ← m; let rest ← m'; pure (pins.append rest)) := by
  intro s outer before after hlisted pins s' hrun
  obtain ⟨first, s₁, hm, hrun⟩ := exists_of_run_bind hrun
  obtain ⟨rest, s₂, hm', hrun⟩ := exists_of_run_bind hrun
  cases hrun
  obtain ⟨typed, hscope, hannounces⟩ := h _ _ _ _ hlisted.left _ _ hm
  obtain ⟨typed', hscope', hannounces'⟩ :=
    h' _ _ _ _ (hlisted.right hannounces.names hscope) _ _ hm'
  exact ⟨typed ++ typed', by rw [hscope']; simp, hannounces.append hannounces'⟩

end Announcing

/-- **Variables** are given types one by one, and all of these are pinned as types of variables. -/
theorem predeclareVars_announces (kind : VarKind) : ∀ defs : List VarDef,
    Announcing own (entriesOf (Declaration.vars kind defs).symbols) (do
      let types ← predeclareVars own defs
      pure ⟨types, []⟩)
  | [] => .pure_none
  | d :: rest => by
    have hfirst : Announcing own [(d.name.name, d.symbol kind)] (do
        let ty ← denoteOrNew own d.signature
        setType own d.name.name ty
        pure ⟨[ty], []⟩) := by
      intro s outer before after hlisted pins s' hrun
      obtain ⟨ty, s₁, hty, hrun⟩ := exists_of_run_bind hrun
      obtain ⟨u, s₂, hset, hrun⟩ := exists_of_run_bind hrun
      cases hrun
      exact ⟨_, (hlisted.of_scopes (scopes_of_denoteOrNew hty)).setType hset, .cons ⟨ty, rfl⟩ .nil, rfl, rfl⟩
    have h := hfirst.append (predeclareVars_announces kind rest)
    rw [predeclareVars]
    show Announcing own ((d.name.name, d.symbol kind) :: entriesOf (Declaration.vars kind rest).symbols) _
    simpa only [bind_assoc, pure_bind, Pins.append, List.singleton_append, List.append_nil] using h

/-- **A declaration** gives types to the names it brings; a function pins its own, and a type pins none. -/
theorem predeclareOne_announces : ∀ decl : Declaration,
    (∀ kind name, decl = .type kind name → kind.isType = true) →
    Announcing own (entriesOf decl.symbols) (decl.predeclare own)
  | .vars kind defs, _ => by
    rw [Declaration.predeclare]
    exact predeclareVars_announces kind defs
  | .function name params result, _ => by
    rw [Declaration.predeclare]
    intro s outer before after hlisted pins s' hrun
    obtain ⟨tys, s₁, htys, hrun⟩ := exists_of_run_bind hrun
    obtain ⟨res, s₂, hres, hrun⟩ := exists_of_run_bind hrun
    obtain ⟨ty, s₃, hty, hrun⟩ := exists_of_run_bind hrun
    obtain ⟨u, s₄, hset, hrun⟩ := exists_of_run_bind hrun
    cases hrun
    have hscopes := (scopes_of_create hty).trans ((scopes_of_denoteOrNew hres).trans (scopes_of_paramTypes htys))
    exact ⟨_, (hlisted.of_scopes hscopes).setType hset, .cons ⟨_, rfl⟩ .nil, rfl, rfl⟩
  | .type kind name, hkind => by
    rw [Declaration.predeclare]
    intro s outer before after hlisted pins s' hrun
    obtain ⟨ty, s₁, hty, hrun⟩ := exists_of_run_bind hrun
    obtain ⟨u, s₂, hset, hrun⟩ := exists_of_run_bind hrun
    cases hrun
    have hisType := hkind kind name rfl
    refine ⟨_, (hlisted.of_scopes (scopes_of_create hty)).setType hset, .cons ⟨_, rfl⟩ .nil, ?_, ?_⟩
    · cases kind <;> first | rfl | cases hisType
    · cases kind <;> first | rfl | cases hisType

/-- **All declarations** give their names types where they stand in the table. -/
theorem predeclareAll_announces : ∀ stmts : List Stmt,
    Announcing own (entriesOf (stmts.flatMap Stmt.symbols)) (predeclareAll own stmts)
  | [] => .pure_none
  | stmt :: rest => by
    have hfirst : Announcing own (entriesOf stmt.symbols) (stmt.predeclare own) := by
      rw [Stmt.predeclare, Stmt.symbols]
      cases hdecl : stmt.declaration? with
      | none => exact .pure_none
      | some decl =>
        exact predeclareOne_announces decl fun kind name he => Stmt.isType_of_declaration? (he ▸ hdecl)
    have h := hfirst.append (predeclareAll_announces rest)
    rw [predeclareAll, List.flatMap_cons]
    rwa [entriesOf, List.map_append]

/-! ## Two runs: the same types are made -/

/-- An outermost scope tells at once whether it has a name, since there is no other scope to ask. -/
theorem Scopes.lookup_outermost {g : Scopes} {table : Table} (hown : g.scopeAt own = some ⟨none, table⟩)
    (name : String) : g.lookup own name = .ok ((table.find? name).map fun symbol => (own, symbol)) := by
  simp only [lookup, lookupWithin, get_eq_ok_iff_scopeAt.mpr hown, ok_bind]
  cases table.find? name <;> rfl

/-- Two states from which the same declarations may be run in the outermost scope `own`. Their names, without types,
    stand after names of the same kinds; on the right others may follow. Kinds are all that a declaration asks of a
    name that is there already, when it is written as a type. -/
structure Departure where
  own : ScopeId
  left : Inference
  right : Inference
  entries : Table
  before : Table
  before' : Table
  after : Table
  listed : Listed own none before entries [] left
  listed' : Listed own none before' entries after right
  kinds : ∀ name, (before'.find? name).map Symbol.kind = (before.find? name).map Symbol.kind
  untyped : ∀ entry ∈ entries, entry.2.ty = none
  primitive : Store.initial.size ≤ left.types.size

namespace Departure

/-- The types made on the left are counted from the size on the right. Types that were there before are not
    mentioned by declarations, and where they go makes no difference. -/
def shift (D : Departure) : TypeId → TypeId := TypeId.shift D.left.types.size D.right.types.size

/-- Both states have come from where they started by the same new types, which are built from each other and from
    the primitive ones, and by recording them for the names. -/
structure Relates (D : Departure) (s t : Inference) : Prop where
  old : ∀ id, id.index < D.left.types.size → s.types.get id = D.left.types.get id
  old' : ∀ id, id.index < D.right.types.size → t.types.get id = D.right.types.get id
  size_le : D.left.types.size ≤ s.types.size
  size_eq : t.types.size = D.right.types.size + (s.types.size - D.left.types.size)
  new : ∀ {id node}, D.left.types.size ≤ id.index → s.types.get id = .ok node →
    node.Built (TypeId.Since D.left.types.size) ∧ t.types.get (D.shift id) = .ok (node.rename D.shift)
  scopes : ∃ given : Table, given.map Prod.fst = D.entries.map Prod.fst ∧
    (∀ entry ∈ given, ∀ ty, entry.2.ty = some ty → TypeId.Since D.left.types.size ty) ∧
    Refilled D.left.scopes D.own (D.before ++ given) s.scopes ∧
    Refilled D.right.scopes D.own (D.before' ++ given.rename D.shift ++ D.after) t.scopes
  frames : s.frames = D.left.frames ∧ t.frames = D.right.frames

variable {D : Departure} {t : Inference}

theorem Relates.next (h : D.Relates s t) : D.shift ⟨s.types.size⟩ = ⟨t.types.size⟩ := by
  rw [shift, h.size_eq]
  exact TypeId.shift_of_le h.size_le

/-! ### The steps of both runs -/

/-- **A new type** is made on both sides, with corresponding parts. -/
theorem create_mirrors {make make' : Store → TypeId × Store} (node : Node)
    (hmake : ∀ s, make s = s.allocate node) (hmake' : ∀ s, make' s = s.allocate (node.rename D.shift))
    (hbuilt : node.Built (TypeId.Since D.left.types.size)) :
    Mirrors D.Relates (create make) (create make') fun ty ty' =>
      ty' = D.shift ty ∧ TypeId.Since D.left.types.size ty := by
  intro s t hst ty s' hrun
  have hsize := hst.size_le
  have hsize' := hst.size_eq
  rw [create_run, hmake] at hrun
  cases hrun
  refine ⟨_, _, create_run make' t, ⟨fun id hid => ?_, fun id hid => ?_, ?_, ?_, fun {id found} hid hget => ?_,
    hst.scopes, hst.frames⟩, ?_, .inr hsize⟩
  · rw [Store.get_allocate_of_lt (hid.trans_le hsize)]
    exact hst.old id hid
  · rw [hmake', Store.get_allocate_of_lt (hid.trans_le (by omega))]
    exact hst.old' id hid
  · rw [Store.size_allocate]
    exact Nat.le_succ_of_le hsize
  · rw [hmake', Store.size_allocate, Store.size_allocate]
    omega
  -- A new node is one of those made since, or the one that has just been made.
  · rw [hmake']
    by_cases hlt : id.index < s.types.size
    · rw [Store.get_allocate_of_lt hlt] at hget
      obtain ⟨hfound, hget'⟩ := hst.new hid hget
      exact ⟨hfound, (Store.get_allocate_of_lt (Store.lt_of_get hget')).trans hget'⟩
    · have hle := Store.lt_of_get hget
      rw [Store.size_allocate] at hle
      obtain rfl : id = ⟨s.types.size⟩ := by cases id; simp only [TypeId.mk.injEq]; simp only at hlt hle; omega
      rw [Store.get_allocate_self] at hget
      cases hget
      exact ⟨hbuilt, by rw [hst.next, Store.get_allocate_self]⟩
  · rw [hmake']
    exact hst.next.symm

/-- A name that is found on the left is one of the same kind on the right. It may be one of the names that are
    declared, in their place, or one of those before them. -/
theorem resolve_mirrors (name : Ident) :
    Mirrors D.Relates (resolve D.own name) (resolve D.own name) fun found found' =>
      found'.2.kind = found.2.kind := by
  intro s t hst found s' hrun
  obtain ⟨given, -, -, hs, ht⟩ := hst.scopes
  have hlookup := lookup_outermost (hs.scopeAt_own D.listed.scope) name.name
  have hlookup' := lookup_outermost (ht.scopeAt_own D.listed'.scope) name.name
  have hkind := D.kinds name.name
  rw [Table.find?_append] at hlookup
  rw [Table.find?_append, Table.find?_append, Table.find?_rename] at hlookup'
  obtain ⟨symbol, symbol', hsymbol, hsymbol', hsame⟩ : ∃ symbol symbol',
      s.scopes.lookup D.own name.name = .ok (some (D.own, symbol)) ∧
      t.scopes.lookup D.own name.name = .ok (some (D.own, symbol')) ∧ symbol'.kind = symbol.kind := by
    cases hbefore : D.before.find? name.name with
    | some symbol =>
      rw [hbefore, Option.map_some, Option.map_eq_some_iff] at hkind
      obtain ⟨symbol', hbefore', hsame⟩ := hkind
      exact ⟨symbol, symbol', by rw [hlookup, hbefore]; rfl, by rw [hlookup', hbefore']; rfl, hsame⟩
    | none =>
      rw [hbefore, Option.map_none, Option.map_eq_none_iff] at hkind
      cases hgiven : given.find? name.name with
      | some symbol =>
        exact ⟨symbol, symbol.rename D.shift, by rw [hlookup, hbefore, hgiven]; rfl,
          by rw [hlookup', hkind, hgiven]; rfl, rfl⟩
      | none =>
        rw [hbefore, hgiven] at hlookup
        rw [resolve_run, Scopes.resolve, hlookup] at hrun
        cases hrun
  rw [resolve_run, Scopes.resolve, hsymbol] at hrun
  cases hrun
  exact ⟨_, t, by rw [resolve_run, Scopes.resolve, hsymbol']; rfl, hst, hsame⟩

/-! ### Whole runs -/

/-- The two states are parallel, in the sense of `Proofs.Inference.Parallel`: what was shown there for signatures
    and declarations applies. -/
theorem parallel (D : Departure) : Parallel D.Relates D.shift (TypeId.Since D.left.types.size) D.own where
  newVar := create_mirrors (.var none) (fun _ => rfl) (fun _ => rfl) rfl
  operator := fun con args hargs => create_mirrors (.op con args) (fun _ => rfl) (fun _ => rfl) hargs
  kind := resolve_mirrors
  primitive := fun {name ty} hty => by
    have hlt : ty.index < Store.initial.size := by
      unfold primitive? at hty
      split at hty <;> cases hty <;> decide
    exact ⟨TypeId.shift_of_lt (hlt.trans_le D.primitive), .inl hlt⟩

/-- Types that correspond may be recorded for the names. Recording touches the entry of the name on both sides, and
    nothing else in the two tables. -/
theorem records (D : Departure) :
    Parallel.Records D.Relates D.shift (TypeId.Since D.left.types.size) D.own (D.entries.map Prod.fst) := by
  intro name hname ty hty s t hst _ s' hrun
  obtain ⟨given, hnames, hsince, hs, ht⟩ := hst.scopes
  obtain ⟨g, hset, hrefilled⟩ := setType_eq_ok (hs.scopeAt_own D.listed.scope) name ty
  obtain ⟨g', hset', hrefilled'⟩ := setType_eq_ok (ht.scopeAt_own D.listed'.scope) name (D.shift ty)
  cases hset.symm.trans hrun
  -- Only the names in question are touched, because no other is called alike.
  have hbefore : ∀ entry ∈ D.before, entry.1 ≠ name := fun entry hentry he =>
    D.listed.apart entry (List.mem_append_left _ hentry) (he ▸ hname)
  have hothers : ∀ entry ∈ D.before' ++ D.after, entry.1 ≠ name := fun entry hentry he =>
    D.listed'.apart entry hentry (he ▸ hname)
  rw [Table.update_append, Table.update_eq_self hbefore] at hrefilled
  have hgiven : (given.rename D.shift).update name ({ · with ty := some (D.shift ty) }) =
      (given.update name ({ · with ty := some ty })).rename D.shift := Table.update_rename fun _ => rfl
  rw [Table.update_append, Table.update_append,
    Table.update_eq_self fun entry hentry => hothers entry (List.mem_append_left _ hentry),
    Table.update_eq_self fun entry hentry => hothers entry (List.mem_append_right _ hentry),
    hgiven] at hrefilled'
  refine ⟨(), _, hset', ⟨hst.old, hst.old', hst.size_le, hst.size_eq, hst.new, ⟨_, ?_, ?_, hs.trans hrefilled,
    ht.trans hrefilled'⟩, hst.frames⟩, trivial⟩
  · rw [← hnames, Table.update, List.map_map]
    refine List.map_congr_left fun entry _ => ?_
    simp only [Function.comp_apply]
    split <;> rfl
  · intro entry hentry found hfound
    obtain ⟨old, hold, rfl⟩ := List.mem_map.mp hentry
    split at hfound
    · cases hfound
      exact hty
    · exact hsince old hold found hfound

/-- The states at the beginning: nothing has been made and nothing recorded. -/
theorem relates (D : Departure) : D.Relates D.left D.right where
  old := fun _ _ => rfl
  old' := fun _ _ => rfl
  size_le := Nat.le_refl _
  size_eq := by rw [Nat.sub_self, Nat.add_zero]
  new := fun hid hget => absurd (Store.lt_of_get hget) (Nat.not_lt.mpr hid)
  scopes := by
    have hrename : D.entries.rename D.shift = D.entries := Table.rename_eq_self fun entry hentry ty hty =>
      absurd ((D.untyped entry hentry).symm.trans hty) nofun
    have hscope := D.listed.scope
    rw [List.append_nil] at hscope
    have hscope' := D.listed'.scope
    rw [← hrename] at hscope'
    refine ⟨D.entries, rfl, fun entry hentry ty hty => ?_, .refl hscope, .refl hscope'⟩
    cases (D.untyped entry hentry).symm.trans hty
  frames := ⟨rfl, rfl⟩

/-- **The same declarations make the same types**, up to numbers, wherever they are run. -/
theorem predeclareAll_mirrors (D : Departure) {stmts : List Stmt}
    (hentries : D.entries = entriesOf (stmts.flatMap Stmt.symbols)) :
    Mirrors D.Relates (predeclareAll D.own stmts) (predeclareAll D.own stmts) fun pins pins' =>
      pins' = pins.rename D.shift ∧ ∀ ty ∈ pins.all, TypeId.Since D.left.types.size ty := by
  refine D.parallel.predeclareAll stmts ?_
  have h := D.records
  rwa [hentries, entriesOf, List.map_map] at h

end Departure

end TypeInference
