import TypeInference.Proofs.Scoping.Uniform
import TypeInference.Proofs.Session.Course

/-!
# `Proofs.Session.Joint` — two accepted submissions, up to the end of the first

When a session has accepted two programs one after the other, the program that has the statements of both does
things in another order. It opens all scopes first, then gives all declarations their types, and only then looks
at any statement. So the types of the second program's declarations are made before those of the first one's
statements, and the first one's statements are looked at with more names, more scopes and more pinned types in
place. None of that is in their way: the names are none of theirs, the scopes are never looked into, and the
pinned types have been built from nothing that the statements can reach.

## Contents
* `Embedding.foldl_settle` — the pins at the end of a list of statements;
* `Course.Scoped`, `Course.exists_scoped` — both programs scoped as one;
* `Course.Ahead`, `Course.exists_ahead` — all declarations given types;
* `Course.Leap`, `Ahead.exists_leap`, `Leap.exists_infer` — the first program's statements.
-/

namespace TypeInference

open Store Scopes InferM

/-! ## Pins at the end of a list of statements -/

/-- Whatever is on the right of a relation between lists has a partner on the left. -/
theorem exists_mem_of_forall₂ {α β : Type} {R : α → β → Prop} {xs : List α} {ys : List β} {y : β}
    (h : List.Forall₂ R xs ys) (hy : y ∈ ys) : ∃ x ∈ xs, R x y := by
  induction h with
  | nil => cases hy
  | cons hhead _ ih =>
    rcases List.mem_cons.mp hy with rfl | hy
    · exact ⟨_, List.mem_cons_self, hhead⟩
    · obtain ⟨x, hx, hR⟩ := ih hy
      exact ⟨x, List.mem_cons_of_mem _ hx, hR⟩

/-- **A function whose body has been looked at is not pinned**, and variables stay pinned. By induction on the
    statements, each of which releases the function that it declares. -/
theorem Embedding.foldl_settle (E : Embedding) : ∀ (stmts : List Stmt) (pins : Pins),
    (stmts.foldl E.settle pins).vars = pins.vars ∧ ∀ ty ∈ (stmts.foldl E.settle pins).functions,
      ty ∈ pins.functions ∧ ∀ name ∈ functionNames (declarations stmts), E.typeOf? name ≠ some ty
  | [], pins => ⟨rfl, fun ty hty => ⟨hty, by simp [declarations, functionNames]⟩⟩
  | stmt :: rest, pins => by
    obtain ⟨hvars, hfunctions⟩ := E.foldl_settle rest (E.settle pins stmt)
    -- One statement takes away the pin of the function that it declares.
    have hfirst : (E.settle pins stmt).vars = pins.vars ∧ ∀ ty ∈ (E.settle pins stmt).functions,
        ty ∈ pins.functions ∧ ∀ name ∈ functionNames (declarations [stmt]), E.typeOf? name ≠ some ty := by
      cases stmt with
      | function mark name params result body =>
        rw [settle]
        cases htype : E.typeOf? name.name with
        | none =>
          refine ⟨rfl, fun ty hty => ⟨hty, fun key hkey => ?_⟩⟩
          obtain rfl := List.mem_singleton.mp hkey
          simp [htype]
        | some own =>
          refine ⟨rfl, fun ty hty => ?_⟩
          obtain ⟨hmem, hne⟩ := List.mem_filter.mp hty
          refine ⟨hmem, fun key hkey => ?_⟩
          obtain rfl := List.mem_singleton.mp hkey
          have hne : ty ≠ own := by simpa using hne
          exact fun he => hne (Option.some.inj (htype.symm.trans he)).symm
      | _ => exact ⟨rfl, fun ty hty => ⟨hty, List.forall_mem_nil _⟩⟩
    refine ⟨hvars.trans hfirst.1, fun ty hty => ?_⟩
    obtain ⟨hmem, hlater⟩ := hfunctions ty hty
    obtain ⟨hmem, hown⟩ := hfirst.2 ty hmem
    rw [declarations_cons, functionNames_append]
    exact ⟨hmem, fun name hname => (List.mem_append.mp hname).elim (hown name) (hlater name)⟩

namespace Session

variable {session : Session} {first second whole : Program}

/-! ## Scoping and declarations -/

/-- The statements of both programs, with the scopes that each program has recorded. Neither has to be scoped anew,
    as scopes get the same numbers. -/
def Course.joined (c : session.Course first) (c' : c.outcome.session.Course second) : Program :=
  ⟨c.annotated.stmts ++ c'.annotated.stmts, some session.global⟩

/-- The types that the second program's declarations make are made before those of the first one's statements, so
    their numbers are smaller than in its own submission. -/
def Course.shift (c : session.Course first) : TypeId → TypeId :=
  TypeId.shift c.final.types.size c.ready.types.size

/-- The programs are scoped as one in the arena `scopes`: the inner scopes are those of either program. -/
structure Course.Scoped (c : session.Course first) (c' : c.outcome.session.Course second) (scopes : Scopes) :
    Prop where
  submitted : Submitted session.types session.scopes scopes session.global c.table (c.joined c')
  size_eq : scopes.size = c'.scopes.size
  scope : ∀ id, id ≠ session.global →
    scopes.scopeAt id = if id.index < c.scopes.size then c.scopes.scopeAt id else c'.scopes.scopeAt id

/-- The declarations of both programs have been given types one after the other, in the state `t`: the first
    program's the same as before, the second one's the same up to numbers. -/
structure Course.Ahead (c : session.Course first) (c' : c.outcome.session.Course second) (scopes : Scopes)
    (typed typed' : Table) (t : Inference) : Prop where
  declared : predeclareAll session.global (c.joined c').stmts (.start session.types scopes) =
    .ok (c.pins.append (c'.pins.rename c.shift)) t
  announces : Announces (entriesOf (c.annotated.stmts.flatMap Stmt.symbols)) typed c.pins
  apart : ∀ entry ∈ typed', ∀ other ∈ c.table ++ typed, entry.1 ≠ other.1
  since : ∀ entry ∈ typed', ∀ ty, entry.2.ty = some ty → TypeId.Since c.final.types.size ty
  pins : ∀ ty ∈ c'.pins.all, TypeId.Since c.final.types.size ty
  ready : Refilled c.scopes session.global (c.table ++ typed) c.ready.scopes
  ready' : Refilled c'.scopes session.global (c'.table ++ typed') c'.ready.scopes
  filled : Refilled scopes session.global (c.table ++ typed ++ typed'.rename c.shift) t.scopes
  old : ∀ id, id.index < c.ready.types.size → t.types.get id = c.ready.types.get id
  old' : ∀ id, id.index < c.final.types.size → c'.ready.types.get id = c.final.types.get id
  size_le : c.final.types.size ≤ c'.ready.types.size
  size_eq : t.types.size = c.ready.types.size + (c'.ready.types.size - c.final.types.size)
  new : ∀ {id node}, c.final.types.size ≤ id.index → c'.ready.types.get id = .ok node →
    node.Built (TypeId.Since c.final.types.size) ∧ t.types.get (c.shift id) = .ok (node.rename c.shift)
  frames : t.frames = []

section

variable (hs : session.Sound) (c : session.Course first) (c' : c.outcome.session.Course second)

include hs

/-! ### Both programs as one -/

/-- **Both programs are scoped as one.** The names of the second one are different from those of the first, or its
    own submission would have been refused. -/
theorem Course.exists_scoped (hstrict : session.options.strictShadowing = false)
    (hwhole : whole.stmts = first.stmts ++ second.stmts) :
    ∃ scopes, whole.annotate session.options.strictShadowing session.global (.start session.scopes) =
        (c.joined c', ⟨scopes, none⟩) ∧ c.Scoped c' scopes := by
  have hfirst := c.annotate
  have hsecond : second.annotate session.options.strictShadowing session.global (.start c.final.scopes) =
    (c'.annotated, ⟨c'.scopes, none⟩) := c'.annotate
  have hshape := (c.step_final hs).shape
  rw [hstrict] at hfirst hsecond ⊢
  have hnames : ∀ name, c.final.scopes.symbolAt session.global name = none →
      c.scopes.symbolAt session.global name = none := fun name hnone => by
    have hkind := hshape.kind session.global name
    rwa [hnone, Option.map_none, eq_comm, Option.map_eq_none_iff] at hkind
  obtain ⟨scopes, hannotate, hsize, hscope⟩ :=
    Program.annotate_append hs.ordered (hshape.ordered (c.submitted hs).ordered) c.found c'.found hfirst
      hshape.size_eq hnames hsecond hwhole
  refine ⟨scopes, hannotate, ?_, hsize, hscope⟩
  have hscoped := Program.annotate_run false hs.ordered c.found whole
  rw [hannotate] at hscoped
  exact ⟨hs.wf, hs.inRange, hscoped.grown, hscoped.ordered, hscoped.gives, c.found, hscoped.placed rfl⟩

/-- With more names in the global scope, the declarations of a program make the same types, since they ask names for
    their kinds only. -/
theorem Course.exists_declared {scopes : Scopes} {more : Table} (hlisted : Listed session.global none c.table
      (entriesOf (c.annotated.stmts.flatMap Stmt.symbols)) more (.start session.types scopes)) :
    ∃ typed t, predeclareAll session.global c.annotated.stmts (.start session.types scopes) = .ok c.pins t ∧
      Announces (entriesOf (c.annotated.stmts.flatMap Stmt.symbols)) typed c.pins ∧
      Refilled c.scopes session.global (c.table ++ typed) c.ready.scopes ∧
      Refilled scopes session.global (c.table ++ typed ++ more) t.scopes ∧
      t.types.size = c.ready.types.size ∧
      (∀ id, id.index < c.ready.types.size → t.types.get id = c.ready.types.get id) ∧ t.frames = [] := by
  -- Both runs begin with the same store, so nothing is shifted.
  let D : Departure :=
    { own := session.global, left := .start session.types c.scopes, right := .start session.types scopes
      entries := entriesOf (c.annotated.stmts.flatMap Stmt.symbols), before := c.table, before' := c.table
      after := more, listed := (c.submitted hs).listed, listed' := hlisted, kinds := fun _ => rfl
      untyped := untyped_entriesOf, primitive := hs.wf.initial_le }
  have hself : D.shift = id := funext fun ty => TypeId.shift_self _ ty
  obtain ⟨_, t, hdeclared, hrelates, rfl, -⟩ := D.predeclareAll_mirrors rfl _ _ D.relates _ _ c.declared
  obtain ⟨given, -, -, hready, hfilled⟩ := hrelates.scopes
  rw [hself, Table.rename_id] at hfilled
  obtain ⟨typed, htyped, hannounces⟩ := c.exists_typed hs
  obtain rfl : given = typed := by
    have hscope := (hready.scopeAt_own (c.submitted hs).placed.scope).symm.trans htyped
    exact List.append_cancel_left (congrArg Scope.table (Option.some.inj hscope))
  have hsize : t.types.size = c.ready.types.size := by
    have hle : session.types.size ≤ c.ready.types.size := hrelates.size_le
    have heq : t.types.size = session.types.size + (c.ready.types.size - session.types.size) := hrelates.size_eq
    omega
  refine ⟨given, t, ?_, hannounces, hready, hfilled, hsize, fun id hid => ?_, hrelates.frames.2⟩
  · rwa [hself, Pins.rename_id] at hdeclared
  · by_cases hlt : id.index < session.types.size
    · exact (hrelates.old' id hlt).trans (hrelates.old id hlt).symm
    · obtain ⟨node, hget⟩ := Store.exists_get_iff.mpr hid
      have hnew := (hrelates.new (Nat.not_lt.mp hlt) hget).2
      rw [hself, Node.rename_id] at hnew
      exact hnew.trans hget.symm

/-- **The declarations of both programs** can be given types one after the other: the first program's as in its own
    submission, with more names in the scope, and the second one's before any statement has been looked at. -/
theorem Course.exists_ahead {scopes : Scopes} (hscoped : c.Scoped c' scopes) (hcomplete : session.Complete) :
    ∃ typed typed' t, c.Ahead c' scopes typed typed' t := by
  have hlisted := hscoped.submitted.listed
  have hboth : entriesOf ((c.joined c').stmts.flatMap Stmt.symbols) =
      entriesOf (c.annotated.stmts.flatMap Stmt.symbols) ++ entriesOf (c'.annotated.stmts.flatMap Stmt.symbols) := by
    rw [Course.joined, List.flatMap_append, entriesOf_append]
  rw [hboth] at hlisted
  obtain ⟨typed, t₁, hdeclared₁, hannounces, hready, hfilled₁, hsize₁, hget₁, hframes₁⟩ :=
    c.exists_declared hs hlisted.left
  obtain ⟨-, table, hfinal, hfacts⟩ := c.exists_facts hs (hcomplete _ c.found)
    (hready.scopeAt_own (c.submitted hs).placed.scope) hannounces
  obtain rfl : table = c'.table := congrArg Scope.table (Option.some.inj (hfinal.symm.trans c'.found))
  have hs' := c.sound_outcome hs
  -- The second program's declarations, before the statements of the first have been looked at.
  have hlater := hlisted.right hannounces.names (hfilled₁.scopeAt_own hscoped.submitted.placed.scope)
  let D : Departure :=
    { own := session.global, left := .start c.outcome.session.types c'.scopes, right := t₁
      entries := entriesOf (c'.annotated.stmts.flatMap Stmt.symbols), before := c'.table
      before' := c.table ++ typed, after := [], listed := (c'.submitted hs').listed, listed' := hlater
      kinds := fun name => by
        have hlookup := congrArg (Option.map Prod.fst) (congrArg (List.lookup name) hfacts)
        rw [Table.lookup_facts, Table.lookup_facts, Option.map_map, Option.map_map] at hlookup
        exact hlookup.symm
      untyped := untyped_entriesOf, primitive := hs'.wf.initial_le }
  have hshift : D.shift = c.shift := by
    show TypeId.shift c.final.types.size t₁.types.size = _
    rw [hsize₁]
    rfl
  obtain ⟨_, t, hdeclared, hrelates, rfl, hpins⟩ := D.predeclareAll_mirrors rfl _ _ D.relates _ _ c'.declared
  obtain ⟨typed', hnames, hsince, hready', hfilled⟩ := hrelates.scopes
  rw [hshift] at hdeclared hfilled
  refine ⟨typed, typed', t, ?_, hannounces, fun entry hentry other hother he => ?_, hsince, hpins, hready, hready',
    ?_, fun id hid => ?_, hrelates.old, hrelates.size_le, ?_, fun {id node} hid hget => ?_,
    hrelates.frames.2.trans hframes₁⟩
  · show predeclareAll session.global (c.annotated.stmts ++ c'.annotated.stmts) _ = _
    rw [predeclareAll_append]
    exact (run_bind_of_ok hdeclared₁).trans (run_bind_of_ok hdeclared)
  · exact hlater.apart other (List.mem_append_left _ hother) (hnames ▸ he ▸ List.mem_map_of_mem hentry)
  · rw [List.append_nil] at hfilled
    exact hfilled₁.trans hfilled
  · exact (hrelates.old' id (hsize₁ ▸ hid)).trans (hget₁ id hid)
  · rw [← hsize₁]
    exact hrelates.size_eq
  · obtain ⟨hbuilt, hnew⟩ := hrelates.new hid hget
    rw [hshift] at hnew
    exact ⟨hbuilt, hnew⟩

end

/-! ## The statements of the first program -/

/-- The second program's types, names and scopes are in the way of the first program's statements: new types leap
    over them. -/
structure Course.Leap (c : session.Course first) (c' : c.outcome.session.Course second) (scopes : Scopes)
    (typed typed' : Table) (t : Inference) (E : Embedding) : Prop where
  apply : E.apply = TypeId.shift c.ready.types.size t.types.size
  foreign : ∀ {id node}, E.foreign id = some node ↔ t.types.get id = .ok node ∧ id.Since c.ready.types.size
  global : E.global = session.global
  held : E.held = (c.table ++ typed).facts
  added : E.added = typed'.rename c.shift
  beyond : ∀ id, c.scopes.size ≤ id.index → E.beyond id = scopes.scopeAt id

section

variable {scopes : Scopes} {typed typed' : Table} {t t' : Inference} {E : Embedding} {c : session.Course first}
  {c' : c.outcome.session.Course second}

namespace Course

/-- The primitive types are there when declarations have been given types. -/
theorem initial_le_ready (hs : session.Sound) (c : session.Course first) :
    Store.initial.size ≤ c.ready.types.size :=
  (c.admits_ready hs).wf.initial_le

/-- The store with the types of all declarations is well formed. -/
theorem Ahead.wf (h : c.Ahead c' scopes typed typed' t) (hs : session.Sound) (hscoped : c.Scoped c' scopes) :
    t.types.WellFormed := by
  have hadmits : (hscoped.submitted.guard ∅ False).Admits _ := hscoped.submitted.admits unbound_empty hs.clear_empty
  exact ((predeclareAll_allows (r := false) (c.joined c').stmts hadmits hscoped.submitted.nameable).ok
    h.declared).1.types.wf

/-- What stands in the way has been built from itself and the primitive types, so the first program's statements
    cannot reach it. -/
theorem Ahead.built (h : c.Ahead c' scopes typed typed' t) (hs : session.Sound) {id : TypeId} {node : Node}
    (hid : c.ready.types.size ≤ id.index) (hget : t.types.get id = .ok node) :
    node.Built (TypeId.Since c.ready.types.size) := by
  have hlt := Store.lt_of_get hget
  have hsize := h.size_eq
  -- The node comes from one of the second program's.
  obtain ⟨there, hthere⟩ :
      ∃ there, c'.ready.types.get ⟨c.final.types.size + (id.index - c.ready.types.size)⟩ = .ok there :=
    Store.exists_get_iff.mpr (by simp only; omega)
  obtain ⟨hbuilt, hnew⟩ := h.new (Nat.le_add_right _ _) hthere
  have hshift : c.shift ⟨c.final.types.size + (id.index - c.ready.types.size)⟩ = id := by
    refine (TypeId.shift_add _ _ _).trans ?_
    cases id
    simp only [TypeId.mk.injEq] at *
    omega
  rw [hshift] at hnew
  cases hget.symm.trans hnew
  exact hbuilt.rename fun a ha => ha.shift (c.admits_final hs).wf.initial_le

/-- The first program's types keep their numbers; only types made by statements leap. -/
theorem Leap.apply_of_lt (hleap : c.Leap c' scopes typed typed' t E) {ty : TypeId}
    (hty : ty.index < c.ready.types.size) : E.apply ty = ty := by
  rw [hleap.apply, TypeId.shift_of_lt hty]

/-! ### Where the statements begin -/

/-- **The first program's scopes** are there, with more names in the global one, and with more scopes behind. -/
theorem Leap.embeds_ready (hleap : c.Leap c' scopes typed typed' t E) (h : c.Ahead c' scopes typed typed' t)
    (hs : session.Sound) (hscoped : c.Scoped c' scopes) : E.Embeds E.apply c.ready.scopes t.scopes := by
  have hready := h.ready.scopeAt_own (c.submitted hs).placed.scope
  have htable : ∀ {id scope}, c.ready.scopes.scopeAt id = some scope → scope.table.rename E.apply = scope.table :=
    fun hscope => Table.rename_eq_self fun entry hentry ty hty =>
      hleap.apply_of_lt ((c.admits_ready hs).inRange ⟨_, hscope, entry, hentry, rfl, hty⟩)
  refine ⟨fun {id scope} hscope => ?_, fun {id} hid => ?_, ?_, _, hleap.global ▸ hready, hleap.held.symm⟩
  · have hlt := h.ready.size_eq ▸ lt_of_scopeAt hscope
    rw [htable hscope, hleap.global, hleap.added]
    by_cases hid : id = session.global
    · subst hid
      obtain rfl : _ = scope := Option.some.inj (hready.symm.trans hscope)
      rw [h.filled.scopeAt_own hscoped.submitted.placed.scope, if_pos rfl]
    · rw [h.filled.scope, if_neg hid, hscoped.scope id hid, if_pos hlt, if_neg hid, List.append_nil, ← hscope,
        h.ready.scope, if_neg hid]
  · rw [h.ready.size_eq] at hid
    have hne : id ≠ session.global := by
      rintro rfl
      exact absurd hid (Nat.not_le.mpr (lt_of_scopeAt (c.submitted hs).placed.scope))
    rw [h.filled.scope, if_neg hne, hleap.beyond id hid]
  · have hfinal : c.final.scopes.size = c.scopes.size := (c.step_final hs).shape.size_eq
    rw [h.ready.size_eq, h.filled.size_eq, hscoped.size_eq, ← hfinal]
    exact (c'.submitted (c.sound_outcome hs)).grown.size_le

/-- **When all declarations have been given types**, the first program's statements find what they found. -/
theorem Ahead.exists_leap (h : c.Ahead c' scopes typed typed' t) (hs : session.Sound) (hscoped : c.Scoped c' scopes)
    (hcomplete : session.Complete) :
    ∃ E, c.Leap c' scopes typed typed' t E ∧ E.Relates c.ready t := by
  have hready := h.ready.scopeAt_own (c.submitted hs).placed.scope
  obtain ⟨htyped, -⟩ := c.exists_facts hs (hcomplete _ c.found) hready h.announces
  have hsize := h.size_eq
  have hle : c.ready.types.size ≤ t.types.size := by omega
  obtain ⟨ρ, happly, hforeign, hdepth⟩ :=
    (h.wf hs hscoped).exists_leap (c.initial_le_ready hs) hle fun hid hget => h.built hs hid hget
  have hapart : ∀ entry ∈ typed'.rename c.shift, ∀ fact ∈ (c.table ++ typed).facts, entry.1 ≠ fact.1 := by
    intro entry hentry fact hfact
    obtain ⟨new, hnew, rfl⟩ := List.mem_map.mp hentry
    obtain ⟨old, hold, rfl⟩ := List.mem_map.mp hfact
    exact h.apart new hnew old hold
  let E : Embedding :=
    { toRenaming := ρ, global := session.global, held := (c.table ++ typed).facts, added := typed'.rename c.shift
      beyond := fun id => if c.scopes.size ≤ id.index then scopes.scopeAt id else none, typed := htyped
      apart := hapart }
  have hleap : c.Leap c' scopes typed typed' t E := ⟨happly, hforeign, rfl, rfl, rfl, fun id hid => if_pos hid⟩
  refine ⟨E, hleap, ⟨fun {id node} hget => ?_, fun count => ?_, hle, fun hnode => ⟨(hforeign.mp hnode).1, hdepth _⟩⟩,
    hleap.embeds_ready h hs hscoped, by rw [h.frames, c.frames_ready hs]; rfl⟩
  · have hlt := Store.lt_of_get hget
    rw [hleap.apply_of_lt hlt, Node.rename_eq_self fun a ha =>
      hleap.apply_of_lt ((c.admits_ready hs).wf.inRange ⟨node, hget, ha⟩)]
    exact (h.old id hlt).trans hget
  · rw [hleap.apply]
    exact TypeId.shift_add _ _ _

/-- The types of what the first program finds and declares are there when its statements are looked at. -/
theorem Ahead.lt_of_typed (h : c.Ahead c' scopes typed typed' t) (hs : session.Sound) {entry : String × Symbol}
    (hentry : entry ∈ c.table ++ typed) {ty : TypeId} (hty : entry.2.ty = some ty) :
    ty.index < c.ready.types.size :=
  (c.admits_ready hs).inRange
    ⟨_, h.ready.scopeAt_own (c.submitted hs).placed.scope, entry, hentry, rfl, hty⟩

/-- When the statements have been looked at, all functions may be used at different types: none is pinned. -/
theorem functions_eq_nil (c : session.Course first) (hs : session.Sound) {table : Table}
    (hready : c.ready.scopes.scopeAt session.global = some ⟨none, table⟩) (hheld : E.held = table.facts) :
    (c.annotated.stmts.foldl E.settle c.pins).functions = [] := by
  refine List.eq_nil_iff_forall_not_mem.mpr fun ty hty => ?_
  obtain ⟨hmem, hnone⟩ := (E.foldl_settle c.annotated.stmts c.pins).2 ty hty
  obtain ⟨name, hname, hat⟩ := exists_mem_of_forall₂ ((c.step_ready hs True).2.functions trivial) hmem
  refine hnone name hname ?_
  rw [typeAt, symbolAt, hready, Option.bind_some] at hat
  rw [Embedding.typeOf?, hheld, Table.lookup_facts]
  cases hfind : table.find? name with
  | none => rw [hfind] at hat; cases hat
  | some symbol => rwa [hfind] at hat

/-- The pins of the second program are in the way as well, which means that they play no part for the first one's
    statements. -/
theorem Leap.foreign_pins (hleap : c.Leap c' scopes typed typed' t E) (h : c.Ahead c' scopes typed typed' t)
    (hs : session.Sound) : E.Foreign (c'.pins.rename c.shift) := by
  have hs' := c.sound_outcome hs
  have hsize := h.size_eq
  have hlater : ∀ {ty : TypeId}, ty.index < c'.ready.types.size → c.final.types.size ≤ ty.index →
      c.ready.types.size ≤ (c.shift ty).index ∧ (c.shift ty).index < t.types.size := fun {ty} hlt hle => by
    rw [shift, TypeId.shift_of_le hle]
    exact ⟨Nat.le_add_right _ _, by simp only; omega⟩
  refine ⟨fun q hq => ?_, fun q hq v he => ?_⟩
  · obtain ⟨ty, hty, rfl⟩ : ∃ ty ∈ c'.pins.all, c.shift ty = q := by
      simpa [Pins.all, Pins.rename, ← List.map_append] using hq
    have hsince := h.pins ty hty
    have hlt : (c.shift ty).index < t.types.size := by
      rcases hsince with hprimitive | hle
      · rw [shift, TypeId.shift_of_lt (hprimitive.trans_le (c.admits_final hs).wf.initial_le)]
        exact hprimitive.trans_le ((c.initial_le_ready hs).trans (by omega))
      · exact (hlater (c'.lt_of_mem_pins hs' hty) hle).2
    obtain ⟨node, hnode⟩ := Store.exists_get_iff.mpr hlt
    exact ⟨node, hleap.foreign.mpr ⟨hnode, hsince.shift (c.admits_final hs).wf.initial_le⟩⟩
  · obtain ⟨ty, hty, rfl⟩ := List.mem_map.mp hq
    obtain ⟨hle, hlt⟩ := hlater (c'.lt_of_mem_pins hs' (List.mem_append_right _ hty))
      ((c'.step_ready hs' False).2.new ty hty)
    rw [← he, hleap.apply] at hle hlt
    rcases TypeId.shift_lt_or_le c.ready.types.size t.types.size v with hbelow | habove
    · exact absurd hle (Nat.not_le.mpr hbelow)
    · exact absurd hlt (Nat.not_lt.mpr habove)

/-! ### The run over the statements -/

/-- **The first program's statements** are looked at with all declarations in place. They give the same types up to
    the leap, and leave the pins of the variables and those of the second program. -/
theorem Leap.exists_infer (hleap : c.Leap c' scopes typed typed' t E) (h : c.Ahead c' scopes typed typed' t)
    (hs : session.Sound) (hrelates : E.Relates c.ready t) :
    ∃ t', inferSegment session.global (pinnedTypes c.table) (c.pins.append (c'.pins.rename c.shift))
        c.annotated.stmts t =
      .ok (c.tys.map E.apply, (⟨c.pins.vars, []⟩ : Pins).append (c'.pins.rename c.shift)) t' ∧
      E.Relates c.final t' := by
  -- Pinned types are older than the statements, so they have not leapt.
  have hpinned : (pinnedTypes c.table).map E.apply = pinnedTypes c.table := by
    refine (List.map_congr_left fun ty hty => ?_).trans (List.map_id _)
    obtain ⟨entry, hentry, -, htyped⟩ := mem_pinnedTypes.mp hty
    exact hleap.apply_of_lt (h.lt_of_typed hs (List.mem_append_left _ hentry) htyped)
  have hpins : c.pins.rename E.apply = c.pins :=
    (Pins.rename_congr fun ty hty => hleap.apply_of_lt (c.lt_of_mem_pins hs hty)).trans c.pins.rename_id
  -- None of the names that are in the way is one of the first program.
  have hnames : ∀ name ∈ namesOf (c.annotated.stmts.flatMap Stmt.symbols), E.Owns session.global name := by
    intro name hname _ entry hentry he
    rw [hleap.added] at hentry
    obtain ⟨new, hnew, rfl⟩ := List.mem_map.mp hentry
    rw [← names_entriesOf, ← h.announces.names] at hname
    obtain ⟨old, hold, hname⟩ := List.mem_map.mp hname
    exact h.apart new hnew old (List.mem_append_right _ hold) (he.trans hname.symm)
  have hpinsHere : E.Pins (pinnedTypes c.table) (pinnedTypes c.table) := by
    have hmap := Renaming.Pins.map E.toRenaming (pinnedTypes c.table)
    rwa [hpinned] at hmap
  have hglobal : E.global.index < session.scopes.size := hleap.global ▸ (c.submitted hs).global_lt
  -- The run over the statements can be replayed among foreign types and names.
  have hreplays := inferSegment_replays hpinsHere (hleap.foreign_pins h hs) c.annotated.stmts
    (c.submitted hs).placed.stmts hglobal hnames c.pins
  obtain ⟨left, hrun⟩ := exists_inferSegment c.inferred
  obtain ⟨_, t', hrun', hfinal, rfl, hleft⟩ := hreplays c.ready t hrelates _ _ hrun
  refine ⟨t', ?_, hfinal⟩
  obtain rfl : left = c.annotated.stmts.foldl E.settle c.pins := hleft hleap.global.symm
  have hready := h.ready.scopeAt_own (c.submitted hs).placed.scope
  have hleft : (c.annotated.stmts.foldl E.settle c.pins).rename E.apply = ⟨c.pins.vars, []⟩ := by
    have hvars := congrArg Pins.vars hpins
    rw [Pins.rename, c.functions_eq_nil hs hready hleap.held, (E.foldl_settle _ _).1]
    exact congrArg (Pins.mk · []) hvars
  rw [hpins] at hrun'
  rw [hrun', hleft]

end Course

end

end Session

end TypeInference
