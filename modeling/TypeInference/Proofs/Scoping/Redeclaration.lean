import TypeInference.Proofs.Scoping.Annotation
import TypeInference.Proofs.Scoping.Lexical

/-!
# `Proofs.Scoping.Redeclaration` — where the first pass is refused

Names are declared frame by frame: first those of a list of statements, in order, and then, in the order of the
text, the frames of what stands inside. Without strict mode the pass is refused at the first name that its own
frame has already, and at nothing else. Which frames there are is written in the text, so the verdict and the
diagnostic can be read off it.

The scopes that are opened along the way never make a difference: a new scope is empty, so only the global scope
can hold a name before its frame is declared.

## Contents
* `Table.Fresh`, `Table.Redeclares`, `Table.repeated?` — frames that repeat a name, and the first such entry;
* `openedFrames` — the frames that are declared inside a tree, in the order of the pass;
* `declareAll_redeclares` — names declared one after another;
* `Refuses`, `Expr.annotate_refuses`, `Stmt.annotate_refuses` — what the pass over each kind of node is refused for.
-/

namespace TypeInference

open Scopes ScopingM

/-! ## Frames that repeat a name -/

namespace Table

/-- The entries of a table have different names, none of which is `held` already. -/
structure Fresh (held table : Table) : Prop where
  nodup : (table.map Prod.fst).Nodup
  apart : ∀ entry ∈ table, held.find? entry.1 = none

/-- After the entries `front`, whose names are new, the table goes on with an entry whose name is there, among those
    held or among those in front. -/
structure Redeclares (held table front : Table) (name : String) (symbol : Symbol) : Prop where
  next : ∃ back, table = front ++ (name, symbol) :: back
  fresh : Fresh held front
  again : ∃ earlier, (held ++ front).find? name = some earlier

/-- The first entry whose name is there already. It is a walk through the table in the order in which the pass
    declares its names. -/
def repeated? (held : Table) : Table → Option (String × Symbol)
  | [] => none
  | entry :: rest => if (held.find? entry.1).isSome then some entry else repeated? (held ++ [entry]) rest

variable {held table front : Table} {entry : String × Symbol} {name : String} {symbol : Symbol}

theorem Fresh.nil (held : Table) : Fresh held [] := ⟨List.nodup_nil, by simp⟩

/-- The first entry is new, and the others are on top of it. -/
theorem fresh_cons : Fresh held (entry :: table) ↔ held.find? entry.1 = none ∧ Fresh (held ++ [entry]) table := by
  constructor
  · rintro ⟨hnodup, hapart⟩
    obtain ⟨hnot, hnodup⟩ := List.nodup_cons.mp hnodup
    refine ⟨hapart _ List.mem_cons_self, hnodup, fun other hother => find?_append_singleton_eq_none.mpr
      ⟨hapart _ (List.mem_cons_of_mem _ hother), fun he => hnot ?_⟩⟩
    rw [he]
    exact List.mem_map_of_mem hother
  · rintro ⟨hnew, hnodup, hapart⟩
    refine ⟨List.nodup_cons.mpr ⟨fun hmem => ?_, hnodup⟩, List.forall_mem_cons.mpr ⟨hnew, fun other hother =>
      (find?_append_singleton_eq_none.mp (hapart _ hother)).1⟩⟩
    obtain ⟨other, hother, he⟩ := List.mem_map.mp hmem
    exact (find?_append_singleton_eq_none.mp (hapart _ hother)).2 he.symm

/-- The first entry whose name is there comes after one more that is new. -/
theorem Redeclares.cons (hnew : held.find? entry.1 = none) (h : Redeclares (held ++ [entry]) table front name symbol) :
    Redeclares held (entry :: table) (entry :: front) name symbol := by
  obtain ⟨⟨back, rfl⟩, hfresh, hagain⟩ := h
  exact ⟨⟨back, rfl⟩, fresh_cons.mpr ⟨hnew, hfresh⟩, by simpa using hagain⟩

/-- Nothing is repeated exactly if all entries are new. -/
theorem repeated?_eq_none_iff : ∀ {table held : Table}, repeated? held table = none ↔ Fresh held table
  | [], held => iff_of_true rfl (.nil held)
  | entry :: rest, held => by
    rw [repeated?, fresh_cons, ← repeated?_eq_none_iff]
    cases held.find? entry.1 <;> simp

/-- What is repeated comes after entries that are new. -/
theorem exists_of_repeated?_eq_some : ∀ {table held : Table}, repeated? held table = some (name, symbol) →
    ∃ front, Redeclares held table front name symbol
  | entry :: rest, held, h => by
    rw [repeated?] at h
    cases hfind : held.find? entry.1 with
    | some earlier =>
      simp only [hfind, Option.isSome_some, ↓reduceIte, Option.some.injEq] at h
      subst h
      exact ⟨[], ⟨rest, rfl⟩, .nil held, earlier, by simpa using hfind⟩
    | none =>
      simp only [hfind, Option.isSome_none, Bool.false_eq_true, ↓reduceIte] at h
      obtain ⟨front, hfront⟩ := exists_of_repeated?_eq_some h
      exact ⟨entry :: front, hfront.cons hfind⟩

end Table

/-! ### Frames of a tree -/

/-- The diagnostic for a name that its frame has already: it has the kind and the place of the second declaration. -/
def redeclaration (entry : String × Symbol) : Diagnostic := ⟨.duplicate entry.2.kind entry.1, entry.2.span⟩

/-- The frames that are declared at the sites which open a scope, in their order. -/
def openedFrames (sites : List Site) : List Table := (sites.filter Site.opens).filterMap (·.frames.head?)

@[simp] theorem openedFrames_append (sites more : List Site) :
    openedFrames (sites ++ more) = openedFrames sites ++ openedFrames more := by
  simp [openedFrames]

@[simp] theorem openedFrames_stand (scope : Option ScopeId) (frames : List Table) (sites : List Site) :
    openedFrames (⟨false, scope, frames⟩ :: sites) = openedFrames sites := rfl

@[simp] theorem openedFrames_enter (scope : Option ScopeId) (frame : Table) (frames : List Table) (sites : List Site) :
    openedFrames (⟨true, scope, frame :: frames⟩ :: sites) = frame :: openedFrames sites := rfl

/-! ## Refusals -/

/-- A refusal that is about the declaration of a name: the name is there already, or, in strict mode, hides a type. -/
def Halt.IsDeclaration (reason : Halt Diagnostic) : Prop :=
  ∀ diagnostic, reason = .failure diagnostic →
    (∃ kind name, diagnostic.cause = .duplicate kind name) ∨ ∃ name, diagnostic.cause = .shadowsType name

/-- Why the pass ends when the frames are declared one after another, each in a scope of its own: at the first name
    that its frame has already. -/
def haltAt (frames : List Table) : Option (Halt Diagnostic) :=
  (frames.findSome? (Table.repeated? [])).map (Halt.failure ∘ redeclaration)

theorem haltAt_cons (frame : Table) (frames : List Table) :
    haltAt (frame :: frames) =
      ((Table.repeated? [] frame).map (Halt.failure ∘ redeclaration)).or (haltAt frames) := by
  rw [haltAt, List.findSome?_cons]
  cases Table.repeated? [] frame <;> rfl

theorem haltAt_append (frames more : List Table) : haltAt (frames ++ more) = (haltAt frames).or (haltAt more) := by
  rw [haltAt, List.findSome?_append, Option.map_or, ← haltAt, ← haltAt]

/-- The pass goes on exactly if every frame has different names. -/
theorem haltAt_eq_none_iff {frames : List Table} : haltAt frames = none ↔ ∀ frame ∈ frames, Table.Fresh [] frame := by
  simp only [haltAt, Option.map_eq_none_iff, List.findSome?_eq_none_iff, Table.repeated?_eq_none_iff]

/-- The pass ends in the first frame that repeats a name; the frames before it are without repetitions. -/
theorem exists_of_haltAt_eq_some {frames : List Table} {reason : Halt Diagnostic} (h : haltAt frames = some reason) :
    ∃ nearer frame further front name symbol, frames = nearer ++ frame :: further ∧
      (∀ other ∈ nearer, Table.Fresh [] other) ∧ Table.Redeclares [] frame front name symbol ∧
      reason = .failure (redeclaration (name, symbol)) := by
  obtain ⟨⟨name, symbol⟩, hfound, rfl⟩ := Option.map_eq_some_iff.mp h
  obtain ⟨nearer, frame, further, rfl, hframe, hnearer⟩ := List.findSome?_eq_some_iff.mp hfound
  obtain ⟨front, hfront⟩ := Table.exists_of_repeated?_eq_some hframe
  exact ⟨nearer, frame, further, front, name, symbol, rfl,
    fun other hother => Table.repeated?_eq_none_iff.mp (hnearer other hother), hfront, rfl⟩

namespace Scopes

variable {g : Scopes} {own : ScopeId} {name : String} {symbol : Symbol}

/-- An insertion is refused for the sake of the name only. -/
theorem isDeclaration_of_insert {reason : Halt Diagnostic} (h : g.insert own name symbol = .error reason) :
    reason.IsDeclaration := by
  rintro diagnostic rfl
  unfold insert at h
  cases hlocal : g.getLocal own name with
  | error fault => simp [hlocal, Halt.ofQuery] at h
  | ok found =>
    cases found with
    | some earlier =>
      simp only [hlocal, Halt.ofQuery, ok_bind] at h
      cases h
      exact .inl ⟨symbol.kind, name, rfl⟩
    | none =>
      cases hmap : g.mapTable own (·.insert name symbol) <;> simp [hlocal, hmap, Halt.ofQuery] at h

theorem isDeclaration_of_declare {strict : Bool} {id : Ident} {reason : Halt Diagnostic}
    (h : g.declare strict own id symbol = .error reason) : reason.IsDeclaration := by
  cases hstrict : strict && !symbol.kind.isType with
  | false =>
    simp only [declare, hstrict, Bool.false_eq_true, ↓reduceIte] at h
    exact isDeclaration_of_insert h
  | true =>
    cases hhides : g.hidesType own id.name with
    | error fault =>
      simp only [declare, hstrict, hhides, Halt.ofQuery, ↓reduceIte, error_bind] at h
      cases h
      rintro _ ⟨⟩
    | ok hides =>
      cases hides with
      | false =>
        simp only [declare, hstrict, hhides, Halt.ofQuery, ok_bind, Bool.false_eq_true, ↓reduceIte] at h
        exact isDeclaration_of_insert h
      | true =>
        simp only [declare, hstrict, hhides, Halt.ofQuery, ok_bind, ↓reduceIte] at h
        cases h
        rintro _ ⟨⟩
        exact .inr ⟨id.name, rfl⟩

end Scopes

namespace ScopingM

variable {α β : Type} {strict : Bool} {parent own : ScopeId} {outer : Option ScopeId}

/-- **Names declared one after another** are all new, or the first that is there ends the pass, with the names
    before it in their scope. -/
theorem declareAll_redeclares : ∀ (symbols : List (Ident × Symbol)) {g : Scopes} {table : Table},
    g.scopeAt own = some ⟨outer, table⟩ →
      (declareAll false own symbols ⟨g, none⟩).2.halt =
          (Table.repeated? table (entriesOf symbols)).map (Halt.failure ∘ redeclaration) ∧
        ∀ name symbol, Table.repeated? table (entriesOf symbols) = some (name, symbol) →
          ∃ front, Table.Redeclares table (entriesOf symbols) front name symbol ∧
            (declareAll false own symbols ⟨g, none⟩).2.scopes.scopeAt own = some ⟨outer, table ++ front⟩
  | [], g, table, _ => ⟨rfl, fun _ _ h => nomatch h⟩
  | entry :: symbols, g, table, hown => by
    have hrun : ∀ after, (attempt (·.insert own entry.1.name entry.2) ⟨g, none⟩).2 = after →
        declareAll false own (entry :: symbols) ⟨g, none⟩ = declareAll false own symbols after := by
      rintro _ rfl
      rfl
    rw [entriesOf, List.map_cons, ← entriesOf, Table.repeated?]
    cases hfind : table.find? entry.1.name with
    | some earlier =>
      rw [hrun _ (attempt_of_error (insert_eq_error hown hfind entry.2)),
        idle_declareAll false own symbols _ (by simp)]
      refine ⟨rfl, fun name symbol hsome => ?_⟩
      simp only [Option.isSome_some, ↓reduceIte, Option.some.injEq] at hsome
      cases hsome
      exact ⟨[], ⟨⟨_, rfl⟩, .nil _, earlier, by simpa using hfind⟩, by simpa using hown⟩
    | none =>
      obtain ⟨g', hinsert, hrefilled⟩ := insert_eq_ok hown hfind entry.2
      rw [hrun _ (attempt_of_ok hinsert)]
      obtain ⟨hhalt, hfront⟩ := declareAll_redeclares symbols (hrefilled.scopeAt_own hown)
      refine ⟨hhalt, fun name symbol hsome => ?_⟩
      obtain ⟨front, hredeclares, hscope⟩ := hfront name symbol hsome
      exact ⟨(entry.1.name, entry.2) :: front, hredeclares.cons hfind, by simpa using hscope⟩

/-! ## Steps -/

/-- If the step ends the pass, then for a declaration and for no other reason. -/
def OnlyDeclares (m : ScopingM α) : Prop := ∀ g reason, (m ⟨g, none⟩).2.halt = some reason → reason.IsDeclaration

namespace OnlyDeclares

variable {m : ScopingM α} {next : α → ScopingM β}

theorem pure (a : α) : OnlyDeclares (pure a : ScopingM α) := fun _ _ h => nomatch h

theorem bind (h : OnlyDeclares m) (hidle : ∀ a, Idle (next a)) (hnext : ∀ a, OnlyDeclares (next a)) :
    OnlyDeclares (m >>= next) := by
  intro g reason hhalt
  replace hhalt : (next (m ⟨g, none⟩).1 (m ⟨g, none⟩).2).2.halt = some reason := hhalt
  have hfirst := h g
  generalize m ⟨g, none⟩ = first at hhalt hfirst
  obtain ⟨a, g', _ | earlier⟩ := first
  · exact hnext a g' reason hhalt
  · rw [hidle a _ (by simp)] at hhalt
    exact hfirst reason hhalt

theorem attempt {change : Scopes → Except (Halt Diagnostic) Scopes}
    (h : ∀ g reason, change g = .error reason → reason.IsDeclaration) : OnlyDeclares (attempt change) := by
  intro g reason hhalt
  cases hchange : change g with
  | ok g' =>
    rw [attempt_of_ok hchange] at hhalt
    cases hhalt
  | error earlier =>
    rw [attempt_of_error hchange] at hhalt
    cases hhalt
    exact h g _ hchange

theorem declareAll (strict : Bool) (own : ScopeId) : ∀ symbols : List (Ident × Symbol),
    OnlyDeclares (declareAll strict own symbols)
  | [] => .pure ()
  | _ :: symbols =>
    (OnlyDeclares.attempt fun _ _ h => isDeclaration_of_declare h).bind
      (fun _ => idle_declareAll strict own symbols) fun _ => declareAll strict own symbols

end OnlyDeclares

/-! ### Steps that refuse at a repeated name -/

/-- The step ends the pass for a declaration only, and without strict mode exactly when one of the frames, which it
    declares one after another, repeats a name. -/
structure Refuses (strict : Bool) (parent : ScopeId) (m : ScopingM α) (frames : List Table) : Prop where
  idle : Idle m
  cause : OnlyDeclares m
  lenient : strict = false → ∀ g : Scopes, g.Ordered → parent.index < g.size →
    g.size ≤ (m ⟨g, none⟩).2.scopes.size ∧ (m ⟨g, none⟩).2.scopes.Ordered ∧ (m ⟨g, none⟩).2.halt = haltAt frames

namespace Refuses

variable {m : ScopingM α} {next : α → ScopingM β} {frames more : List Table}

theorem pure (a : α) : Refuses strict parent (pure a : ScopingM α) [] where
  idle := fun _ _ => rfl
  cause := .pure a
  lenient := fun _ _ ho _ => ⟨Nat.le_refl _, ho, rfl⟩

theorem bind (h : Refuses strict parent m frames) (hnext : ∀ a, Refuses strict parent (next a) more) :
    Refuses strict parent (m >>= next) (frames ++ more) := by
  refine ⟨h.idle.bind fun a => (hnext a).idle, h.cause.bind (fun a => (hnext a).idle) fun a => (hnext a).cause,
    fun hstrict g ho hp => ?_⟩
  have hrun : (m >>= next) ⟨g, none⟩ = next (m ⟨g, none⟩).1 (m ⟨g, none⟩).2 := rfl
  rw [hrun, haltAt_append]
  obtain ⟨hsize, ho', hhalt⟩ := h.lenient hstrict g ho hp
  generalize m ⟨g, none⟩ = first at *
  obtain ⟨a, g', halt⟩ := first
  obtain rfl : halt = haltAt frames := hhalt
  cases hframes : haltAt frames with
  | none =>
    obtain ⟨hsize', ho'', hhalt'⟩ := (hnext a).lenient hstrict g' ho' (hp.trans_le hsize)
    exact ⟨hsize.trans hsize', ho'', by rw [Option.none_or]; exact hhalt'⟩
  | some reason =>
    rw [(hnext a).idle _ (by simp)]
    exact ⟨hsize, ho', rfl⟩

theorem map (h : Refuses strict parent m frames) (f : α → β) :
    Refuses strict parent (m >>= fun a => Pure.pure (f a)) frames := by
  rw [← List.append_nil frames]
  exact h.bind fun a => .pure (f a)

theorem node {node : α} (h : Refuses strict parent m frames) : Refuses strict parent (unlessHalted node m) frames :=
  ⟨idle_unlessHalted _ _, h.cause, h.lenient⟩

/-! ### Scopes that are opened -/

/-- **A scope is opened and filled**, and the pass goes on inside: the frame of the scope comes first. The scope is
    new and so holds no name before. -/
theorem opening {fill : ScopeId → ScopingM Unit} {inside : ScopeId → ScopingM α} {symbols : List (Ident × Symbol)}
    {node : α} (hcause : ∀ own, OnlyDeclares (fill own))
    (hfill : strict = false → ∀ own, fill own = declareAll false own symbols)
    (hinside : ∀ own, Refuses strict own (inside own) frames) :
    Refuses strict parent (unlessHalted node do let own ← openScope parent; fill own; inside own)
      (entriesOf symbols :: frames) := by
  have hrun : ∀ g : Scopes, unlessHalted node (do let own ← openScope parent; fill own; inside own) ⟨g, none⟩ =
      (fill ⟨g.size⟩ >>= fun _ => inside ⟨g.size⟩) ⟨(g.openChild parent).2, none⟩ := fun _ => rfl
  refine ⟨idle_unlessHalted _ _, fun g reason hhalt => ?_, fun hstrict g ho hp => ?_⟩
  · rw [hrun] at hhalt
    exact (hcause _).bind (fun _ => (hinside _).idle) (fun _ => (hinside _).cause) _ reason hhalt
  · rw [hrun, haltAt_cons, hfill hstrict]
    -- The new scope is empty, so its frame is all that decides.
    have hown : (g.openChild parent).2.scopeAt ⟨g.size⟩ = some ⟨some parent, []⟩ := by
      rw [openChild, scopeAt_allocate, if_pos rfl]
    have ho₁ := ordered_openChild ho hp
    obtain ⟨⟨added, hrefilled, -⟩, -⟩ := declareAll_run false symbols ho₁ hown
    obtain ⟨hhalt, -⟩ := declareAll_redeclares symbols hown
    have hbind : (declareAll false ⟨g.size⟩ symbols >>= fun _ => inside ⟨g.size⟩) ⟨(g.openChild parent).2, none⟩ =
        inside ⟨g.size⟩ (declareAll false ⟨g.size⟩ symbols ⟨(g.openChild parent).2, none⟩).2 := rfl
    rw [hbind]
    generalize (declareAll false ⟨g.size⟩ symbols ⟨(g.openChild parent).2, none⟩).2 = filled at *
    obtain ⟨g', halt⟩ := filled
    have hsize : g.size < g'.size := by
      rw [hrefilled.size_eq, openChild, size_allocate]
      exact Nat.lt_succ_self _
    obtain rfl : halt = _ := hhalt
    cases hrepeated : Table.repeated? [] (entriesOf symbols) with
    | none =>
      obtain ⟨hsize', ho', hhalt'⟩ := (hinside ⟨g.size⟩).lenient hstrict g' (hrefilled.ordered ho₁) hsize
      exact ⟨hsize.le.trans hsize', ho', hhalt'⟩
    | some entry =>
      rw [(hinside ⟨g.size⟩).idle _ (by simp)]
      exact ⟨hsize.le, hrefilled.ordered ho₁, rfl⟩

theorem declaring {inside : ScopeId → ScopingM α} {node : α} (symbols : List (Ident × Symbol))
    (hinside : ∀ own, Refuses strict own (inside own) frames) :
    Refuses strict parent (unlessHalted node do let own ← openScope parent; declareAll strict own symbols; inside own)
      (entriesOf symbols :: frames) :=
  .opening (fun own => .declareAll strict own symbols) (fun hstrict own => by rw [hstrict]) hinside

end Refuses

end ScopingM

/-! ## Trees -/

variable {strict : Bool}

mutual

/-- **The pass over an expression** is refused for a declaration only, and without strict mode at the first name
    that one of the frames inside repeats. By recursion on the expression, along its sites. -/
theorem Expr.annotate_refuses : ∀ (e : Expr) (parent : ScopeId) (frames : List Table),
    Refuses strict parent (e.annotate strict parent) (openedFrames (e.sites frames))
  | .number _, _, _ | .string _ _, _, _ | .bool _ _, _, _ | .name _ _, _, _ => by
    rw [Expr.annotate, Expr.sites]
    exact (Refuses.pure _).node
  | .list _ items, parent, frames | .tuple _ items, parent, frames => by
    rw [Expr.annotate, Expr.sites]
    exact ((annotateExprs_refuses items parent frames).map _).node
  | .map _ entries, parent, frames => by
    rw [Expr.annotate, Expr.sites]
    exact ((annotateEntries_refuses entries parent frames).map _).node
  | .unary _ _ e, parent, frames | .assign _ _ e, parent, frames => by
    rw [Expr.annotate, Expr.sites]
    exact ((e.annotate_refuses parent frames).map _).node
  | .access _ left right, parent, frames | .binary _ _ left right, parent, frames => by
    rw [Expr.annotate, Expr.sites, openedFrames_stand, openedFrames_append]
    exact ((left.annotate_refuses parent frames).bind fun _ => (right.annotate_refuses parent frames).map _).node
  | .call _ callee args, parent, frames => by
    rw [Expr.annotate, Expr.sites, openedFrames_stand, openedFrames_append]
    exact ((callee.annotate_refuses parent frames).bind fun _ =>
      (annotateExprs_refuses args parent frames).map _).node
  | .lambda _ _ params body, parent, frames => by
    rw [Expr.annotate, Expr.sites, openedFrames_stand, openedFrames_enter, ← entriesOf_params]
    exact .declaring _ fun own => (body.annotate_refuses own _).map _
  | .when _ cond yes no, parent, frames => by
    rw [Expr.annotate, Expr.sites, openedFrames_stand, openedFrames_append, openedFrames_append]
    exact ((cond.annotate_refuses parent frames).bind fun _ => (yes.annotate_refuses parent frames).bind fun _ =>
      (no.annotate_refuses parent frames).map _).node

theorem annotateExprs_refuses : ∀ (items : List Expr) (parent : ScopeId) (frames : List Table),
    Refuses strict parent (annotateExprs strict parent items) (openedFrames (exprsSites frames items))
  | [], _, _ => by
    rw [annotateExprs, exprsSites]
    exact .pure _
  | e :: rest, parent, frames => by
    rw [annotateExprs, exprsSites, openedFrames_append]
    exact (e.annotate_refuses parent frames).bind fun _ => (annotateExprs_refuses rest parent frames).map _

theorem annotateEntries_refuses : ∀ (entries : List (Expr × Expr)) (parent : ScopeId) (frames : List Table),
    Refuses strict parent (annotateEntries strict parent entries) (openedFrames (entriesSites frames entries))
  | [], _, _ => by
    rw [annotateEntries, entriesSites]
    exact .pure _
  | (key, value) :: rest, parent, frames => by
    rw [annotateEntries, entriesSites, openedFrames_append, openedFrames_append]
    exact (key.annotate_refuses parent frames).bind fun _ => (value.annotate_refuses parent frames).bind fun _ =>
      (annotateEntries_refuses rest parent frames).map _

end

theorem annotateOption_refuses (value : Option Expr) (parent : ScopeId) (frames : List Table) :
    Refuses strict parent (annotateOption strict parent value) (openedFrames (optionSites frames value)) := by
  cases value with
  | none => exact .pure none
  | some e => exact (e.annotate_refuses parent frames).map some

theorem annotateDefs_refuses (parent : ScopeId) (frames : List Table) : ∀ defs : List VarDef,
    Refuses strict parent (defs.mapM (VarDef.annotate strict parent)) (openedFrames (defsSites frames defs))
  | [] => .pure []
  | d :: rest => by
    rw [List.mapM_cons, defsSites, openedFrames_append]
    exact ((annotateOption_refuses d.value parent frames).map fun value => { d with value }).bind fun _ =>
      (annotateDefs_refuses parent frames rest).map _

mutual

/-- **The pass over a statement** is refused likewise, by recursion on the statement. -/
theorem Stmt.annotate_refuses : ∀ (stmt : Stmt) (parent : ScopeId) (frames : List Table),
    Refuses strict parent (stmt.annotate strict parent) (openedFrames (stmt.sites frames))
  | .vars _ _ defs, parent, frames => by
    rw [Stmt.annotate, Stmt.sites]
    exact ((annotateDefs_refuses parent frames defs).map _).node
  | .function _ _ params _ body, parent, frames => by
    rw [Stmt.annotate, Stmt.sites, openedFrames_enter, ← entriesOf_params]
    exact .declaring _ fun own => (body.annotate_refuses own _).map _
  | .blueprint _ _ body, parent, frames | .trait _ _ body, parent, frames | .block body, parent, frames => by
    rw [Stmt.annotate, Stmt.sites]
    exact ((body.annotate_refuses parent frames).map _).node
  | .struct _ _ _, _, _ | .enum _ _ _, _, _ | .jump _ _ _, _, _ => by
    rw [Stmt.annotate, Stmt.sites]
    exact (Refuses.pure _).node
  | .label mark name stmt, parent, frames => by
    rw [Stmt.annotate, Stmt.sites, openedFrames_enter]
    -- Without strict mode the label is declared like the names of its statement.
    have hopening : Refuses strict parent (unlessHalted (Stmt.label mark name stmt) _)
        (entriesOf ((name, .declared .label name.span) :: stmt.symbols) ::
          openedFrames (stmt.sites (labelFrame name stmt :: frames))) :=
      .opening (fun own => (OnlyDeclares.attempt fun _ _ h => isDeclaration_of_insert h).bind
          (fun _ => idle_declareAll strict own stmt.symbols) fun _ => .declareAll strict own stmt.symbols)
        (fun hstrict own => by rw [hstrict]; rfl)
        fun own => (stmt.annotate_refuses own _).map (Stmt.label (mark.record own) name)
    simpa only [bind_assoc, entriesOf_label] using hopening
  | .branch _ cond body elifs none, parent, frames => by
    rw [Stmt.annotate, Stmt.sites, openedFrames_append, openedFrames_append]
    exact ((cond.annotate_refuses parent frames).bind fun _ => (body.annotate_refuses parent frames).bind fun _ =>
      (annotateElifs_refuses elifs parent frames).map _).node
  | .branch _ cond body elifs (some last), parent, frames => by
    rw [Stmt.annotate, Stmt.sites, openedFrames_append, openedFrames_append, openedFrames_append]
    exact ((cond.annotate_refuses parent frames).bind fun _ => (body.annotate_refuses parent frames).bind fun _ =>
      (annotateElifs_refuses elifs parent frames).bind fun _ => (last.annotate_refuses parent frames).map _).node
  | .loop _ cond body, parent, frames => by
    rw [Stmt.annotate, Stmt.sites, openedFrames_append]
    exact ((cond.annotate_refuses parent frames).bind fun _ => (body.annotate_refuses parent frames).map _).node
  | .ret _ value, parent, frames => by
    rw [Stmt.annotate, Stmt.sites]
    exact ((annotateOption_refuses value parent frames).map _).node
  | .expr e, parent, frames => by
    rw [Stmt.annotate, Stmt.sites]
    exact ((e.annotate_refuses parent frames).map _).node

theorem Block.annotate_refuses : ∀ (block : Block) (parent : ScopeId) (frames : List Table),
    Refuses strict parent (block.annotate strict parent) (openedFrames (block.sites frames))
  | .mk _ stmts, parent, frames => by
    rw [Block.annotate, Block.sites, openedFrames_enter, ← entriesOf_stmts]
    exact .declaring _ fun own => (annotateStmts_refuses stmts own _).map _

theorem annotateStmts_refuses : ∀ (stmts : List Stmt) (parent : ScopeId) (frames : List Table),
    Refuses strict parent (annotateStmts strict parent stmts) (openedFrames (stmtsSites frames stmts))
  | [], _, _ => by
    rw [annotateStmts, stmtsSites]
    exact .pure _
  | stmt :: rest, parent, frames => by
    rw [annotateStmts, stmtsSites, openedFrames_append]
    exact (stmt.annotate_refuses parent frames).bind fun _ => (annotateStmts_refuses rest parent frames).map _

theorem annotateElifs_refuses : ∀ (elifs : List Elif) (parent : ScopeId) (frames : List Table),
    Refuses strict parent (annotateElifs strict parent elifs) (openedFrames (elifsSites frames elifs))
  | [], _, _ => by
    rw [annotateElifs, elifsSites]
    exact .pure _
  | .mk _ cond body :: rest, parent, frames => by
    rw [annotateElifs, elifsSites, openedFrames_append, openedFrames_append]
    exact (cond.annotate_refuses parent frames).bind fun _ => (body.annotate_refuses parent frames).bind fun _ =>
      (annotateElifs_refuses rest parent frames).map _

end

/-! ## Programs -/

/-- The pass over a program is refused for a declaration only. -/
theorem Program.annotate_onlyDeclares (strict : Bool) (global : ScopeId) (program : Program) :
    OnlyDeclares (program.annotate strict global) := by
  have hstmts := @annotateStmts_refuses strict program.stmts global []
  exact (OnlyDeclares.declareAll strict global _).bind (fun _ => (hstmts.map _).idle) fun _ => (hstmts.map _).cause

/-- **The lenient pass over a program** declares the names at the top level first, on top of those that are `held`,
    and then the frames inside. -/
theorem Program.annotate_redeclares {g : Scopes} {global : ScopeId} {outer : Option ScopeId} {held : Table}
    (ho : g.Ordered) (hglobal : g.scopeAt global = some ⟨outer, held⟩) (program : Program) :
    (program.annotate false global ⟨g, none⟩).2.halt =
        ((Table.repeated? held (stmtsFrame program.stmts)).map (Halt.failure ∘ redeclaration)).or
          (haltAt (openedFrames (program.sites held))) ∧
      (∀ name symbol, Table.repeated? held (stmtsFrame program.stmts) = some (name, symbol) →
        ∃ front, Table.Redeclares held (stmtsFrame program.stmts) front name symbol ∧
          (program.annotate false global ⟨g, none⟩).2.scopes.scopeAt global = some ⟨outer, held ++ front⟩) ∧
      (Table.repeated? held (stmtsFrame program.stmts) = none →
        (program.annotate false global ⟨g, none⟩).2.scopes.scopeAt global =
          some ⟨outer, held ++ stmtsFrame program.stmts⟩) := by
  have hrun : ∀ declared, (declareAll false global (program.stmts.flatMap Stmt.symbols) ⟨g, none⟩).2 = declared →
      (program.annotate false global ⟨g, none⟩).2 = (annotateStmts false global program.stmts declared).2 := by
    rintro _ rfl
    rfl
  have hpass := annotateStmts_pass false program.stmts global
  have hstmts := @annotateStmts_refuses false program.stmts global [held ++ stmtsFrame program.stmts]
  obtain ⟨⟨added, hrefilled, -, hadded⟩, -⟩ := declareAll_run false (program.stmts.flatMap Stmt.symbols) ho hglobal
  obtain ⟨hhalt, hfront⟩ := declareAll_redeclares (program.stmts.flatMap Stmt.symbols) hglobal
  rw [entriesOf_stmts] at hhalt hfront hadded
  generalize hdeclared : (declareAll false global (program.stmts.flatMap Stmt.symbols) ⟨g, none⟩).2 = declared at *
  obtain ⟨g', halt⟩ := declared
  obtain rfl : halt = _ := hhalt
  rw [hrun _ rfl, Program.sites, openedFrames_stand]
  cases hrepeated : Table.repeated? held (stmtsFrame program.stmts) with
  -- The top level has a repetition: the pass is halted before anything inside.
  | some entry =>
    rw [hstmts.idle _ (by simp)]
    exact ⟨rfl, fun name symbol hsome => hfront name symbol (hrepeated.trans hsome), fun hnone => nomatch hnone⟩
  -- Otherwise all names of the top level are there, and the insides decide.
  | none =>
    rw [hrepeated] at hadded
    obtain ⟨rfl, -⟩ := hadded rfl
    have hown : g'.scopeAt global = some ⟨outer, held ++ stmtsFrame program.stmts⟩ := hrefilled.scopeAt_own hglobal
    obtain ⟨-, -, hhalt'⟩ := hstmts.lenient rfl g' (hrefilled.ordered ho) (lt_of_scopeAt hown)
    have hgrown := (hpass.runs g' (hrefilled.ordered ho) (lt_of_scopeAt hown)).grown
    exact ⟨hhalt', (fun _ _ hsome => nomatch hsome),
      fun _ => (hgrown.scope global (lt_of_scopeAt hown) (by simp)).trans hown⟩

end TypeInference
