import TypeInference.Proofs.Scoping.Lexical
import TypeInference.Proofs.Scoping.Pass

/-!
# `Proofs.Scoping.Strict` — strict mode only refuses

Strict mode adds one question to the declaration of a value: whether the nearest declaration of its name further
out is a type. Which values a tree declares, in the order in which the pass comes to them, and which frames
surround the scope that each is declared in, is written in the tree (`values`). The strict pass ends at the first
value of this list that hides a type, and if there is none it does what the lenient pass does.

Every frame is complete before anything inside it is declared, which is why the answer can be read off the text:
a name that is declared further down in a block around counts as well.

## Contents
* `Declared`, `Expr.values`, `Stmt.values`, `Program.values` — the values that a tree declares;
* `Chain.hidesType_eq_ok` — the question of strict mode, answered by the frames;
* `Judged`, `Fills`, `Filters` — a lenient and a strict step, and what tells them apart;
* `Expr.annotate_filters`, `Stmt.annotate_filters`, `Program.annotate_filters` — the pass over each kind of node;
* `SameKinds`, `Program.annotate_strict_same` — the verdict is a matter of the kinds of names.
-/

namespace TypeInference

open Scopes

/-! ## Declared values -/

/-- A value that is declared: its name, and the frames around the scope that declares it, innermost first. The frame
    of that scope itself is not among them, since a name of its own is a duplicate and not hidden. -/
structure Declared where
  name : Ident
  outer : List Table

/-- Whether the nearest declaration of the name further out is a type. -/
def Declared.hidesType (d : Declared) : Bool :=
  (d.outer.findSome? (·.find? d.name.name)).any (·.kind.isType)

/-- The diagnostic for a value that hides a type, placed where the value is declared. -/
def Declared.diagnostic (d : Declared) : Diagnostic := ⟨.shadowsType d.name.name, d.name.span⟩

/-! ### The values of a tree -/

/-- Parameters are values, all of them with the frames further out than that of the parameters. -/
def Param.values (outer : List Table) (params : List Param) : List Declared :=
  params.map fun p => ⟨p.name, outer⟩

/-- The values that a statement declares in the scope it stands in: variables and functions, but neither types
    nor labels. -/
def Stmt.declares (outer : List Table) : Stmt → List Declared
  | .vars _ _ defs => defs.map fun d => ⟨d.name, outer⟩
  | .function _ name _ _ _ => [⟨name, outer⟩]
  | .blueprint _ _ _ | .trait _ _ _ | .struct _ _ _ | .enum _ _ _ => []
  | .label _ _ _ | .block _ | .branch _ _ _ _ _ | .loop _ _ _ | .ret _ _ | .jump _ _ _ | .expr _ => []

/-- The values that a list of statements declares in the scope it stands in. -/
def stmtsDeclare (outer : List Table) (stmts : List Stmt) : List Declared := stmts.flatMap (Stmt.declares outer)

mutual

/-- The values that are declared inside an expression: the parameters of its lambdas, outer ones first. -/
def Expr.values (frames : List Table) : Expr → List Declared
  | .number _ => []
  | .string _ _ => []
  | .bool _ _ => []
  | .name _ _ => []
  | .list _ items => exprsValues frames items
  | .map _ entries => entriesValues frames entries
  | .tuple _ items => exprsValues frames items
  | .access _ left index => left.values frames ++ index.values frames
  | .unary _ _ operand => operand.values frames
  | .binary _ _ left right => left.values frames ++ right.values frames
  | .call _ callee args => callee.values frames ++ exprsValues frames args
  | .lambda _ _ params body => Param.values frames params ++ body.values (Param.frame params :: frames)
  | .when _ cond yes no => cond.values frames ++ (yes.values frames ++ no.values frames)
  | .assign _ _ value => value.values frames

def exprsValues (frames : List Table) : List Expr → List Declared
  | [] => []
  | e :: rest => e.values frames ++ exprsValues frames rest

def entriesValues (frames : List Table) : List (Expr × Expr) → List Declared
  | [] => []
  | (key, value) :: rest => key.values frames ++ (value.values frames ++ entriesValues frames rest)

end

/-- The values that are declared inside an expression that may be absent. -/
def optionValues (frames : List Table) : Option Expr → List Declared
  | none => []
  | some e => e.values frames

/-- The values that are declared inside the first values of variables. -/
def defsValues (frames : List Table) : List VarDef → List Declared
  | [] => []
  | d :: rest => optionValues frames d.value ++ defsValues frames rest

mutual

/-- The values that are declared inside a statement; what it declares in the scope it stands in is declared before. -/
def Stmt.values (frames : List Table) : Stmt → List Declared
  | .vars _ _ defs => defsValues frames defs
  | .function _ _ params _ body => Param.values frames params ++ body.values (Param.frame params :: frames)
  | .blueprint _ _ body => body.values frames
  | .trait _ _ body => body.values frames
  | .struct _ _ _ => []
  | .enum _ _ _ => []
  | .label _ name stmt => stmt.declares frames ++ stmt.values (labelFrame name stmt :: frames)
  | .block body => body.values frames
  | .branch _ cond body elifs none => cond.values frames ++ (body.values frames ++ elifsValues frames elifs)
  | .branch _ cond body elifs (some last) =>
    cond.values frames ++ (body.values frames ++ (elifsValues frames elifs ++ last.values frames))
  | .loop _ cond body => cond.values frames ++ body.values frames
  | .ret _ value => optionValues frames value
  | .jump _ _ _ => []
  | .expr e => e.values frames

def Block.values (frames : List Table) : Block → List Declared
  | .mk _ stmts => stmtsDeclare frames stmts ++ stmtsValues (stmtsFrame stmts :: frames) stmts

def stmtsValues (frames : List Table) : List Stmt → List Declared
  | [] => []
  | stmt :: rest => stmt.values frames ++ stmtsValues frames rest

def elifsValues (frames : List Table) : List Elif → List Declared
  | [] => []
  | .mk _ cond body :: rest => cond.values frames ++ (body.values frames ++ elifsValues frames rest)

end

/-- The values that a program declares, on top of the names that the global scope `held`. Nothing is further out
    than the global scope. -/
def Program.values (held : Table) (program : Program) : List Declared :=
  stmtsDeclare [] program.stmts ++ stmtsValues [held ++ stmtsFrame program.stmts] program.stmts

/-- The values among declared names, each with the frames further out than its own. -/
def valuesOf (outer : List Table) (symbols : List (Ident × Symbol)) : List Declared :=
  (symbols.filter fun entry => !entry.2.kind.isType).map fun entry => ⟨entry.1, outer⟩

theorem valuesOf_params (outer : List Table) (params : List Param) :
    valuesOf outer (Param.symbols params) = Param.values outer params := by
  induction params with
  | nil => rfl
  | cons p params ih => exact congrArg (_ :: ·) ih

theorem valuesOf_stmt (outer : List Table) (stmt : Stmt) : valuesOf outer stmt.symbols = stmt.declares outer := by
  cases stmt with
  | vars span kind defs =>
    induction defs with
    | nil => rfl
    | cons d defs ih => exact congrArg (_ :: ·) ih
  | _ => rfl

theorem valuesOf_stmts (outer : List Table) (stmts : List Stmt) :
    valuesOf outer (stmts.flatMap Stmt.symbols) = stmtsDeclare outer stmts := by
  induction stmts with
  | nil => rfl
  | cons stmt rest ih =>
    rw [List.flatMap_cons, valuesOf, List.filter_append, List.map_append, ← valuesOf, ← valuesOf, ih,
      valuesOf_stmt]
    rfl

/-! ## What a name hides -/

namespace Scopes

variable {g g' : Scopes} {id : ScopeId} {table table' : Table} {frames : List Table} {name : String}

/-- A scope that is seen has no larger number. -/
theorem Sees.le (ho : g.Ordered) {owner : ScopeId} (h : g.Sees id owner) : owner.index ≤ id.index := by
  induction h with
  | refl => exact Nat.le_refl _
  | tail _ hparent ih => exact (ho _ _ hparent).le.trans ih

/-- The way out of a scope leads through scopes with smaller numbers only. -/
theorem Chain.of_agree (ho : g.Ordered) (h : g.Chain id frames) :
    (∀ other : ScopeId, other.index ≤ id.index → g'.scopeAt other = g.scopeAt other) → g'.Chain id frames := by
  induction h with
  | outermost hscope => exact fun hsame => .outermost ((hsame _ (Nat.le_refl _)).trans hscope)
  | @inside id parent table frames hscope _ ih =>
    intro hsame
    have hlt : parent.index < id.index := ho id parent (by simp [parentOf, hscope])
    exact .inside ((hsame _ (Nat.le_refl _)).trans hscope) (ih fun other hle => hsame other (hle.trans hlt.le))

/-- New scopes are not on the way out of old ones. -/
theorem Chain.mono (ho : g.Ordered) (h : g.Chain id frames) (hext : Extends ∅ g g') : g'.Chain id frames :=
  h.of_agree ho fun other hle => hext.scope other (hle.trans_lt h.lt) (by simp)

/-- Further names of a scope stand in its own frame. -/
theorem Chain.refilled (ho : g.Ordered) (h : g.Chain id (table :: frames)) (hrefilled : Refilled g id table' g') :
    g'.Chain id (table' :: frames) := by
  cases h with
  | outermost hscope => exact .outermost (hrefilled.scopeAt_own hscope)
  | @inside _ parent _ _ hscope hchain =>
    have hlt : parent.index < id.index := ho id parent (by simp [parentOf, hscope])
    refine .inside (hrefilled.scopeAt_own hscope) (hchain.of_agree ho fun other hle => ?_)
    rw [hrefilled.scope, if_neg]
    rintro rfl
    exact absurd hlt (Nat.not_lt.mpr hle)

/-- A scope on whose way out a table comes first has this table. -/
theorem Chain.exists_scopeAt (h : g.Chain id (table :: frames)) : ∃ outer, g.scopeAt id = some ⟨outer, table⟩ := by
  cases h with
  | outermost hscope | inside hscope _ => exact ⟨_, hscope⟩

/-- **Whether a new name hides a type** is decided by the frames around. The question starts at the scope itself,
    which does not have the name yet. -/
theorem Chain.hidesType_eq_ok (ho : g.Ordered) (h : g.Chain id (table :: frames)) (hnew : table.find? name = none) :
    g.hidesType id name = .ok ((frames.findSome? (·.find? name)).any (·.kind.isType)) := by
  cases h with
  | outermost hscope =>
    obtain ⟨found, hlookup, hinner⟩ := (Chain.outermost hscope).lookup_eq_ok ho name
    have hfound := hinner.findSome?_eq
    rw [List.findSome?_cons, hnew] at hfound
    obtain rfl : found = none := Option.map_eq_none_iff.mp hfound.symm
    simp [hidesType, hlookup]
  | @inside _ parent _ _ hscope hchain =>
    have hparent : g.parentOf id = some parent := by simp [parentOf, hscope]
    have hnone : g.symbolAt id name = none := by rw [symbolAt, hscope, Option.bind_some, hnew]
    obtain ⟨found, hlookup, hinner⟩ := hchain.lookup_eq_ok ho name
    rw [hinner.findSome?_eq, hidesType, lookup_of_parentOf ho hparent hnone, hlookup]
    cases found with
    | none => rfl
    | some found =>
      obtain ⟨owner, symbol⟩ := found
      -- What the scope around finds stands further out than the scope itself.
      obtain ⟨found', hlookup', hsees⟩ := @Scopes.lookup_eq_ok g parent name ho hchain.lt
      cases hlookup.symm.trans hlookup'
      have hle := (hsees owner symbol rfl).1.le ho
      have hne : owner ≠ id := by
        rintro rfl
        exact absurd (ho owner parent hparent) (Nat.not_lt.mpr hle)
      simp [hne]

end Scopes

/-! ## Steps -/

namespace ScopingM

variable {α β : Type} {parent own : ScopeId} {frames : List Table} {ds ds' : List Declared}

/-- From the arena `g`, the strict step does what the lenient one does if no declared value hides a type; otherwise
    it ends at the first that does. -/
structure Judged (g : Scopes) (lenient strict : ScopingM α) (ds : List Declared) : Prop where
  same : ds.find? Declared.hidesType = none → strict ⟨g, none⟩ = lenient ⟨g, none⟩
  ends : ∀ d, ds.find? Declared.hidesType = some d →
    (strict ⟨g, none⟩).2.halt = some (.failure d.diagnostic)

/-- What the strict step reaches the lenient one reaches too. This holds from any arena, and without anything being
    known of the frames. -/
def Stricter (lenient strict : ScopingM α) : Prop :=
  ∀ g a g', strict ⟨g, none⟩ = (a, ⟨g', none⟩) → lenient ⟨g, none⟩ = (a, ⟨g', none⟩)

/-- A lenient and a strict step in a scope with these frames: the strict one only refuses, and where the lenient one
    is not refused, the values `ds` decide. -/
structure Filters (parent : ScopeId) (frames : List Table) (lenient strict : ScopingM α) (ds : List Declared) :
    Prop where
  idle : Idle lenient
  idle' : Idle strict
  stricter : Stricter lenient strict
  judged : ∀ g a g', g.Ordered → g.Chain parent frames → lenient ⟨g, none⟩ = (a, ⟨g', none⟩) →
    Judged g lenient strict ds ∧ Extends ∅ g g' ∧ g'.Ordered

/-- A lenient and a strict step that declare these names in the scope `own`, around which are these frames. -/
structure Fills (own : ScopeId) (frames : List Table) (symbols : List (Ident × Symbol))
    (lenient strict : ScopingM Unit) (ds : List Declared) : Prop where
  idle : Idle lenient
  idle' : Idle strict
  stricter : Stricter lenient strict
  judged : ∀ g table g', g.Ordered → g.Chain own (table :: frames) → lenient ⟨g, none⟩ = ((), ⟨g', none⟩) →
    Judged g lenient strict ds ∧ Refilled g own (table ++ entriesOf symbols) g'

section Bind

variable {m m' : ScopingM α} {next next' : α → ScopingM β} {g g' : Scopes} {a : α} {b : β}

/-! ### Steps in sequence -/

/-- A step that goes on was reached by a step that goes on. -/
theorem exists_of_bind_run (hidle : ∀ a, Idle (next a)) (h : (m >>= next) ⟨g, none⟩ = (b, ⟨g', none⟩)) :
    ∃ a g₁, m ⟨g, none⟩ = (a, ⟨g₁, none⟩) ∧ next a ⟨g₁, none⟩ = (b, ⟨g', none⟩) := by
  replace h : next (m ⟨g, none⟩).1 (m ⟨g, none⟩).2 = (b, ⟨g', none⟩) := h
  rcases hm : m ⟨g, none⟩ with ⟨a, g₁, _ | reason⟩
  · rw [hm] at h
    exact ⟨a, g₁, rfl, h⟩
  · rw [hm] at h
    have hended := hidle a ⟨g₁, some reason⟩ (by simp)
    rw [h] at hended
    cases hended

theorem Stricter.bind (h : Stricter m m') (hidle : ∀ a, Idle (next' a)) (hnext : ∀ a, Stricter (next a) (next' a)) :
    Stricter (m >>= next) (m' >>= next') := by
  intro g b g' hrun
  obtain ⟨a, g₁, hm, hrest⟩ := exists_of_bind_run hidle hrun
  show next (m ⟨g, none⟩).1 (m ⟨g, none⟩).2 = _
  rw [h g a g₁ hm]
  exact hnext a g₁ b g' hrest

/-- The values of the first step come before those of the second, and if the first ends at one of them the second
    does not change it. -/
theorem Judged.bind (h : Judged g m m' ds) (hm : m ⟨g, none⟩ = (a, ⟨g', none⟩)) (hidle : ∀ a, Idle (next' a))
    (hnext : Judged g' (next a) (next' a) ds') : Judged g (m >>= next) (m' >>= next') (ds ++ ds') := by
  have hlenient : (m >>= next) ⟨g, none⟩ = next a ⟨g', none⟩ := by
    show next (m ⟨g, none⟩).1 (m ⟨g, none⟩).2 = _
    rw [hm]
  have hstrict : (m' >>= next') ⟨g, none⟩ = next' (m' ⟨g, none⟩).1 (m' ⟨g, none⟩).2 := rfl
  refine ⟨fun hnone => ?_, fun d hd => ?_⟩
  · rw [List.find?_append, Option.or_eq_none_iff] at hnone
    rw [hlenient, hstrict, h.same hnone.1, hm]
    exact hnext.same hnone.2
  · rw [List.find?_append] at hd
    cases hfirst : ds.find? Declared.hidesType with
    | none =>
      rw [hfirst, Option.none_or] at hd
      rw [hstrict, h.same hfirst, hm]
      exact hnext.ends d hd
    | some earlier =>
      -- The strict pass has ended with the first step.
      rw [hfirst, Option.some_or] at hd
      have hended := h.ends d (hfirst.trans hd)
      rw [hstrict, hidle _ _ (by simp [hended])]
      exact hended

end Bind

theorem Stricter.refl (m : ScopingM α) : Stricter m m := fun _ _ _ hrun => hrun

theorem Judged.refl (g : Scopes) (m : ScopingM α) : Judged g m m [] := ⟨fun _ => rfl, fun _ hd => nomatch hd⟩

/-! ## Declarations -/

/-- A change after which the pass goes on was accepted. -/
theorem change_of_attempt {change : Scopes → Except (Halt Diagnostic) Scopes} {g g' : Scopes}
    (h : attempt change ⟨g, none⟩ = ((), ⟨g', none⟩)) : change g = .ok g' := by
  cases hchange : change g with
  | ok g₁ =>
    have hrun := attempt_of_ok hchange
    rw [h] at hrun
    cases hrun
    rfl
  | error reason =>
    have hrun := attempt_of_error hchange
    rw [h] at hrun
    cases hrun

theorem insert_of_declare {g g' : Scopes} {name : Ident} {symbol : Symbol}
    (h : g.declare true own name symbol = .ok g') : g.insert own name.name symbol = .ok g' := by
  cases htype : symbol.kind.isType with
  | true => rwa [declare_of_isType htype] at h
  | false =>
    simp only [declare, htype, Bool.not_false, Bool.and_self, ↓reduceIte] at h
    cases hhides : g.hidesType own name.name with
    | error fault => simp [hhides, Halt.ofQuery] at h
    | ok hides =>
      cases hides with
      | true =>
        simp only [hhides, Halt.ofQuery, ok_bind, ↓reduceIte] at h
        cases h
      | false => simpa [hhides, Halt.ofQuery] using h

namespace Fills

variable {symbols more : List (Ident × Symbol)} {m m' next next' : ScopingM Unit}

theorem nil : Fills own frames [] (pure ()) (pure ()) [] := by
  refine ⟨fun _ _ => rfl, fun _ _ => rfl, .refl _, fun g table g' _ hchain hrun => ⟨.refl g _, ?_⟩⟩
  cases hrun
  obtain ⟨outer, hscope⟩ := hchain.exists_scopeAt
  rw [entriesOf, List.map_nil, List.append_nil]
  exact .refl hscope

theorem bind (h : Fills own frames symbols m m' ds) (hnext : Fills own frames more next next' ds') :
    Fills own frames (symbols ++ more) (m >>= fun _ => next) (m' >>= fun _ => next') (ds ++ ds') := by
  refine ⟨h.idle.bind fun _ => hnext.idle, h.idle'.bind fun _ => hnext.idle',
    h.stricter.bind (fun _ => hnext.idle') fun _ => hnext.stricter, fun g table g' ho hchain hrun => ?_⟩
  obtain ⟨⟨⟩, g₁, hm, hrest⟩ := exists_of_bind_run (fun _ => hnext.idle) hrun
  obtain ⟨hjudged, hrefilled⟩ := h.judged g table g₁ ho hchain hm
  obtain ⟨hjudged', hrefilled'⟩ :=
    hnext.judged g₁ _ g' (hrefilled.ordered ho) (hchain.refilled ho hrefilled) hrest
  refine ⟨hjudged.bind hm (fun _ => hnext.idle') hjudged', ?_⟩
  rw [entriesOf_append, ← List.append_assoc]
  exact hrefilled.trans hrefilled'

theorem insert (own : ScopeId) (frames : List Table) (entry : Ident × Symbol) :
    Fills own frames [entry] (attempt (·.insert own entry.1.name entry.2))
      (attempt (·.insert own entry.1.name entry.2)) [] := by
  refine ⟨idle_attempt _, idle_attempt _, .refl _, fun g table g' ho hchain hrun => ⟨.refl g _, ?_⟩⟩
  obtain ⟨outer, hscope⟩ := hchain.exists_scopeAt
  have hinsert := change_of_attempt hrun
  rcases insert_cases hscope entry.1.name entry.2 with ⟨g₁, hok, -, hrefilled⟩ | ⟨reason, herror, -⟩
  · cases hok.symm.trans hinsert
    exact hrefilled
  · cases herror.symm.trans hinsert

/-- **One name is declared**, and a value is asked what it hides. -/
theorem declare (own : ScopeId) (frames : List Table) (entry : Ident × Symbol) :
    Fills own frames [entry] (attempt (·.declare false own entry.1 entry.2))
      (attempt (·.declare true own entry.1 entry.2)) (valuesOf frames [entry]) := by
  have hstricter : Stricter (attempt (·.declare false own entry.1 entry.2))
      (attempt (·.declare true own entry.1 entry.2)) := by
    intro g _ g' hrun
    have hinsert := insert_of_declare (change_of_attempt hrun)
    exact Prod.ext rfl (attempt_of_ok hinsert)
  refine ⟨idle_attempt _, idle_attempt _, hstricter, fun g table g' ho hchain hrun => ⟨?_, ?_⟩⟩
  · obtain ⟨outer, hscope⟩ := hchain.exists_scopeAt
    have hinsert : g.insert own entry.1.name entry.2 = .ok g' := change_of_attempt hrun
    have hnew : table.find? entry.1.name = none := by
      rcases insert_cases hscope entry.1.name entry.2 with ⟨_, -, hnew, -⟩ | ⟨_, herror, -⟩
      · exact hnew
      · cases herror.symm.trans hinsert
    cases htype : entry.2.kind.isType with
    | true =>
      -- Types may hide types, so strict mode does not look.
      have hdeclare : g.declare true own entry.1 entry.2 = .ok g' := by rw [declare_of_isType htype, hinsert]
      have hvalues : valuesOf frames [entry] = [] := by simp [valuesOf, htype]
      rw [hvalues]
      exact ⟨fun _ => Prod.ext rfl ((attempt_of_ok hdeclare).trans (attempt_of_ok hinsert).symm),
        fun _ hd => nomatch hd⟩
    | false =>
      have hvalues : valuesOf frames [entry] = [⟨entry.1, frames⟩] := by simp [valuesOf, htype]
      -- Strict mode asks the arena what the frames tell.
      have hhides : g.hidesType own entry.1.name = .ok (Declared.hidesType ⟨entry.1, frames⟩) :=
        hchain.hidesType_eq_ok ho hnew
      rw [hvalues]
      refine ⟨fun hnone => ?_, fun d hd => ?_⟩
      · have hfalse : Declared.hidesType ⟨entry.1, frames⟩ = false := by simpa using hnone
        have hdeclare : g.declare true own entry.1 entry.2 = .ok g' := by
          simp [Scopes.declare, htype, hhides, hfalse, Halt.ofQuery, hinsert]
        exact Prod.ext rfl ((attempt_of_ok hdeclare).trans (attempt_of_ok hinsert).symm)
      · have htrue := List.find?_some hd
        obtain rfl := List.mem_singleton.mp (List.mem_of_find?_eq_some hd)
        have hdeclare : g.declare true own entry.1 entry.2 =
            .error (.failure (Declared.diagnostic ⟨entry.1, frames⟩)) := by
          simp only [Scopes.declare, htype, hhides, htrue, Halt.ofQuery, ok_bind]
          rfl
        exact congrArg Scoping.halt (attempt_of_error hdeclare)
  · exact ((insert own frames entry).judged g table g' ho hchain hrun).2

/-- **Names are declared one after another**, up to the first value that hides a type. -/
theorem declareAll (own : ScopeId) (frames : List Table) : ∀ symbols : List (Ident × Symbol),
    Fills own frames symbols (ScopingM.declareAll false own symbols) (ScopingM.declareAll true own symbols)
      (valuesOf frames symbols)
  | [] => nil
  | entry :: symbols => by
    have hvalues : valuesOf frames (entry :: symbols) = valuesOf frames [entry] ++ valuesOf frames symbols := by
      rw [valuesOf, ← List.singleton_append, List.filter_append, List.map_append, ← valuesOf, ← valuesOf]
    rw [hvalues]
    exact (declare own frames entry).bind (declareAll own frames symbols)

end Fills

/-! ## Nodes -/

namespace Filters

variable {m m' : ScopingM α} {next next' : α → ScopingM β}

theorem pure (a : α) : Filters parent frames (pure a : ScopingM α) (pure a) [] := by
  refine ⟨fun _ _ => rfl, fun _ _ => rfl, .refl _, fun g _ g' ho _ hrun => ⟨.refl g _, ?_⟩⟩
  cases hrun
  exact ⟨.refl g, ho⟩

theorem bind (h : Filters parent frames m m' ds) (hnext : ∀ a, Filters parent frames (next a) (next' a) ds') :
    Filters parent frames (m >>= next) (m' >>= next') (ds ++ ds') := by
  refine ⟨h.idle.bind fun a => (hnext a).idle, h.idle'.bind fun a => (hnext a).idle',
    h.stricter.bind (fun a => (hnext a).idle') fun a => (hnext a).stricter, fun g b g' ho hchain hrun => ?_⟩
  obtain ⟨a, g₁, hm, hrest⟩ := exists_of_bind_run (fun a => (hnext a).idle) hrun
  obtain ⟨hjudged, hext, ho₁⟩ := h.judged g a g₁ ho hchain hm
  obtain ⟨hjudged', hext', ho'⟩ := (hnext a).judged g₁ b g' ho₁ (hchain.mono ho hext) hrest
  exact ⟨hjudged.bind hm (fun a => (hnext a).idle') hjudged', hext.trans hext', ho'⟩

theorem map (h : Filters parent frames m m' ds) (f : α → β) :
    Filters parent frames (m >>= fun a => Pure.pure (f a)) (m' >>= fun a => Pure.pure (f a)) ds := by
  rw [← List.append_nil ds]
  exact h.bind fun a => .pure (f a)

theorem node {node : α} (h : Filters parent frames m m' ds) :
    Filters parent frames (unlessHalted node m) (unlessHalted node m') ds :=
  ⟨idle_unlessHalted _ _, idle_unlessHalted _ _, h.stricter,
    fun g a g' ho hchain hrun =>
      have hjudged := h.judged g a g' ho hchain hrun
      ⟨⟨hjudged.1.same, hjudged.1.ends⟩, hjudged.2⟩⟩

/-- **A scope is opened and filled**, and the pass goes on inside, with the frame of the scope in front of the
    others. -/
theorem opening {fill fill' : ScopeId → ScopingM Unit} {inside inside' : ScopeId → ScopingM α}
    {symbols : List (Ident × Symbol)} {node : α} (hfill : ∀ own, Fills own frames symbols (fill own) (fill' own) ds)
    (hinside : ∀ own, Filters own (entriesOf symbols :: frames) (inside own) (inside' own) ds') :
    Filters parent frames
      (unlessHalted node do let own ← openScope parent; fill own; inside own)
      (unlessHalted node do let own ← openScope parent; fill' own; inside' own) (ds ++ ds') := by
  have hrun : ∀ (fill : ScopeId → ScopingM Unit) (inside : ScopeId → ScopingM α) (g : Scopes),
      unlessHalted node (do let own ← openScope parent; fill own; inside own) ⟨g, none⟩ =
        (fill ⟨g.size⟩ >>= fun _ => inside ⟨g.size⟩) ⟨(g.openChild parent).2, none⟩ := fun _ _ _ => rfl
  have hstricter : ∀ own, Stricter (fill own >>= fun _ => inside own) (fill' own >>= fun _ => inside' own) :=
    fun own => (hfill own).stricter.bind (fun _ => (hinside own).idle') fun _ => (hinside own).stricter
  refine ⟨idle_unlessHalted _ _, idle_unlessHalted _ _, fun g a g' h => ?_, fun g a g' ho hchain h => ?_⟩
  · rw [hrun] at h ⊢
    exact hstricter _ _ _ _ h
  · rw [hrun] at h
    obtain ⟨⟨⟩, g₁, hm, hrest⟩ := exists_of_bind_run (fun _ => (hinside _).idle) h
    have hopened : (g.openChild parent).2.Chain ⟨g.size⟩ ([] :: frames) :=
      .inside (by rw [openChild, scopeAt_allocate, if_pos rfl]) (hchain.mono ho (extends_allocate g _))
    have ho₁ := ordered_openChild ho hchain.lt
    obtain ⟨hjudged, hrefilled⟩ := (hfill _).judged _ _ _ ho₁ hopened hm
    obtain ⟨hjudged', hext, ho'⟩ :=
      (hinside _).judged _ _ _ (hrefilled.ordered ho₁) (hopened.refilled ho₁ hrefilled) hrest
    have hboth : Judged _ (fill ⟨g.size⟩ >>= fun _ => inside ⟨g.size⟩)
        (fill' ⟨g.size⟩ >>= fun _ => inside' ⟨g.size⟩) (ds ++ ds') :=
      hjudged.bind hm (fun _ => (hinside _).idle') hjudged'
    exact ⟨⟨fun hnone => by rw [hrun, hrun]; exact hboth.same hnone,
      fun d hd => by rw [hrun]; exact hboth.ends d hd⟩, hrefilled.extends_of_openChild.trans hext, ho'⟩

end Filters

end ScopingM

open ScopingM

/-! ## Trees -/

mutual

/-- **The strict pass over an expression** ends at the first value that hides a type. By recursion on the
    expression, along the list of its values. -/
theorem Expr.annotate_filters : ∀ (e : Expr) (parent : ScopeId) (frames : List Table),
    Filters parent frames (e.annotate false parent) (e.annotate true parent) (e.values frames)
  | .number _, _, _ | .string _ _, _, _ | .bool _ _, _, _ | .name _ _, _, _ => by
    rw [Expr.annotate, Expr.annotate, Expr.values]
    exact (Filters.pure _).node
  | .list _ items, parent, frames | .tuple _ items, parent, frames => by
    rw [Expr.annotate, Expr.annotate, Expr.values]
    exact ((annotateExprs_filters items parent frames).map _).node
  | .map _ entries, parent, frames => by
    rw [Expr.annotate, Expr.annotate, Expr.values]
    exact ((annotateEntries_filters entries parent frames).map _).node
  | .unary _ _ e, parent, frames | .assign _ _ e, parent, frames => by
    rw [Expr.annotate, Expr.annotate, Expr.values]
    exact ((e.annotate_filters parent frames).map _).node
  | .access _ left right, parent, frames | .binary _ _ left right, parent, frames => by
    rw [Expr.annotate, Expr.annotate, Expr.values]
    exact ((left.annotate_filters parent frames).bind fun _ => (right.annotate_filters parent frames).map _).node
  | .call _ callee args, parent, frames => by
    rw [Expr.annotate, Expr.annotate, Expr.values]
    exact ((callee.annotate_filters parent frames).bind fun _ =>
      (annotateExprs_filters args parent frames).map _).node
  | .lambda _ _ params body, parent, frames => by
    rw [Expr.annotate, Expr.annotate, Expr.values, ← valuesOf_params, ← entriesOf_params]
    exact .opening (fun own => .declareAll own frames _) fun own => (body.annotate_filters own _).map _
  | .when _ cond yes no, parent, frames => by
    rw [Expr.annotate, Expr.annotate, Expr.values]
    exact ((cond.annotate_filters parent frames).bind fun _ => (yes.annotate_filters parent frames).bind fun _ =>
      (no.annotate_filters parent frames).map _).node

theorem annotateExprs_filters : ∀ (items : List Expr) (parent : ScopeId) (frames : List Table),
    Filters parent frames (annotateExprs false parent items) (annotateExprs true parent items)
      (exprsValues frames items)
  | [], _, _ => by
    rw [annotateExprs, annotateExprs, exprsValues]
    exact .pure _
  | e :: rest, parent, frames => by
    rw [annotateExprs, annotateExprs, exprsValues]
    exact (e.annotate_filters parent frames).bind fun _ => (annotateExprs_filters rest parent frames).map _

theorem annotateEntries_filters : ∀ (entries : List (Expr × Expr)) (parent : ScopeId) (frames : List Table),
    Filters parent frames (annotateEntries false parent entries) (annotateEntries true parent entries)
      (entriesValues frames entries)
  | [], _, _ => by
    rw [annotateEntries, annotateEntries, entriesValues]
    exact .pure _
  | (key, value) :: rest, parent, frames => by
    rw [annotateEntries, annotateEntries, entriesValues]
    exact (key.annotate_filters parent frames).bind fun _ => (value.annotate_filters parent frames).bind fun _ =>
      (annotateEntries_filters rest parent frames).map _

end

theorem annotateOption_filters (value : Option Expr) (parent : ScopeId) (frames : List Table) :
    Filters parent frames (annotateOption false parent value) (annotateOption true parent value)
      (optionValues frames value) := by
  cases value with
  | none => exact .pure none
  | some e => exact (e.annotate_filters parent frames).map some

theorem annotateDefs_filters (parent : ScopeId) (frames : List Table) : ∀ defs : List VarDef,
    Filters parent frames (defs.mapM (VarDef.annotate false parent)) (defs.mapM (VarDef.annotate true parent))
      (defsValues frames defs)
  | [] => .pure []
  | d :: rest => by
    rw [List.mapM_cons, List.mapM_cons, defsValues]
    exact ((annotateOption_filters d.value parent frames).map fun value => { d with value }).bind fun _ =>
      (annotateDefs_filters parent frames rest).map _

mutual

/-- **The strict pass over a statement** ends at the first value inside it that hides a type, by recursion on the
    statement. -/
theorem Stmt.annotate_filters : ∀ (stmt : Stmt) (parent : ScopeId) (frames : List Table),
    Filters parent frames (stmt.annotate false parent) (stmt.annotate true parent) (stmt.values frames)
  | .vars _ _ defs, parent, frames => by
    rw [Stmt.annotate, Stmt.annotate, Stmt.values]
    exact ((annotateDefs_filters parent frames defs).map _).node
  | .function _ _ params _ body, parent, frames => by
    rw [Stmt.annotate, Stmt.annotate, Stmt.values, ← valuesOf_params, ← entriesOf_params]
    exact .opening (fun own => .declareAll own frames _) fun own => (body.annotate_filters own _).map _
  | .blueprint _ _ body, parent, frames | .trait _ _ body, parent, frames | .block body, parent, frames => by
    rw [Stmt.annotate, Stmt.annotate, Stmt.values]
    exact ((body.annotate_filters parent frames).map _).node
  | .struct _ _ _, _, _ | .enum _ _ _, _, _ | .jump _ _ _, _, _ => by
    rw [Stmt.annotate, Stmt.annotate, Stmt.values]
    exact (Filters.pure _).node
  | .label mark name stmt, parent, frames => by
    rw [Stmt.annotate, Stmt.annotate, Stmt.values, ← valuesOf_stmt, ← entriesOf_label]
    -- The label is inserted without a question, and after it what the statement declares.
    have hfill : ∀ own, Fills own frames ((name, .declared .label name.span) :: stmt.symbols)
        (attempt (·.insert own name.name (.declared .label name.span)) >>= fun _ =>
          declareAll false own stmt.symbols)
        (attempt (·.insert own name.name (.declared .label name.span)) >>= fun _ =>
          declareAll true own stmt.symbols) (valuesOf frames stmt.symbols) :=
      fun own => (Fills.insert own frames (name, .declared .label name.span)).bind
        (.declareAll own frames stmt.symbols)
    have hinside : ∀ own, Filters own (entriesOf ((name, .declared .label name.span) :: stmt.symbols) :: frames)
        (stmt.annotate false own >>= fun inner => pure (Stmt.label (mark.record own) name inner))
        (stmt.annotate true own >>= fun inner => pure (Stmt.label (mark.record own) name inner)) _ :=
      fun own => (stmt.annotate_filters own _).map (Stmt.label (mark.record own) name)
    have hopening : Filters parent frames (unlessHalted (Stmt.label mark name stmt) _)
        (unlessHalted (Stmt.label mark name stmt) _) _ := .opening hfill hinside
    simpa only [bind_assoc] using hopening
  | .branch _ cond body elifs none, parent, frames => by
    rw [Stmt.annotate, Stmt.annotate, Stmt.values]
    exact ((cond.annotate_filters parent frames).bind fun _ => (body.annotate_filters parent frames).bind fun _ =>
      (annotateElifs_filters elifs parent frames).map _).node
  | .branch _ cond body elifs (some last), parent, frames => by
    rw [Stmt.annotate, Stmt.annotate, Stmt.values]
    exact ((cond.annotate_filters parent frames).bind fun _ => (body.annotate_filters parent frames).bind fun _ =>
      (annotateElifs_filters elifs parent frames).bind fun _ => (last.annotate_filters parent frames).map _).node
  | .loop _ cond body, parent, frames => by
    rw [Stmt.annotate, Stmt.annotate, Stmt.values]
    exact ((cond.annotate_filters parent frames).bind fun _ => (body.annotate_filters parent frames).map _).node
  | .ret _ value, parent, frames => by
    rw [Stmt.annotate, Stmt.annotate, Stmt.values]
    exact ((annotateOption_filters value parent frames).map _).node
  | .expr e, parent, frames => by
    rw [Stmt.annotate, Stmt.annotate, Stmt.values]
    exact ((e.annotate_filters parent frames).map _).node

theorem Block.annotate_filters : ∀ (block : Block) (parent : ScopeId) (frames : List Table),
    Filters parent frames (block.annotate false parent) (block.annotate true parent) (block.values frames)
  | .mk _ stmts, parent, frames => by
    rw [Block.annotate, Block.annotate, Block.values, ← valuesOf_stmts, ← entriesOf_stmts]
    exact .opening (fun own => .declareAll own frames _) fun own => (annotateStmts_filters stmts own _).map _

theorem annotateStmts_filters : ∀ (stmts : List Stmt) (parent : ScopeId) (frames : List Table),
    Filters parent frames (annotateStmts false parent stmts) (annotateStmts true parent stmts)
      (stmtsValues frames stmts)
  | [], _, _ => by
    rw [annotateStmts, annotateStmts, stmtsValues]
    exact .pure _
  | stmt :: rest, parent, frames => by
    rw [annotateStmts, annotateStmts, stmtsValues]
    exact (stmt.annotate_filters parent frames).bind fun _ => (annotateStmts_filters rest parent frames).map _

theorem annotateElifs_filters : ∀ (elifs : List Elif) (parent : ScopeId) (frames : List Table),
    Filters parent frames (annotateElifs false parent elifs) (annotateElifs true parent elifs)
      (elifsValues frames elifs)
  | [], _, _ => by
    rw [annotateElifs, annotateElifs, elifsValues]
    exact .pure _
  | .mk _ cond body :: rest, parent, frames => by
    rw [annotateElifs, annotateElifs, elifsValues]
    exact (cond.annotate_filters parent frames).bind fun _ => (body.annotate_filters parent frames).bind fun _ =>
      (annotateElifs_filters rest parent frames).map _

end

variable {global : ScopeId} {program : Program}

/-! ### Programs -/

/-- What the strict pass over a program reaches the lenient one reaches too. -/
theorem Program.annotate_stricter (global : ScopeId) (program : Program) :
    Stricter (program.annotate false global) (program.annotate true global) := by
  have hstmts := annotateStmts_filters program.stmts global []
  exact (Fills.declareAll global [] _).stricter.bind (fun _ => (hstmts.map _).idle') fun _ =>
    (hstmts.map _).stricter

/-- **The strict pass over a program** ends at the first value that hides a type, where the lenient one is not
    refused. -/
theorem Program.annotate_filters {g g' : Scopes} {held : Table} {annotated : Program} (ho : g.Ordered)
    (hglobal : g.scopeAt global = some ⟨none, held⟩)
    (hrun : program.annotate false global ⟨g, none⟩ = (annotated, ⟨g', none⟩)) :
    Judged g (program.annotate false global) (program.annotate true global) (program.values held) := by
  have hstmts : ∀ frames, Filters global frames _ _ _ := fun frames =>
    (annotateStmts_filters program.stmts global frames).map fun stmts => (⟨stmts, some global⟩ : Program)
  obtain ⟨⟨⟩, g₁, hdeclare, hrest⟩ := exists_of_bind_run (fun _ => (hstmts []).idle) hrun
  have hchain : g.Chain global [held] := .outermost hglobal
  obtain ⟨hjudged, hrefilled⟩ := (Fills.declareAll global [] _).judged g held g₁ ho hchain hdeclare
  obtain ⟨hjudged', -, -⟩ := (hstmts _).judged g₁ _ g' (hrefilled.ordered ho) (hchain.refilled ho hrefilled) hrest
  rw [Program.values, ← valuesOf_stmts, ← entriesOf_stmts]
  exact hjudged.bind hdeclare (fun _ => (hstmts []).idle') hjudged'

/-! ## The kinds of names -/

/-- Each name is of the same kind in either list of frames, or in neither. Submissions may give names other types
    and values, and strict mode looks at neither. -/
def SameKinds (frames frames' : List Table) : Prop :=
  ∀ name, (frames'.findSome? (·.find? name)).map Symbol.kind = (frames.findSome? (·.find? name)).map Symbol.kind

/-- The answers to the question of strict mode, in the order of the values. -/
def verdicts (ds : List Declared) : List Bool := ds.map Declared.hidesType

@[simp] theorem verdicts_append (ds ds' : List Declared) : verdicts (ds ++ ds') = verdicts ds ++ verdicts ds' :=
  List.map_append

/-- Where the answers are the same and none is positive on one side, none is on the other. -/
theorem find?_of_verdicts {ds ds' : List Declared} (h : verdicts ds' = verdicts ds)
    (hnone : ds.find? Declared.hidesType = none) : ds'.find? Declared.hidesType = none := by
  have hiff : ∀ ds : List Declared, ds.find? Declared.hidesType = none ↔ true ∉ verdicts ds := fun ds => by
    simp [verdicts]
  rwa [hiff, h, ← hiff]

namespace SameKinds

variable {frames frames' : List Table}

theorem cons (h : SameKinds frames frames') (table : Table) : SameKinds (table :: frames) (table :: frames') := by
  intro name
  rw [List.findSome?_cons, List.findSome?_cons]
  cases table.find? name with
  | none => exact h name
  | some symbol => rfl

theorem hidesType_eq (h : SameKinds frames frames') (name : Ident) :
    Declared.hidesType ⟨name, frames'⟩ = Declared.hidesType ⟨name, frames⟩ := by
  have hany : ∀ found : Option Symbol, found.any (·.kind.isType) = (found.map Symbol.kind).any SymbolKind.isType := by
    rintro (_ | symbol) <;> rfl
  rw [Declared.hidesType, Declared.hidesType, hany, hany, h name.name]

theorem names (h : SameKinds frames frames') (names : List Ident) :
    verdicts (names.map (Declared.mk · frames')) = verdicts (names.map (Declared.mk · frames)) := by
  rw [verdicts, verdicts, List.map_map, List.map_map]
  exact List.map_congr_left fun name _ => h.hidesType_eq name

theorem params (h : SameKinds frames frames') (params : List Param) :
    verdicts (Param.values frames' params) = verdicts (Param.values frames params) := by
  simpa [Param.values, Function.comp_def] using h.names (params.map Param.name)

theorem declares (h : SameKinds frames frames') (stmt : Stmt) :
    verdicts (stmt.declares frames') = verdicts (stmt.declares frames) := by
  cases stmt with
  | vars span kind defs => simpa [Stmt.declares, Function.comp_def] using h.names (defs.map VarDef.name)
  | function mark name params result body => exact h.names [name]
  | _ => rfl

theorem stmtsDeclare (h : SameKinds frames frames') (stmts : List Stmt) :
    verdicts (stmtsDeclare frames' stmts) = verdicts (stmtsDeclare frames stmts) := by
  induction stmts with
  | nil => rfl
  | cons stmt rest ih =>
    simp only [TypeInference.stmtsDeclare] at ih
    simp only [TypeInference.stmtsDeclare, List.flatMap_cons, verdicts_append, h.declares stmt, ih]

end SameKinds

/-! ### Verdicts on trees -/

mutual

/-- **Whether declared values hide types** is a matter of the kinds of names around. By recursion on the expression;
    inside a lambda both lists get the same frame in front. -/
theorem Expr.verdicts_values : ∀ (e : Expr) {frames frames' : List Table}, SameKinds frames frames' →
    verdicts (e.values frames') = verdicts (e.values frames)
  | .number _, _, _, _ | .string _ _, _, _, _ | .bool _ _, _, _, _ | .name _ _, _, _, _ => by
    rw [Expr.values, Expr.values]
  | .list _ items, _, _, h | .tuple _ items, _, _, h => by
    rw [Expr.values, Expr.values, verdicts_exprsValues items h]
  | .map _ entries, _, _, h => by rw [Expr.values, Expr.values, verdicts_entriesValues entries h]
  | .access _ left right, _, _, h | .binary _ _ left right, _, _, h => by
    simp only [Expr.values, verdicts_append, left.verdicts_values h, right.verdicts_values h]
  | .unary _ _ operand, _, _, h => by rw [Expr.values, Expr.values, operand.verdicts_values h]
  | .call _ callee args, _, _, h => by
    simp only [Expr.values, verdicts_append, callee.verdicts_values h, verdicts_exprsValues args h]
  | .lambda _ _ params body, _, _, h => by
    simp only [Expr.values, verdicts_append, h.params params, body.verdicts_values (h.cons _)]
  | .when _ cond yes no, _, _, h => by
    simp only [Expr.values, verdicts_append, cond.verdicts_values h, yes.verdicts_values h, no.verdicts_values h]
  | .assign _ _ value, _, _, h => by rw [Expr.values, Expr.values, value.verdicts_values h]

theorem verdicts_exprsValues : ∀ (items : List Expr) {frames frames' : List Table}, SameKinds frames frames' →
    verdicts (exprsValues frames' items) = verdicts (exprsValues frames items)
  | [], _, _, _ => by rw [exprsValues, exprsValues]
  | e :: rest, _, _, h => by
    simp only [exprsValues, verdicts_append, e.verdicts_values h, verdicts_exprsValues rest h]

theorem verdicts_entriesValues : ∀ (entries : List (Expr × Expr)) {frames frames' : List Table},
    SameKinds frames frames' → verdicts (entriesValues frames' entries) = verdicts (entriesValues frames entries)
  | [], _, _, _ => by rw [entriesValues, entriesValues]
  | (key, value) :: rest, _, _, h => by
    simp only [entriesValues, verdicts_append, key.verdicts_values h, value.verdicts_values h,
      verdicts_entriesValues rest h]

end

theorem SameKinds.optionValues {frames frames' : List Table} (h : SameKinds frames frames') (value : Option Expr) :
    verdicts (optionValues frames' value) = verdicts (optionValues frames value) := by
  cases value with
  | none => rfl
  | some e => exact e.verdicts_values h

theorem SameKinds.defsValues {frames frames' : List Table} (h : SameKinds frames frames') : ∀ defs : List VarDef,
    verdicts (defsValues frames' defs) = verdicts (defsValues frames defs)
  | [] => rfl
  | d :: rest => by simp only [TypeInference.defsValues, verdicts_append, h.optionValues d.value, h.defsValues rest]

mutual

theorem Stmt.verdicts_values : ∀ (stmt : Stmt) {frames frames' : List Table}, SameKinds frames frames' →
    verdicts (stmt.values frames') = verdicts (stmt.values frames)
  | .vars _ _ defs, _, _, h => by rw [Stmt.values, Stmt.values, h.defsValues defs]
  | .function _ _ params _ body, _, _, h => by
    simp only [Stmt.values, verdicts_append, h.params params, body.verdicts_values (h.cons _)]
  | .blueprint _ _ body, _, _, h | .trait _ _ body, _, _, h | .block body, _, _, h => by
    rw [Stmt.values, Stmt.values, body.verdicts_values h]
  | .struct _ _ _, _, _, _ | .enum _ _ _, _, _, _ | .jump _ _ _, _, _, _ => by rw [Stmt.values, Stmt.values]
  | .label _ name stmt, _, _, h => by
    simp only [Stmt.values, verdicts_append, h.declares stmt, stmt.verdicts_values (h.cons _)]
  | .branch _ cond body elifs none, _, _, h => by
    simp only [Stmt.values, verdicts_append, cond.verdicts_values h, body.verdicts_values h,
      verdicts_elifsValues elifs h]
  | .branch _ cond body elifs (some last), _, _, h => by
    simp only [Stmt.values, verdicts_append, cond.verdicts_values h, body.verdicts_values h,
      verdicts_elifsValues elifs h, last.verdicts_values h]
  | .loop _ cond body, _, _, h => by
    simp only [Stmt.values, verdicts_append, cond.verdicts_values h, body.verdicts_values h]
  | .ret _ value, _, _, h => by rw [Stmt.values, Stmt.values, h.optionValues value]
  | .expr e, _, _, h => by rw [Stmt.values, Stmt.values, e.verdicts_values h]

theorem Block.verdicts_values : ∀ (block : Block) {frames frames' : List Table}, SameKinds frames frames' →
    verdicts (block.values frames') = verdicts (block.values frames)
  | .mk _ stmts, _, _, h => by
    simp only [Block.values, verdicts_append, h.stmtsDeclare stmts, verdicts_stmtsValues stmts (h.cons _)]

theorem verdicts_stmtsValues : ∀ (stmts : List Stmt) {frames frames' : List Table}, SameKinds frames frames' →
    verdicts (stmtsValues frames' stmts) = verdicts (stmtsValues frames stmts)
  | [], _, _, _ => by rw [stmtsValues, stmtsValues]
  | stmt :: rest, _, _, h => by
    simp only [stmtsValues, verdicts_append, stmt.verdicts_values h, verdicts_stmtsValues rest h]

theorem verdicts_elifsValues : ∀ (elifs : List Elif) {frames frames' : List Table}, SameKinds frames frames' →
    verdicts (elifsValues frames' elifs) = verdicts (elifsValues frames elifs)
  | [], _, _, _ => by rw [elifsValues, elifsValues]
  | .mk _ cond body :: rest, _, _, h => by
    simp only [elifsValues, verdicts_append, cond.verdicts_values h, body.verdicts_values h,
      verdicts_elifsValues rest h]

end

/-! ### Verdicts on programs -/

/-- **The verdict of strict mode** on a program is the same wherever the global names are of the same kinds. -/
theorem Program.annotate_strict_same {g g' h h' : Scopes} {held held' : Table} {annotated annotated' : Program}
    (hg : g.Ordered) (hh : h.Ordered) (hglobal : g.scopeAt global = some ⟨none, held⟩)
    (hglobal' : h.scopeAt global = some ⟨none, held'⟩)
    (hkind : ∀ name, (held'.find? name).map Symbol.kind = (held.find? name).map Symbol.kind)
    (hstrict : program.annotate true global ⟨g, none⟩ = (annotated, ⟨g', none⟩))
    (hlenient : program.annotate false global ⟨h, none⟩ = (annotated', ⟨h', none⟩)) :
    program.annotate true global ⟨h, none⟩ = (annotated', ⟨h', none⟩) := by
  have hjudged := Program.annotate_filters hg hglobal (Program.annotate_stricter global program _ _ _ hstrict)
  have hnone : (program.values held).find? Declared.hidesType = none := by
    cases hfind : (program.values held).find? Declared.hidesType with
    | none => rfl
    | some d =>
      have hends := hjudged.ends d hfind
      rw [hstrict] at hends
      cases hends
  have hkinds : SameKinds [held ++ stmtsFrame program.stmts] [held' ++ stmtsFrame program.stmts] := by
    intro name
    have hone : ∀ table : Table, [table].findSome? (·.find? name) = table.find? name := fun table => by
      rw [List.findSome?_cons, List.findSome?_nil]
      cases table.find? name <;> rfl
    rw [hone, hone, Table.find?_append, Table.find?_append, Option.map_or, Option.map_or, hkind]
  have hverdicts : verdicts (program.values held') = verdicts (program.values held) := by
    rw [Program.values, Program.values, verdicts_append, verdicts_append, verdicts_stmtsValues program.stmts hkinds]
  exact ((Program.annotate_filters hh hglobal' hlenient).same (find?_of_verdicts hverdicts hnone)).trans hlenient

end TypeInference
