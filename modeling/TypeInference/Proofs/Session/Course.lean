import TypeInference.Proofs.Inference.Ahead
import TypeInference.Proofs.Inference.Replay
import TypeInference.Proofs.Session.Reachable

/-!
# `Proofs.Session.Course` — the course that an accepted submission takes

A submission that is accepted goes through three stages: the program is scoped, its declarations are given types,
and its statements are looked at. `Course` keeps what each stage leaves, so that the stages can be compared with
those of another submission. A course that can be gone is an accepted submission, and the other way round.

In a session that always goes back after a refused program, every global name has a type (`Reachable.complete`),
and statements leave the global names, their kinds and their types as the declarations have set them.

## Contents
* `Session.Course`, `Course.check_eq_ok`, `Sound.exists_course` — courses and accepted submissions;
* `Course.exists_typed`, `Course.exists_facts` — the global names in the course of a submission;
* `Session.Complete`, `Reachable.complete` — every global name has a type.
-/

namespace TypeInference

open Store Scopes InferM

/-! ## A run beside itself -/

/-- A state inside another that has nothing besides, so that only the numbers of types differ. -/
def Embedding.plain (f : TypeId → TypeId) (hf : Function.Injective f)
    (hprimitive : ∀ {id : TypeId}, id.index < Store.initial.size → f id = id) (global : ScopeId)
    (held : List (String × SymbolKind × Option TypeId)) (typed : ∀ fact ∈ held, ∃ ty, fact.2.2 = some ty) :
    Embedding where
  toRenaming := .ofInjective f hf hprimitive
  toOverlay := .plain global held typed

/-- A state beside itself: nothing is renamed either. Comparing a run with itself tells what it does to the global
    names. -/
def Embedding.self (global : ScopeId) (held : List (String × SymbolKind × Option TypeId))
    (typed : ∀ fact ∈ held, ∃ ty, fact.2.2 = some ty) : Embedding :=
  .plain id Function.injective_id (fun _ => rfl) global held typed

/-- Every state is related with itself, if the global names are those held. -/
theorem Embedding.relates_self {global : ScopeId} {held : List (String × SymbolKind × Option TypeId)}
    {typed : ∀ fact ∈ held, ∃ ty, fact.2.2 = some ty} {s : Inference} {table : Table}
    (hfound : s.scopes.scopeAt global = some ⟨none, table⟩) (hheld : table.facts = held) :
    (Embedding.self global held typed).Relates s s where
  types := ⟨fun {_ node} hget => hget.trans (congrArg Except.ok node.rename_id.symm), fun _ => rfl, Nat.le_refl _,
    fun h => nomatch h⟩
  scopes := by
    refine ⟨fun {_ scope} hscope => ?_, fun {_} hle => ?_, Nat.le_refl _, table, hfound, hheld⟩
    · rw [hscope]
      show some scope = some ⟨scope.parent, scope.table.rename id ++ ite _ [] []⟩
      rw [Table.rename_id, ite_self, List.append_nil]
    · exact Array.getElem?_eq_none hle
  frames := (List.map_id _).symm

/-! ### Names in the global scope -/

/-- The names that a program declares stand after those that the global scope had, without types. -/
theorem Submitted.listed {types : Store} {before scopes : Scopes} {global : ScopeId} {table : Table}
    {program : Program} (h : Submitted types before scopes global table program) :
    Listed global none table (entriesOf (program.stmts.flatMap Stmt.symbols)) [] (.start types scopes) where
  scope := by rw [List.append_nil]; exact h.placed.scope
  nodup := by
    have hnodup := h.placed.nodup
    rwa [names_entriesOf]
  apart := fun entry hentry hmem => by
    rw [List.append_nil] at hentry
    rw [names_entriesOf] at hmem
    exact Table.ne_of_find?_eq_none (h.placed.fresh _ hmem) entry hentry rfl

/-- They have no types yet: symbols are declared without. -/
theorem untyped_entriesOf {stmts : List Stmt} :
    ∀ entry ∈ entriesOf (stmts.flatMap Stmt.symbols), entry.2.ty = none := by
  intro entry hentry
  obtain ⟨found, hfound, rfl⟩ := List.mem_map.mp hentry
  obtain ⟨stmt, -, hmem⟩ := List.mem_flatMap.mp hfound
  exact Stmt.ty_of_mem_symbols found hmem

/-- The pinned types are among the facts, since a fact has the kind and the type of a name. -/
theorem pinnedTypes_eq_of_facts {table table' : Table} (h : table.facts = table'.facts) :
    pinnedTypes table = pinnedTypes table' := by
  have hfacts : ∀ table : Table, pinnedTypes table =
      table.facts.filterMap fun fact => if fact.2.1 = .var then fact.2.2 else none := fun table => by
    rw [pinnedTypes, Table.facts, List.filterMap_map]
    rfl
  rw [hfacts, hfacts, h]

/-- A list of statements that has been looked at leaves some pins, which `inferStmts` does not tell. -/
theorem exists_inferSegment {scope : ScopeId} {pinned : List TypeId} {pins : Pins} {stmts : List Stmt}
    {s s' : Inference} {tys : List TypeId} (h : inferStmts scope pinned pins stmts s = .ok tys s') :
    ∃ left, inferSegment scope pinned pins stmts s = .ok (tys, left) s' := by
  rw [inferStmts_eq, map_eq_pure_bind] at h
  obtain ⟨⟨tys', left⟩, s₁, hrun, hpure⟩ := exists_of_run_bind h
  cases hpure
  exact ⟨left, hrun⟩

namespace Session

variable {session : Session} {program : Program}

/-! ## The first pass -/

/-- The first pass over a submitted program, from the global scope. -/
def scoping (session : Session) (program : Program) : Program × Scoping :=
  program.annotate session.options.strictShadowing session.global (.start session.scopes)

/-- **The first pass over a submission** touches no old scope but the global one, and that only by new names. -/
theorem Sound.scoped {table : Table} (h : session.Sound)
    (hfound : session.scopes.scopeAt session.global = some ⟨none, table⟩) (program : Program) :
    (session.scoping program).1.Scoped session.scopes session.global none table (session.scoping program).2 :=
  Program.annotate_run session.options.strictShadowing h.ordered hfound program

/-- A submission that the first pass refuses goes no further; the store is untouched. -/
theorem analyze_of_halt {reason : Halt Diagnostic} (hhalt : (session.scoping program).2.halt = some reason)
    (pinned : List TypeId) : session.analyze program pinned =
      ((session.scoping program).1, .error reason (.start session.types (session.scoping program).2.scopes)) := by
  rcases hafter : session.scoping program with ⟨annotated, scopes, halt⟩
  rw [hafter] at hhalt
  obtain rfl : halt = some reason := hhalt
  unfold scoping at hafter
  simp only [analyze, StateT.run, hafter]

/-- A submission that has been scoped is inferred, with the arena that the first pass has left. -/
theorem analyze_of_scoped (hhalt : (session.scoping program).2.halt = none) (pinned : List TypeId) :
    session.analyze program pinned = ((session.scoping program).1,
      inferList session.global pinned (session.scoping program).1.stmts
        (.start session.types (session.scoping program).2.scopes)) := by
  rcases hafter : session.scoping program with ⟨annotated, scopes, halt⟩
  rw [hafter] at hhalt
  obtain rfl : halt = none := hhalt
  unfold scoping at hafter
  simp only [analyze, StateT.run, hafter]

/-! ## Courses -/

/-- What the stages of an accepted submission leave: the names that the global scope had, the program with its
    scopes recorded, the arena, the pinned types and the state when the declarations have been given types, and
    the types of the statements and the state at the end. -/
structure Course (session : Session) (program : Program) where
  table : Table
  annotated : Program
  scopes : Scopes
  pins : Pins
  ready : Inference
  tys : List TypeId
  final : Inference
  found : session.scopes.scopeAt session.global = some ⟨none, table⟩
  annotate : program.annotate session.options.strictShadowing session.global (.start session.scopes) =
    (annotated, ⟨scopes, none⟩)
  declared : predeclareAll session.global annotated.stmts (.start session.types scopes) = .ok pins ready
  inferred : inferStmts session.global (pinnedTypes table) pins annotated.stmts ready = .ok tys final

namespace Course

/-- What is answered at the end of the course. The store is committed, so that nothing of the program can be undone
    later. -/
def outcome (c : session.Course program) : Outcome :=
  ⟨.ok c.tys, c.annotated, { session with types := c.final.types.commit, scopes := c.final.scopes }⟩

/-- **A course that can be gone is an accepted submission.** -/
theorem check_eq_ok (c : session.Course program) : session.check program = .ok c.outcome := by
  have hlist : inferList session.global (pinnedTypes c.table) c.annotated.stmts (.start session.types c.scopes) =
      .ok c.tys c.final :=
    (run_bind_of_ok c.declared).trans c.inferred
  have hrun : session.analyze program (pinnedTypes c.table) = (c.annotated, .ok c.tys c.final) := by
    simp only [analyze, StateT.run, c.annotate, hlist]
  unfold check
  simp only [snapshot_eq_ok c.found, pinned_eq_ok c.found, hrun, ok_bind]
  rfl

end Course

/-- **An accepted submission has taken a course.** -/
theorem Sound.exists_course {outcome : Outcome} (h : session.Sound) (hcheck : session.check program = .ok outcome)
    {tys : List TypeId} (haccepted : outcome.result = .ok tys) :
    ∃ c : session.Course program, c.tys = tys ∧ c.outcome = outcome := by
  obtain ⟨table, hfound⟩ := h.found
  obtain ⟨snap, -, hcheck⟩ := exists_of_bind_eq_ok hcheck
  obtain ⟨pinned, hpinned, hcheck⟩ := exists_of_bind_eq_ok hcheck
  obtain rfl : pinnedTypes table = pinned := Except.ok.inj ((pinned_eq_ok hfound).symm.trans hpinned)
  split at hcheck
  next annotated result hrun =>
  rcases hscoped : program.annotate session.options.strictShadowing session.global (.start session.scopes)
    with ⟨annotated', scopes, halt⟩
  simp only [analyze, StateT.run, hscoped] at hrun
  split at hcheck
  · next tys' final =>
    obtain rfl := Except.ok.inj hcheck
    cases haccepted
    cases halt with
    | some reason => cases hrun
    | none =>
      obtain ⟨rfl, hlist⟩ := Prod.ext_iff.mp hrun
      obtain ⟨pins, ready, hdeclared, hinferred⟩ := exists_of_run_bind hlist
      exact ⟨⟨table, annotated', scopes, pins, ready, _, final, hfound, hscoped, hdeclared, hinferred⟩, rfl, rfl⟩
  · cases hcheck
  · split at hcheck
    · obtain ⟨types, -, hcheck⟩ := exists_of_bind_eq_ok hcheck
      obtain rfl := Except.ok.inj hcheck
      cases haccepted
    · obtain rfl := Except.ok.inj hcheck
      cases haccepted

namespace Course

variable (c : session.Course program) (h : session.Sound)

include h

/-! ### What is known of a course -/

theorem submitted :
    Submitted session.types session.scopes c.scopes session.global c.table c.annotated := by
  have hscoped := h.scoped c.found program
  rw [scoping, c.annotate] at hscoped
  exact ⟨h.wf, h.inRange, hscoped.grown, hscoped.ordered, hscoped.gives, c.found, hscoped.placed rfl⟩

/-- **The declared names get types** where they stand, after the names that the global scope held. -/
theorem exists_typed : ∃ typed, c.ready.scopes.scopeAt session.global = some ⟨none, c.table ++ typed⟩ ∧
    Announces (entriesOf (c.annotated.stmts.flatMap Stmt.symbols)) typed c.pins := by
  obtain ⟨typed, hscope, hannounces⟩ := predeclareAll_announces _ _ _ _ _ (c.submitted h).listed _ _ c.declared
  exact ⟨typed, by rw [hscope, List.append_nil], hannounces⟩

/-- Giving types to the declarations is an allowed run, with what it promises. -/
theorem step_ready (tidy : Prop) :
    ((c.submitted h).guard ∅ tidy).Step false (.start session.types c.scopes) c.ready ∧
      Predeclared ((c.submitted h).guard ∅ tidy) session.global (declarations c.annotated.stmts) c.pins
        (.start session.types c.scopes) c.ready :=
  (predeclareAll_allows c.annotated.stmts ((c.submitted h).admits unbound_empty h.clear_empty)
    (c.submitted h).nameable).ok c.declared

/-- Looking at the statements is an allowed run, with one type for each statement. -/
theorem step_inferred : ((c.submitted h).guard ∅ False).Step (stmtsReturn c.annotated.stmts) c.ready c.final ∧
    c.tys.length = c.annotated.stmts.length ∧ (∀ ty ∈ c.tys, ty.index < c.final.types.size) :=
  have hready := c.step_ready h False
  have hafter := ((c.submitted h).stmts_allows unbound_empty h.clear_empty False.elim hready.1 hready.2).ok c.inferred
  ⟨hafter.1, hafter.2.1, hafter.2.2.1⟩

theorem step_final : ((c.submitted h).guard ∅ False).Step (stmtsReturn c.annotated.stmts)
    (.start session.types c.scopes) c.final :=
  ((c.step_ready h False).1.mayReturn fun hr => nomatch hr).trans (c.step_inferred h).1

/-- The guard is met when the declarations have been given types. -/
theorem admits_ready : ((c.submitted h).guard ∅ False).Admits c.ready :=
  ((c.submitted h).admits unbound_empty h.clear_empty).step (c.step_ready h False).1

theorem admits_final : ((c.submitted h).guard ∅ False).Admits c.final :=
  (c.admits_ready h).step (c.step_inferred h).1

/-- Pinned types are there when the declarations have been given types. -/
theorem lt_of_mem_pins {ty : TypeId} (hty : ty ∈ c.pins.all) : ty.index < c.ready.types.size :=
  ((c.step_ready h False).2.clear ty hty).lt

theorem frames_ready : c.ready.frames = [] := (c.step_ready h False).1.frames_eq

theorem frames_final : c.final.frames = [] := by
  rcases (c.step_final h).frames with he | ⟨-, he⟩ <;> exact he

theorem sound_outcome : c.outcome.session.Sound :=
  (Leads.sound (.of_step (c.submitted h) unbound_empty h.clear_empty (c.step_final h)) h).commit

/-- **Statements leave the global names**, their kinds and their types alone, once all of them have types. -/
theorem exists_facts (hcomplete : ∀ fact ∈ c.table.facts, ∃ ty, fact.2.2 = some ty) {typed : Table}
    (hready : c.ready.scopes.scopeAt session.global = some ⟨none, c.table ++ typed⟩)
    (hannounces : Announces (entriesOf (c.annotated.stmts.flatMap Stmt.symbols)) typed c.pins) :
    (∀ fact ∈ (c.table ++ typed).facts, ∃ ty, fact.2.2 = some ty) ∧
      ∃ table, c.final.scopes.scopeAt session.global = some ⟨none, table⟩ ∧
        table.facts = (c.table ++ typed).facts := by
  have hall : ∀ fact ∈ (c.table ++ typed).facts, ∃ ty, fact.2.2 = some ty := by
    intro fact hfact
    rw [Table.facts, List.map_append, List.mem_append] at hfact
    exact hfact.elim (hcomplete fact) (hannounces.typed_facts fact)
  refine ⟨hall, ?_⟩
  have hpins : (Embedding.self session.global _ hall).Pins (pinnedTypes c.table) (pinnedTypes c.table) := by
    have hmap := Renaming.Pins.map (Embedding.self session.global _ hall).toRenaming (pinnedTypes c.table)
    rwa [show (pinnedTypes c.table).map (Embedding.self session.global _ hall).apply = pinnedTypes c.table from
      List.map_id _] at hmap
  obtain ⟨left, hrun⟩ := exists_inferSegment c.inferred
  have hplaced := (c.submitted h).placed.stmts
  have hreplays := inferSegment_replays hpins (Embedding.Foreign.none (Embedding.self session.global _ hall))
    c.annotated.stmts hplaced (c.submitted h).global_lt (fun name _ _ => List.forall_mem_nil _) c.pins
  obtain ⟨_, _, -, hrelates, -⟩ := hreplays c.ready c.ready (Embedding.relates_self hready rfl) _ _ hrun
  exact hrelates.scopes.global

end Course

/-! ## Every global name has a type -/

/-- Every name of the global scope has a type, of whatever kind it is. -/
def Complete (session : Session) : Prop :=
  ∀ table, session.scopes.scopeAt session.global = some ⟨none, table⟩ →
    ∀ fact ∈ table.facts, ∃ ty, fact.2.2 = some ty

/-- **Every global name has a type** as long as refused programs leave no trace. By induction on how the session was
    reached: an accepted program has given types to all that it has declared. -/
theorem Reachable.complete (h : Reachable (·.rollbackOnError = true) session) : session.Complete := by
  induction h with
  | new options =>
    rintro table ⟨⟩ fact hfact
    cases hfact
  | @check session program outcome hreachable hrollback hcheck ih =>
    cases hresult : outcome.result with
    | error diagnostic => rwa [hreachable.sound.undone hrollback hcheck hresult]
    | ok tys =>
      obtain ⟨c, -, rfl⟩ := hreachable.sound.exists_course hcheck hresult
      obtain ⟨typed, hready, hannounces⟩ := c.exists_typed hreachable.sound
      obtain ⟨hall, table, hfinal, hfacts⟩ :=
        c.exists_facts hreachable.sound (ih c.table c.found) hready hannounces
      intro table' hfound'
      obtain rfl : table = table' := congrArg Scope.table (Option.some.inj (hfinal.symm.trans hfound'))
      rwa [hfacts]
  | setStrictShadowing _ _ ih | setRollbackOnError _ _ ih => exact ih

end Session

end TypeInference
