import TypeInference.Proofs.Inference.EchoStatement
import TypeInference.Proofs.Session.Append
import TypeInference.Proofs.Session.Assignment
import TypeInference.Proofs.Session.Scoping

/-!
# `Proofs.Session.Recheck` — what has been accepted is accepted again

A program that declares no global names can be submitted once more. The second submission begins where the first
has ended: its scopes are opened further on, and the store knows already what the first submission has found out.
The run of the first one is followed by a companion (`Proofs.Inference.Companion`) for which everything that was
solved then is solved now. In the end the types of either run come from those of the other by replacing variables,
so they are the same up to the names of variables.

What the first submission has given a value cannot be assigned any more unless it is mutable. That matters for
global names only: all others are declared again with the scopes that hold them.

## Contents
* `Course.relocation`, `Course.annotate_again` — the first pass over the program once more;
* `Course.companion`, `Course.between_start`, `Course.moved_start` — where the companion begins;
* `Course.exists_again` — the second submission takes a course;
* `Reachable.check_again` — its types are those of the first one.
-/

namespace TypeInference

open Store Scopes InferM Guard

/-- A program that declares no global names is scoped statement by statement. -/
theorem Program.annotate_of_symbols_eq_nil {program : Program} (hnone : program.stmts.flatMap Stmt.symbols = [])
    (strict : Bool) (parent : ScopeId) (s : Scoping) :
    program.annotate strict parent s = (⟨(annotateStmts strict parent program.stmts s).1, some parent⟩,
      (annotateStmts strict parent program.stmts s).2) := by
  rw [Program.annotate, hnone]
  rfl

/-- Whether the expression assigns a global variable that is not mutable. -/
def Expr.assignsConstant (g : Scopes) (global : ScopeId) : Expr → Bool
  | .assign mark target _ => g.denotes mark target.name global &&
    (g.symbolAt global target.name).any fun symbol => symbol.kind = .var && !symbol.mutable
  | _ => false

namespace Session

variable {session : Session} {program : Program}

namespace Course

variable (c : session.Course program)

/-! ## The first pass once more -/

/-- Where the scopes of the program are when it is submitted again: behind those that the first submission has left.
    The global variables that are not mutable are settled. -/
def relocation : Relocation where
  start := session.scopes.size
  gap := c.final.scopes.size - session.scopes.size
  global := session.global
  settled := fun name => ∃ symbol, c.final.scopes.symbolAt session.global name = some symbol ∧
    symbol.kind = .var ∧ symbol.mutable = false
  lt := lt_of_scopeAt c.found

@[simp] theorem move_global : c.relocation.move session.global = session.global := c.relocation.move_global

/-- Strict mode has only asked more, so without it the first pass leaves the same. -/
theorem annotate_lenient :
    program.annotate false session.global (.start session.scopes) = (c.annotated, ⟨c.scopes, none⟩) := by
  have hannotate := c.annotate
  cases hstrict : session.options.strictShadowing with
  | false => rwa [hstrict] at hannotate
  | true =>
    rw [hstrict] at hannotate
    exact Program.annotate_stricter _ _ _ _ _ hannotate

/-- The program that comes back has the text of the one that was submitted. -/
theorem erase_annotated : c.annotated.erase = program.erase := by
  rw [← Program.erase_annotate session.options.strictShadowing program session.global (.start session.scopes),
    c.annotate]

theorem symbols_annotated : c.annotated.stmts.flatMap Stmt.symbols = program.stmts.flatMap Stmt.symbols := by
  rw [← symbols_eraseStmts, ← symbols_eraseStmts program.stmts]
  exact congrArg (fun erased : Program => erased.stmts.flatMap Stmt.symbols) c.erase_annotated

/-- The arena after the second submission has been scoped: the scopes that the first one has left, and behind them
    the scopes `new` that it had opened. -/
def arena (new : Array Scope) : Scopes := c.final.scopes.append (new.map (Scope.relocate c.relocation.move))

variable (hs : session.Sound)

include hs

theorem size_le : session.scopes.size ≤ c.final.scopes.size :=
  (c.submitted hs).grown.size_le.trans_eq (c.step_final hs).shape.size_eq.symm

/-- Without strict mode the same scopes are opened further on. -/
theorem annotate_lenient_again (hnone : program.stmts.flatMap Stmt.symbols = []) :
    ∃ new, c.scopes = session.scopes.append new ∧
      program.annotate false session.global (.start c.final.scopes) =
        (c.annotated.relocate c.relocation.move, ⟨c.arena new, none⟩) := by
  have hlenient := c.annotate_lenient
  rw [Program.annotate_of_symbols_eq_nil hnone] at hlenient
  obtain ⟨hannotated, hstate⟩ := Prod.ext_iff.mp hlenient
  have hstmts : annotateStmts false session.global program.stmts ⟨session.scopes, none⟩ =
      (c.annotated.stmts, ⟨c.scopes, none⟩) := Prod.ext (congrArg Program.stmts hannotated) hstate
  obtain ⟨new, hnew, hagain⟩ := (annotateStmts_relocates program.stmts session.global).same
    (fun _ => c.relocation.move_of_le) session.scopes c.final.scopes (Nat.le_refl _)
    (Nat.add_sub_of_le (c.size_le hs)).symm _ _ hstmts
  refine ⟨new, hnew, ?_⟩
  rw [c.move_global] at hagain
  rw [Program.annotate_of_symbols_eq_nil hnone, Program.relocate, ← congrArg Program.scope hannotated]
  simp only [Scoping.start, hagain, Option.map_some, c.move_global, arena]

/-! ## The companion -/

/-- The companion when it begins: old types are linked with themselves, and the store is the one that the first
    submission has left. -/
def companion (c : session.Course program) (new : Array Scope) : Companion where
  links := fun a b => b = a ∧ a.index < session.types.size
  state := .start c.final.types.commit (c.arena new)

/-- **What the first submission has found out is known from the beginning**: its final store lies between the one it
    began with and itself. -/
theorem between_start (new : Array Scope) :
    Between (c.companion new).links session.types c.final.types.commit c.final.types := by
  have hstep := (c.step_final hs).types
  have hwf := (c.admits_final hs).wf
  refine ⟨hwf.commit, ?_, fun hget => ⟨rfl, (lt_of_get hget).trans_le hs.wf.initial_le⟩,
    ⟨c.final.types.tree, hstep.reads_tree, ?_⟩, ⟨c.final.types.tree, ?_, ?_⟩⟩
  · rintro a _ ⟨rfl, ha⟩
    exact ⟨ha, ha.trans_le hstep.size_le⟩
  · rintro a _ ⟨rfl, -⟩
    rw [tree_commit]
  · rw [← tree_commit]
    exact (Evolves.refl hwf.commit : Evolves ∅ _ _).reads_tree
  · rintro a _ ⟨rfl, -⟩
    rfl

/-! ### What corresponds at the start -/

omit hs in
/-- A type that was there before is linked with itself, also if there is none. -/
theorem links_self {new : Array Scope} {found : Option TypeId}
    (hold : ∀ ty, found = some ty → ty.index < session.types.size) :
    Option.Rel (c.companion new).links found found := by
  cases found with
  | none => exact .none
  | some ty => exact .some ⟨rfl, hold ty rfl⟩

omit hs in
/-- A symbol corresponds to itself if its type was there before. -/
theorem twins_self {new : Array Scope} {id : ScopeId} {name : String} {found : Option Symbol}
    (hold : ∀ symbol ty, found = some symbol → symbol.ty = some ty → ty.index < session.types.size) :
    Option.Rel (c.relocation.Twins (c.companion new).links id name) found found := by
  cases found with
  | none => exact .none
  | some symbol => exact .some ⟨rfl, rfl, fun _ => .inl rfl, c.links_self fun ty => hold symbol ty rfl⟩

/-- A global name corresponds to what the first submission has made of it: of the same kind and with the same type,
    and perhaps with a value by now. -/
theorem twins_global {new : Array Scope} {table : Table}
    (hfinal : c.final.scopes.scopeAt session.global = some ⟨none, table⟩) (hfacts : table.facts = c.table.facts)
    (name : String) :
    Option.Rel (c.relocation.Twins (c.companion new).links session.global name) (c.table.find? name)
      (table.find? name) := by
  have hlookup := congrArg (List.lookup name) hfacts
  rw [Table.lookup_facts, Table.lookup_facts] at hlookup
  cases hfind : c.table.find? name with
  | none =>
    rw [hfind, Option.map_none, Option.map_eq_none_iff] at hlookup
    rw [hlookup]
    exact .none
  | some symbol =>
    rw [hfind, Option.map_some] at hlookup
    obtain ⟨symbol', hfind', heq⟩ := Option.map_eq_some_iff.mp hlookup
    obtain ⟨hkind, hty⟩ := Prod.mk.inj heq
    have hsymbol : session.scopes.symbolAt session.global name = some symbol := by
      rw [symbolAt, c.found, Option.bind_some, hfind]
    have hsymbol' : c.final.scopes.symbolAt session.global name = some symbol' := by
      rw [symbolAt, hfinal, Option.bind_some, hfind']
    obtain ⟨last, hlast, hbecomes⟩ := ((c.continues_scopes hs).trans (c.continues_final hs)).symbol hsymbol
    obtain rfl : symbol' = last := Option.some.inj (hsymbol'.symm.trans hlast)
    rw [hfind']
    refine .some ⟨hkind, hbecomes.mutable_eq, fun hvar => .inr ?_, ?_⟩
    · cases hmutable : symbol.mutable with
      | true => exact .inl rfl
      | false => exact .inr ⟨rfl, symbol', hsymbol', hkind.trans hvar, hbecomes.mutable_eq.trans hmutable⟩
    · rw [hty]
      exact c.links_self fun ty hsome => hs.inRange (gives_of_symbolAt hsymbol hsome)

variable (hcomplete : session.Complete) (hnone : program.stmts.flatMap Stmt.symbols = [])

include hcomplete hnone

/-- The global names, their kinds and their types are those from before, since the program declares none. -/
theorem exists_table :
    ∃ table, c.final.scopes.scopeAt session.global = some ⟨none, table⟩ ∧ table.facts = c.table.facts := by
  obtain ⟨typed, hready, hannounces⟩ := c.exists_typed hs
  obtain ⟨-, table, hfinal, hfacts⟩ := c.exists_facts hs (hcomplete _ c.found) hready hannounces
  have hnames := hannounces.names
  rw [c.symbols_annotated, hnone] at hnames
  obtain rfl := List.map_eq_nil_iff.mp hnames
  exact ⟨table, hfinal, by rwa [List.append_nil] at hfacts⟩

/-! ### The start of the second submission -/

/-- **The first pass once more**, over the program with its records, opens the same scopes further on. -/
theorem annotate_again : ∃ new, c.scopes = session.scopes.append new ∧
    c.annotated.annotate session.options.strictShadowing session.global (.start c.final.scopes) =
      (c.annotated.relocate c.relocation.move, ⟨c.arena new, none⟩) := by
  obtain ⟨new, hnew, hlenient⟩ := c.annotate_lenient_again hs hnone
  refine ⟨new, hnew, ?_⟩
  -- Strict mode asks for the kinds of the global names, which are the same.
  have hprogram : program.annotate session.options.strictShadowing session.global (.start c.final.scopes) =
      (c.annotated.relocate c.relocation.move, ⟨c.arena new, none⟩) := by
    have hannotate := c.annotate
    cases hmode : session.options.strictShadowing with
    | false => exact hlenient
    | true =>
      rw [hmode] at hannotate
      obtain ⟨table, hfinal, hfacts⟩ := c.exists_table hs hcomplete hnone
      refine Program.annotate_strict_same hs.ordered ((c.step_final hs).shape.ordered (c.submitted hs).ordered) c.found
        hfinal (fun name => ?_) hannotate hlenient
      have hlookup := congrArg (List.lookup name) hfacts
      rw [Table.lookup_facts, Table.lookup_facts] at hlookup
      simpa [Function.comp_def] using congrArg (Option.map Prod.fst) hlookup
  have hsame := Program.annotate_alike session.options.strictShadowing c.erase_annotated.symm session.global
  rcases hsame.cases c.final.scopes with ⟨again, g, hrun, hrun'⟩ | ⟨ended, hended, hrun, -⟩
  · exact hrun'.trans (hrun.symm.trans hprogram)
  · rw [← hrun] at hended
    exact absurd (congrArg (fun after => after.2.halt) hprogram) hended

/-- **The scopes of the program** have moved, and those from before are where they were. -/
theorem moved_start {new : Array Scope} (hnew : c.scopes = session.scopes.append new) :
    c.relocation.Moved (c.companion new).links c.scopes (c.arena new) where
  size_le := by
    rw [hnew, arena, size_append, size_append, Array.size_map]
    exact Nat.add_le_add_right (c.size_le hs) _
  scope := fun {id outer table} hscope => by
    by_cases hid : id.index < session.scopes.size
    · have hmove : ∀ {old : ScopeId}, old.index < session.scopes.size → c.relocation.move old = old :=
        c.relocation.move_of_lt
      rw [hnew, scopeAt_append, if_pos hid] at hscope
      rw [hmove hid, arena, scopeAt_append, if_pos (hid.trans_le (c.size_le hs))]
      by_cases hglobal : id = session.global
      · subst hglobal
        -- The global scope has got values at most.
        cases c.found.symm.trans hscope
        obtain ⟨table, hfinal, hfacts⟩ := c.exists_table hs hcomplete hnone
        exact ⟨table, hfinal, c.twins_global hs hfinal hfacts⟩
      · -- An earlier scope is as it was, and stands inside earlier ones.
        have hleads := Leads.of_step (c.submitted hs) unbound_empty hs.clear_empty (c.step_final hs)
        refine ⟨table, ?_, fun name => c.twins_self fun symbol ty hfind hty => ?_⟩
        · rw [hleads.scopes.scope id hid hglobal, hscope]
          cases outer with
          | none => rfl
          | some parent =>
            have hparent := hs.ordered id parent (by rw [parentOf, hscope]; rfl)
            rw [Option.map_some, hmove (hparent.trans hid)]
        · exact hs.inRange ⟨_, hscope, _, mem_of_find? hfind, rfl, hty⟩
    · obtain ⟨n⟩ := id
      -- A scope of the program is opened anew, and has no types yet.
      have hle : session.scopes.size ≤ n := Nat.not_lt.mp hid
      have hfresh := (c.submitted hs).fresh.typeAt hle
      refine ⟨table, ?_, fun name => c.twins_self fun symbol ty hfind hty => ?_⟩
      · rw [hnew, scopeAt_append, if_neg hid] at hscope
        have hplace : n + c.relocation.gap = c.final.scopes.size + (n - session.scopes.size) := by
          have hsize := c.size_le hs
          show n + (c.final.scopes.size - session.scopes.size) = _
          omega
        rw [c.relocation.move_of_le hle, arena, hplace, scopeAt_append, if_neg (by simp), Nat.add_sub_cancel_left,
          Array.getElem?_map, hscope]
        rfl
      · have hsymbol : c.scopes.symbolAt ⟨n⟩ name = some symbol := by rw [symbolAt, hscope, Option.bind_some, hfind]
        cases (hfresh name).symm.trans (typeAt_of_symbolAt hsymbol hty)

/-! ## The second submission -/

omit hcomplete hnone in
/-- A program that assigns no constant spares the settled names. -/
theorem spares (hconstants : ∀ e ∈ c.annotated.nodes, e.assignsConstant c.final.scopes session.global = false) :
    c.relocation.Spares c.scopes c.annotated.nodes := by
  rintro e he name ⟨symbol, hsymbol, hkind, hmutable⟩
  refine Bool.eq_false_iff.mpr fun hassigns => ?_
  obtain ⟨mark, span, value, rfl, hdenotes⟩ := Expr.assigns_iff.mp hassigns
  have hshape : SameShape c.scopes c.final.scopes := (c.step_final hs).shape
  have hfinal : c.final.scopes.denotes mark name session.global = true := (hshape.denotes_eq mark name _).trans hdenotes
  have hconstant := hconstants _ he
  simp [Expr.assignsConstant, hfinal, hsymbol, hkind, hmutable] at hconstant

/-- **The program with its records is accepted again**, and its run is the companion's. The companion begins between
    the two stores, and is followed over all statements. -/
theorem exists_again (hspares : c.relocation.Spares c.scopes c.annotated.nodes) :
    ∃ (c' : c.outcome.session.Course c.annotated) (w : Companion), w.state = c'.final ∧
      Beside c.relocation c.final.types c.final w ∧ List.Forall₂ w.links c.tys c'.tys := by
  obtain ⟨table, hfinal, hfacts⟩ := c.exists_table hs hcomplete hnone
  obtain ⟨new, hnew, hannotate⟩ := c.annotate_again hs hcomplete hnone
  have hstart : Beside c.relocation c.final.types (.start session.types c.scopes) (c.companion new) :=
    ⟨c.between_start hs new, c.moved_start hs hcomplete hnone hnew, .nil⟩
  have hsubmitted := c.submitted hs
  have htyped : ∀ {name symbol}, c.table.find? name = some symbol → symbol.kind.isValue = true → symbol.ty.isSome :=
    fun hfind _ => Option.isSome_iff_exists.mpr (hcomplete _ c.found _ (Table.mem_facts hfind))
  obtain ⟨hready, hpre⟩ := c.step_ready hs True
  have hunderway := hsubmitted.underway unbound_empty hs.clear_empty (fun _ => htyped) hready hpre
  -- The declarations come first, though none of them declares a name.
  obtain ⟨pins, w₁, hdeclared, hle₁, hb₁, hforetold⟩ := predeclareAll_echoes (G := hsubmitted.guard ∅ True) trivial
    c.annotated.stmts (hsubmitted.admits unbound_empty hs.clear_empty) hsubmitted.nameable c.declared
    (c.step_inferred hs).1.types hstart
  have hpinned : List.Forall₂ w₁.links (pinnedTypes c.table) (pinnedTypes table) := by
    rw [pinnedTypes_eq_of_facts hfacts]
    refine List.forall₂_same.mpr fun ty hty => hle₁.link ⟨rfl, ?_⟩
    exact hs.inRange ⟨_, c.found, mem_pinnedTypes.mp hty⟩
  obtain ⟨tys, w₂, hinferred, -, hb₂, hlinks⟩ := inferStmts_echoes c.annotated.stmts trivial hsubmitted.placed.stmts
    hunderway (fun _ => ⟨hforetold.functions, hforetold.nodup⟩) hspares (List.rel_append hpinned hforetold.vars)
    c.inferred (.refl (c.admits_final hs).wf) hb₁
  rw [c.move_global] at hdeclared hinferred
  refine ⟨⟨table, c.annotated.relocate c.relocation.move, c.arena new, pins, w₁.state, tys, w₂.state, hfinal, hannotate,
    ?_, hinferred⟩, w₂, rfl, hb₂, hlinks⟩
  rwa [Program.relocate, predeclareAll_relocate]

end Course

variable {outcome : Outcome} {tys : List TypeId}

/-- **Checking again is stable.** An accepted program that declares no global names and assigns no constant among
    them is accepted again with its records, and all types are what they were, up to the names of variables: those
    of its statements, and those of the global names. -/
theorem Reachable.check_again (h : Reachable (·.rollbackOnError = true) session)
    (hnone : ∀ stmt ∈ program.stmts, stmt.symbols = []) (hcheck : session.check program = .ok outcome)
    (haccepted : outcome.result = .ok tys)
    (hconstants : ∀ e ∈ outcome.program.nodes, e.assignsConstant outcome.session.scopes session.global = false) :
    ∃ outcome' tys', outcome.session.check outcome.program = .ok outcome' ∧ outcome'.result = .ok tys' ∧
      ∃ ρ : Equiv.Perm TypeId,
        tys'.map outcome'.session.types.tree = tys.map (fun ty => (outcome.session.types.tree ty).rename ρ) ∧
        ∀ name, (outcome'.session.scopes.typeAt session.global name).map outcome'.session.types.tree =
          (outcome.session.scopes.typeAt session.global name).map
            fun ty => (outcome.session.types.tree ty).rename ρ := by
  have hs := h.sound
  obtain ⟨c, rfl, rfl⟩ := hs.exists_course hcheck haccepted
  obtain ⟨c', w, hw, hb, hlinks⟩ :=
    c.exists_again hs h.complete (List.flatMap_eq_nil_iff.mpr hnone) (c.spares hs hconstants)
  -- At the end the companion's store lies between the final store and itself, so linked types have the same trees up
  -- to names.
  obtain ⟨ρ, hρ⟩ := hb.types.exists_perm (c.admits_final hs).wf.grounded
  have hscopes := hb.scopes
  rw [hw] at hρ hscopes
  refine ⟨c'.outcome, c'.tys, c'.check_eq_ok, rfl, ρ, ?_, fun name => ?_⟩
  · show c'.tys.map c'.final.types.commit.tree = c.tys.map fun ty => (c.final.types.commit.tree ty).rename ρ
    rw [tree_commit, tree_commit]
    exact (map_eq_map_iff.mpr (hlinks.imp fun _ _ hlink => (hρ hlink).symm)).symm
  · show (c'.final.scopes.typeAt session.global name).map c'.final.types.commit.tree =
      (c.final.scopes.typeAt session.global name).map fun ty => (c.final.types.commit.tree ty).rename ρ
    rw [tree_commit, tree_commit]
    have hglobal : session.global.index < c.final.scopes.size := (lt_of_scopeAt c.found).trans_le (c.size_le hs)
    have htype := hscopes.typeAt hglobal name
    rw [c.move_global] at htype
    generalize c.final.scopes.typeAt session.global name = before, c'.final.scopes.typeAt session.global name = after
      at htype ⊢
    cases htype with
    | none => rfl
    | some hlink => exact congrArg some (hρ hlink)

/-! ### A variable that is assigned again -/

/-- A variable gets the type of a function, which is then used. -/
def assignIdentity : Program :=
  let mark : Mark := .fresh .origin
  ⟨[.expr (.assign mark ⟨"b", .origin⟩ (.name mark ⟨"id", .origin⟩)), .expr (.name mark ⟨"id", .origin⟩)], none⟩

/-- A session with a function, and with a variable that may be assigned. -/
def withVariable : Session := ((new {}).submit identity).submit openVariable

/-- The variable is assigned a second time, and what is known of it plays no part. -/
theorem check_again_assignIdentity :
    ∃ outcome tys, withVariable.check assignIdentity = .ok outcome ∧ outcome.result = .ok tys ∧
      ∃ outcome' tys', outcome.session.check outcome.program = .ok outcome' ∧ outcome'.result = .ok tys' ∧
        ∃ ρ : Equiv.Perm TypeId,
          tys'.map outcome'.session.types.tree = tys.map (fun ty => (outcome.session.types.tree ty).rename ρ) ∧
          ∀ name, (outcome'.session.scopes.typeAt withVariable.global name).map outcome'.session.types.tree =
            (outcome.session.scopes.typeAt withVariable.global name).map
              fun ty => (outcome.session.types.tree ty).rename ρ := by
  have hnew : Reachable (·.rollbackOnError = true) (new {}) := .new {}
  have hreachable : Reachable (·.rollbackOnError = true) withVariable :=
    (hnew.submit rfl identity).submit (by decide +kernel) openVariable
  obtain ⟨outcome, tys, hcheck, haccepted⟩ :=
    exists_of_accepts (by decide +kernel : withVariable.accepts assignIdentity = true)
  have hconstants : (withVariable.check assignIdentity).toOption.any (fun outcome => outcome.program.nodes.all fun e =>
      !e.assignsConstant outcome.session.scopes withVariable.global) = true := by decide +kernel
  rw [hcheck] at hconstants
  exact ⟨outcome, tys, hcheck, haccepted,
    hreachable.check_again (by decide) hcheck haccepted (by simpa [Except.toOption] using hconstants)⟩

end Session

end TypeInference
