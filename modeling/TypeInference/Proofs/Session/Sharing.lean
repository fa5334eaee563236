import TypeInference.Proofs.Session.Visits

/-!
# `Proofs.Session.Sharing` — all uses of a global variable have its type

A variable is pinned in the program that declares it, and in every later program if it has a type when that is
submitted. Then all its uses in the program have one type, the variable's own. A variable that a refused program has
left without a type is not pinned; each use in the next program copies the type that the first one gives it.

Main statement: `Reachable.check_shares`.
-/

namespace TypeInference

open Store Scopes InferM

namespace Session

variable {session : Session} {under : Options → Prop} {program : Program} {outcome : Outcome} {name : String}

/-! ## Uses of a variable -/

/-- The type of a global variable is pinned when the statements are looked at, if it is declared in the program or
    had a type before. -/
theorem Course.exists_pinned (c : session.Course program) (h : session.Sound) {symbol : Symbol}
    (hsymbol : c.ready.scopes.symbolAt session.global name = some symbol) (hvar : symbol.kind = .var)
    (hknown : ∀ old, session.scopes.symbolAt session.global name = some old → old.ty.isSome) :
    ∃ ty, c.ready.scopes.typeAt session.global name = some ty ∧ ty ∈ pinnedTypes c.table ++ c.pins.vars := by
  have hstep := c.step_ready h True
  obtain ⟨first, hfirst, hkind⟩ := hstep.1.shape.symm.symbol hsymbol
  rw [hvar] at hkind
  by_cases hname : name ∈ declaredNames (declarations c.annotated.stmts)
  · rw [declaredNames, ← flatMap_symbols] at hname
    obtain ⟨entry, hentry, rfl⟩ := List.mem_map.mp hname
    obtain ⟨ty, hty, hpinned⟩ := hstep.2.values trivial entry (flatMap_symbols c.annotated.stmts ▸ hentry)
    obtain rfl : first = entry.2 := Option.some.inj (hfirst.symm.trans ((c.submitted h).symbolAt_of_mem hentry))
    exact ⟨ty, hty, List.mem_append_right _ (hpinned hkind)⟩
  · have hold := (c.submitted h).find?_of_not_mem hfirst hname
    obtain ⟨ty, hty⟩ := Option.isSome_iff_exists.mp
      (hknown first (by rw [symbolAt, c.found, Option.bind_some, hold]))
    refine ⟨ty, (hstep.2.others name hname).trans (typeAt_of_symbolAt hfirst hty), List.mem_append_left _ ?_⟩
    exact mem_pinnedTypes.mpr ⟨_, mem_of_find? hold, hkind, hty⟩

/-- **Global variables are monomorphic**: if a variable had a type when the program was submitted, or is declared in
    it, then every use of it in the program has the variable's own type in the session as it goes on. -/
theorem Reachable.check_shares (h : Reachable under session) (hcheck : session.check program = .ok outcome)
    {tys : List TypeId} (haccepted : outcome.result = .ok tys) {symbol : Symbol}
    (hsymbol : outcome.session.scopes.symbolAt session.global name = some symbol) (hvar : symbol.kind = .var)
    (hknown : ∀ old, session.scopes.symbolAt session.global name = some old → old.ty.isSome) :
    (session.visits program).map Visit.expr = outcome.program.nodes ∧ ∃ ty, symbol.ty = some ty ∧
      ∀ v ∈ session.visits program, v.expr.uses outcome.session.scopes session.global name = true →
        outcome.session.types.same v.type ty = .ok true ∧
        ∀ w ∈ session.visits program, w.expr.uses outcome.session.scopes session.global name = true →
          outcome.session.types.same v.type w.type = .ok true := by
  obtain ⟨c, -, rfl⟩ := h.sound.exists_course hcheck haccepted
  replace hsymbol : c.final.scopes.symbolAt session.global name = some symbol := hsymbol
  obtain ⟨ready, hready, hkind⟩ := (c.step_inferred h.sound).1.shape.symm.symbol hsymbol
  obtain ⟨ty, hty, hpinned⟩ := c.exists_pinned h.sound hready (hkind.trans hvar) hknown
  -- The one anchor is the variable with its type; it is there from the start and is never lost.
  let A : Anchors := fun id key t => id = session.global ∧ key = name ∧ t = ty
  have hbelow : A.Below session.scopes.size := by
    rintro _ _ _ ⟨rfl, -, -⟩
    exact (c.submitted h.sound).global_lt
  have hanchored : c.ready.Anchored A := by
    rintro _ _ _ ⟨rfl, rfl, rfl⟩
    exact hty
  obtain ⟨hmoves, htraced⟩ := c.traced h.sound hbelow hanchored
  have htype : symbol.ty = some ty := hmoves.anchored.ty_eq hsymbol ⟨rfl, rfl, rfl⟩
  have hsound := c.sound_outcome h.sound
  have hgrounded : c.final.types.Grounded := (c.admits_final h.sound).wf.grounded
  -- Each use has been given an instance of a pinned type, which shares all of its variables.
  have huses : ∀ v ∈ session.visits program, v.expr.uses c.final.scopes session.global name = true →
      v.type.index < c.final.types.size ∧ c.final.types.tree v.type = c.final.types.tree ty := fun v hv huse =>
    (htraced.visited v hv).shares huse ⟨rfl, rfl, rfl⟩ hpinned hgrounded (.refl _)
  have hsame : ∀ {a b : TypeId}, a.index < c.final.types.size → b.index < c.final.types.size →
      c.final.types.tree a = c.final.types.tree b → c.final.types.commit.same a b = .ok true := by
    intro a b ha hb htree
    have hcommit : c.final.types.commit.tree a = c.final.types.commit.tree b := by rwa [tree_commit]
    obtain ⟨r, hr, hiff⟩ := hsound.wf.grounded.same_eq_ok (a := a) (b := b) ha hb
    rwa [hiff.mpr hcommit] at hr
  refine ⟨htraced.listed, ty, htype, fun v hv huse => ?_⟩
  obtain ⟨hlt, htree⟩ := huses v hv huse
  refine ⟨hsame hlt ((c.admits_final h.sound).lt_of_typeAt (typeAt_of_symbolAt hsymbol htype)) htree,
    fun w hw huse' => ?_⟩
  obtain ⟨hlt', htree'⟩ := huses w hw huse'
  exact hsame hlt hlt' (htree.trans htree'.symm)

/-! ### Variables with and without a type -/

/-- A variable without a written type, and beside it one whose type is the given signature. -/
def declaresVariables (signature : Option Signature) : Program :=
  ⟨[.vars .origin .mutable [⟨.origin, ⟨"a", .origin⟩, signature, none⟩, ⟨.origin, ⟨"b", .origin⟩, none, none⟩]], none⟩

/-- Two uses of the variable, each of them a statement. -/
def usesVariable : Program :=
  let mark : Mark := .fresh .origin
  ⟨[.expr (.name mark ⟨"b", .origin⟩), .expr (.name mark ⟨"b", .origin⟩)], none⟩

/-- A variable that an earlier program has declared. -/
theorem check_shares_usesVariable :
    ∃ outcome symbol, ((new {}).submit (declaresVariables none)).check usesVariable = .ok outcome ∧
      outcome.session.scopes.symbolAt ⟨0⟩ "b" = some symbol ∧ symbol.kind = .var ∧
      ((((new {}).submit (declaresVariables none)).visits usesVariable).map fun v =>
        v.expr.uses outcome.session.scopes ⟨0⟩ "b") = [true, true] ∧ ∃ ty, symbol.ty = some ty ∧
      ∀ v ∈ ((new {}).submit (declaresVariables none)).visits usesVariable,
        v.expr.uses outcome.session.scopes ⟨0⟩ "b" = true → outcome.session.types.same v.type ty = .ok true := by
  obtain ⟨outcome, tys, hcheck, haccepted⟩ := exists_of_accepts
    (by decide +kernel : ((new {}).submit (declaresVariables none)).accepts usesVariable = true)
  have hreachable : Reachable (fun _ => True) ((new {}).submit (declaresVariables none)) :=
    (Reachable.new {}).submit trivial _
  have hold : ((new {}).submit (declaresVariables none)).scopes.symbolAt ⟨0⟩ "b" =
      some ⟨.var, true, false, some ⟨5⟩, .origin⟩ := by decide +kernel
  have hsymbol : outcome.session.scopes.symbolAt ⟨0⟩ "b" = some ⟨.var, true, false, some ⟨5⟩, .origin⟩ := by
    rw [← submit_of_check hcheck]
    decide +kernel
  have huses : ((((new {}).submit (declaresVariables none)).visits usesVariable).map fun v =>
      v.expr.uses outcome.session.scopes ⟨0⟩ "b") = [true, true] := by
    rw [← submit_of_check hcheck]
    decide +kernel
  obtain ⟨-, ty, hty, hshares⟩ := hreachable.check_shares hcheck haccepted hsymbol rfl
    fun old h => by cases h.symm.trans hold; rfl
  exact ⟨outcome, _, hcheck, hsymbol, rfl, huses, ty, hty, fun v hv huse => (hshares v hv huse).1⟩

/-- A session that has kept the names of a refused program; one of them has no type. -/
def leftover : Session := (new { rollbackOnError := false }).submit (declaresVariables (some (.name ⟨"c", .origin⟩)))

/-- **A variable without a type is not pinned**: each use of it gets a type of its own. -/
theorem not_shares_leftover :
    leftover.accepts usesVariable = true ∧
      ((leftover.visits usesVariable).map fun v => (v.type,
        v.expr.uses (leftover.submit usesVariable).scopes leftover.global "b")) = [(⟨5⟩, true), (⟨6⟩, true)] ∧
      (leftover.submit usesVariable).types.same ⟨5⟩ ⟨6⟩ = .ok false := by
  refine ⟨?_, ?_, ?_⟩
  · decide +kernel
  · decide +kernel
  · decide +kernel

end Session

end TypeInference
