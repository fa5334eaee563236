import TypeInference.Proofs.Scoping.Relocation

/-!
# `Proofs.Scoping.Uniform` — programs scoped one after another

Without strict mode the pass depends on the number of scopes only, and opens scopes at the end. So programs can be
scoped one after another or all at once, as long as they declare different names.

## Contents
* `annotateStmts_append` — statements one list after another;
* `declareAll_append_eq_ok` — names of one program and of another;
* `Program.annotate_append` — two programs as one.
-/

namespace TypeInference

open ScopingM

/-! ## Statements -/

/-- **Statements are scoped one list after another**, in strict mode as well: the pass over a list is the pass over
    its parts in order. -/
theorem annotateStmts_append (strict : Bool) (parent : ScopeId) (stmts more : List Stmt) :
    annotateStmts strict parent (stmts ++ more) = (do
      let stmts ← annotateStmts strict parent stmts
      let more ← annotateStmts strict parent more
      pure (stmts ++ more)) := by
  induction stmts with
  | nil => simp [annotateStmts]
  | cons stmt rest ih => simp [annotateStmts, ih]

/-! ## Programs -/

open Scopes

/-- New names can be declared, one after another, in whatever arena the scope has its table. -/
theorem declareAll_eq_ok {own : ScopeId} {outer : Option ScopeId} :
    ∀ (symbols : List (Ident × Symbol)) {g : Scopes} {table : Table}, g.scopeAt own = some ⟨outer, table⟩ →
      (namesOf symbols).Nodup → (∀ name ∈ namesOf symbols, table.find? name = none) →
      ∃ g', declareAll false own symbols ⟨g, none⟩ = ((), ⟨g', none⟩) ∧
        Refilled g own (table ++ entriesOf symbols) g'
  | [], g, table, hown, _, _ => ⟨g, rfl, by rw [entriesOf, List.map_nil, List.append_nil]; exact .refl hown⟩
  | entry :: symbols, g, table, hown, hnodup, hfresh => by
    obtain ⟨hnot, hnodup⟩ := List.nodup_cons.mp hnodup
    obtain ⟨g₁, hinsert, hrefilled⟩ := insert_eq_ok hown (hfresh _ List.mem_cons_self) entry.2
    have hown₁ : g₁.scopeAt own = some ⟨outer, table ++ [(entry.1.name, entry.2)]⟩ := by
      rw [hrefilled.scope, if_pos rfl, hown]
      rfl
    obtain ⟨g', hrest, hrefilled'⟩ := declareAll_eq_ok symbols hown₁ hnodup fun name hname => by
      rw [Table.find?_append, hfresh name (List.mem_cons_of_mem _ hname), Option.none_or, Table.find?_cons,
        if_neg, Table.find?_nil]
      rintro rfl
      exact hnot hname
    refine ⟨g', ?_, hrefilled.trans (by rwa [List.append_assoc] at hrefilled')⟩
    show declareAll false own symbols (attempt (·.insert own entry.1.name entry.2) ⟨g, none⟩).2 = _
    rw [attempt_of_ok hinsert, hrest]

/-- More names can be declared, if they are new after the first ones. -/
theorem declareAll_append_eq_ok {own : ScopeId} {outer : Option ScopeId} {g : Scopes} {table : Table}
    {symbols more : List (Ident × Symbol)} (hown : g.scopeAt own = some ⟨outer, table⟩)
    (hnodup : (namesOf symbols).Nodup) (hnodup' : (namesOf more).Nodup)
    (hfresh : ∀ name ∈ namesOf symbols, table.find? name = none)
    (hlater : ∀ name ∈ namesOf more, (table ++ entriesOf symbols).find? name = none) :
    ∃ g', declareAll false own (symbols ++ more) ⟨g, none⟩ = ((), ⟨g', none⟩) ∧
      Refilled g own (table ++ entriesOf (symbols ++ more)) g' := by
  have hneither : ∀ name ∈ namesOf more, table.find? name = none ∧ (entriesOf symbols).find? name = none :=
    fun name hname => by
      have hnone := hlater name hname
      rwa [Table.find?_append, Option.or_eq_none_iff] at hnone
  refine declareAll_eq_ok (symbols ++ more) hown ?_ fun name hname => ?_
  · rw [namesOf_append]
    refine List.nodup_append.mpr ⟨hnodup, hnodup', fun name hname other hother he => ?_⟩
    subst he
    obtain ⟨entry, hentry, rfl⟩ := List.mem_map.mp hname
    cases (hneither _ hother).2.symm.trans (find?_entriesOf hnodup hentry)
  · rw [namesOf_append] at hname
    exact (List.mem_append.mp hname).elim (hfresh name) fun hname => (hneither name hname).1

/-! ### Two programs as one -/

/-- What the pass over a program does that is not refused: it declares the names, all new, and opens scopes at
    the end. -/
theorem Program.annotate_eq_ok {g g' : Scopes} {global : ScopeId} {outer : Option ScopeId} {table : Table}
    {program annotated : Program} (ho : g.Ordered) (hglobal : g.scopeAt global = some ⟨outer, table⟩)
    (hrun : program.annotate false global (.start g) = (annotated, ⟨g', none⟩)) :
    ∃ d new, Refilled g global (table ++ entriesOf (program.stmts.flatMap Stmt.symbols)) d ∧
      (namesOf (program.stmts.flatMap Stmt.symbols)).Nodup ∧
      (∀ name ∈ namesOf (program.stmts.flatMap Stmt.symbols), table.find? name = none) ∧ g' = d.append new ∧
      ∀ h : Scopes, h.size = d.size →
        annotateStmts false global program.stmts ⟨h, none⟩ = (annotated.stmts, ⟨h.append new, none⟩) := by
  obtain ⟨⟨added, hrefilled, -, hall⟩, -⟩ := declareAll_run false (program.stmts.flatMap Stmt.symbols) ho hglobal
  have hrun' : (annotateStmts false global program.stmts
      (declareAll false global (program.stmts.flatMap Stmt.symbols) ⟨g, none⟩).2).1 = annotated.stmts ∧
      (annotateStmts false global program.stmts
        (declareAll false global (program.stmts.flatMap Stmt.symbols) ⟨g, none⟩).2).2 = ⟨g', none⟩ :=
    ⟨congrArg (fun result => result.1.stmts) hrun, congrArg (fun result => result.2) hrun⟩
  generalize (declareAll false global (program.stmts.flatMap Stmt.symbols) ⟨g, none⟩).2 = after at *
  obtain ⟨d, halt⟩ := after
  cases halt with
  | some reason =>
    have hidle := idle_annotateStmts program.stmts global ⟨d, some reason⟩ (by simp)
    rw [hrun'.2] at hidle
    cases hidle
  | none =>
    obtain ⟨rfl, hnodup, hfresh⟩ := hall rfl
    obtain ⟨new, rfl, -⟩ := annotateStmts_same (rfl : d.size = d.size) (Prod.ext hrun'.1 hrun'.2)
    refine ⟨d, new, hrefilled, hnodup, hfresh, rfl, fun h hsize => ?_⟩
    obtain ⟨new', hnew, hsame⟩ := annotateStmts_same hsize (Prod.ext hrun'.1 hrun'.2)
    have harray : d.toArray ++ new = d.toArray ++ new' := congrArg Scopes.toArray hnew
    rw [hsame, Array.append_right_inj d.toArray |>.mp harray]

/-- **Two programs scoped one after another are scoped as one.** Between the two, symbols may have changed, but
    neither the number of scopes nor the names of the global one. -/
theorem Program.annotate_append {g g' h h' : Scopes} {global : ScopeId} {table table' : Table}
    {first second whole annotated annotated' : Program} (ho : g.Ordered) (ho' : h.Ordered)
    (hglobal : g.scopeAt global = some ⟨none, table⟩) (hglobal' : h.scopeAt global = some ⟨none, table'⟩)
    (hfirst : first.annotate false global (.start g) = (annotated, ⟨g', none⟩)) (hsize : h.size = g'.size)
    (hnames : ∀ name, h.symbolAt global name = none → g'.symbolAt global name = none)
    (hsecond : second.annotate false global (.start h) = (annotated', ⟨h', none⟩))
    (hwhole : whole.stmts = first.stmts ++ second.stmts) :
    ∃ k, whole.annotate false global (.start g) =
        (⟨annotated.stmts ++ annotated'.stmts, some global⟩, ⟨k, none⟩) ∧ k.size = h'.size ∧
      ∀ id, id ≠ global → k.scopeAt id = if id.index < g'.size then g'.scopeAt id else h'.scopeAt id := by
  obtain ⟨d, new, hrefilled, hnodup, hfresh, rfl, hstmts⟩ := Program.annotate_eq_ok ho hglobal hfirst
  obtain ⟨d', new', hrefilled', hnodup', hfresh', rfl, hstmts'⟩ := Program.annotate_eq_ok ho' hglobal' hsecond
  -- The names of the second program are new after those of the first.
  have hlater : ∀ name ∈ namesOf (second.stmts.flatMap Stmt.symbols),
      (table ++ entriesOf (first.stmts.flatMap Stmt.symbols)).find? name = none := by
    intro name hname
    have hnone := hnames name (by rw [symbolAt, hglobal', Option.bind_some, hfresh' name hname])
    rwa [symbolAt, scopeAt_append, if_pos (by rw [hrefilled.size_eq]; exact lt_of_scopeAt hglobal),
      hrefilled.scopeAt_own hglobal, Option.bind_some] at hnone
  obtain ⟨k, hdeclare, hk⟩ := declareAll_append_eq_ok hglobal hnodup hnodup' hfresh hlater
  rw [← List.flatMap_append, ← hwhole] at hdeclare hk
  have hksize : k.size = d.size := hk.size_eq.trans hrefilled.size_eq.symm
  have hksize' : (k.append new).size = d'.size := by
    rw [size_append, hksize, ← size_append, ← hsize, hrefilled'.size_eq]
  refine ⟨k.append (new ++ new'), ?_, ?_, fun id hid => ?_⟩
  · show ((⟨(annotateStmts false global whole.stmts
      (declareAll false global (whole.stmts.flatMap Stmt.symbols) ⟨g, none⟩).2).1, some global⟩ : Program),
      (annotateStmts false global whole.stmts
        (declareAll false global (whole.stmts.flatMap Stmt.symbols) ⟨g, none⟩).2).2) = _
    have hboth : annotateStmts false global whole.stmts ⟨k, none⟩ =
        (annotated.stmts ++ annotated'.stmts, ⟨k.append (new ++ new'), none⟩) := by
      rw [hwhole, annotateStmts_append]
      show ((annotateStmts false global first.stmts ⟨k, none⟩).1 ++
        (annotateStmts false global second.stmts (annotateStmts false global first.stmts ⟨k, none⟩).2).1,
        (annotateStmts false global second.stmts (annotateStmts false global first.stmts ⟨k, none⟩).2).2) = _
      rw [hstmts k hksize, hstmts' _ hksize', append_append]
    rw [hdeclare, hboth]
  · rw [← append_append, size_append, hksize', ← size_append]
  · -- The scopes of the first program are the same in both arenas, and so are those of the second.
    have hold : (k.append new).scopeAt id = (d.append new).scopeAt id := by
      rw [scopeAt_append, scopeAt_append, hksize, hk.scope, if_neg hid, hrefilled.scope, if_neg hid]
    have hlast : d'.size = (d.append new).size := hrefilled'.size_eq.trans hsize
    rw [← append_append, scopeAt_append, hksize', hlast, hold, scopeAt_append d' new', hlast]
    split <;> rfl

end TypeInference
