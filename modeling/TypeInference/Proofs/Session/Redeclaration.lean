import TypeInference.Proofs.Scoping.Redeclaration
import TypeInference.Proofs.Session.Course

/-!
# `Proofs.Session.Redeclaration` — without strict mode, only names declared twice are refused

The first pass over a submission has one reason to refuse it when strict mode is off: a name that the scope of its
declaration has already. Whether there is one is a matter of the frames of the text alone, except that the names at
the top level come on top of those that the session holds. The names at the top level are declared before anything
inside, so the global scope tells how far the pass has come.

Main statement: `Reachable.scoping_redeclares`.
-/

namespace TypeInference

open Scopes

namespace Session

variable {session : Session} {under : Options → Prop}

/-! ## Names that are declared twice -/

/-- **The first pass refuses exactly the programs that declare a name twice.** A name at the top level may not be one
    that the global scope held before, either. The reason is the first such declaration, where those of a list of
    statements, of parameters, or of a label with its statement come before everything inside. Then the global scope
    has the names that the program declares before it at the top level, or all of them if it stands further inside. -/
theorem Reachable.scoping_redeclares (h : Reachable under session)
    (hstrict : session.options.strictShadowing = false) (program : Program) :
    ∃ held, session.scopes.table session.global = .ok held ∧
      ((session.scoping program).2.halt = none ↔
        Table.Fresh held (stmtsFrame program.stmts) ∧
          ∀ frame ∈ openedFrames (program.sites held), Table.Fresh [] frame) ∧
      ∀ reason, (session.scoping program).2.halt = some reason →
        ∃ front name symbol, reason = .failure ⟨.duplicate symbol.kind name, symbol.span⟩ ∧
          ((Table.Redeclares held (stmtsFrame program.stmts) front name symbol ∧
              (session.scoping program).2.scopes.table session.global = .ok (held ++ front)) ∨
            (Table.Fresh held (stmtsFrame program.stmts) ∧
              (session.scoping program).2.scopes.table session.global = .ok (held ++ stmtsFrame program.stmts) ∧
              ∃ nearer frame further, openedFrames (program.sites held) = nearer ++ frame :: further ∧
                (∀ other ∈ nearer, Table.Fresh [] other) ∧ Table.Redeclares [] frame front name symbol)) := by
  obtain ⟨held, hfound⟩ := h.sound.found
  have hrun : session.scoping program = program.annotate false session.global ⟨session.scopes, none⟩ := by
    rw [scoping, hstrict]
    rfl
  obtain ⟨hhalt, hfront, hall⟩ := Program.annotate_redeclares h.sound.ordered hfound program
  rw [← hrun] at hhalt hfront hall
  refine ⟨held, table_eq_ok hfound, ?_, fun reason hreason => ?_⟩
  · rw [hhalt, Option.or_eq_none_iff, Option.map_eq_none_iff, Table.repeated?_eq_none_iff, haltAt_eq_none_iff]
  · rw [hhalt] at hreason
    cases hrepeated : Table.repeated? held (stmtsFrame program.stmts) with
    -- A repetition at the top level comes before everything inside.
    | some entry =>
      obtain ⟨name, symbol⟩ := entry
      rw [hrepeated] at hreason
      cases hreason
      obtain ⟨front, hredeclares, hscope⟩ := hfront name symbol hrepeated
      exact ⟨front, name, symbol, rfl, .inl ⟨hredeclares, table_eq_ok hscope⟩⟩
    | none =>
      rw [hrepeated, Option.map_none, Option.none_or] at hreason
      obtain ⟨nearer, frame, further, front, name, symbol, hframes, hnearer, hredeclares, rfl⟩ :=
        exists_of_haltAt_eq_some hreason
      exact ⟨front, name, symbol, rfl, .inr ⟨Table.repeated?_eq_none_iff.mp hrepeated, table_eq_ok (hall hrepeated),
        nearer, frame, further, hframes, hnearer, hredeclares⟩⟩

/-! ### A function with two parameters of one name -/

/-- A function under a label of its own name, whose parameters have one name as well. -/
def repeatsNames : Program :=
  let mark : Mark := .fresh .origin
  ⟨[.vars .origin .mutable [⟨.origin, ⟨"a", .origin⟩, none, none⟩],
    .label mark ⟨"f", ⟨1, 1⟩⟩ (.function mark ⟨"f", ⟨2, 1⟩⟩
      [⟨.origin, ⟨"b", ⟨3, 1⟩⟩, none⟩, ⟨.origin, ⟨"b", ⟨4, 1⟩⟩, none⟩] none (.mk mark []))], none⟩

/-- The function is declared before its parameters, and is the reason; the variable at the top level is declared. -/
theorem scoping_redeclares_repeatsNames :
    (((new {}).submit identity).scoping repeatsNames).2.halt =
        some (.failure ⟨.duplicate .function "f", ⟨2, 1⟩⟩) ∧
      ∃ held front name symbol, (.function, "f", ⟨2, 1⟩) = (symbol.kind, name, symbol.span) ∧
        (((new {}).submit identity).scoping repeatsNames).2.scopes.table ((new {}).submit identity).global =
          .ok (held ++ stmtsFrame repeatsNames.stmts) ∧
        ∃ nearer frame further, openedFrames (repeatsNames.sites held) = nearer ++ frame :: further ∧
          (∀ other ∈ nearer, Table.Fresh [] other) ∧ Table.Redeclares [] frame front name symbol := by
  have hreachable : Reachable (fun _ => True) ((new {}).submit identity) := (Reachable.new {}).submit trivial _
  have hhalt : (((new {}).submit identity).scoping repeatsNames).2.halt =
      some (.failure ⟨.duplicate .function "f", ⟨2, 1⟩⟩) := by decide +kernel
  obtain ⟨held, -, -, hrefused⟩ := hreachable.scoping_redeclares (by decide +kernel) repeatsNames
  obtain ⟨front, name, symbol, hreason, ⟨⟨⟨back, hback⟩, -, -⟩, -⟩ | ⟨-, hglobal, hnested⟩⟩ := hrefused _ hhalt
  all_goals
    injection hreason with hdiagnostic
    injection hdiagnostic with hcause hspan
    injection hcause with hkind hname
  · -- The variable at the top level has another name.
    have hmem : (name, symbol) ∈ stmtsFrame repeatsNames.stmts := by rw [hback]; simp
    cases List.mem_singleton.mp hmem
    exact absurd hname (by decide)
  · exact ⟨hhalt, held, front, name, symbol, by rw [hkind, hname, hspan], hglobal, hnested⟩

end Session

end TypeInference
