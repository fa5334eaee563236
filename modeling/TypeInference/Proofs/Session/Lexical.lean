import TypeInference.Proofs.Scoping.Erasure
import TypeInference.Proofs.Scoping.Lexical
import TypeInference.Proofs.Session.Reachable

/-!
# `Proofs.Session.Lexical` — submissions are scoped as their text is nested

The first pass over a submitted program leaves it placed, whatever scopes its nodes had recorded before. So the
new scopes of the session are the nesting of the text, on top of what the global scope held, and every name
means the innermost declaration around it.
-/

namespace TypeInference

open Scopes

namespace Session

variable {session : Session} {under : Options → Prop} {program annotated : Program} {scopes : Scopes}

/-! ## The nesting of the text -/

/-- A program that has been scoped has the frames of its text, on top of what the global scope held. -/
theorem Sound.lexical {held : Table} (h : session.Sound)
    (hfound : session.scopes.scopeAt session.global = some ⟨none, held⟩)
    (hpass : program.annotate session.options.strictShadowing session.global (.start session.scopes) =
      (annotated, ⟨scopes, none⟩)) :
    Lexical scopes (annotated.sites held) session.scopes.size scopes.size := by
  have hscoped := Program.annotate_run session.options.strictShadowing h.ordered hfound program
  have hscope : annotated.scope = some session.global := by
    have hrecord := congrArg (fun result => result.1.scope) hpass
    exact hrecord.symm
  rw [hpass] at hscoped
  have hplaced := hscoped.placed rfl
  have hglobal : scopes.Chain session.global [held ++ stmtsFrame annotated.stmts] := by
    rw [← entriesOf_stmts]
    exact .outermost hplaced.scope
  exact .stand hglobal hscope (PlacedStmts.lexical hglobal hplaced.stmts)

/-- **The first pass realises the nesting of the text.** It changes nothing of a program but the scopes that
    are recorded in it, opens one scope for each block, function, lambda and label, numbered in the order of
    the text, and leads from every recorded scope along the frames around its node. So a name means the
    innermost declaration around the place where it stands. -/
theorem Reachable.scoped_lexically (h : Reachable under session)
    (hpass : program.annotate session.options.strictShadowing session.global (.start session.scopes) =
      (annotated, ⟨scopes, none⟩)) :
    ∃ held, session.scopes.table session.global = .ok held ∧ annotated.erase = program.erase ∧
      Lexical scopes (annotated.sites held) session.scopes.size scopes.size ∧
      ∀ site ∈ annotated.sites held, ∀ id, site.scope = some id → ∀ name,
        ∃ found, scopes.lookup id name = .ok found ∧ scopes.Innermost site.frames name found := by
  obtain ⟨held, hfound⟩ := h.sound.found
  have hscoped := Program.annotate_run session.options.strictShadowing h.sound.ordered hfound program
  have herase := Program.erase_annotate session.options.strictShadowing program session.global
    (.start session.scopes)
  rw [hpass] at hscoped herase
  have hlexical := h.sound.lexical hfound hpass
  refine ⟨held, table_eq_ok hfound, herase, hlexical, ?_⟩
  intro site hsite id hid name
  obtain ⟨id', hid', hchain⟩ := hlexical.framed site hsite
  obtain rfl : id = id' := Option.some.inj (hid.symm.trans hid')
  exact hchain.lookup_eq_ok hscoped.ordered name

/-! ### A variable that is declared later -/

/-- A function whose body uses, under a label and in a lambda, a variable that the body declares later. -/
def laterVariable : Program :=
  let mark : Mark := .fresh .origin
  let use : Expr := .lambda mark none [⟨.origin, ⟨"a", .origin⟩, none⟩] (.name mark ⟨"b", .origin⟩)
  ⟨[.function mark ⟨"f", .origin⟩ [⟨.origin, ⟨"a", .origin⟩, none⟩] none
    (.mk mark [.label mark ⟨"l", .origin⟩ (.vars .origin .constant [⟨.origin, ⟨"c", .origin⟩, none, some use⟩]),
      .vars .origin .mutable [⟨.origin, ⟨"b", .origin⟩, none, none⟩]])], none⟩

/-- The function, its body, the label and the lambda get scopes, after an earlier program has got some. -/
theorem scoped_lexically_laterVariable :
    ∃ annotated scopes held, laterVariable.annotate false ((new {}).submit identity).global
        (.start ((new {}).submit identity).scopes) = (annotated, ⟨scopes, none⟩) ∧
      ((new {}).submit identity).scopes.table ((new {}).submit identity).global = .ok held ∧
      annotated.erase = laterVariable.erase ∧
      Lexical scopes (annotated.sites held) ((new {}).submit identity).scopes.size scopes.size ∧
      ∀ site ∈ annotated.sites held, ∀ id, site.scope = some id → ∀ name,
        ∃ found, scopes.lookup id name = .ok found ∧ scopes.Innermost site.frames name found := by
  have hhalt : (laterVariable.annotate false ((new {}).submit identity).global
      (.start ((new {}).submit identity).scopes)).2.halt = none := by decide +kernel
  have hreachable : Reachable (fun _ => True) ((new {}).submit identity) := (Reachable.new {}).submit trivial _
  have hstrict : ((new {}).submit identity).options.strictShadowing = false := by decide +kernel
  rcases hpass : laterVariable.annotate false ((new {}).submit identity).global
    (.start ((new {}).submit identity).scopes) with ⟨annotated, scopes, halt⟩
  rw [hpass] at hhalt
  obtain rfl : halt = none := hhalt
  obtain ⟨held, hrest⟩ := hreachable.scoped_lexically (by rw [hstrict]; exact hpass)
  exact ⟨annotated, scopes, held, rfl, hrest⟩

end Session

end TypeInference
