import TypeInference.Proofs.Session.Lexical
import TypeInference.Proofs.Session.Visits

/-!
# `Proofs.Session.Assignment` — how often a constant is assigned

A symbol that is not mutable may be assigned while it has no value, and has one from the end of the first assignment
on; names go on meaning what they meant, so no later assignment to it is accepted, in this program or another. What
is looked at before the end of an assignment is its own value. So all assignments to such a symbol stand inside each
other, and unless they do there is one at most.

## Contents
* `Scopes.Continues` — arenas that go on, from one submission to the next;
* `Program.Declares` — the symbols that a program declares, as its text says;
* `Session.History`, `assignments` — accepted submissions one after another, and the assignments in them;
* `Course.assignments_nested` — one submission;
* `History.assigned_once` — all of them.
-/

namespace TypeInference

open Store Scopes InferM

variable {g g' g'' : Scopes} {id owner : ScopeId} {name : String}

/-! ## Arenas that go on -/

/-- What a name meant it still means, and the symbol has got a type or a value at most. -/
def Scopes.Continues (g g' : Scopes) : Prop :=
  ∀ ⦃id name owner symbol⦄, g.lookup id name = .ok (some (owner, symbol)) →
    ∃ symbol', g'.lookup id name = .ok (some (owner, symbol')) ∧ symbol.Becomes symbol'

namespace Scopes.Continues

theorem trans (h : Continues g g') (h' : Continues g' g'') : Continues g g'' := fun _ _ _ _ hlookup => by
  obtain ⟨symbol', hlookup', hbecomes⟩ := h hlookup
  obtain ⟨symbol'', hlookup'', hbecomes'⟩ := h' hlookup'
  exact ⟨symbol'', hlookup'', hbecomes.trans hbecomes'⟩

/-- A symbol stays where it is, as a scope is the first to be asked for its own names. -/
theorem symbol (h : Continues g g') {symbol : Symbol} (hsymbol : g.symbolAt id name = some symbol) :
    ∃ symbol', g'.symbolAt id name = some symbol' ∧ symbol.Becomes symbol' := by
  obtain ⟨symbol', hlookup, hbecomes⟩ := h (lookup_of_symbolAt hsymbol)
  exact ⟨symbol', symbolAt_of_lookup hlookup, hbecomes⟩

end Scopes.Continues

/-- Inference that moves along lets the arena go on. -/
theorem Moves.continues {A : Anchors} {s s' : Inference} (h : Moves A s s') : s.scopes.Continues s'.scopes := by
  intro id name owner symbol hlookup
  obtain ⟨symbol', hlookup', hsymbol'⟩ := lookup_of_sameShape h.shape hlookup
  obtain ⟨symbol'', hsymbol'', hbecomes⟩ := h.symbol (symbolAt_of_lookup hlookup)
  obtain rfl : symbol' = symbol'' := Option.some.inj (hsymbol'.symm.trans hsymbol'')
  exact ⟨symbol', hlookup', hbecomes⟩

/-! ### Assignments that have been made -/

/-- The name is found, and has a value, if the expression is an assignment. -/
def Expr.Settled (g : Scopes) (e : Expr) : Prop :=
  ∀ ⦃mark target value⦄, e = .assign mark target value → ∃ scope owner symbol, mark.scope = some scope ∧
    g.lookup scope target.name = .ok (some (owner, symbol)) ∧ symbol.initialized = true

namespace Expr.Settled

variable {e : Expr}

/-- What is settled stays settled in arenas that go on. -/
theorem mono (h : e.Settled g) (hg : g.Continues g') : e.Settled g' := fun _ _ _ he => by
  obtain ⟨scope, owner, symbol, hscope, hlookup, hvalue⟩ := h he
  obtain ⟨symbol', hlookup', hbecomes⟩ := hg hlookup
  exact ⟨scope, owner, symbol', hscope, hlookup', hbecomes.initialized hvalue⟩

theorem exists_of_assigns (h : e.Settled g) (hassigns : e.assigns g owner name = true) :
    ∃ symbol, g.symbolAt owner name = some symbol ∧ symbol.initialized = true := by
  obtain ⟨mark, span, value, rfl, hdenotes⟩ := Expr.assigns_iff.mp hassigns
  obtain ⟨scope, owner', symbol, hscope, hlookup, hvalue⟩ := h rfl
  obtain ⟨scope', symbol', hscope', hlookup'⟩ := denotes_iff.mp hdenotes
  obtain rfl : scope = scope' := Option.some.inj (hscope.symm.trans hscope')
  cases hlookup.symm.trans hlookup'
  exact ⟨symbol, symbolAt_of_lookup hlookup, hvalue⟩

/-- It goes on assigning the same name, since the name goes on meaning the same symbol. -/
theorem assigns_eq (h : e.Settled g) (hg : g.Continues g') : e.assigns g' owner name = e.assigns g owner name := by
  rw [Bool.eq_iff_iff, Expr.assigns_iff, Expr.assigns_iff]
  refine exists_congr fun mark => exists_congr fun span => exists_congr fun value => and_congr_right fun he => ?_
  obtain ⟨scope, owner', symbol, hscope, hlookup, -⟩ := h he
  obtain ⟨symbol', hlookup', -⟩ := hg hlookup
  rw [denotes_iff, denotes_iff]
  constructor
  · rintro ⟨scope', found, hscope', hfound⟩
    obtain rfl : scope = scope' := Option.some.inj (hscope.symm.trans hscope')
    cases hlookup'.symm.trans hfound
    exact ⟨scope, symbol, hscope, hlookup⟩
  · rintro ⟨scope', found, hscope', hfound⟩
    obtain rfl : scope = scope' := Option.some.inj (hscope.symm.trans hscope')
    cases hlookup.symm.trans hfound
    exact ⟨scope, symbol', hscope, hlookup'⟩

end Expr.Settled

/-! ### Declared symbols -/

/-- The text of a program declares the symbol: at the top level, or where it opens the scope, whatever names stand
    around. -/
def Program.Declares (program : Program) (id : ScopeId) (name : String) (symbol : Symbol) : Prop :=
  (program.scope = some id ∧ (stmtsFrame program.stmts).find? name = some symbol) ∨
    ∀ held, ∃ site ∈ program.sites held, site.opens = true ∧ site.scope = some id ∧
      ∃ frame further, site.frames = frame :: further ∧ frame.find? name = some symbol

namespace Session

variable {session : Session} {program : Program}

/-! ## One submission -/

/-- Nothing is asked of the types of names; only their values matter here. -/
def noAnchors : Anchors := fun _ _ _ => False

namespace Course

variable (c : session.Course program) (h : session.Sound)

theorem moves_ready : Moves noAnchors (.start session.types c.scopes) c.ready :=
  ((predeclareAll_keeps c.annotated.stmts fun _ _ _ => id) _ fun _ _ _ hA => hA.elim).ok c.declared |>.1

include h

/-- The statements of an accepted program are traced from there to the end. -/
theorem traced_visits : Moves noAnchors c.ready c.final ∧
    Traced noAnchors (pinnedTypes c.table ++ c.pins.vars) c.ready c.final c.annotated.nodes
      (session.visits program) :=
  c.traced h (fun _ _ _ hA => hA.elim) fun _ _ _ hA => hA.elim

/-- The first pass lets the arena go on: a name that had a meaning keeps it. -/
theorem continues_scopes : session.scopes.Continues c.scopes := fun _ _ _ symbol hlookup => by
  have hsubmitted := c.submitted h
  refine ⟨symbol, lookup_of_extends hsubmitted.ordered hsubmitted.grown ?_ (fun {name symbol} hsymbol => ?_) hlookup,
    .refl _⟩
  · rw [parentOf, c.found, Option.bind_some]
  · rw [symbolAt, c.found, Option.bind_some] at hsymbol
    rw [hsubmitted.symbolAt_global, Table.find?_append, hsymbol, Option.some_or]

theorem continues_final : c.scopes.Continues c.final.scopes :=
  c.moves_ready.continues.trans (c.traced_visits h).1.continues

/-- Every assignment in the program has been made at the end, and what it assigns has a value. -/
theorem settled {e : Expr} (he : e ∈ c.annotated.nodes) : e.Settled c.final.scopes := by
  obtain ⟨-, htraced⟩ := c.traced_visits h
  rw [← htraced.listed] at he
  obtain ⟨v, hv, rfl⟩ := List.mem_map.mp he
  have hbetween := htraced.visited v hv
  intro mark target value hexpr
  obtain ⟨scope, owner, symbol, symbol', hscope, hlookup, -, -, hsymbol', hvalue⟩ := hbetween.assigns hexpr
  obtain ⟨last, hlast, -⟩ := (hbetween.moves.trans hbetween.after).continues hlookup
  obtain ⟨last', hlast', hbecomes⟩ := hbetween.after.symbol hsymbol'
  obtain rfl : last = last' := Option.some.inj ((symbolAt_of_lookup hlast).symm.trans hlast')
  exact ⟨scope, owner, last, hscope, hlast, hbecomes.initialized hvalue⟩

/-! ### Assignments to a constant -/

/-- **Assignments to a constant** are inside each other, and there are none if it has a value before. When an
    assignment is accepted its target has no value yet; it has one from the end of the assignment on, so all later
    assignments are refused, and what comes before that end is the assignment's own value. -/
theorem assignments_nested {symbol : Symbol} (hsymbol : c.scopes.symbolAt id name = some symbol)
    (himmutable : symbol.mutable = false) :
    (symbol.initialized = true → c.annotated.nodes.filter (Expr.assigns c.final.scopes id name) = []) ∧
      (c.annotated.nodes.filter (Expr.assigns c.final.scopes id name)).Pairwise fun e e' => e ∈ e'.inner := by
  obtain ⟨-, htraced⟩ := c.traced_visits h
  -- Once the symbol has a value, no assignment to it is visited.
  have hrefused : ∀ {s : Inference} {found : Symbol}, s.scopes.symbolAt id name = some found →
      found.mutable = false → found.initialized = true → ∀ v ∈ session.visits program, Moves noAnchors s v.before →
        v.expr.assigns c.final.scopes id name ≠ true := by
    intro s found hfound hm hvalue v hv hmoves hassigns
    obtain ⟨before, -, hbefore, hnovalue, -⟩ := (htraced.visited v hv).assigned hassigns
    obtain ⟨before', hbefore', hbecomes⟩ := hmoves.symbol hfound
    obtain rfl : before = before' := Option.some.inj (hbefore.symm.trans hbefore')
    exact Bool.false_ne_true ((hnovalue (hbecomes.mutable_eq.trans hm)).symm.trans (hbecomes.initialized hvalue))
  rw [← htraced.listed, List.filter_map]
  constructor
  · intro hvalue
    rw [List.map_eq_nil_iff, List.filter_eq_nil_iff]
    exact fun v hv => hrefused hsymbol himmutable hvalue v hv (c.moves_ready.trans (htraced.visited v hv).before)
  · refine List.pairwise_map.mpr ((htraced.ordered.filter _).imp_of_mem fun {v w} hv hw hprecedes => ?_)
    obtain ⟨hv, hassigns⟩ := List.mem_filter.mp hv
    obtain ⟨hw, hassigns'⟩ := List.mem_filter.mp hw
    refine hprecedes.resolve_left fun hmoves => ?_
    -- An assignment that comes later finds the value of the first one.
    have hbetween := htraced.visited v hv
    obtain ⟨-, symbol', -, -, hsymbol', hvalue⟩ := hbetween.assigned hassigns
    obtain ⟨found, hfound, hbecomes⟩ := (c.moves_ready.trans (hbetween.before.trans hbetween.moves)).symbol hsymbol
    obtain rfl : found = symbol' := Option.some.inj (hfound.symm.trans hsymbol')
    exact hrefused hsymbol' (hbecomes.mutable_eq.trans himmutable) hvalue w hw hmoves hassigns'

/-- The scopes of the program are the nesting of its text. -/
theorem lexical : Lexical c.scopes (c.annotated.sites c.table) session.scopes.size c.scopes.size := by
  have hplaced := (c.submitted h).placed
  have hglobal : c.scopes.Chain session.global [c.table ++ stmtsFrame c.annotated.stmts] := by
    rw [← entriesOf_stmts]
    exact .outermost hplaced.scope
  have hscope : c.annotated.scope = some session.global := (congrArg (fun after => after.1.scope) c.annotate).symm
  exact .stand hglobal hscope (PlacedStmts.lexical hglobal hplaced.stmts)

/-- **A symbol that the program declares** is there as it says, and was not there before. -/
theorem symbolAt_of_declares {symbol : Symbol} (hdeclares : c.annotated.Declares id name symbol) :
    c.scopes.symbolAt id name = some symbol ∧ session.scopes.symbolAt id name = none := by
  have hsubmitted := c.submitted h
  rcases hdeclares with ⟨hscope, hfind⟩ | hsites
  · have hglobal : c.annotated.scope = some session.global := (congrArg (fun after => after.1.scope) c.annotate).symm
    obtain rfl : id = session.global := Option.some.inj (hscope.symm.trans hglobal)
    rw [← entriesOf_stmts] at hfind
    have hname : name ∈ namesOf (c.annotated.stmts.flatMap Stmt.symbols) := by
      rw [← names_entriesOf]
      exact List.mem_map_of_mem (mem_of_find? hfind)
    have hfresh := hsubmitted.placed.fresh name hname
    rw [hsubmitted.symbolAt_global, Table.find?_append, hfresh, Option.none_or, symbolAt, c.found, Option.bind_some]
    exact ⟨hfind, hfresh⟩
  · obtain ⟨site, hsite, hopens, hscope, frame, further, hframes, hfind⟩ := hsites c.table
    have hlexical := c.lexical h
    obtain ⟨id', hid', hchain⟩ := hlexical.framed site hsite
    obtain rfl : id = id' := Option.some.inj (hscope.symm.trans hid')
    rw [hframes] at hchain
    constructor
    · cases hchain with
      | outermost hat | inside hat _ => rw [symbolAt, hat, Option.bind_some, hfind]
    · have hopened : some id ∈ openedScopes (c.annotated.sites c.table) :=
        List.mem_map.mpr ⟨site, List.mem_filter.mpr ⟨hsite, hopens⟩, hscope⟩
      rw [hlexical.opened] at hopened
      obtain ⟨i, hi, he⟩ := List.mem_map.mp hopened
      obtain rfl : ⟨i⟩ = id := Option.some.inj he
      have hnone : session.scopes.scopeAt ⟨i⟩ = none := Array.getElem?_eq_none (List.mem_range'_1.mp hi).1
      rw [symbolAt, hnone, Option.bind_none]

end Course

/-! ## One submission after another -/

/-- The programs that have been accepted, as they came back, in a session that goes back after refused ones. -/
inductive History : List Program → Session → Prop
  | new (options : Options) : History [] (.new options)
  | accepted {programs : List Program} {session : Session} {program : Program} {outcome : Outcome}
      {tys : List TypeId} : History programs session → session.options.rollbackOnError = true →
      session.check program = .ok outcome → outcome.result = .ok tys →
      History (programs ++ [outcome.program]) outcome.session
  | refused {programs : List Program} {session : Session} {program : Program} {outcome : Outcome}
      {diagnostic : Diagnostic} : History programs session → session.options.rollbackOnError = true →
      session.check program = .ok outcome → outcome.result = .error diagnostic → History programs outcome.session
  | setStrictShadowing {programs : List Program} {session : Session} (strict : Bool) : History programs session →
      History programs (session.setStrictShadowing strict)
  | setRollbackOnError {programs : List Program} {session : Session} (rollback : Bool) : History programs session →
      History programs (session.setRollbackOnError rollback)

/-- The assignments to one name in programs one after another, in the order of the text. -/
def assignments (programs : List Program) (g : Scopes) (owner : ScopeId) (name : String) : List Expr :=
  (programs.flatMap Program.nodes).filter (Expr.assigns g owner name)

/-! ### What accepted programs leave -/

/-- What the accepted programs have left: the names that they assign have values, those that they declare are there,
    and constants have been assigned as the text says. -/
structure Settles (programs : List Program) (session : Session) : Prop where
  settled : ∀ e ∈ programs.flatMap Program.nodes, e.Settled session.scopes
  declared : ∀ program ∈ programs, ∀ {id name symbol}, program.Declares id name symbol →
    ∃ symbol', session.scopes.symbolAt id name = some symbol' ∧ symbol.Becomes symbol'
  nested : ∀ program ∈ programs, ∀ {id name symbol}, program.Declares id name symbol → symbol.mutable = false →
    (symbol.initialized = true → assignments programs session.scopes id name = []) ∧
      (assignments programs session.scopes id name).Pairwise fun e e' => e ∈ e'.inner

variable {programs : List Program}

/-- Such a session is reachable by submissions that go back after a refusal. -/
theorem History.reachable (h : History programs session) : Reachable (·.rollbackOnError = true) session := by
  induction h with
  | new options => exact .new options
  | accepted _ hrollback hcheck _ ih | refused _ hrollback hcheck _ ih => exact ih.check hrollback hcheck
  | setStrictShadowing strict _ ih => exact ih.setStrictShadowing strict
  | setRollbackOnError rollback _ ih => exact ih.setRollbackOnError rollback

/-- **One more accepted program.** What the earlier ones have left goes on; a constant of an earlier program has a
    value as soon as one of its assignments has been made, so the new program does not assign it unless there was
    none. -/
theorem Settles.accepted (hsettles : Settles programs session) (h : session.Sound) (c : session.Course program) :
    Settles (programs ++ [c.annotated]) c.outcome.session := by
  have hgoes : session.scopes.Continues c.final.scopes := (c.continues_scopes h).trans (c.continues_final h)
  -- Earlier assignments go on assigning what they did, so only those of the new program come on top.
  have happend : ∀ id name, assignments (programs ++ [c.annotated]) c.final.scopes id name =
      assignments programs session.scopes id name ++
        c.annotated.nodes.filter (Expr.assigns c.final.scopes id name) := by
    intro id name
    rw [assignments, List.flatMap_append, List.filter_append, List.flatMap_singleton, assignments]
    congr 1
    exact List.filter_congr fun e he => (hsettles.settled e he).assigns_eq hgoes
  refine ⟨fun e he => ?_, fun p hp {id name symbol} hdeclares => ?_,
    fun p hp {id name symbol} hdeclares himmutable => ?_⟩
  · rw [List.flatMap_append, List.flatMap_singleton, List.mem_append] at he
    exact he.elim (fun he => (hsettles.settled e he).mono hgoes) (c.settled h)
  -- The symbol is declared by an earlier program, or by the new one.
  · rcases List.mem_append.mp hp with hp | hp
    · obtain ⟨symbol', hsymbol', hbecomes⟩ := hsettles.declared p hp hdeclares
      obtain ⟨symbol'', hsymbol'', hbecomes'⟩ := hgoes.symbol hsymbol'
      exact ⟨symbol'', hsymbol'', hbecomes.trans hbecomes'⟩
    · obtain rfl := List.mem_singleton.mp hp
      exact (c.continues_final h).symbol (c.symbolAt_of_declares h hdeclares).1
  · show (_ → assignments _ c.final.scopes id name = []) ∧ (assignments _ c.final.scopes id name).Pairwise _
    rw [happend]
    rcases List.mem_append.mp hp with hp | hp
    · obtain ⟨hnone, hnested⟩ := hsettles.nested p hp hdeclares himmutable
      obtain ⟨found, hfound, hbecomes⟩ := hsettles.declared p hp hdeclares
      obtain ⟨found', hfound', hbecomes'⟩ := (c.continues_scopes h).symbol hfound
      have hafter := hbecomes.trans hbecomes'
      obtain ⟨hnone', hnested'⟩ := c.assignments_nested h hfound' (hafter.mutable_eq.trans himmutable)
      refine ⟨fun hvalue => ?_, ?_⟩
      · rw [hnone hvalue, hnone' (hafter.initialized hvalue), List.append_nil]
      · -- If an earlier program has assigned the symbol, this one does not.
        by_cases hearlier : assignments programs session.scopes id name = []
        · rwa [hearlier, List.nil_append]
        · obtain ⟨e, he⟩ := List.exists_mem_of_ne_nil _ hearlier
          obtain ⟨hnode, hassigns⟩ := List.mem_filter.mp he
          obtain ⟨symbol', hsymbol', hvalue⟩ := (hsettles.settled e hnode).exists_of_assigns hassigns
          obtain rfl : found = symbol' := Option.some.inj (hfound.symm.trans hsymbol')
          rwa [hnone' (hbecomes'.initialized hvalue), List.append_nil]
    · obtain rfl := List.mem_singleton.mp hp
      -- A symbol of the new program was not there before, so no earlier program has assigned it.
      obtain ⟨hsymbol, habsent⟩ := c.symbolAt_of_declares h hdeclares
      have hearlier : assignments programs session.scopes id name = [] := by
        refine List.filter_eq_nil_iff.mpr fun e he hassigns => ?_
        obtain ⟨symbol', hsymbol', -⟩ := (hsettles.settled e he).exists_of_assigns hassigns
        cases habsent.symm.trans hsymbol'
      rw [hearlier, List.nil_append]
      exact c.assignments_nested h hsymbol himmutable

/-- What is accepted comes back with its scopes recorded. -/
theorem History.submit (h : History programs session) (hrollback : session.options.rollbackOnError = true)
    (haccepts : session.accepts program = true) :
    History (programs ++ [(session.scoping program).1]) (session.submit program) := by
  obtain ⟨outcome, tys, hcheck, haccepted⟩ := exists_of_accepts haccepts
  obtain ⟨c, -, rfl⟩ := h.reachable.sound.exists_course hcheck haccepted
  rw [submit_of_check hcheck, c.scoping_eq]
  exact h.accepted hrollback hcheck haccepted

theorem History.settles (h : History programs session) : Settles programs session := by
  induction h with
  | new options => exact ⟨by simp, by simp, by simp⟩
  | accepted hhistory _ hcheck haccepted ih =>
    obtain ⟨c, -, rfl⟩ := hhistory.reachable.sound.exists_course hcheck haccepted
    exact ih.accepted hhistory.reachable.sound c
  | refused hhistory hrollback hcheck hrefused ih =>
    rwa [hhistory.reachable.sound.undone hrollback hcheck hrefused]
  | setStrictShadowing _ _ ih | setRollbackOnError _ _ ih => exact ⟨ih.settled, ih.declared, ih.nested⟩

/-- **Constants are assigned at most once**, over all programs that have been accepted: not at all if they are
    declared with a value, as parameters are, and otherwise by assignments inside each other only. -/
theorem History.assigned_once (h : History programs session) (hmem : program ∈ programs) {symbol : Symbol}
    (hdeclares : program.Declares id name symbol) (himmutable : symbol.mutable = false) :
    (symbol.initialized = true → assignments programs session.scopes id name = []) ∧
      ((assignments programs session.scopes id name).Pairwise fun e e' => e ∈ e'.inner) ∧
      ((∀ e ∈ assignments programs session.scopes id name, ∀ e' ∈ assignments programs session.scopes id name,
        e ∉ e'.inner) → (assignments programs session.scopes id name).length ≤ 1) := by
  obtain ⟨hnone, hnested⟩ := h.settles.nested program hmem hdeclares himmutable
  refine ⟨hnone, hnested, fun hapart => ?_⟩
  cases hall : assignments programs session.scopes id name with
  | nil => simp
  | cons e rest =>
    rw [hall] at hnested hapart
    cases rest with
    | nil => simp
    | cons e' rest =>
      have hinside : e ∈ e'.inner := (List.pairwise_cons.mp hnested).1 e' List.mem_cons_self
      exact absurd hinside (hapart e List.mem_cons_self e' (List.mem_cons_of_mem _ List.mem_cons_self))

/-! ### A constant without a value -/

/-- A constant that is declared without a value. -/
def constant : Stmt := .vars .origin .constant [⟨.origin, ⟨"a", .origin⟩, none, none⟩]

/-- An assignment to it, of any value, which may be such an assignment itself. -/
def assignConstant (value : Expr) : Expr := .assign (.fresh .origin) ⟨"a", .origin⟩ value

/-- A session in which the constant has been declared, and the program that does it as it came back. -/
def withConstant : Session := (new {}).submit ⟨[constant], none⟩

/-- A later program assigns the constant once. -/
theorem assigned_once_withConstant :
    ∃ programs session, ∃ symbol : Symbol, programs = [((new {}).scoping ⟨[constant], none⟩).1,
        (withConstant.scoping ⟨[.expr (assignConstant (.number (.fresh .origin)))], none⟩).1] ∧
      History programs session ∧ (∃ program ∈ programs, program.Declares ⟨0⟩ "a" symbol) ∧
      symbol.mutable = false ∧ (assignments programs session.scopes ⟨0⟩ "a").length = 1 ∧
      (symbol.initialized = true → assignments programs session.scopes ⟨0⟩ "a" = []) ∧
      (assignments programs session.scopes ⟨0⟩ "a").Pairwise fun e e' => e ∈ e'.inner := by
  have hdeclared : History _ withConstant := (History.new {}).submit rfl
    (by decide +kernel : (new {}).accepts ⟨[constant], none⟩ = true)
  have hassigned := hdeclared.submit (by decide +kernel)
    (by decide +kernel : withConstant.accepts ⟨[.expr (assignConstant (.number (.fresh .origin)))], none⟩ = true)
  have hdeclares : ((new {}).scoping ⟨[constant], none⟩).1.Declares ⟨0⟩ "a" ⟨.var, false, false, none, .origin⟩ :=
    Or.inl ⟨by decide +kernel, by decide +kernel⟩
  obtain ⟨hnone, hnested, -⟩ := hassigned.assigned_once List.mem_cons_self hdeclares rfl
  exact ⟨_, _, _, rfl, hassigned, ⟨_, List.mem_cons_self, hdeclares⟩, rfl, by decide +kernel, hnone, hnested⟩

/-- **An assignment inside another is not refused**: a constant without a value is assigned twice. -/
theorem not_assigned_once_nested :
    ∃ programs session, History programs session ∧
      programs = [((new {}).scoping
        ⟨[constant, .expr (assignConstant (assignConstant (.number (.fresh .origin))))], none⟩).1] ∧
      (assignments programs session.scopes ⟨0⟩ "a").length = 2 ∧
      ∃ program ∈ programs, program.Declares ⟨0⟩ "a" ⟨.var, false, false, none, .origin⟩ := by
  refine ⟨_, _, (History.new {}).submit rfl (by decide +kernel : (new {}).accepts
    ⟨[constant, .expr (assignConstant (assignConstant (.number (.fresh .origin))))], none⟩ = true), rfl, ?_, _,
    List.mem_cons_self, Or.inl ⟨?_, ?_⟩⟩
  · decide +kernel
  · decide +kernel
  · decide +kernel

end Session

end TypeInference
