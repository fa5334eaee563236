import TypeInference.Proofs.Scope.Growth
import TypeInference.Proofs.Scoping.Placement
import TypeInference.Scoping

/-!
# `Proofs.Scoping.Pass` — the first pass places a tree

Whatever scopes the nodes of a tree have recorded before, a pass that is not refused leaves the tree placed.
What is said about the placed tree holds in every arena that extends the one the pass ends with
(`Advances.done`): scopes opened later do not matter.

A pass that has ended early changes nothing any more (`Idle`), so each step of the pass only has to be
followed from a state in which the pass goes on (`Runs`).

## Contents
* `Idle`, `Advances`, `Runs`, `Pass` — what is said about a step, with `Pass.bind` and `Runs.opening`;
* `declareAll_run` — names declared one after another;
* `Expr.annotate_pass`, `Stmt.annotate_pass` — the pass over each kind of node;
* `Program.annotate_run` — the pass over a program.
-/

namespace TypeInference

open Scopes

namespace ScopingM

variable {α β : Type} {parent : ScopeId}

/-! ## Steps -/

/-- The step changes nothing once the pass has ended, though it may still give a tree. -/
def Idle (m : ScopingM α) : Prop := ∀ s, s.halt ≠ none → (m s).2 = s

/-- What a step does from an arena `g`: it opens scopes without types, it is refused if it is stopped at all, and if
    it is not, then `J` holds from now on of its result and of the numbers of the scopes it opened. `J` is asked of
    every later arena, so nothing has to be said again when the pass goes on. -/
structure Advances (g : Scopes) (after : α × Scoping) (J : Scopes → α → Nat → Nat → Prop) : Prop where
  grown : Extends ∅ g after.2.scopes
  ordered : after.2.scopes.Ordered
  untyped : ∀ (id : ScopeId) (kind : SymbolKind) (ty : TypeId), g.size ≤ id.index →
    ¬ after.2.scopes.Gives id kind ty
  refused : ∀ reason, after.2.halt = some reason → reason.IsRefusal
  done : after.2.halt = none → ∀ later, Extends ∅ after.2.scopes later →
    J later after.1 g.size after.2.scopes.size

/-- The step advances from every arena that has the scope `parent`, which is where it stands. -/
def Runs (parent : ScopeId) (m : ScopingM α) (J : Scopes → α → Nat → Nat → Prop) : Prop :=
  ∀ g : Scopes, g.Ordered → parent.index < g.size → Advances g (m ⟨g, none⟩) J

/-- A step of the pass, whether it comes before or after its end. -/
structure Pass (parent : ScopeId) (m : ScopingM α) (J : Scopes → α → Nat → Nat → Prop) : Prop where
  idle : Idle m
  runs : Runs parent m J

variable {m : ScopingM α} {next : α → ScopingM β} {J J' : Scopes → α → Nat → Nat → Prop}

/-! ### Steps in sequence -/

theorem Idle.bind (h : Idle m) (hnext : ∀ a, Idle (next a)) : Idle (m >>= next) := by
  intro s hs
  show (next (m s).1 (m s).2).2 = s
  rw [h s hs]
  exact hnext _ s hs

theorem Runs.mono (h : Runs parent m J) (hJ : ∀ later a n n', J later a n n' → J' later a n n') :
    Runs parent m J' := by
  intro g ho hp
  obtain ⟨hgrown, hordered, huntyped, hrefused, hdone⟩ := h g ho hp
  exact ⟨hgrown, hordered, huntyped, hrefused, fun hhalt later hl => hJ _ _ _ _ (hdone hhalt later hl)⟩

theorem Pass.mono (h : Pass parent m J) (hJ : ∀ later a n n', J later a n n' → J' later a n n') :
    Pass parent m J' :=
  ⟨h.idle, h.runs.mono hJ⟩

theorem Pass.pure (a : α) : Pass parent (pure a : ScopingM α) fun _ b n n' => b = a ∧ n' = n := by
  refine ⟨fun _ _ => rfl, fun g ho _ => ⟨.refl g, ho, ?_, (fun _ hr => nomatch hr), fun _ _ _ => ⟨rfl, rfl⟩⟩⟩
  rintro id name ty hge ⟨scope, hscope, -⟩
  exact Nat.not_lt.mpr hge (lt_of_scopeAt hscope)

/-- **Two steps one after another**: what the first has reached stays true during the second. The second may stand
    in a scope that the first has opened. -/
theorem Runs.bindIn {inner : α → ScopeId} {K : α → Scopes → β → Nat → Nat → Prop}
    (hinner : ∀ {later a n n'}, J later a n n' → inner a = parent ∨ (inner a).index < n')
    (h : Runs parent m J) (hnext : ∀ a, Pass (inner a) (next a) (K a)) :
    Runs parent (m >>= next) fun later b n n' => ∃ a k, J later a n k ∧ K a later b k n' := by
  intro g ho hp
  show Advances g (next (m ⟨g, none⟩).1 (m ⟨g, none⟩).2) _
  obtain ⟨hgrown, hordered, huntyped, hrefused, hdone⟩ := h g ho hp
  generalize m ⟨g, none⟩ = first at *
  obtain ⟨a, g₁, halt⟩ := first
  cases halt with
  | some reason =>
    -- The pass has ended, and the second step is idle.
    have hsame : (next a ⟨g₁, some reason⟩).2 = ⟨g₁, some reason⟩ := (hnext a).idle _ (by simp)
    refine ⟨by rw [hsame]; exact hgrown, by rw [hsame]; exact hordered, by rw [hsame]; exact huntyped,
      by rw [hsame]; exact hrefused, ?_⟩
    rw [hsame]
    exact fun hr => nomatch hr
  | none =>
    have hin : (inner a).index < g₁.size := by
      rcases hinner (hdone rfl g₁ (.refl g₁)) with he | hlt
      · rw [he]; exact hp.trans_le hgrown.size_le
      · exact hlt
    have hsecond := (hnext a).runs g₁ hordered hin
    refine ⟨hgrown.trans hsecond.grown, hsecond.ordered, fun id kind ty hge => ?_, hsecond.refused,
      fun hhalt later hl => ⟨a, _, hdone rfl later (hsecond.grown.trans hl), hsecond.done hhalt later hl⟩⟩
    -- A scope that the first step opened is still as it was left then.
    by_cases hlt : id.index < g₁.size
    · rintro ⟨scope, hscope, hentry⟩
      exact huntyped id kind ty hge ⟨scope, (hsecond.grown.scope id hlt (by simp)).symm.trans hscope, hentry⟩
    · exact hsecond.untyped id kind ty (Nat.not_lt.mp hlt)

theorem Runs.bind {K : α → Scopes → β → Nat → Nat → Prop} (h : Runs parent m J)
    (hnext : ∀ a, Pass parent (next a) (K a)) :
    Runs parent (m >>= next) fun later b n n' => ∃ a k, J later a n k ∧ K a later b k n' :=
  h.bindIn (fun _ => .inl rfl) hnext

theorem Pass.bind {K : α → Scopes → β → Nat → Nat → Prop} (h : Pass parent m J)
    (hnext : ∀ a, Pass parent (next a) (K a)) :
    Pass parent (m >>= next) fun later b n n' => ∃ a k, J later a n k ∧ K a later b k n' :=
  ⟨h.idle.bind fun a => (hnext a).idle, h.runs.bind hnext⟩

/-! ### Visits -/

theorem idle_unlessHalted (node : α) (visit : ScopingM α) : Idle (unlessHalted node visit) := by
  intro s hs
  obtain ⟨reason, hhalt⟩ := Option.ne_none_iff_exists'.mp hs
  rw [unlessHalted_of_some hhalt]

/-- A visit is a step, whatever it does after the end of the pass, because after the end it does not take place. -/
theorem Runs.visit {visit : ScopingM α} {node : α} (h : Runs parent visit J)
    (hJ : ∀ later a n n', J later a n n' → J' later a n n') : Pass parent (unlessHalted node visit) J' :=
  ⟨idle_unlessHalted _ _, h.mono hJ⟩

theorem Pass.visit {visit : ScopingM α} {node : α} (h : Pass parent visit J)
    (hJ : ∀ later a n n', J later a n n' → J' later a n n') : Pass parent (unlessHalted node visit) J' :=
  h.runs.visit hJ

/-! ## Declarations -/

/-- The names declared so far in a scope, when the pass goes on or has been refused. If it goes on, all of the names
    have been declared, and they are all new; if not, only some of them. -/
structure Declares (g : Scopes) (own : ScopeId) (table : Table) (symbols : List (Ident × Symbol))
    (after : Scoping) : Prop where
  refilled : ∃ added, Refilled g own (table ++ added) after.scopes ∧
    (∀ entry ∈ added, entry ∈ entriesOf symbols) ∧
    (after.halt = none → added = entriesOf symbols ∧ (namesOf symbols).Nodup ∧
      ∀ name ∈ namesOf symbols, table.find? name = none)
  refused : ∀ reason, after.halt = some reason → reason.IsRefusal

theorem attempt_of_ok {change : Scopes → Except (Halt Diagnostic) Scopes} {g g' : Scopes}
    (h : change g = .ok g') : (attempt change ⟨g, none⟩).2 = ⟨g', none⟩ := by
  simp only [attempt, unlessHalted_of_none, modify, modifyGet, MonadStateOf.modifyGet, StateT.modifyGet, h]
  rfl

theorem attempt_of_error {change : Scopes → Except (Halt Diagnostic) Scopes} {g : Scopes}
    {reason : Halt Diagnostic} (h : change g = .error reason) :
    (attempt change ⟨g, none⟩).2 = ⟨g, some reason⟩ := by
  simp only [attempt, unlessHalted_of_none, modify, modifyGet, MonadStateOf.modifyGet, StateT.modifyGet, h]
  rfl

theorem idle_attempt (change : Scopes → Except (Halt Diagnostic) Scopes) : Idle (attempt change) :=
  idle_unlessHalted _ _

theorem idle_declareAll (strict : Bool) (own : ScopeId) (symbols : List (Ident × Symbol)) :
    Idle (declareAll strict own symbols) := by
  induction symbols with
  | nil => exact fun _ _ => rfl
  | cons entry symbols ih => exact (idle_attempt _).bind fun _ => ih

/-- A name is new after one more entry if it is new at all, and is not the entry's. -/
theorem find?_append_singleton_eq_none {table : Table} {entry : String × Symbol} {name : String} :
    (table ++ [entry]).find? name = none ↔ table.find? name = none ∧ entry.1 ≠ name := by
  rw [Table.find?_append, Option.or_eq_none_iff, Table.find?_cons, Table.find?_nil]
  simp

/-! ### Names that are declared -/

/-- A change that inserts a name, or refuses to, declares it. Both the plain insertion of labels and parameters and
    the declaration of names are such changes. -/
theorem attempt_run {own : ScopeId} {g : Scopes} {table : Table} {entry : Ident × Symbol}
    {change : Scopes → Except (Halt Diagnostic) Scopes}
    (h : (∃ g', change g = .ok g' ∧ table.find? entry.1.name = none ∧
        Refilled g own (table ++ [(entry.1.name, entry.2)]) g') ∨
      ∃ reason, change g = .error reason ∧ reason.IsRefusal)
    (hown : Refilled g own table g) : Declares g own table [entry] (attempt change ⟨g, none⟩).2 := by
  rcases h with ⟨g', hchange, hnew, hrefilled⟩ | ⟨reason, hchange, hr⟩
  · rw [attempt_of_ok hchange]
    exact ⟨⟨[(entry.1.name, entry.2)], hrefilled, fun _ h => h,
      fun _ => ⟨rfl, by simp [namesOf], by simpa [namesOf]⟩⟩, fun _ hr => by cases hr⟩
  · rw [attempt_of_error hchange]
    exact ⟨⟨[], by rwa [List.append_nil], by simp, fun hhalt => by cases hhalt⟩,
      fun r hhalt => by cases hhalt; exact hr⟩

theorem Declares.cons {own : ScopeId} {outer : Option ScopeId} {g : Scopes} {table : Table}
    {entry : Ident × Symbol} {symbols : List (Ident × Symbol)} {first rest : ScopingM Unit}
    (hfirst : Declares g own table [entry] (first ⟨g, none⟩).2) (ho : g.Ordered)
    (hown : g.scopeAt own = some ⟨outer, table⟩) (hidle : Idle rest)
    (hrest : ∀ {g' : Scopes} {table' : Table}, g'.Ordered → g'.scopeAt own = some ⟨outer, table'⟩ →
      Declares g' own table' symbols (rest ⟨g', none⟩).2) :
    Declares g own table (entry :: symbols) ((first >>= fun _ => rest) ⟨g, none⟩).2 := by
  show Declares g own table (entry :: symbols) (rest (first ⟨g, none⟩).2).2
  obtain ⟨⟨added, hadded, hsub, hall⟩, hrefused⟩ := hfirst
  have hmem : ∀ e ∈ added, e ∈ entriesOf (entry :: symbols) := by
    intro e he
    obtain rfl := List.mem_singleton.mp (hsub e he)
    exact List.mem_cons_self
  generalize (first ⟨g, none⟩).2 = after at *
  obtain ⟨g', halt⟩ := after
  cases halt with
  | some reason =>
    rw [hidle _ (by simp)]
    exact ⟨⟨added, hadded, hmem, fun hhalt => nomatch hhalt⟩, hrefused⟩
  | none =>
    obtain ⟨rfl, -, hnew⟩ := hall rfl
    have hown' : g'.scopeAt own = some ⟨outer, table ++ entriesOf [entry]⟩ := by
      rw [hadded.scope, if_pos rfl, hown]; rfl
    obtain ⟨⟨more, hmore, hsub', hall'⟩, hrefused'⟩ := hrest (hadded.ordered ho) hown'
    rw [List.append_assoc] at hmore
    refine ⟨⟨(entry.1.name, entry.2) :: more, hadded.trans hmore, ?_, fun hhalt => ?_⟩, hrefused'⟩
    · intro e he
      rcases List.mem_cons.mp he with rfl | he
      · exact List.mem_cons_self
      · exact List.mem_cons_of_mem _ (hsub' e he)
    · obtain ⟨rfl, hnodup, hfree⟩ := hall' hhalt
      -- The other names were new when the first was there already, so they differ from it.
      refine ⟨rfl, List.nodup_cons.mpr ⟨fun hmem => ?_, hnodup⟩, fun name hname => ?_⟩
      · exact (find?_append_singleton_eq_none.mp (hfree _ hmem)).2 rfl
      · rcases List.mem_cons.mp hname with rfl | hname
        · exact hnew _ List.mem_cons_self
        · exact (find?_append_singleton_eq_none.mp (hfree _ hname)).1

/-- **Names declared one after another** fill the table, up to the first that is refused. By induction on the list
    of names. -/
theorem declareAll_run (strict : Bool) {own : ScopeId} {outer : Option ScopeId} :
    ∀ (symbols : List (Ident × Symbol)) {g : Scopes} {table : Table}, g.Ordered →
      g.scopeAt own = some ⟨outer, table⟩ →
        Declares g own table symbols (declareAll strict own symbols ⟨g, none⟩).2 := by
  intro symbols
  induction symbols with
  | nil =>
    intro g table _ hown
    exact ⟨⟨[], by rw [List.append_nil]; exact .refl hown, by
      simp, fun _ => ⟨rfl, List.nodup_nil, by simp [namesOf]⟩⟩,
      fun _ hr => nomatch hr⟩
  | cons entry symbols ih =>
    intro g table ho hown
    exact (attempt_run (declare_cases ho hown strict entry.1 entry.2) (.refl hown)).cons ho hown
      (idle_declareAll strict own symbols) ih

/-! ## New scopes -/

/-- **A scope that is opened and filled** goes on having exactly its names: scopes opened later are others, and no
    later declaration is made in it. -/
theorem Runs.opened {fill : ScopeId → ScopingM Unit} {symbols : List (Ident × Symbol)}
    (hty : ∀ entry ∈ symbols, entry.2.ty = none)
    (hfill : ∀ {g : Scopes} {own : ScopeId} {outer : Option ScopeId}, g.Ordered →
      g.scopeAt own = some ⟨outer, []⟩ → Declares g own [] symbols (fill own ⟨g, none⟩).2) :
    Runs parent (do let own ← openScope parent; fill own; Pure.pure own) fun later own n n' =>
      own = ⟨n⟩ ∧ n' = n + 1 ∧ later.Opened own parent symbols := by
  intro g ho hp
  have hrun : (do let own ← openScope parent; fill own; Pure.pure own : ScopingM ScopeId) ⟨g, none⟩ =
      (⟨g.size⟩, (fill ⟨g.size⟩ ⟨(g.openChild parent).2, none⟩).2) := rfl
  rw [hrun]
  -- The new scope is empty and stands at the end of the arena.
  have hat : (g.openChild parent).2.scopeAt ⟨g.size⟩ = some ⟨some parent, []⟩ := by
    rw [openChild, scopeAt_allocate, if_pos rfl]
  have ho' : (g.openChild parent).2.Ordered := ordered_openChild ho hp
  obtain ⟨⟨added, hrefilled, hsub, hall⟩, hrefused⟩ := hfill ho' hat
  have hsize : (fill ⟨g.size⟩ ⟨(g.openChild parent).2, none⟩).2.scopes.size = g.size + 1 := by
    rw [hrefilled.size_eq, openChild, size_allocate]
  have hown : (fill ⟨g.size⟩ ⟨(g.openChild parent).2, none⟩).2.scopes.scopeAt ⟨g.size⟩ = some
      ⟨some parent, added⟩ := by
    rw [hrefilled.scope, if_pos rfl, hat]; rfl
  refine ⟨hrefilled.extends_of_openChild, hrefilled.ordered ho', ?_, hrefused, fun hhalt later hl => ?_⟩
  · rintro id kind ty hge ⟨scope, hscope, symbol, hmem, -, hsymbol⟩
    have hlt := lt_of_scopeAt hscope
    rw [hsize] at hlt
    -- There is one new scope, so a type in a new scope would be one of its symbols'.
    obtain rfl : id = ⟨g.size⟩ := by cases id; simp only [ScopeId.mk.injEq]; simp only at hlt hge; omega
    rw [hown] at hscope
    cases hscope
    obtain ⟨entry, hentry, heq⟩ := List.mem_map.mp (hsub _ hmem)
    cases heq
    rw [hty entry hentry] at hsymbol
    cases hsymbol
  · obtain ⟨rfl, hnodup, -⟩ := hall hhalt
    refine ⟨rfl, hsize, ?_, hnodup⟩
    have hlt : (⟨g.size⟩ : ScopeId).index < (fill ⟨g.size⟩ ⟨(g.openChild parent).2, none⟩).2.scopes.size := by
      rw [hsize]; exact Nat.lt_succ_self _
    exact (hl.scope _ hlt (by simp)).trans hown

/-- A scope is opened and filled, and the pass goes on inside. This is the step for blocks, functions, lambdas and
    labels alike. -/
theorem Runs.opening {fill : ScopeId → ScopingM Unit} {symbols : List (Ident × Symbol)}
    {inside : ScopeId → ScopingM α} {K : ScopeId → Scopes → α → Nat → Nat → Prop}
    (hty : ∀ entry ∈ symbols, entry.2.ty = none)
    (hfill : ∀ {g : Scopes} {own : ScopeId} {outer : Option ScopeId}, g.Ordered →
      g.scopeAt own = some ⟨outer, []⟩ → Declares g own [] symbols (fill own ⟨g, none⟩).2)
    (hinside : ∀ own, Pass own (inside own) (K own)) :
    Runs parent (do let own ← openScope parent; fill own; inside own) fun later a n n' =>
      later.Opened ⟨n⟩ parent symbols ∧ K ⟨n⟩ later a (n + 1) n' := by
  have h : Runs parent ((do let own ← openScope parent; fill own; Pure.pure own) >>= inside) _ :=
    (Runs.opened hty hfill).bindIn (fun hJ => .inr (by rw [hJ.1, hJ.2.1]; exact Nat.lt_succ_self _)) hinside
  refine h.mono ?_
  rintro later a n n' ⟨own, k, ⟨rfl, rfl, hopened⟩, hK⟩
  exact ⟨hopened, hK⟩

end ScopingM

end TypeInference
