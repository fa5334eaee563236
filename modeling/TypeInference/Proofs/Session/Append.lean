import TypeInference.Proofs.Session.Joint
import TypeInference.Proofs.Ty.Undo

/-!
# `Proofs.Session.Append` — a session accepted line by line is accepted as one file

When the first program's statements have been looked at with all declarations in place, the store holds what the
second program's own submission has found, with two blocks of types exchanged: those of its declarations, and
those of the first program's statements. The same variables are pinned, the functions of the first program no
longer are, and the scopes are the same. So the second program's statements are looked at alike, and both
programs take a course as one.

## Contents
* `inferStmts_regroup` — variables that are pinned for the statements, or around them;
* `Course.exchange`, `Course.moved` — what the second program's statements find, with the blocks exchanged;
* `Leap.carries_second`, `Leap.embeds_second`, `Leap.exists_infer_second` — the second program's statements;
* `Course.exists_course_append`, `Reachable.check_append` — both programs as one.
-/

namespace TypeInference

open Store Scopes InferM

/-! ## Pinned variables and symbols -/

/-- Whether pinned variables belong to the list of statements or to what is around it makes no difference:
    statements only ask for all of them. -/
theorem inferStmts_regroup (scope : ScopeId) (pinned more : List TypeId) : ∀ (stmts : List Stmt) (pins : Pins),
    inferStmts scope pinned ((⟨more, []⟩ : Pins).append pins) stmts = inferStmts scope (pinned ++ more) pins stmts
  | [], pins => by rw [inferStmts, inferStmts]
  | stmt :: rest, pins => by
    have hall : pinned ++ ((⟨more, []⟩ : Pins).append pins).all = pinned ++ more ++ pins.all := by
      simp [Pins.all, Pins.append]
    have hsettle : stmt.settle scope ((⟨more, []⟩ : Pins).append pins) =
        (⟨more, []⟩ : Pins).append <$> stmt.settle scope pins := by
      cases stmt with
      | function mark name params result body =>
        simp only [Stmt.settle, map_bind]
        congr 1
        funext found
        cases found.bind Symbol.ty <;> simp [Pins.release, Pins.append]
      | _ => simp [Stmt.settle]
    rw [inferStmts, inferStmts, hall, hsettle]
    simp only [bind_map_left, inferStmts_regroup scope pinned more rest]

/-- Both symbols tell the same of a name, and their types stand for the same tree up to the names of variables.
    Nothing is left out that a symbol has. -/
structure Symbol.Agrees (f : TypeId → TypeId) (tree tree' : TypeId → Tree) (symbol symbol' : Symbol) : Prop where
  kind : symbol'.kind = symbol.kind
  mutable : symbol'.mutable = symbol.mutable
  initialized : symbol'.initialized = symbol.initialized
  span : symbol'.span = symbol.span
  ty : symbol'.ty.map tree' = symbol.ty.map fun ty => (tree ty).rename f

namespace Session

variable {session : Session} {first second whole : Program} {scopes : Scopes} {typed typed' : Table}
  {t t' : Inference} {E : Embedding} {c : session.Course first} {c' : c.outcome.session.Course second}

namespace Course

/-! ## The statements of the second program -/

/-- The types of the first program's statements come after those of the second one's declarations, instead of before
    them. -/
def exchange (c : session.Course first) (c' : c.outcome.session.Course second) : Equiv.Perm TypeId :=
  TypeId.exchanging c.ready.types.size (c.final.types.size - c.ready.types.size)
    (c'.ready.types.size - c.final.types.size)

/-- The second program's state inside one in which the types have been exchanged; there are no names besides, as the
    first program's are held in the global scope. -/
def moved (c : session.Course first) (c' : c.outcome.session.Course second) (hs : session.Sound)
    (htyped : ∀ fact ∈ (c'.table ++ typed').facts, ∃ ty, fact.2.2 = some ty) : Embedding :=
  .plain (c.exchange c') (c.exchange c').injective (fun hid => if_pos (hid.trans_le (c.initial_le_ready hs)))
    session.global (c'.table ++ typed').facts htyped

theorem size_ready_le (hs : session.Sound) (c : session.Course first) : c.ready.types.size ≤ c.final.types.size :=
  (c.step_inferred hs).1.types.size_le

section

variable (h : c.Ahead c' scopes typed typed' t) (hs : session.Sound)

include h hs

/-! ### The exchange on declarations -/

/-- The types of the second program's declarations have moved to the front. -/
theorem Ahead.exchange_eq {id : TypeId} (hsince : id.Since c.final.types.size)
    (hid : id.index < c'.ready.types.size) : c.exchange c' id = c.shift id := by
  have hle := c.size_ready_le hs
  have hle' := h.size_le
  have hinitial := c.initial_le_ready hs
  rcases hsince with hlt | hsince
  · rw [shift, TypeId.shift_of_lt (by omega)]
    exact if_pos (by omega)
  · refine (TypeId.exchange_eq_shift' (by omega) (by omega)).trans ?_
    rw [shift, show c.ready.types.size + (c.final.types.size - c.ready.types.size) = c.final.types.size by omega]

/-- The pins of the second program's declarations have got their other numbers, since they are all among the types
    that were made for these. -/
theorem Ahead.rename_pins : c'.pins.rename (c.exchange c') = c'.pins.rename c.shift :=
  Pins.rename_congr fun ty hty =>
    h.exchange_eq hs (h.pins ty hty) (c'.lt_of_mem_pins (c.sound_outcome hs) hty)

/-- What the first program has left in the global scope, and what the second one's declarations add, has types; what
    the first one has left is what its declarations have set. -/
theorem Ahead.facts_second (hcomplete : session.Complete) :
    (∀ fact ∈ (c'.table ++ typed').facts, ∃ ty, fact.2.2 = some ty) ∧
      c'.table.facts = (c.table ++ typed).facts := by
  have hs' := c.sound_outcome hs
  obtain ⟨hall, table, hfinal, hfacts⟩ := c.exists_facts hs (hcomplete _ c.found)
    (h.ready.scopeAt_own (c.submitted hs).placed.scope) h.announces
  obtain rfl : table = c'.table := congrArg Scope.table (Option.some.inj (hfinal.symm.trans c'.found))
  have hready := h.ready'.scopeAt_own (c'.submitted hs').placed.scope
  obtain ⟨typed'', hready', hannounces⟩ := c'.exists_typed hs'
  obtain rfl : typed' = typed'' :=
    List.append_cancel_left (congrArg Scope.table (Option.some.inj (hready.symm.trans hready')))
  exact ⟨(c'.exists_facts hs' (fun fact hfact => hall fact (hfacts ▸ hfact)) hready hannounces).1, hfacts⟩

/-- The types of the global variables that the second program finds, and those of the first one's own, are the
    same pinned types. -/
theorem Ahead.pinned_second (hfacts : c'.table.facts = (c.table ++ typed).facts)
    (htyped : ∀ fact ∈ (c'.table ++ typed').facts, ∃ ty, fact.2.2 = some ty) :
    (c.moved c' hs htyped).Pins (pinnedTypes c'.table) (pinnedTypes c.table ++ c.pins.vars) := by
  have hsame := pinnedTypes_eq_of_facts hfacts
  have hkeep : (pinnedTypes c'.table).map (c.exchange c') = pinnedTypes c'.table := by
    refine (List.map_congr_left fun ty hty => ?_).trans (List.map_id _)
    rw [hsame] at hty
    obtain ⟨entry, hentry, -, hty⟩ := mem_pinnedTypes.mp hty
    exact if_pos (h.lt_of_typed hs hentry hty)
  have hsplit : pinnedTypes c.table ++ c.pins.vars = (pinnedTypes c'.table).map (c.exchange c') := by
    rw [hkeep, hsame, h.announces.vars]
    exact (typesOf_append .var _ _).symm
  rw [hsplit]
  exact .map _ _

variable (hleap : c.Leap c' scopes typed typed' t E)

include hleap

/-! ### The exchange on the first program's statements -/

/-- The first program's types have moved behind the second one's declarations, by the leap. -/
theorem Leap.exchange_eq {id : TypeId} (hid : id.index < c.final.types.size) : c.exchange c' id = E.apply id := by
  have hle := c.size_ready_le hs
  have hsize := h.size_eq
  rw [hleap.apply, hsize]
  exact TypeId.exchange_eq_shift (by omega)

/-- After the first program's statements there are as many types as when the second one's are looked at. -/
theorem Leap.size_eq (hfinal : E.Relates c.final t') : t'.types.size = c'.ready.types.size := by
  have hle := c.size_ready_le hs
  have hsize := h.size_eq
  have hle' := h.size_le
  have hnext := hfinal.types.fresh 0
  rw [hleap.apply, TypeId.shift_of_le (by simpa using hle), TypeId.mk.injEq] at hnext
  simp only at hnext
  omega

/-- **The types are those that the second program's statements find**, each with its exchanged number: the old ones,
    those of its declarations, and those of the first program's statements. -/
theorem Leap.carries_second (hfinal : E.Relates c.final t')
    (htyped : ∀ fact ∈ (c'.table ++ typed').facts, ∃ ty, fact.2.2 = some ty) :
    (c.moved c' hs htyped).Carries c'.ready.types t'.types := by
  have hsize := hleap.size_eq h hs hfinal
  have hs' := c.sound_outcome hs
  refine ⟨fun {id node} hget => ?_, fun count => ?_, hsize.ge, fun hnode => by cases hnode⟩
  · show t'.types.get (c.exchange c' id) = .ok (node.rename (c.exchange c'))
    by_cases hid : id.index < c.final.types.size
    · rw [h.old' id hid] at hget
      rw [hleap.exchange_eq h hs hid, Node.rename_congr fun a ha =>
        hleap.exchange_eq h hs ((c.admits_final hs).wf.inRange ⟨node, hget, ha⟩)]
      exact hfinal.types.node hget
    · obtain ⟨hbuilt, hnew⟩ := h.new (Nat.not_lt.mp hid) hget
      have hsince : id.Since c.final.types.size := .inr (Nat.not_lt.mp hid)
      have hrefs : ∀ a ∈ node.refs, c.exchange c' a = c.shift a := by
        intro a ha
        refine h.exchange_eq hs ?_ ((c'.admits_ready hs').wf.inRange ⟨node, hget, ha⟩)
        cases node with
        | var binding =>
          obtain rfl : binding = none := hbuilt
          cases ha
        | op con args => exact hbuilt a ha
      rw [h.exchange_eq hs hsince (Store.lt_of_get hget), Node.rename_congr hrefs]
      exact (hfinal.types.foreign (hleap.foreign.mpr
        ⟨hnew, hsince.shift (c.admits_final hs).wf.initial_le⟩)).1
  · rw [hsize]
    exact TypeId.exchange_of_le (by have := c.size_ready_le hs; have := h.size_le; simp only; omega)

/-- A scope that the second program's statements find is there, with the types exchanged. -/
theorem Leap.scopeAt_second (hscoped : c.Scoped c' scopes) (hfinal : E.Relates c.final t') {id : ScopeId}
    {scope : Scope} (hscope : c'.ready.scopes.scopeAt id = some scope) :
    t'.scopes.scopeAt id = some ⟨scope.parent, scope.table.rename (c.exchange c')⟩ := by
  have hs' := c.sound_outcome hs
  have hcount : c.final.scopes.size = c.scopes.size := (c.step_final hs).shape.size_eq
  -- Names that the first program has left have types that its statements have seen.
  have hold : ∀ {id : ScopeId} {scope : Scope}, c.final.scopes.scopeAt id = some scope →
      scope.table.rename (c.exchange c') = scope.table.rename E.apply := fun hscope =>
    Table.rename_congr fun entry hentry ty hty =>
      hleap.exchange_eq h hs ((c.admits_final hs).inRange ⟨_, hscope, entry, hentry, rfl, hty⟩)
  by_cases hid : id = session.global
  · subst hid
    have hready := h.ready'.scopeAt_own (c'.submitted hs').placed.scope
    obtain rfl : ⟨none, c'.table ++ typed'⟩ = scope := Option.some.inj (hready.symm.trans hscope)
    have hnew : typed'.rename (c.exchange c') = typed'.rename c.shift :=
      Table.rename_congr fun entry hentry ty hty => h.exchange_eq hs (h.since entry hentry ty hty)
        ((c'.admits_ready hs').inRange ⟨_, hscope, entry, List.mem_append_right _ hentry, rfl, hty⟩)
    have hfound : c.final.scopes.scopeAt session.global = some ⟨none, c'.table⟩ := c'.found
    rw [hfinal.scopes.scope hfound, if_pos hleap.global.symm, hleap.added, ← hnew, ← hold hfound]
    simp [Table.rename]
  · rw [h.ready'.scope, if_neg hid] at hscope
    by_cases hlt : id.index < c.scopes.size
    · have hkept := (c'.submitted hs').grown.scope id (hcount ▸ hlt) hid
      rw [hscope] at hkept
      rw [hfinal.scopes.scope hkept.symm, if_neg (hleap.global ▸ hid), List.append_nil, hold hkept.symm]
    · -- The second program's own scopes have no types yet.
      have hle : c.final.scopes.size ≤ id.index := hcount ▸ Nat.not_lt.mp hlt
      have huntyped : ∀ entry ∈ scope.table, ∀ ty, entry.2.ty = some ty → c.exchange c' ty = ty :=
        fun entry hentry ty hty =>
          absurd ⟨_, hscope, entry, hentry, rfl, hty⟩ ((c'.submitted hs').fresh id _ ty hle)
      rw [hfinal.scopes.beyond hle, hleap.beyond id (Nat.not_lt.mp hlt), hscoped.scope id hid, if_neg hlt, hscope,
        Table.rename_eq_self huntyped]

/-- **The scopes are those that the second program's statements find**: the global one with the names of both
    programs, and those of either program. -/
theorem Leap.embeds_second (hscoped : c.Scoped c' scopes) (hfinal : E.Relates c.final t')
    (htyped : ∀ fact ∈ (c'.table ++ typed').facts, ∃ ty, fact.2.2 = some ty) :
    (c.moved c' hs htyped).Embeds (c.exchange c') c'.ready.scopes t'.scopes := by
  have hs' := c.sound_outcome hs
  refine ⟨fun {id scope} hat => ?_, fun {id} hle => ?_, ?_, _,
    h.ready'.scopeAt_own (c'.submitted hs').placed.scope, rfl⟩
  · rw [hleap.scopeAt_second h hs hscoped hfinal hat]
    show _ = some (Scope.mk scope.parent (scope.table.rename _ ++ ite _ [] []))
    rw [ite_self, List.append_nil]
  · rw [h.ready'.size_eq] at hle
    have hbefore : c.final.scopes.size ≤ id.index := (c'.submitted hs').grown.size_le.trans hle
    have hcount : c.final.scopes.size = c.scopes.size := (c.step_final hs).shape.size_eq
    rw [hfinal.scopes.beyond hbefore, hleap.beyond id (hcount ▸ hbefore)]
    exact Array.getElem?_eq_none (hscoped.size_eq.trans_le hle)
  · -- Otherwise there would be a scope behind the last one.
    by_contra hlt
    have hnext : (⟨t'.scopes.size⟩ : ScopeId).index < c'.ready.scopes.size := Nat.not_le.mp hlt
    obtain ⟨scope, hat⟩ := exists_scopeAt_iff.mpr hnext
    exact Nat.lt_irrefl _ (lt_of_scopeAt (hleap.scopeAt_second h hs hscoped hfinal hat))

/-- **The second program's statements** are looked at after those of the first, and give the same types up to the
    exchange. -/
theorem Leap.exists_infer_second (hscoped : c.Scoped c' scopes) (hfinal : E.Relates c.final t')
    (hfacts : c'.table.facts = (c.table ++ typed).facts)
    (htyped : ∀ fact ∈ (c'.table ++ typed').facts, ∃ ty, fact.2.2 = some ty) :
    ∃ t'', inferStmts session.global (pinnedTypes c.table)
        ((⟨c.pins.vars, []⟩ : Pins).append (c'.pins.rename c.shift)) c'.annotated.stmts t' =
      .ok (c'.tys.map (c.exchange c')) t'' ∧ (c.moved c' hs htyped).Relates c'.final t'' := by
  have hs' := c.sound_outcome hs
  have hrelates : (c.moved c' hs htyped).Relates c'.ready t' :=
    ⟨hleap.carries_second h hs hfinal htyped, hleap.embeds_second h hs hscoped hfinal htyped, by
      rw [hfinal.frames, c.frames_final hs, c'.frames_ready hs']; rfl⟩
  obtain ⟨left, hrun⟩ := exists_inferSegment c'.inferred
  obtain ⟨_, t'', hrun', hlast, rfl, -⟩ := inferSegment_replays (h.pinned_second hs hfacts htyped) (.none _)
    c'.annotated.stmts (c'.submitted hs').placed.stmts (c'.submitted hs').global_lt
    (fun _ _ _ => List.forall_mem_nil _) c'.pins c'.ready t' hrelates _ _ hrun
  refine ⟨t'', ?_, hlast⟩
  have hpins : (c'.pins.rename (c.exchange c')).append .none = c'.pins.rename c.shift := by
    rw [← h.rename_pins hs]
    simp [Pins.append, Pins.none]
  rw [inferStmts_regroup, inferStmts_eq, map_eq_pure_bind, ← hpins]
  exact run_bind_of_ok hrun'

end

/-! ## Both programs -/

/-- **Both programs take a course as one.** What it leaves is what the second program leaves, up to the numbers of
    types. Here the three parts come together: scoping, declarations, and the statements of either program. -/
theorem exists_course_append (hs : session.Sound) (hcomplete : session.Complete)
    (hstrict : session.options.strictShadowing = false) (hwhole : whole.stmts = first.stmts ++ second.stmts)
    (c : session.Course first) (c' : c.outcome.session.Course second) :
    ∃ (d : session.Course whole) (typed' : Table)
      (htyped : ∀ fact ∈ (c'.table ++ typed').facts, ∃ ty, fact.2.2 = some ty),
      (c.moved c' hs htyped).Relates c'.final d.final ∧ d.tys = (c.tys ++ c'.tys).map (c.exchange c') := by
  obtain ⟨scopes, hannotate, hscoped⟩ := c.exists_scoped hs c' hstrict hwhole
  obtain ⟨typed, typed', t, h⟩ := c.exists_ahead hs c' hscoped hcomplete
  obtain ⟨E, hleap, hready⟩ := h.exists_leap hs hscoped hcomplete
  obtain ⟨t', hrun, hfinal⟩ := hleap.exists_infer h hs hready
  obtain ⟨htyped, hfacts⟩ := h.facts_second hs hcomplete
  obtain ⟨t'', hrun', hlast⟩ := hleap.exists_infer_second h hs hscoped hfinal hfacts htyped
  have htys : c.tys.map E.apply = c.tys.map (c.exchange c') :=
    List.map_congr_left fun ty hty => (hleap.exchange_eq h hs ((c.step_inferred hs).2.2 ty hty)).symm
  have hinferred : inferStmts session.global (pinnedTypes c.table) (c.pins.append (c'.pins.rename c.shift))
      (c.joined c').stmts t = .ok ((c.tys ++ c'.tys).map (c.exchange c')) t'' := by
    rw [joined, inferStmts_append, List.map_append, ← htys]
    exact (run_bind_of_ok hrun).trans (run_bind_of_ok hrun')
  let d : session.Course whole :=
    { table := c.table, annotated := c.joined c', scopes, pins := c.pins.append (c'.pins.rename c.shift), ready := t
      tys := (c.tys ++ c'.tys).map (c.exchange c'), final := t'', found := c.found, annotate := hannotate
      declared := h.declared, inferred := hinferred }
  exact ⟨d, typed', htyped, hlast, rfl⟩

end Course

/-- **A session accepted line by line is accepted as one file.** If a session accepts one program and goes on to
    accept another, it accepts the program that has the statements of both. Its answers, and the types of the
    global names, are the same up to a permutation that takes unbound variables to unbound variables, and
    everything else that is known of the global names is the same. -/
theorem Reachable.check_append (h : Reachable (·.rollbackOnError = true) session)
    (hstrict : session.options.strictShadowing = false) {o₁ o₂ : Outcome} {tys₁ tys₂ : List TypeId}
    (hcheck₁ : session.check first = .ok o₁) (haccepted₁ : o₁.result = .ok tys₁)
    (hcheck₂ : o₁.session.check second = .ok o₂) (haccepted₂ : o₂.result = .ok tys₂)
    (hwhole : whole.stmts = first.stmts ++ second.stmts) :
    ∃ outcome tys, session.check whole = .ok outcome ∧ outcome.result = .ok tys ∧
      ∃ ρ : Equiv.Perm TypeId,
        (∀ v, outcome.session.types.IsUnbound (ρ v) ↔ o₂.session.types.IsUnbound v) ∧
        tys.map outcome.session.types.tree = (tys₁ ++ tys₂).map (fun ty => (o₂.session.types.tree ty).rename ρ) ∧
        ∀ name, Option.Rel (Symbol.Agrees ρ o₂.session.types.tree outcome.session.types.tree)
          (o₂.session.scopes.symbolAt o₂.session.global name)
          (outcome.session.scopes.symbolAt outcome.session.global name) := by
  obtain ⟨c, rfl, rfl⟩ := h.sound.exists_course hcheck₁ haccepted₁
  have hs' := c.sound_outcome h.sound
  obtain ⟨c', rfl, rfl⟩ := hs'.exists_course hcheck₂ haccepted₂
  obtain ⟨d, typed', htyped, hlast, htys⟩ := Course.exists_course_append h.sound h.complete hstrict hwhole c c'
  have hwf := (c'.admits_final hs').wf
  have hwf' := (d.admits_final h.sound).wf
  -- Types that have exchanged numbers have the same trees up to the names of variables.
  have htree : ∀ {ty : TypeId}, ty.index < c'.final.types.size →
      d.final.types.tree (c.exchange c' ty) = (c'.final.types.tree ty).rename (c.exchange c') := fun hty =>
    hlast.types.tree_eq hwf.grounded hwf'.grounded hty
  refine ⟨d.outcome, d.tys, d.check_eq_ok, rfl, c.exchange c', hlast.types.isUnbound_iff, ?_, fun name => ?_⟩
  · have hlt : ∀ ty ∈ c.tys ++ c'.tys, ty.index < c'.final.types.size := fun ty hty =>
      (List.mem_append.mp hty).elim
        (fun hty => ((c.step_inferred h.sound).2.2 ty hty).trans_le (c'.step_final hs').types.size_le)
        ((c'.step_inferred hs').2.2 ty)
    show d.tys.map d.final.types.commit.tree =
      (c.tys ++ c'.tys).map fun ty => (c'.final.types.commit.tree ty).rename _
    rw [tree_commit, tree_commit, htys, List.map_map]
    exact List.map_congr_left fun ty hty => htree (hlt ty hty)
  -- A global symbol is the one that the second submission has left, with its type renumbered.
  · have hsymbol : d.final.scopes.symbolAt session.global name =
        (c'.final.scopes.symbolAt session.global name).map (Symbol.rename (c.exchange c')) := by
      obtain ⟨table, hat, -⟩ := hlast.scopes.global
      exact hlast.scopes.symbolAt (lt_of_scopeAt hat) fun _ => List.forall_mem_nil _
    show Option.Rel (Symbol.Agrees _ c'.final.types.commit.tree d.final.types.commit.tree)
      (c'.final.scopes.symbolAt session.global name) (d.final.scopes.symbolAt session.global name)
    rw [tree_commit, tree_commit, hsymbol]
    cases hfound : c'.final.scopes.symbolAt session.global name with
    | none => exact .none
    | some symbol =>
      refine .some ⟨rfl, rfl, rfl, rfl, ?_⟩
      cases hty : symbol.ty with
      | none => simp [Symbol.rename, hty]
      | some ty =>
        simp only [Symbol.rename, hty, Option.map_some]
        exact congrArg some (htree ((c'.admits_final hs').inRange (gives_of_symbolAt hfound hty)))

/-! ### A variable declared after a use of a function -/

/-- A variable that may be assigned later, and about whose type nothing is known. -/
def openVariable : Program := ⟨[.vars .origin .mutable [⟨.origin, ⟨"b", .origin⟩, none, none⟩]], none⟩

/-- The variable's type is made after the types of the use, and before them if both are submitted as one. -/
theorem check_append_useIdentity :
    ∃ o₁ o₂ tys₁ tys₂, ((new {}).submit identity).check useIdentity = .ok o₁ ∧ o₁.result = .ok tys₁ ∧
      o₁.session.check openVariable = .ok o₂ ∧ o₂.result = .ok tys₂ ∧
      ∃ outcome tys, ((new {}).submit identity).check ⟨useIdentity.stmts ++ openVariable.stmts, none⟩ = .ok outcome ∧
        outcome.result = .ok tys ∧
        ∃ ρ : Equiv.Perm TypeId,
          (∀ v, outcome.session.types.IsUnbound (ρ v) ↔ o₂.session.types.IsUnbound v) ∧
          tys.map outcome.session.types.tree = (tys₁ ++ tys₂).map (fun ty => (o₂.session.types.tree ty).rename ρ) ∧
          ∀ name, Option.Rel (Symbol.Agrees ρ o₂.session.types.tree outcome.session.types.tree)
            (o₂.session.scopes.symbolAt o₂.session.global name)
            (outcome.session.scopes.symbolAt outcome.session.global name) := by
  have hnew : Reachable (·.rollbackOnError = true) (new {}) := .new {}
  obtain ⟨o₁, tys₁, hcheck₁, haccepted₁⟩ :=
    exists_of_accepts (by decide +kernel : ((new {}).submit identity).accepts useIdentity = true)
  have hlater : o₁.session.accepts openVariable = true := by
    have haccepts : (((new {}).submit identity).submit useIdentity).accepts openVariable = true := by decide +kernel
    have hgoes : ((new {}).submit identity).submit useIdentity = o₁.session := by rw [Session.submit, hcheck₁]
    rwa [hgoes] at haccepts
  obtain ⟨o₂, tys₂, hcheck₂, haccepted₂⟩ := exists_of_accepts hlater
  exact ⟨o₁, o₂, tys₁, tys₂, hcheck₁, haccepted₁, hcheck₂, haccepted₂,
    (hnew.submit rfl identity).check_append (by decide +kernel) hcheck₁ haccepted₁ hcheck₂ haccepted₂ rfl⟩

end Session

end TypeInference
