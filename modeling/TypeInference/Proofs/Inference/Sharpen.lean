import TypeInference.Proofs.Inference.Expression

/-!
# `Proofs.Inference.Sharpen` — a guard for each statement

At a statement everything that inference holds on to is part of a pinned type: the types of variables in
sight, the results of the open functions, the functions whose bodies are still to come. So a tidy guard can be
*sharpened* there: from now on it hides every type variable that is not pinned. Functions that have been
looked at become polymorphic that way, one statement after another, and what a sharper guard allows is allowed
by the guard it was made from.

## Contents
* `Guard.Open` — what a state must be like to look at a statement;
* `Guard.sharpen`, `Open.sharpen`, `Open.ready` — the sharper guard, and that it is met;
* `Guard.Settles` — what a statement has shown, with its lemmas for going on.
-/

namespace TypeInference

open Store Scopes InferM Guard

namespace Store

variable {s : Store} {hidden hidden' : Set TypeId} {pinned pinned' : List TypeId} {a : TypeId}

/-- A type all of whose variables are pinned is clear of the others. -/
theorem Covered.clear_unpinned (h : s.Covered ∅ pinned a) : s.Clear (s.Unpinned pinned) a :=
  ⟨h.1, fun v hr hv => (h.2 v hr hv.1).elim (fun hmem => hmem) fun ⟨p, hp, hpv⟩ => hv.2 p hp hpv⟩

/-- Hiding more variables covers more types: a variable of the type need not be pinned if it is hidden. -/
theorem Covered.hide (hsub : hidden ⊆ hidden') (h : s.Covered hidden pinned a) : s.Covered hidden' pinned a :=
  ⟨h.1, fun v hr hv => (h.2 v hr hv).imp_left fun hmem => hsub hmem⟩

/-- Pinning fewer types leaves more variables that are not pinned. -/
theorem unpinned_anti (hsub : pinned ⊆ pinned') : s.Unpinned pinned' ⊆ s.Unpinned pinned :=
  fun _ hv => ⟨hv.1, fun p hp => hv.2 p (hsub hp)⟩

end Store

/-! ## Before a statement -/

variable {G : Guard} {r : Bool} {s s' : Inference} {pinned pinned' : List TypeId} {scope : ScopeId}
  {n n' : Nat} {names : List String}

/-- A run that returns less often is a run that may return. -/
theorem Within.mayReturn {α : Type} {m : InferM α} {Q : α → Inference → Prop} {r' : Bool}
    (h : G.Allows r m s Q) (hle : r = true → r' = true) : G.Allows r' m s Q :=
  Within.relax h fun _ hs => hs.mayReturn hle

namespace Guard

/-- What a state must be like to look at a statement: under a tidy guard, the names in sight have types, and the
    variables of what inference holds on to are pinned. Without a tidy guard nothing more is asked than `Stands`. -/
structure Open (G : Guard) (pinned : List TypeId) (scope : ScopeId) (n : Nat) (s : Inference) : Prop
    extends G.Stands pinned scope n s where
  typed : G.tidy → ∀ {owner name symbol}, G.base.Sees scope owner →
    s.scopes.symbolAt owner name = some symbol → symbol.kind.isValue = true → ∃ ty, symbol.ty = some ty
  varsPinned : G.tidy → ∀ {owner name symbol ty}, G.base.Sees scope owner →
    s.scopes.symbolAt owner name = some symbol → symbol.kind = .var → symbol.ty = some ty →
    s.types.Covered ∅ pinned ty
  framesPinned : G.tidy → ∀ frame ∈ s.frames, s.types.Covered ∅ pinned frame.result

/-- The results of the open functions stay the same; a run may only record that the innermost one returns. -/
theorem Step.exists_frame (hs : G.Step r s s') {frame : Frame} (h : frame ∈ s'.frames) :
    ∃ old ∈ s.frames, old.result = frame.result := by
  rcases hs.frames with he | ⟨-, he⟩
  · exact ⟨frame, he ▸ h, rfl⟩
  · exact exists_of_mem_returned (he ▸ h)

namespace Open

/-- **The next statement may be looked at** after a run that was allowed. -/
theorem step (h : G.Open pinned scope n s) (hs : G.Step r s s') (hle : n ≤ n') (hfresh : G.tidy → s'.Fresh n') :
    G.Open pinned scope n' s' := by
  -- A value in sight was one before the run, with the type that it has now.
  have hback : G.tidy → ∀ {owner name symbol'}, G.base.Sees scope owner →
      s'.scopes.symbolAt owner name = some symbol' → symbol'.kind.isValue = true →
      ∃ symbol ty, s.scopes.symbolAt owner name = some symbol ∧ symbol'.kind = symbol.kind ∧
        symbol.ty = some ty ∧ symbol'.ty = some ty := by
    intro ht owner name symbol' hsees hsymbol' hvalue
    obtain ⟨symbol, hsymbol, hkind⟩ := hs.shape.symm.symbol hsymbol'
    obtain ⟨ty, hty⟩ := h.typed ht hsees hsymbol (hkind ▸ hvalue)
    have hkept := hs.kept ht (typeAt_of_symbolAt hsymbol hty)
    rw [typeAt, hsymbol', Option.bind_some] at hkept
    exact ⟨symbol, ty, hsymbol, hkind.symm, hty, hkept⟩
  have hcovered : ∀ {a}, s.types.Covered ∅ pinned a → s'.types.Covered ∅ pinned a :=
    (hs.types.mono (Set.empty_subset _)).covered h.admits.wf
  refine ⟨h.toStands.step hs hle hfresh, fun ht {owner name symbol'} hsees hsymbol' hvalue => ?_,
    fun ht {owner name symbol' ty'} hsees hsymbol' hkind hty' => ?_, fun ht frame hframe => ?_⟩
  · obtain ⟨_, ty, _, _, _, hty⟩ := hback ht hsees hsymbol' hvalue
    exact ⟨ty, hty⟩
  · obtain ⟨symbol, ty, hsymbol, hsame, hty, hkept⟩ := hback ht hsees hsymbol' (by rw [hkind]; rfl)
    obtain rfl : ty' = ty := Option.some.inj (hty'.symm.trans hkept)
    exact hcovered (h.varsPinned ht hsees hsymbol (hsame ▸ hkind) hty)
  · obtain ⟨old, hold, he⟩ := hs.exists_frame hframe
    exact he ▸ hcovered (h.framesPinned ht old hold)

/-- More types may be pinned, if they are clear of what is hidden. -/
theorem pin (h : G.Open pinned scope n s) (hsub : pinned ⊆ pinned')
    (hclear : ∀ p ∈ pinned', s.types.Clear G.hidden p) : G.Open pinned' scope n s where
  toStands := { h.toStands with pinsClear := hclear }
  typed := h.typed
  varsPinned := fun ht _ _ _ _ hsees hsymbol hkind hty => (h.varsPinned ht hsees hsymbol hkind hty).mono hsub
  framesPinned := fun ht frame hframe => (h.framesPinned ht frame hframe).mono hsub

/-- **A new scope may be entered** when the values it declares have types, and those of variables are pinned.
    Functions need not be pinned: their uses are instances. -/
theorem enter {symbols : List (Ident × Symbol)} {tys : List TypeId} (h : G.Open pinned scope n s)
    (hopened : G.base.Opened ⟨n⟩ scope symbols) (hs : G.Step r s s')
    (htys : ∀ ty ∈ tys, s'.types.Clear G.hidden ty) (hfresh : G.tidy → s'.Fresh (n + 1))
    (htyped : G.tidy → ∀ entry ∈ symbols, entry.2.kind.isValue = true →
      ∃ ty, s'.scopes.typeAt ⟨n⟩ entry.1.name = some ty ∧
        (entry.2.kind = .var → s'.types.Covered ∅ (pinned ++ tys) ty)) :
    G.Open (pinned ++ tys) ⟨n⟩ (n + 1) s' := by
  have hstep := h.step hs (Nat.le_succ n) hfresh
  -- The names of the new scope are those it was opened for.
  have hown : G.tidy → ∀ {name symbol}, s'.scopes.symbolAt ⟨n⟩ name = some symbol →
      symbol.kind.isValue = true →
      ∃ ty, symbol.ty = some ty ∧ (symbol.kind = .var → s'.types.Covered ∅ (pinned ++ tys) ty) := by
    intro ht name symbol hsymbol hvalue
    obtain ⟨old, hold, hkind⟩ := hstep.admits.shape.symm.symbol hsymbol
    obtain ⟨entry, hentry, rfl, rfl⟩ := hopened.exists_of_symbolAt hold
    obtain ⟨ty, hty, hcovered⟩ := htyped ht entry hentry (hkind ▸ hvalue)
    rw [typeAt, hsymbol, Option.bind_some] at hty
    exact ⟨ty, hty, fun hvar => hcovered (hkind.trans hvar)⟩
  refine ⟨h.toStands.enter hopened hs htys hfresh, fun ht {owner name symbol} hsees hsymbol hvalue => ?_,
    fun ht {owner name symbol ty} hsees hsymbol hkind hty => ?_, fun ht frame hframe => ?_⟩
  · rcases hsees.of_parent hopened.parentOf with rfl | hsees
    · obtain ⟨ty, hty, -⟩ := hown ht hsymbol hvalue
      exact ⟨ty, hty⟩
    · exact hstep.typed ht hsees hsymbol hvalue
  · rcases hsees.of_parent hopened.parentOf with rfl | hsees
    · obtain ⟨ty', hty', hcovered⟩ := hown ht hsymbol (by rw [hkind]; rfl)
      obtain rfl : ty = ty' := Option.some.inj (hty.symm.trans hty')
      exact hcovered hkind
    · exact (hstep.varsPinned ht hsees hsymbol hkind hty).mono (List.subset_append_left _ _)
  · exact (hstep.framesPinned ht frame hframe).mono (List.subset_append_left _ _)

/-- A function may be opened whose result is pinned, as it is while its body is looked at. -/
theorem withFrame (h : G.Open pinned scope n s) (frame : Frame) (hclear : s.types.Clear G.hidden frame.result)
    (hcovered : G.tidy → s.types.Covered ∅ pinned frame.result) :
    G.Open pinned scope n { s with frames := frame :: s.frames } where
  admits := { h.admits with frames := List.forall_mem_cons.mpr ⟨hclear, h.admits.frames⟩ }
  pinsClear := h.pinsClear
  inside := h.inside
  vars := h.vars
  ahead := h.ahead
  fresh := h.fresh
  typed := h.typed
  varsPinned := h.varsPinned
  framesPinned := fun ht => List.forall_mem_cons.mpr ⟨hcovered ht, h.framesPinned ht⟩

/-- Under another guard, fewer types may be pinned if they were enough. This is how the types of a scope are let go
    of when it is left. -/
theorem repin {G' : Guard} (h : G.Open pinned scope n s) (h' : G'.Open pinned' scope n s)
    (hbase : G'.base = G.base) (htidy : G'.tidy = G.tidy) (hsub : pinned ⊆ pinned') :
    G'.Open pinned scope n s where
  toStands := { h'.toStands with pinsClear := fun p hp => h'.pinsClear p (hsub hp) }
  typed := h'.typed
  varsPinned := fun ht _ _ _ _ hsees => h.varsPinned (htidy ▸ ht) (hbase ▸ hsees)
  framesPinned := fun ht => h.framesPinned (htidy ▸ ht)

end Open

/-! ## The sharper guard -/

/-- The guard that hides every variable which is not pinned, if it is tidy. Of the names that are used directly
    there remain the variables in sight, the names listed, and those of the scopes to come: functions that have been
    looked at are no longer among them, and that makes them polymorphic. -/
def sharpen (G : Guard) (pinned : List TypeId) (scope : ScopeId) (n : Nat) (names : List String)
    (s : Inference) : Guard where
  hidden := {v | v ∈ G.hidden ∨ G.tidy ∧ v ∈ s.types.Unpinned pinned}
  visible := G.visible
  direct := fun id name => G.direct id name ∧ (G.tidy →
    (G.base.Sees scope id ∧ ∃ symbol, G.base.symbolAt id name = some symbol ∧ symbol.kind = .var) ∨
      (id = scope ∧ name ∈ names) ∨ n ≤ id.index)
  base := G.base
  tidy := G.tidy
  ordered := G.ordered
  visible_lt := G.visible_lt

/-- What the sharper guard allows is allowed. It asks for more of a run, and grants it nothing new. -/
theorem step_of_sharpen {s₁ s₂ : Inference} (hs : (G.sharpen pinned scope n names s).Step r s₁ s₂) :
    G.Step r s₁ s₂ where
  types := hs.types.mono fun _ => .inl
  shape := hs.shape
  outside := hs.outside
  gives := fun hg => (hs.gives hg).imp_right (Clear.mono fun _ => .inl)
  typed := fun hty => (hs.typed hty).imp_right (Clear.mono fun _ => .inl)
  kept := hs.kept
  frames := hs.frames

theorem subset_hidden_sharpen (ht : G.tidy) :
    s.types.Unpinned pinned ⊆ (G.sharpen pinned scope n names s).hidden :=
  fun _ hv => .inr ⟨ht, hv⟩

/-- Clear of what was hidden, and of what is not pinned. -/
theorem clear_sharpen {a : TypeId} (hclear : s.types.Clear G.hidden a)
    (hunpinned : G.tidy → s.types.Clear (s.types.Unpinned pinned) a) :
    s.types.Clear (G.sharpen pinned scope n names s).hidden a :=
  ⟨hclear.1, fun v hr hv => hv.elim (hclear.2 v hr) fun ⟨ht, hv⟩ => (hunpinned ht).2 v hr hv⟩

/-- **The sharper guard is met.** Every type that the guard asks about is that of a variable in sight, or a result
    of an open function, or one of the names listed, and all of these are covered by what is pinned. -/
theorem Open.sharpen (h : G.Open pinned scope n s) (names : List String)
    (hnames : G.tidy → ∀ name ∈ names, ∀ ty, s.scopes.typeAt scope name = some ty →
      s.types.Covered ∅ pinned ty) :
    (G.sharpen pinned scope n names s).Open pinned scope n s where
  admits := {
    wf := h.admits.wf
    unbound := fun v hv => hv.elim (h.admits.unbound v) fun ⟨_, hv⟩ => hv.1
    shape := h.admits.shape
    inRange := h.admits.inRange
    direct := fun {id name ty} ⟨hdirect, hcases⟩ hty => by
      refine clear_sharpen (h.admits.direct hdirect hty) ?_
      intro ht
      -- A name that is used directly is a variable in sight, a listed name, or has no type yet.
      rcases hcases ht with ⟨hsees, symbol, hsymbol, hkind⟩ | ⟨rfl, hmem⟩ | hge
      · obtain ⟨found, hfound, hfoundTy⟩ := Option.bind_eq_some_iff.mp hty
        obtain ⟨base, hbase, hbaseKind⟩ := h.admits.shape.symm.symbol hfound
        obtain rfl : symbol = base := Option.some.inj (hsymbol.symm.trans hbase)
        exact (h.varsPinned ht hsees hfound (hbaseKind ▸ hkind) hfoundTy).clear_unpinned
      · exact (hnames ht name hmem ty hty).clear_unpinned
      · rw [(h.fresh ht).typeAt hge] at hty
        cases hty
    frames := fun frame hframe => clear_sharpen (h.admits.frames frame hframe) fun ht =>
      (h.framesPinned ht frame hframe).clear_unpinned }
  pinsClear := fun p hp => clear_sharpen (h.pinsClear p hp) fun _ => clear_unpinned (h.pinsClear p hp).lt hp
  inside := h.inside
  vars := fun hsees hsymbol hkind => ⟨h.vars hsees hsymbol hkind, fun _ => .inl ⟨hsees, _, hsymbol, hkind⟩⟩
  ahead := fun id hge hlt =>
    ⟨(h.ahead id hge hlt).1, fun name => ⟨(h.ahead id hge hlt).2 name, fun _ => .inr (.inr hge)⟩⟩
  fresh := h.fresh
  typed := h.typed
  varsPinned := h.varsPinned
  framesPinned := h.framesPinned

/-- Under the sharper guard the expressions of the statement may be looked at: every variable is hidden or
    pinned. -/
theorem Open.ready (h : (G.sharpen pinned scope n names s).Open pinned scope n s) :
    (G.sharpen pinned scope n names s).Ready pinned scope n s where
  toStands := h.toStands
  typed := fun ht {owner name symbol} hsees hsymbol hvalue => by
    obtain ⟨ty, hty⟩ := h.typed ht hsees hsymbol hvalue
    have hlt := h.admits.lt_of_typeAt (typeAt_of_symbolAt hsymbol hty)
    exact ⟨ty, hty, (covered_unpinned hlt).hide (subset_hidden_sharpen ht)⟩

/-! ## What a statement has shown -/

/-- Under a tidy guard, the scopes from `n` on have no types yet, and `J` holds as long as no variable is touched
    that is not pinned. What is settled is thus independent of the guard at hand. -/
structure Settles (G : Guard) (pinned : List TypeId) (n : Nat) (s : Inference)
    (J : Store → Scopes → Prop) : Prop where
  fresh : G.tidy → s.Fresh n
  holds : G.tidy → Eventually (s.types.Unpinned pinned) s J

/-- What follows from what is settled, at every store, is settled. -/
theorem Settles.mono {J J' : Store → Scopes → Prop} (h : G.Settles pinned n s J)
    (hJ : ∀ types scopes, J types scopes → J' types scopes) : G.Settles pinned n s J' :=
  ⟨h.fresh, fun ht types scopes hl => hJ types scopes (h.holds ht types scopes hl)⟩

/-- What is settled for some pinned types is settled for fewer, as there are then more variables that must not be
    touched. -/
theorem Settles.unpin {J : Store → Scopes → Prop} (h : G.Settles pinned n s J) (hsub : pinned' ⊆ pinned) :
    G.Settles pinned' n s J :=
  ⟨h.fresh, fun ht types scopes hl => h.holds ht types scopes (hl.mono (unpinned_anti hsub))⟩

/-- The hidden variables of a guard are not pinned after a run either: no pinned type has got one of them. -/
theorem Stands.hidden_subset_of_step (h : G.Stands pinned scope n s) (hs : G.Step r s s') :
    G.hidden ⊆ s'.types.Unpinned pinned :=
  subset_unpinned (h.admits.step hs).unbound fun p hp => hs.types.clear h.admits.wf (h.pinsClear p hp)

/-! ### Going on -/

/-- **What is concluded under the sharper guard is settled.** This is the way to look at an expression of a
    statement: sharpen the guard, use what is known of expressions, and keep what does not depend on the sharper
    guard. -/
theorem Open.settle {α : Type} {m : InferM α} {Q : α → Inference → Prop} {J : α → Store → Scopes → Prop}
    (h : G.Open pinned scope n s)
    (hrun : (G.sharpen pinned scope n [] s).Ready pinned scope n s →
      (G.sharpen pinned scope n [] s).Allows r m s fun a s' => Q a s' ∧
        (G.sharpen pinned scope n [] s).Concludes n' s' (J a)) :
    G.Allows r m s fun a s' => Q a s' ∧ G.Settles pinned n' s' (J a) := by
  have hopen := h.sharpen [] (by simp)
  refine Within.relax ((hrun hopen.ready).mono fun a s' hs ⟨hQ, hend⟩ => ⟨hQ, ?_⟩) fun _ => step_of_sharpen
  exact ⟨fun ht => (hend ht).1, fun ht types scopes hl =>
    (hend ht).2 types scopes (hl.mono (hopen.hidden_subset_of_step hs))⟩

/-- **What is settled is kept** by a run under the sharper guard, since it touches no variable that is not pinned.
    This is the way to look at the next statement when there is something to remember of the ones before. -/
theorem Open.keep {α : Type} {m : InferM α} {Q : α → Inference → Prop} {J : Store → Scopes → Prop}
    (h : G.Open pinned scope n s) (names : List String)
    (hnames : G.tidy → ∀ name ∈ names, ∀ ty, s.scopes.typeAt scope name = some ty →
      s.types.Covered ∅ pinned ty) (hJ : G.tidy → Eventually (s.types.Unpinned pinned) s J)
    (hrun : (G.sharpen pinned scope n names s).Open pinned scope n s →
      (G.sharpen pinned scope n names s).Allows r m s Q) :
    G.Allows r m s fun a s' => Q a s' ∧ (G.tidy → Eventually (s'.types.Unpinned pinned) s' J) := by
  have hopen := h.sharpen names hnames
  refine Within.relax ((hrun hopen).mono fun a s' hs hQ => ⟨hQ, fun ht types scopes hl => ?_⟩) fun _ => step_of_sharpen
  -- What is not pinned after the run was hidden during it.
  have hl' : Later (G.sharpen pinned scope n names s).hidden s types scopes :=
    Later.of_step (G := G.sharpen pinned scope n names s) ht subset_rfl hs
      (hl.mono (hopen.hidden_subset_of_step hs))
  exact hJ ht types scopes (hl'.mono (subset_hidden_sharpen ht))

end Guard

end TypeInference
