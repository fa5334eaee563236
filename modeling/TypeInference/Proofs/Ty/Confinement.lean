import TypeInference.Proofs.Ty.MostGeneral

/-!
# `Proofs.Ty.Confinement` — unification stays inside the types it is given

A *region* is a set of types that no arrow leaves. Unification follows arrows, and the only arrows that it adds
lead from a variable that it has come to, to a type that it has come to. So from two types of a region it binds
variables of the region only, and the region has no way out afterwards either. Wherever it stops, the trail has
grown by exactly the variables that have been bound.

The smallest region of two types holds just what they reach. A variable that is bound was part of one of them,
as they were at the beginning: the components may have grown meanwhile, but not beyond the region.

## Contents
* `Closed`, `IsBound`, `Confined` — regions, and bindings inside a region;
* `unify_confined`, `unify_persists` — unification from any store, whatever comes of it;
* `Grounded.unify_touches` — what it does to a store without dangling numbers and without cycles.
-/

namespace TypeInference

open Relation

namespace Store

variable {s s' s'' : Store} {region : Set TypeId}

/-! ## Regions -/

/-- No arrow leaves the region. It may hold numbers that no node has, so any set of types without a way out is a
    region, in a broken store as well. -/
def Closed (s : Store) (region : Set TypeId) : Prop := ∀ {a b}, a ∈ region → s.Refers a b → b ∈ region

/-- The number of a bound variable, whatever it is bound to. -/
def IsBound (s : Store) (v : TypeId) : Prop := ∃ target, s.get v = .ok (.var (some target))

/-- Unbound variables of the region have been bound, each is noted once, and nothing else has happened. In
    particular the size has not changed and no node outside the region has. -/
structure Confined (region : Set TypeId) (s s' : Store) : Prop where
  size_eq : s'.size = s.size
  closed : s'.Closed region
  node : ∀ id, s'.get id = s.get id ∨ s.IsUnbound id ∧ s'.IsBound id ∧ id ∈ region
  trail : ∃ since, s'.trail = since ++ s.trail ∧ since.Nodup ∧ ∀ v, v ∈ since ↔ s.IsUnbound v ∧ s'.IsBound v

theorem Closed.reaches (h : s.Closed region) {a b : TypeId} (ha : a ∈ region) (hr : s.Reaches a b) : b ∈ region := by
  induction hr with
  | refl => exact ha
  | tail _ hstep ih => exact h ih hstep

/-- What two types reach is a region, and the smallest one that they are in. -/
theorem closed_reaches (s : Store) (a b : TypeId) : s.Closed {c | s.Reaches a c ∨ s.Reaches b c} := by
  rintro c d (hc | hc) hd
  · exact .inl (hc.tail hd)
  · exact .inr (hc.tail hd)

/-! ## Bindings inside a region -/

theorem IsUnbound.not_isBound {v : TypeId} (h : s.IsUnbound v) : ¬ s.IsBound v := by
  rintro ⟨target, hget⟩
  cases hget.symm.trans h

namespace Confined

theorem refl (h : s.Closed region) : Confined region s s := by
  refine ⟨rfl, h, fun _ => .inl rfl, [], rfl, List.nodup_nil, fun v => ?_⟩
  constructor
  · intro hv
    cases hv
  · rintro ⟨hv, hbound⟩
    exact absurd hbound hv.not_isBound

/-- Whatever was not an unbound variable is still there. -/
theorem kept (h : Confined region s s') {id : TypeId} {node : Node} (hget : s.get id = .ok node)
    (hnode : node ≠ .var none) : s'.get id = .ok node := by
  rcases h.node id with hsame | ⟨hunbound, -, -⟩
  · exact hsame.trans hget
  · exact absurd (Except.ok.inj (hget.symm.trans hunbound)) hnode

theorem persists (h : Confined region s s') : Persists s s' := ⟨h.size_eq.ge, h.kept⟩

theorem isBound (h : Confined region s s') {v : TypeId} (hv : s.IsBound v) : s'.IsBound v := by
  obtain ⟨target, hget⟩ := hv
  exact ⟨target, h.kept hget (by simp)⟩

/-- What is unbound has always been. -/
theorem isUnbound_of_isUnbound (h : Confined region s s') {v : TypeId} (hv : s'.IsUnbound v) : s.IsUnbound v := by
  rcases h.node v with hsame | ⟨-, hbound, -⟩
  · exact hsame.symm.trans hv
  · exact absurd hbound hv.not_isBound

/-- A variable that has been bound was unbound before, and is one of the region. -/
theorem newlyBound (h : Confined region s s') {v : TypeId} (hv : s'.IsBound v) (hnot : ¬ s.IsBound v) :
    s.IsUnbound v ∧ v ∈ region := by
  rcases h.node v with hsame | ⟨hunbound, -, hmem⟩
  · obtain ⟨target, hget⟩ := hv
    exact absurd ⟨target, hsame.symm.trans hget⟩ hnot
  · exact ⟨hunbound, hmem⟩

theorem trans (h : Confined region s s') (h' : Confined region s' s'') : Confined region s s'' where
  size_eq := h'.size_eq.trans h.size_eq
  closed := h'.closed
  node := fun id => by
    rcases h'.node id with hsame' | ⟨hunbound, hbound, hmem⟩
    · rcases h.node id with hsame | ⟨hunbound, ⟨target, hget⟩, hmem⟩
      · exact .inl (hsame'.trans hsame)
      · exact .inr ⟨hunbound, ⟨target, hsame'.trans hget⟩, hmem⟩
    · exact .inr ⟨h.isUnbound_of_isUnbound hunbound, hbound, hmem⟩
  trail := by
    obtain ⟨first, htrail, hnodup, hfirst⟩ := h.trail
    obtain ⟨second, htrail', hnodup', hsecond⟩ := h'.trail
    refine ⟨second ++ first, by rw [htrail', htrail, List.append_assoc], ?_, fun v => ?_⟩
    · -- What the first steps have bound the later ones do not find unbound.
      refine List.nodup_append.mpr ⟨hnodup', hnodup, fun v hv w hw he => ?_⟩
      subst he
      exact ((hsecond v).mp hv).1.not_isBound ((hfirst v).mp hw).2
    · rw [List.mem_append, hfirst, hsecond]
      constructor
      · rintro (⟨hunbound, hbound⟩ | ⟨hunbound, hbound⟩)
        · exact ⟨h.isUnbound_of_isUnbound hunbound, hbound⟩
        · exact ⟨hunbound, h'.isBound hbound⟩
      · rintro ⟨hunbound, hbound⟩
        rcases h.node v with hsame | ⟨-, hbound', -⟩
        · exact .inl ⟨hsame.trans hunbound, hbound⟩
        · exact .inr ⟨hunbound, hbound'⟩

end Confined

/-- **A binding inside a region** adds an arrow that stays inside. -/
theorem confined_bind (h : s.Closed region) {var target : TypeId} (hbind : s.bind var target = .ok s')
    (hvar : var ∈ region) (ht : target ∈ region) : Confined region s s' where
  size_eq := size_of_bind hbind
  closed := by
    intro a b ha hr
    rcases refers_of_bind hbind hr with ⟨-, rfl⟩ | ⟨-, hr⟩
    · exact ht
    · exact h ha hr
  node := fun id => by
    by_cases he : id = var
    · subst he
      exact .inr ⟨(bind_eq_ok_iff.mp hbind).1, ⟨target, get_of_bind_self hbind⟩, hvar⟩
    · exact .inl (get_of_bind_ne hbind he)
  trail := by
    obtain ⟨hunbound, rfl⟩ := bind_eq_ok_iff.mp hbind
    refine ⟨[var], rfl, List.nodup_singleton var, fun v => ?_⟩
    rw [List.mem_singleton]
    constructor
    · rintro rfl
      exact ⟨hunbound, target, get_of_bind_self hbind⟩
    · rintro ⟨hv, found, hget⟩
      by_contra he
      cases ((get_of_bind_ne hbind he).symm.trans hget).symm.trans hv

end Store

/-! ## Unification -/

namespace UnifyM

open Store

variable {s : Store} {region : Set TypeId}

/-- Wherever the run from `s` ends or stops, it has stayed inside the region. Nothing is asked of the store or the
    numbers, so a misuse is covered too. -/
abbrev Stays (region : Set TypeId) {α : Type} (m : UnifyM α) (s : Store) : Prop :=
  Within (Confined region) (fun _ => True) m s fun _ _ => True

/-- A question leaves the store alone, and the rest knows the answer. -/
theorem stays_query {α β : Type} {ask : Store → Except Fault α} {next : α → UnifyM β} (h : s.Closed region)
    (hnext : ∀ a, ask s = .ok a → Stays region (next a) s) : Stays region (query ask >>= next) s := by
  cases hask : ask s with
  | ok a => exact .bind_of_ok (query_of_ok hask) (hnext a hask)
  | error fault =>
    have hquery : query ask s = .error (.fault fault) s := by simp [query, hask]
    have hrun : (query ask >>= next) s = .error (.fault fault) s := by
      show EStateM.bind (query ask) next s = _
      simp [EStateM.bind, hquery]
    exact .of_error hrun (.refl h) trivial

theorem stays_clash {α : Type} (h : s.Closed region) (reason : String → String → Clash) (a b : TypeId) :
    Stays region (clash reason a b : UnifyM α) s :=
  stays_query h fun _ _ => stays_query h fun _ _ => .throw (.refl h) trivial

/-- The variable and the type are in the region, so the new arrow is, if the occurs check lets it be made. -/
theorem stays_solve (h : s.Closed region) {var target : TypeId} (hvar : var ∈ region) (ht : target ∈ region) :
    Stays region (solve var target) s := by
  unfold solve
  by_cases he : var = target
  · rw [if_pos he]
    exact .pure (.refl h) trivial
  · rw [if_neg he]
    refine stays_query h fun found _ => ?_
    cases found with
    | true => exact stays_clash h _ _ _
    | false =>
      show Stays region (assign var target) s
      cases hbind : s.bind var target with
      | ok s' =>
        have hrun : assign var target s = .ok () s' := by simp [assign, hbind]
        exact .of_ok hrun (confined_bind h hbind hvar ht) trivial
      | error fault =>
        have hrun : assign var target s = .error (.fault fault) s := by simp [assign, hbind]
        exact .of_error hrun (.refl h) trivial

/-! ### Components, and the recursion -/

/-- Component pairs of the region one after another; the region is still one when the next pair comes. -/
theorem stays_forM {fuel : Nat}
    (hunify : ∀ {a b : TypeId} {s : Store}, s.Closed region → a ∈ region → b ∈ region →
      Stays region (unifyWithin fuel a b) s) :
    ∀ {pairs : List (TypeId × TypeId)} {s : Store}, s.Closed region →
      (∀ pair ∈ pairs, pair.1 ∈ region ∧ pair.2 ∈ region) →
      Stays region (pairs.forM fun pair => unifyWithin fuel pair.1 pair.2) s := by
  intro pairs
  induction pairs with
  | nil => intro s h _; exact .pure (.refl h) trivial
  | cons pair pairs ih =>
    intro s h hpairs
    obtain ⟨hleft, hright⟩ := hpairs pair List.mem_cons_self
    show Stays region (unifyWithin fuel pair.1 pair.2 >>= fun _ => _) s
    refine .bind .trans (hunify h hleft hright) fun _ s' hs _ => ?_
    exact ih hs.closed fun p hp => hpairs p (List.mem_cons_of_mem _ hp)

/-- By induction on the fuel. What a type of the region shows is reached from it, and so are the components of what
    it shows. -/
theorem stays_unifyWithin : ∀ {fuel : Nat} {a b : TypeId} {s : Store}, s.Closed region → a ∈ region →
    b ∈ region → Stays region (unifyWithin fuel a b) s := by
  -- What a type of the region shows stands in the region, and so do its components.
  intro fuel
  induction fuel with
  | zero => intro a b s h _ _; exact .throw (.refl h) trivial
  | succ fuel ih =>
    intro a b s h ha hb
    unfold unifyWithin
    refine stays_query h fun v hv => stays_query h fun w hw => ?_
    replace hv := shows_of_view hv
    replace hw := shows_of_view hw
    have hva := h.reaches ha hv.reaches
    have hwb := h.reaches hb hw.reaches
    rcases v with x | ⟨r, con, args⟩
    case var => exact stays_solve h hva hwb
    rcases w with y | ⟨r', con', args'⟩
    case op.var => exact stays_solve h hwb hva
    case op.op =>
      by_cases hcon : con = con' ∧ args.length = args'.length
      · simp only [hcon, and_self, ↓reduceIte]
        refine stays_forM ih h fun pair hpair => ?_
        obtain ⟨hl, hr⟩ := List.of_mem_zip hpair
        exact ⟨h.reaches ha (hv.reaches_arg hl), h.reaches hb (hw.reaches_arg hr)⟩
      · simp only [hcon, ↓reduceIte]
        exact stays_clash h _ _ _

end UnifyM

namespace Store

variable {s : Store} {region : Set TypeId} {a b : TypeId}

/-- **Unification stays inside a region**, wherever it ends or stops. -/
theorem unify_confined (h : s.Closed region) (ha : a ∈ region) (hb : b ∈ region) :
    UnifyM.Stays region (unify a b) s :=
  UnifyM.stays_unifyWithin h ha hb

/-- All types together are a region, so the store persists whatever is unified. -/
theorem unify_persists (a b : TypeId) (s : Store) :
    Within Persists (fun _ => True) (unify a b) s fun _ _ => True := by
  have hall : s.Closed Set.univ := fun _ _ => Set.mem_univ _
  exact (unify_confined hall (Set.mem_univ a) (Set.mem_univ b)).relax fun _ => Confined.persists

/-! ## What unification touches -/

/-- **Unification touches only what it must.** It ends, or stops with a clash, and in both cases no node has been
    added, no cycle has arisen, constructors and bound variables are what they were, a variable that has been bound
    was unbound and a part of one of the two types, and the trail has grown by just those variables. -/
theorem Grounded.unify_touches (h : s.Grounded) (hbound : ∀ v ∈ s.trail, s.IsBound v) (hnodup : s.trail.Nodup)
    (ha : a.index < s.size) (hb : b.index < s.size) :
    ∃ s', (unify a b s = .ok () s' ∨ ∃ clash, unify a b s = .error (.failure clash) s') ∧
      s'.Grounded ∧ s'.size = s.size ∧
      (∀ id node, s.get id = .ok node → node ≠ .var none → s'.get id = .ok node) ∧
      (∀ v, s'.IsBound v → ¬ s.IsBound v → s.IsUnbound v ∧ ((s.tree a).HasVar v ∨ (s.tree b).HasVar v)) ∧
      ∃ since, s'.trail = since ++ s.trail ∧ s'.trail.Nodup ∧ ∀ v, v ∈ since ↔ s'.IsBound v ∧ ¬ s.IsBound v := by
  -- One invariant tells what unification binds, the other that it stays among the parts of the two types.
  have hadds := h.unify_adds ha hb
  have hstays := unify_confined (closed_reaches s a b) (.inl .refl) (.inr .refl)
  obtain ⟨s', hrun, hgrounded, hconfined⟩ : ∃ s',
      (unify a b s = .ok () s' ∨ ∃ clash, unify a b s = .error (.failure clash) s') ∧ s'.Grounded ∧
        Confined {c | s.Reaches a c ∨ s.Reaches b c} s s' := by
    cases hrun : unify a b s with
    | ok _ s' => exact ⟨s', .inl rfl, (hadds.ok hrun).1.grounded, (hstays.ok hrun).1⟩
    | error reason s' =>
      obtain ⟨hassigns, hfailure, -⟩ := hadds.error hrun
      cases reason with
      | fault f => exact hfailure.elim
      | failure clash => exact ⟨s', .inr ⟨clash, rfl⟩, hassigns.grounded, (hstays.error hrun).1⟩
  refine ⟨s', hrun, hgrounded, hconfined.size_eq, fun id node => hconfined.kept, fun v hv hnot => ?_, ?_⟩
  · obtain ⟨hunbound, hmem⟩ := hconfined.newlyBound hv hnot
    refine ⟨hunbound, ?_⟩
    rw [h.hasVar_tree_iff ha, h.hasVar_tree_iff hb]
    exact hmem.imp (fun hr => ⟨hr, hunbound⟩) fun hr => ⟨hr, hunbound⟩
  · obtain ⟨since, htrail, hsince, hmem⟩ := hconfined.trail
    refine ⟨since, htrail, ?_, fun v => ?_⟩
    · rw [htrail]
      refine List.nodup_append.mpr ⟨hsince, hnodup, fun v hv w hw he => ?_⟩
      -- What has been bound since was unbound before, so it was not on the trail.
      subst he
      exact ((hmem v).mp hv).1.not_isBound (hbound v hw)
    · rw [hmem]
      constructor
      · exact fun ⟨hunbound, hv⟩ => ⟨hv, hunbound.not_isBound⟩
      · exact fun ⟨hv, hnot⟩ => ⟨(hconfined.newlyBound hv hnot).1, hv⟩

/-- Two maps that clash only when their keys have been made equal, and a variable that is bound already. -/
def clashingMaps : Store where
  nodes := initial.nodes ++ #[.var none, .var (some ⟨4⟩), .op .map [⟨5⟩, .number], .op .map [.string, .bool]]
  trail := [⟨5⟩]

theorem grounded_clashingMaps : clashingMaps.Grounded := grounded_of_descending (by decide)

/-- The variable of the first key is bound before the clash, and noted above the one that was bound. -/
theorem unify_touches_clashingMaps :
    ∃ clash s', unify ⟨6⟩ ⟨7⟩ clashingMaps = .error (.failure clash) s' ∧ s'.trail = [⟨4⟩, ⟨5⟩] ∧ s'.Grounded ∧
      ∀ v, s'.IsBound v → ¬ clashingMaps.IsBound v →
        (clashingMaps.tree ⟨6⟩).HasVar v ∨ (clashingMaps.tree ⟨7⟩).HasVar v := by
  have hbound : ∀ v ∈ clashingMaps.trail, clashingMaps.IsBound v := by
    intro v hv
    obtain rfl := List.mem_singleton.mp hv
    exact ⟨⟨4⟩, by decide⟩
  obtain ⟨s', hrun, hgrounded, -, -, hparts, -⟩ :=
    grounded_clashingMaps.unify_touches (a := ⟨6⟩) (b := ⟨7⟩) hbound (List.nodup_singleton _) (by decide) (by decide)
  have htrail : (match unify ⟨6⟩ ⟨7⟩ clashingMaps with
      | .ok _ _ => none
      | .error _ s => some s.trail) = some [⟨4⟩, ⟨5⟩] := by
    decide +kernel
  rcases hrun with hrun | ⟨clash, hrun⟩
  · rw [hrun] at htrail
    cases htrail
  · rw [hrun] at htrail
    exact ⟨clash, s', hrun, Option.some.inj htrail, hgrounded, fun v hv hnot => (hparts v hv hnot).2⟩

end Store

end TypeInference
