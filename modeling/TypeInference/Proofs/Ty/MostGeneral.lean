import TypeInference.Proofs.Ty.Solution
import TypeInference.Proofs.Ty.Unification

/-!
# `Proofs.Ty.MostGeneral` — unification finds most general solutions

A unification that succeeds adds exactly the equation between the two types: the solutions of the store that
it leaves are the old solutions that give both types one tree. One that fails does so because there is no such
solution: different constructors are never equal, and a variable is never equal to a type that it is a proper
part of, because trees are finite.

Both facts are proved together, for readings, by induction on the bound of `unifyWithin`. The components of
two constructors are unified while the store changes; each of them adds its equation to those that the earlier
ones have added, so a clash at a later component refutes the equations of all of them.

Main statement: `Grounded.unify_mostGeneral`. It asks for nothing but a store without dangling numbers and
without cycles.
-/

namespace TypeInference

open Relation

namespace Store

variable {s s' s'' : Store}

/-! ## What bindings do to readings -/

/-- Variables have been bound, and nothing else has happened. The store is not asked to be well-formed, only to be
    without dangling numbers and cycles. -/
structure Assigns (s s' : Store) : Prop where
  grounded : s'.Grounded
  size_eq : s'.size = s.size
  kept : ∀ {id node}, s.get id = .ok node → node ≠ .var none → s'.get id = .ok node
  var : ∀ {id}, s.IsUnbound id → ∃ binding, s'.get id = .ok (.var binding)

namespace Assigns

theorem refl (h : s.Grounded) : Assigns s s := ⟨h, rfl, fun hget _ => hget, fun hv => ⟨_, hv⟩⟩

theorem trans (h : Assigns s s') (h' : Assigns s' s'') : Assigns s s'' where
  grounded := h'.grounded
  size_eq := h'.size_eq.trans h.size_eq
  kept := fun hget hnode => h'.kept (h.kept hget hnode) hnode
  var := fun {id} hv => by
    obtain ⟨binding, hget⟩ := h.var hv
    cases binding with
    | none => exact h'.var hget
    | some target => exact ⟨_, h'.kept hget (by simp)⟩

theorem persists (h : Assigns s s') : Persists s s' := ⟨h.size_eq.ge, h.kept⟩

/-- What is a variable in the end has always been one. -/
theorem var_of_var (h : Assigns s s') {v : TypeId} {binding : Option TypeId}
    (hv : s'.get v = .ok (.var binding)) : ∃ before, s.get v = .ok (.var before) := by
  obtain ⟨node, hget⟩ := exists_get_iff.mpr (h.size_eq ▸ lt_of_get hv)
  cases node with
  | var before => exact ⟨before, hget⟩
  | op con args => cases hv.symm.trans (h.kept hget (by simp))

end Assigns

/-- **A binding** adds the equation between the variable and its target, and takes none away, for an unbound
    variable has had no equation. -/
theorem reads_of_bind {x target : TypeId} (hbind : s.bind x target = .ok s') {reading : TypeId → Tree} :
    s'.Reads reading ↔ s.Reads reading ∧ reading x = reading target := by
  have hx : s.IsUnbound x := (bind_eq_ok_iff.mp hbind).1
  have hself := get_of_bind_self hbind
  constructor
  · intro h
    refine ⟨⟨fun {v t} hv => ?_, fun {r con args} hr => ?_⟩, h.bound hself⟩
    · refine h.bound ((get_of_bind_ne hbind ?_).trans hv)
      rintro rfl
      cases hv.symm.trans hx
    · refine h.op ((get_of_bind_ne hbind ?_).trans hr)
      rintro rfl
      cases hr.symm.trans hx
  · rintro ⟨h, heq⟩
    refine ⟨fun {v t} hv => ?_, fun {r con args} hr => ?_⟩
    · by_cases he : v = x
      · subst he
        cases hself.symm.trans hv
        exact heq
      · exact h.bound ((get_of_bind_ne hbind he).symm.trans hv)
    · refine h.op ((get_of_bind_ne hbind ?_).symm.trans hr)
      rintro rfl
      cases hself.symm.trans hr

/-- A binding that passes the occurs check changes nothing but the variable. -/
theorem assigns_bind (h : s.Grounded) {x target : TypeId} (hbind : s.bind x target = .ok s')
    (ht : target.index < s.size) (hno : ¬ s.Reaches target x) : Assigns s s' where
  grounded := h.bind hbind ht hno
  size_eq := size_of_bind hbind
  kept := fun {id node} hget hnode => by
    refine (get_of_bind_ne hbind ?_).trans hget
    rintro rfl
    exact hnode (Except.ok.inj (hget.symm.trans (bind_eq_ok_iff.mp hbind).1))
  var := fun {id} hv => by
    by_cases he : id = x
    · exact ⟨_, he ▸ get_of_bind_self hbind⟩
    · exact ⟨_, (get_of_bind_ne hbind he).trans hv⟩

end Store

namespace UnifyM

open Store

variable {s : Store}

/-! ## Equations added or refuted

A run of unification is described by one condition on readings: when it ends it has added just this condition to the
equations of the store, and when it stops there was no reading that met it. -/

/-- A clash for which there is a reason: no reading of the store meets the condition. Since the store keeps the
    bindings made before the clash, `Refutes` is always about the store from which the whole run has started. -/
def Refutes (s : Store) (condition : (TypeId → Tree) → Prop) (reason : Halt Clash) : Prop :=
  IsFailure reason ∧ ∀ reading, s.Reads reading → ¬ condition reading

/-- From `s`, the run adds the condition to the equations of the store, or refutes it. Most generality is in the
    equivalence: a run that bound more than it must would lose readings. -/
abbrev Adds (s : Store) (m : UnifyM Unit) (condition : (TypeId → Tree) → Prop) : Prop :=
  Within Assigns (Refutes s condition) m s fun _ s' =>
    ∀ reading, s'.Reads reading ↔ s.Reads reading ∧ condition reading

/-- What is added may be said in another way, if it comes to the same in all readings of the store. -/
theorem Adds.congr {m : UnifyM Unit} {condition condition' : (TypeId → Tree) → Prop}
    (h : Adds s m condition) (hiff : ∀ reading, s.Reads reading → (condition reading ↔ condition' reading)) :
    Adds s m condition' := by
  refine Within.imp h ?_ ?_
  · rintro e ⟨hfailure, hnone⟩
    exact ⟨hfailure, fun reading hreads => mt (hiff reading hreads).mpr (hnone reading hreads)⟩
  · intro _ s' _ hall reading
    rw [hall]
    exact and_congr_right fun hreads => hiff reading hreads

/-- A clash refutes what cannot be. -/
theorem clash_adds (h : s.Grounded) {a b : TypeId} (ha : a.index < s.size) (hb : b.index < s.size)
    (reason : String → String → Clash) {condition : (TypeId → Tree) → Prop}
    (hnone : ∀ reading, s.Reads reading → ¬ condition reading) : Adds s (clash reason a b) condition := by
  obtain ⟨left, hleft⟩ := h.exists_display ha
  obtain ⟨right, hright⟩ := h.exists_display hb
  refine .bind_of_ok (query_of_ok hleft) (.bind_of_ok (query_of_ok hright) ?_)
  exact .throw (.refl h) ⟨trivial, hnone⟩

/-- **A variable is made equal to what a type shows**, unless it is a proper part of it. In that case no reading
    makes them equal, because trees are finite. -/
theorem solve_adds (h : s.Grounded) {x b : TypeId} (hx : s.IsUnbound x) {w : View} (hw : s.Shows b w)
    (hlt : w.id.index < s.size) : Adds s (solve x w.id) fun reading => reading x = reading w.id := by
  unfold solve
  by_cases he : x = w.id
  · rw [if_pos he]
    exact .pure (.refl h) fun reading => by rw [← he]; simp
  · rw [if_neg he]
    obtain ⟨found, hfound, hiff⟩ := h.occurs_eq_ok hx hlt
    refine .bind_of_ok (query_of_ok hfound) ?_
    cases found with
    | true =>
      have hr : s.Reaches w.id x := hiff.mp rfl
      refine clash_adds h (lt_of_get hx) hlt _ ?_
      intro reading hreads
      cases w with
      | var y => exact absurd (eq_of_reaches_unbound hw.isUnbound hr) he
      | op r con args => exact hreads.ne_of_reaches hw.get_op hx hr
    | false =>
      obtain ⟨s', hbind⟩ : ∃ s', s.bind x w.id = .ok s' := exists_bind hx
      have hno : ¬ s.Reaches w.id x := fun hr => Bool.false_ne_true (hiff.mpr hr)
      have hrun : assign x w.id s = .ok () s' := by simp [assign, hbind]
      exact .of_ok hrun (assigns_bind h hbind hlt hno) fun _ => reads_of_bind hbind

/-! ## Components, and the recursion -/

/-- Both sides of a component pair lie in the store, and the left one below as many arrows as `depth` says. -/
def Inside (depth : Nat) (pair : TypeId × TypeId) (s : Store) : Prop :=
  pair.1.index < s.size ∧ pair.2.index < s.size ∧ s.Deep depth pair.1

theorem Inside.assigns {s' : Store} (hs : Assigns s s') {depth : Nat} {pair : TypeId × TypeId}
    (h : Inside depth pair s) : Inside depth pair s' :=
  ⟨hs.size_eq ▸ h.1, hs.size_eq ▸ h.2.1, h.2.2.mono hs.persists.refers⟩

/-- The components of both sides lie one arrow further down. -/
theorem Inside.components (h : s.Grounded) {depth : Nat} {a b r r' : TypeId} {con con' : Constructor}
    {args args' : List TypeId} (hinside : Inside depth (a, b) s) (hv : s.Shows a (.op r con args))
    (hw : s.Shows b (.op r' con' args')) : ∀ pair ∈ args.zip args', Inside (depth + 1) pair s := by
  intro pair hmem
  obtain ⟨hl, hr⟩ := List.of_mem_zip hmem
  exact ⟨hv.arg_lt h hl, hw.arg_lt h hr, hinside.2.2.arg hv hl⟩

/-- Component pairs one after another add their equations. If a later pair clashes, its refutation is one of the
    later store, and so of the earlier one together with the equations added until then. -/
theorem forM_adds {fuel depth : Nat}
    (hunify : ∀ {a b : TypeId} {s : Store}, s.Grounded → Inside depth (a, b) s → s.size < depth + fuel →
      Adds s (unifyWithin fuel a b) fun reading => reading a = reading b) :
    ∀ {pairs : List (TypeId × TypeId)} {s : Store}, s.Grounded →
      (∀ pair ∈ pairs, Inside depth pair s) → s.size < depth + fuel →
      Adds s (pairs.forM fun pair => unifyWithin fuel pair.1 pair.2) fun reading =>
        ∀ pair ∈ pairs, reading pair.1 = reading pair.2 := by
  intro pairs
  induction pairs with
  | nil => intro s h _ _; exact .pure (.refl h) (by simp)
  | cons pair pairs ih =>
    intro s h hpairs hfuel
    have hfirst := hunify h (hpairs pair List.mem_cons_self) hfuel
    show Within _ _ (unifyWithin fuel pair.1 pair.2 >>= fun _ => _) s _
    refine .bind .trans (hfirst.imp ?_ fun _ _ _ hQ => hQ) ?_
    · rintro e ⟨hfailure, hnone⟩
      exact ⟨hfailure, fun reading hreads hall => hnone reading hreads (hall pair List.mem_cons_self)⟩
    · intro _ s₁ h₁ hadded
      have hrest : ∀ p ∈ pairs, Inside depth p s₁ := fun p hp =>
        (hpairs p (List.mem_cons_of_mem _ hp)).assigns h₁
      refine (ih h₁.grounded hrest (h₁.size_eq ▸ hfuel)).imp ?_ ?_
      · -- A reading that meets all equations would be one of the store with the first of them.
        rintro e ⟨hfailure, hnone⟩
        refine ⟨hfailure, fun reading hreads hall => ?_⟩
        have hreads₁ := (hadded reading).mpr ⟨hreads, hall pair List.mem_cons_self⟩
        exact hnone reading hreads₁ fun p hp => hall p (List.mem_cons_of_mem _ hp)
      · intro _ s₂ _ hadded' reading
        rw [hadded', hadded]
        simp only [List.forall_mem_cons, and_assoc]

/-- Equal constructors with as many components are equal when the components are, and different constructors never
    are. -/
theorem reads_op_iff {reading : TypeId → Tree} (hreads : s.Reads reading) {a b r r' : TypeId}
    {con con' : Constructor} {args args' : List TypeId} (hv : s.Shows a (.op r con args))
    (hw : s.Shows b (.op r' con' args')) :
    reading a = reading b ↔ con = con' ∧ args.map reading = args'.map reading := by
  rw [hreads.shows hv, hreads.shows hw, View.id, View.id, hreads.op hv.get_op, hreads.op hw.get_op,
    Tree.app.injEq]

/-- By induction on the fuel, with one case for each pair of things that the two types can show. -/
theorem unifyWithin_adds :
    ∀ {fuel depth : Nat} {a b : TypeId} {s : Store}, s.Grounded → Inside depth (a, b) s →
      s.size < depth + fuel → Adds s (unifyWithin fuel a b) fun reading => reading a = reading b := by
  -- With each level one step of the bound is spent and the path down gets one arrow longer.
  intro fuel
  induction fuel with
  | zero =>
    intro depth a b s h hpair hfuel
    exact absurd (hpair.2.2.le_size h) (by omega)
  | succ fuel ih =>
    intro depth a b s h hinside hfuel
    have ha : a.index < s.size := hinside.1
    have hb : b.index < s.size := hinside.2.1
    obtain ⟨v, hv, hva⟩ := h.exists_view ha
    obtain ⟨w, hw, hwb⟩ := h.exists_view hb
    unfold unifyWithin
    refine .bind_of_ok (query_of_ok hva) (.bind_of_ok (query_of_ok hwb) ?_)
    rcases v with x | ⟨r, con, args⟩
    case var =>
      refine (solve_adds h hv.isUnbound hw (h.reaches_lt hb hw.reaches)).congr ?_
      intro reading hreads
      rw [hreads.shows hv, hreads.shows hw, View.id]
    rcases w with y | ⟨r', con', args'⟩
    case op.var =>
      refine (solve_adds h hw.isUnbound hv (h.reaches_lt ha hv.reaches)).congr ?_
      intro reading hreads
      rw [hreads.shows hv, hreads.shows hw]
      exact eq_comm
    case op.op =>
      by_cases hcon : con = con' ∧ args.length = args'.length
      · simp only [hcon, and_self, ↓reduceIte]
        refine Adds.congr (forM_adds ih h (hinside.components h hv hw) (by omega)) ?_
        intro reading hreads
        rw [reads_op_iff hreads hv hw, map_eq_map_iff_zip hcon.2]
        exact ⟨fun heq => ⟨hcon.1, heq⟩, fun heq => heq.2⟩
      · simp only [hcon, ↓reduceIte]
        refine clash_adds h (lt_of_get hv.get_op) (lt_of_get hw.get_op) _ ?_
        intro reading hreads heq
        obtain ⟨rfl, hmap⟩ := (reads_op_iff hreads hv hw).mp heq
        exact hcon ⟨rfl, by simpa using congrArg List.length hmap⟩

end UnifyM

namespace Store

variable {s s' : Store} {a b : TypeId} {σ : TypeId → Tree}

/-! ## Most general solutions -/

/-- Unification adds the equation between the two types, or refutes it. -/
theorem Grounded.unify_adds (h : s.Grounded) (ha : a.index < s.size) (hb : b.index < s.size) :
    UnifyM.Adds s (unify a b) fun reading => reading a = reading b := by
  have hinside : UnifyM.Inside 0 (a, b) s := ⟨ha, hb, trivial⟩
  exact UnifyM.unifyWithin_adds h hinside (s.size_lt_pairBound.trans_eq (Nat.zero_add _).symm)

/-- **What is added for readings is added for solutions.** A solution is turned into its reading, its values, and
    back into an assignment. -/
theorem Assigns.solves_iff (hs : Assigns s s') (h : s.Grounded) (ha : a.index < s.size) (hb : b.index < s.size)
    (hadded : ∀ reading, s'.Reads reading ↔ s.Reads reading ∧ reading a = reading b) :
    s'.Solves σ ↔ s.Solves σ ∧ s.value σ a = s.value σ b := by
  constructor
  · -- The values of the later store read the earlier one, and agree with the solution on its variables.
    intro hσ
    obtain ⟨hreads, heq⟩ := (hadded _).mp (hs.grounded.reads_value σ)
    have hvars : ∀ v binding, s.get v = .ok (.var binding) → σ v = s'.value σ v := by
      intro v binding hv
      cases binding with
      | none =>
        obtain ⟨binding', hv'⟩ := hs.var hv
        exact (hσ.value_var hs.grounded hv').symm
      | some target => exact (hσ.value_var hs.grounded (hs.kept hv (by simp))).symm
    have hvalue : ∀ {t : TypeId}, t.index < s.size → s.value σ t = s'.value σ t :=
      h.value_eq hreads fun v hv => hvars v _ hv
    exact ⟨hreads.solves h hvars, by rw [hvalue ha, hvalue hb, heq]⟩
  · rintro ⟨hσ, heq⟩
    refine ((hadded _).mpr ⟨h.reads_value σ, heq⟩).solves hs.grounded ?_
    intro v binding hv
    obtain ⟨before, hbefore⟩ := hs.var_of_var hv
    exact (hσ.value_var h hbefore).symm

/-- **Unification computes a most general solution.** If it succeeds, the types are equal afterwards, and the
    solutions of the store are the solutions there were that give both types one tree. If it does not, it
    stops with a clash, and there was no such solution. -/
theorem Grounded.unify_mostGeneral (h : s.Grounded) (ha : a.index < s.size) (hb : b.index < s.size) :
    (∃ s', unify a b s = .ok () s' ∧ s'.same a b = .ok true ∧
        ∀ σ, s'.Solves σ ↔ s.Solves σ ∧ s.value σ a = s.value σ b) ∨
      ∃ clash s', unify a b s = .error (.failure clash) s' ∧
        ∀ σ, s.Solves σ → s.value σ a ≠ s.value σ b := by
  have hunify := h.unify_adds ha hb
  cases hrun : unify a b s with
  | ok _ s' =>
    obtain ⟨hs, hadded⟩ := hunify.ok hrun
    refine .inl ⟨s', rfl, ?_, fun σ => hs.solves_iff h ha hb hadded⟩
    obtain ⟨equal, hsame, hiff⟩ := hs.grounded.same_eq_ok (hs.size_eq ▸ ha) (hs.size_eq ▸ hb)
    -- The trees of the types are a reading as well.
    have htrees : s'.tree a = s'.tree b :=
      ((hadded s'.tree).mp ⟨hs.grounded.tree_bound, hs.grounded.tree_op⟩).2
    rw [hsame, hiff.mpr htrees]
  | error reason s' =>
    obtain ⟨-, hfailure, hnone⟩ := hunify.error hrun
    cases reason with
    | fault f => exact hfailure.elim
    | failure clash => exact .inr ⟨clash, s', rfl, fun σ _ => hnone _ (h.reads_value σ)⟩

/-- Two maps: the first one has a variable twice, once through a binding, the second a variable and a type. -/
def twoMaps : Store where
  nodes := initial.nodes ++
    #[.var none, .var (some ⟨4⟩), .op .map [⟨4⟩, ⟨5⟩], .var none, .op .map [⟨7⟩, .number]]
  trail := [⟨5⟩]

theorem grounded_twoMaps : twoMaps.Grounded := grounded_of_descending (by decide)

/-- Both variables become numbers, through the one that the second map has, and in no other way. -/
theorem unify_mostGeneral_twoMaps :
    ∃ s', unify ⟨6⟩ ⟨8⟩ twoMaps = .ok () s' ∧ s'.same ⟨6⟩ ⟨8⟩ = .ok true ∧
      ∀ σ, s'.Solves σ ↔ twoMaps.Solves σ ∧ twoMaps.value σ ⟨6⟩ = twoMaps.value σ ⟨8⟩ := by
  rcases grounded_twoMaps.unify_mostGeneral (a := ⟨6⟩) (b := ⟨8⟩) (by decide) (by decide) with
    h | ⟨clash, s', hrun, -⟩
  · exact h
  · have hok : (match unify ⟨6⟩ ⟨8⟩ twoMaps with | .ok _ _ => true | .error _ _ => false) = true := by
      decide +kernel
    rw [hrun] at hok
    cases hok

end Store

end TypeInference
