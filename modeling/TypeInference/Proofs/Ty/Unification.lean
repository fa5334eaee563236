import TypeInference.Proofs.Run
import TypeInference.Proofs.Ty.Evolution
import TypeInference.Ty.Unify

/-!
# `Proofs.Ty.Unification` — unification evolves the store and equates the types

Unification binds a variable only to a type that does not contain it, so every binding is a step of
evolution and no cycle arises, whether it succeeds or clashes. The recursion goes down into components while
the store changes under it. Bindings never take an arrow away, so the descent so far stays a path of the
store (`Deep`), and a store without cycles has no path longer than its size: the bound is never met.

Main statement: `unify_within`. If unification succeeds, both types have one tree, and by
`Evolves.tree_congr` they keep having one tree whatever happens to the store later.
-/

namespace TypeInference

open Relation

namespace Store

variable {s s' s'' : Store} {hidden : Set TypeId}

/-! ## How far down a walk can come -/

/-- There is a path of at least so many arrows down to the type. It is about the store as it is now, so a path that
    bindings have made longer is still one. -/
def Deep (s : Store) : Nat → TypeId → Prop
  | 0, _ => True
  | depth + 1, b => ∃ a, s.Deep depth a ∧ TransGen s.Refers a b

/-- No path is longer than the store: ranks fall along it, and the greatest is the size. -/
theorem Deep.le_size (h : s.Grounded) {depth : Nat} {a : TypeId} (ha : s.Deep depth a) :
    depth ≤ s.size := by
  obtain ⟨rank, hrank, hle⟩ := h.exists_rank
  have hsum : ∀ {depth : Nat} {a : TypeId}, s.Deep depth a → rank a + depth ≤ s.size := by
    intro depth
    induction depth with
    | zero => intro a _; exact hle a
    | succ depth ih =>
      rintro b ⟨a, ha, hab⟩
      have := ih ha
      have := hrank.lt_of_transGen hab
      omega
  exact (Nat.le_add_left _ _).trans (hsum ha)

/-- Paths down to a type stay as long as arrows do, and bindings take no arrow away. -/
theorem Deep.mono (h : ∀ {a b}, s.Refers a b → s'.Refers a b) :
    ∀ {depth : Nat} {a : TypeId}, s.Deep depth a → s'.Deep depth a := by
  intro depth
  induction depth with
  | zero => intro a _; trivial
  | succ depth ih =>
    rintro b ⟨a, ha, hab⟩
    exact ⟨a, ih ha, TransGen.mono (fun _ _ => h) _ _ hab⟩

/-- A component is one step further down than the type it is part of. -/
theorem Deep.arg {depth : Nat} {a r arg : TypeId} {con : Constructor} {args : List TypeId}
    (h : s.Deep depth a) (hv : s.Shows a (.op r con args)) (harg : arg ∈ args) : s.Deep (depth + 1) arg :=
  ⟨a, h, TransGen.tail' hv.reaches (refers_of_op hv.get_op harg)⟩

/-! ## Evolution by bindings -/

/-- The store has evolved by bindings only: its size, and so the bound on all walks, is what it was. -/
structure Binds (hidden : Set TypeId) (s s' : Store) : Prop extends Evolves hidden s s' where
  size_eq : s'.size = s.size

theorem Binds.refl (h : s.WellFormed) : Binds hidden s s := ⟨.refl h, rfl⟩

theorem Binds.trans (h : Binds hidden s s') (h' : Binds hidden s' s'') : Binds hidden s s'' :=
  ⟨h.toEvolves.trans h'.toEvolves, h'.size_eq.trans h.size_eq⟩

end Store

namespace UnifyM

open Store

variable {s : Store} {hidden : Set TypeId}

/-! ## Single steps -/

/-- A stop that tells something about the types, and not about a misuse. On a well-formed store there are no others. -/
def IsFailure {ε : Type} : Halt ε → Prop
  | .failure _ => True
  | .fault _ => False

theorem query_of_ok {α : Type} {ask : Store → Except Fault α} {a : α} (h : ask s = .ok a) :
    query ask s = .ok a s := by
  simp [query, h]

/-- A clash leaves the store alone. The texts in its message can always be had, since the store is grounded. -/
theorem clash_within {α : Type} (hwf : s.WellFormed) {a b : TypeId} (ha : a.index < s.size)
    (hb : b.index < s.size) (reason : String → String → Clash) {Q : α → Store → Prop} :
    Within (Binds hidden) IsFailure (clash reason a b) s Q := by
  obtain ⟨left, hleft⟩ := hwf.grounded.exists_display ha
  obtain ⟨right, hright⟩ := hwf.grounded.exists_display hb
  refine .bind_of_ok (query_of_ok hleft) (.bind_of_ok (query_of_ok hright) ?_)
  exact .throw (.refl hwf) trivial

/-- **Binding after the occurs check.** If the variable occurs in the type the run stops; if not, the binding is a
    step of evolution, and afterwards both have one tree. -/
theorem solve_within (hwf : s.WellFormed) {x target : TypeId} (hx : s.IsUnbound x) (hclear : s.Clear hidden x)
    (ht : s.Clear hidden target) :
    Within (Binds hidden) IsFailure (solve x target) s fun _ s' => s'.tree x = s'.tree target := by
  unfold solve
  by_cases he : x = target
  · subst he
    rw [if_pos rfl]
    exact .pure (.refl hwf) rfl
  · rw [if_neg he]
    obtain ⟨b, hb, hiff⟩ := hwf.grounded.occurs_eq_ok hx ht.lt
    refine .bind_of_ok (query_of_ok hb) ?_
    cases b with
    | true => exact clash_within hwf hclear.lt ht.lt _
    | false =>
      obtain ⟨s', hbind⟩ : ∃ s', s.bind x target = .ok s' := exists_bind hx
      have hno : ¬ s.Reaches target x := fun hr => Bool.false_ne_true (hiff.mpr hr)
      have hevolves := evolves_bind hwf hbind hclear ht hno
      have hrun : assign x target s = .ok () s' := by simp [assign, hbind]
      refine .of_ok hrun ⟨hevolves, size_of_bind hbind⟩ ?_
      exact hevolves.wf.grounded.tree_bound (get_of_bind_self hbind)

/-! ## Components, and the recursion

The recursion has no measure in the store alone, for the store changes while it descends. What falls is the distance
between the depth that has been reached and the size of the store, which bindings leave as it is. -/

/-- Both sides of a component pair, while their parents are being unified: clear of hidden variables, and as deep in
    the store as the walk has come down. -/
def Comparable (hidden : Set TypeId) (depth : Nat) (pair : TypeId × TypeId) (s : Store) : Prop :=
  s.Clear hidden pair.1 ∧ s.Clear hidden pair.2 ∧ s.Deep depth pair.1

theorem Comparable.binds {s' : Store} (hwf : s.WellFormed) (hs : Binds hidden s s') {depth : Nat}
    {pair : TypeId × TypeId} (h : Comparable hidden depth pair s) : Comparable hidden depth pair s' :=
  ⟨hs.clear hwf h.1, hs.clear hwf h.2.1, h.2.2.mono hs.refers⟩

/-- Component pairs one after another: what has been made equal stays equal, because later bindings only put trees
    in for variables, and the same on both sides. -/
theorem forM_within {fuel depth : Nat}
    (hunify : ∀ {a b : TypeId} {s : Store}, s.WellFormed → Comparable hidden depth (a, b) s →
      s.size < depth + fuel →
      Within (Binds hidden) IsFailure (unifyWithin fuel a b) s fun _ s' => s'.tree a = s'.tree b) :
    ∀ {pairs : List (TypeId × TypeId)} {s : Store}, s.WellFormed →
      (∀ pair ∈ pairs, Comparable hidden depth pair s) → s.size < depth + fuel →
      Within (Binds hidden) IsFailure (pairs.forM fun pair => unifyWithin fuel pair.1 pair.2) s
        fun _ s' => ∀ pair ∈ pairs, s'.tree pair.1 = s'.tree pair.2 := by
  intro pairs
  induction pairs with
  | nil => intro s hwf _ _; exact .pure (.refl hwf) (by simp)
  | cons pair pairs ih =>
    intro s hwf hpairs hfuel
    have hpair := hpairs pair List.mem_cons_self
    show Within _ _ (unifyWithin fuel pair.1 pair.2 >>= fun _ => _) s _
    refine .bind .trans (hunify hwf hpair hfuel) ?_
    intro _ s₁ h₁ heq
    have hrest : ∀ p ∈ pairs, Comparable hidden depth p s₁ := fun p hp =>
      (hpairs p (List.mem_cons_of_mem _ hp)).binds hwf h₁
    refine (ih h₁.wf hrest (h₁.size_eq ▸ hfuel)).mono ?_
    intro _ s₂ h₂ hall p hp
    rcases List.mem_cons.mp hp with rfl | hp
    · -- The first pair had one tree before the others were unified.
      have hnow := hpair.binds hwf h₁
      exact h₂.tree_congr h₁.wf hnow.1.lt hnow.2.1.lt heq
    · exact hall p hp

/-- By induction on the fuel, which with the depth always exceeds the size of the store. The cases are what the two
    types show: the same variable, a variable on one side, or two constructors, whose components lie one arrow
    further down. -/
theorem unifyWithin_within :
    ∀ {fuel depth : Nat} {a b : TypeId} {s : Store}, s.WellFormed → Comparable hidden depth (a, b) s →
      s.size < depth + fuel →
      Within (Binds hidden) IsFailure (unifyWithin fuel a b) s fun _ s' => s'.tree a = s'.tree b := by
  -- With each level one step of the bound is spent and the path down gets one arrow longer.
  intro fuel
  induction fuel with
  | zero =>
    intro depth a b s hwf hpair hfuel
    exact absurd (hpair.2.2.le_size hwf.grounded) (by omega)
  | succ fuel ih =>
    rintro depth a b s hwf ⟨ha, hb, hdeep⟩ hfuel
    obtain ⟨v, hv, hva⟩ := hwf.grounded.exists_view ha.lt
    obtain ⟨w, hw, hwb⟩ := hwf.grounded.exists_view hb.lt
    have hcv : s.Clear hidden v.id := ha.reaches hwf hv.reaches
    have hcw : s.Clear hidden w.id := hb.reaches hwf hw.reaches
    unfold unifyWithin
    refine .bind_of_ok (query_of_ok hva) (.bind_of_ok (query_of_ok hwb) ?_)
    match v, w with
    | .var x, w =>
      refine (solve_within hwf hv.isUnbound hcv hcw).mono ?_
      intro _ s' hs heq
      rw [hs.tree_shows hv, hs.tree_shows hw]
      exact heq
    | .op r con args, .var y =>
      refine (solve_within hwf hw.isUnbound hcw hcv).mono ?_
      intro _ s' hs heq
      rw [hs.tree_shows hv, hs.tree_shows hw]
      exact heq.symm
    | .op r con args, .op r' con' args' =>
      by_cases hcon : con = con' ∧ args.length = args'.length
      · simp only [hcon, and_self, ↓reduceIte]
        have hargs : ∀ pair ∈ args.zip args', Comparable hidden (depth + 1) pair s := by
          intro pair hmem
          obtain ⟨hl, hr⟩ := List.of_mem_zip hmem
          exact ⟨ha.reaches hwf (hv.reaches_arg hl), hb.reaches hwf (hw.reaches_arg hr), hdeep.arg hv hl⟩
        refine (forM_within ih hwf hargs (by omega)).mono ?_
        intro _ s' hs heq
        rw [hs.tree_op hv, hs.tree_op hw, hcon.1, (map_eq_map_iff_zip hcon.2).mpr heq]
      · simp only [hcon, ↓reduceIte]
        exact clash_within hwf hcv.lt hcw.lt _

end UnifyM

namespace Store

/-- **Unification** evolves the store by bindings only, and stops only for a clash; if it does not stop, both types
    have one tree. Hidden variables are not touched as long as both types are clear of them. -/
theorem unify_within {s : Store} {hidden : Set TypeId} (hwf : s.WellFormed) {a b : TypeId}
    (ha : s.Clear hidden a) (hb : s.Clear hidden b) :
    Within (Binds hidden) UnifyM.IsFailure (unify a b) s fun _ s' => s'.tree a = s'.tree b := by
  refine @UnifyM.unifyWithin_within _ _ 0 _ _ _ hwf ⟨ha, hb, trivial⟩ ?_
  exact s.size_lt_pairBound.trans_eq (Nat.zero_add _).symm

end Store

end TypeInference
