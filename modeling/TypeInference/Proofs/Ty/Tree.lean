import TypeInference.Proofs.Ty.Walk

/-!
# `Proofs.Ty.Tree` — the finite tree that a type stands for

Following all bindings below a type gives a finite tree of constructors whose leaves are unbound variables.
Trees are what the typing rules are about: they do not mention the store. On a grounded store the tree of
a type is found by one equation for each kind of node (`Grounded.tree_var`, `tree_bound`, `tree_op`), its
variables are the unbound variables that the type reaches, and `same` compares trees.

## Contents
* `Tree`, `Tree.HasVar`, `Tree.subst` — trees, their variables, and replacing them;
* `Store.tree` — the tree of a type, with its equations;
* `Grounded.hasVar_tree_iff` — the variables of a tree;
* `Grounded.same_eq_ok` — `same` is equality of trees.
-/

namespace TypeInference

open Relation

/-! ## Trees -/

/-- A type read to the end: an unbound variable, or a constructor applied to trees. Two types with one tree are the
    same type, wherever in the store they stand. -/
inductive Tree
  | var (id : TypeId)
  | app (con : Constructor) (args : List Tree)

namespace Tree

/-- The variable `v` is a leaf of the tree, at whatever depth. -/
inductive HasVar (v : TypeId) : Tree → Prop
  | var : HasVar v (.var v)
  | app {con : Constructor} {args : List Tree} {arg : Tree} :
      arg ∈ args → HasVar v arg → HasVar v (.app con args)

@[simp] theorem hasVar_var {v w : TypeId} : HasVar v (.var w) ↔ v = w := by
  constructor
  · rintro ⟨⟩; rfl
  · rintro rfl; exact .var

@[simp] theorem hasVar_app {v : TypeId} {con : Constructor} {args : List Tree} :
    HasVar v (.app con args) ↔ ∃ arg ∈ args, HasVar v arg := by
  constructor
  · rintro ⟨⟩; exact ⟨_, ‹_›, ‹_›⟩
  · rintro ⟨arg, hmem, harg⟩; exact .app hmem harg

mutual

/-- The tree with every variable replaced by the tree that the substitution has for it, all at once. -/
def subst (σ : TypeId → Tree) : Tree → Tree
  | .var v => σ v
  | .app con args => .app con (substAll σ args)

/-- Trees with every variable replaced, written out so that the recursion is one over the tree; it is `List.map`, as
    the lemma below it says. -/
def substAll (σ : TypeId → Tree) : List Tree → List Tree
  | [] => []
  | t :: ts => t.subst σ :: substAll σ ts

end

/-! ## Replacing variables -/

theorem substAll_eq_map (σ : TypeId → Tree) (ts : List Tree) : substAll σ ts = ts.map (·.subst σ) := by
  induction ts with
  | nil => rfl
  | cons t ts ih => rw [substAll, ih, List.map_cons]

@[simp] theorem subst_var (σ : TypeId → Tree) (v : TypeId) : (Tree.var v).subst σ = σ v := by rw [subst]

@[simp] theorem subst_app (σ : TypeId → Tree) (con : Constructor) (args : List Tree) :
    (Tree.app con args).subst σ = .app con (args.map (·.subst σ)) := by
  rw [subst, substAll_eq_map]

mutual

/-- Only the replacements of a tree's own variables matter. Two assignments are therefore compared on the unbound
    variables of a type and nowhere else. -/
theorem subst_congr {σ τ : TypeId → Tree} :
    ∀ (t : Tree), (∀ v, t.HasVar v → σ v = τ v) → t.subst σ = t.subst τ
  | .var v, h => h v .var
  | .app con args, h => by
    rw [subst, subst, substAll_congr args fun arg hmem v hv => h v (.app hmem hv)]

theorem substAll_congr {σ τ : TypeId → Tree} :
    ∀ (ts : List Tree), (∀ t ∈ ts, ∀ v, t.HasVar v → σ v = τ v) → substAll σ ts = substAll τ ts
  | [], _ => rfl
  | t :: ts, h => by
    rw [substAll, substAll, subst_congr t (h t List.mem_cons_self),
      substAll_congr ts fun u hmem => h u (List.mem_cons_of_mem _ hmem)]

end

mutual

theorem subst_id : ∀ (t : Tree), t.subst .var = t
  | .var _ => rfl
  | .app con args => by rw [subst, substAll_id args]

theorem substAll_id : ∀ (ts : List Tree), substAll .var ts = ts
  | [] => rfl
  | t :: ts => by rw [substAll, subst_id t, substAll_id ts]

end

mutual

/-- The variables of a tree after a replacement are those of the trees put in for its variables. -/
theorem hasVar_subst {σ : TypeId → Tree} {w : TypeId} :
    ∀ (t : Tree), (t.subst σ).HasVar w ↔ ∃ v, t.HasVar v ∧ (σ v).HasVar w
  | .var v => by simp
  | .app con args => by
    rw [subst, hasVar_app, hasVar_substAll args]
    constructor
    · rintro ⟨t, ht, v, hv, hw⟩
      exact ⟨v, .app ht hv, hw⟩
    · rintro ⟨v, hv, hw⟩
      obtain ⟨t, ht, hv⟩ := hasVar_app.mp hv
      exact ⟨t, ht, v, hv, hw⟩

theorem hasVar_substAll {σ : TypeId → Tree} {w : TypeId} :
    ∀ (ts : List Tree), (∃ t ∈ substAll σ ts, t.HasVar w) ↔ ∃ t ∈ ts, ∃ v, t.HasVar v ∧ (σ v).HasVar w
  | [] => by simp [substAll]
  | t :: ts => by
    rw [substAll, List.exists_mem_cons_iff, List.exists_mem_cons_iff, hasVar_subst t, hasVar_substAll ts]

end

mutual

/-- Replacing variables twice is replacing each by its tree with variables replaced, so instances of instances are
    instances. -/
theorem subst_subst {σ τ : TypeId → Tree} :
    ∀ (t : Tree), (t.subst σ).subst τ = t.subst fun v => (σ v).subst τ
  | .var _ => by simp
  | .app con args => by rw [subst, subst, subst, substAll_substAll args]

theorem substAll_substAll {σ τ : TypeId → Tree} :
    ∀ (ts : List Tree), substAll τ (substAll σ ts) = substAll (fun v => (σ v).subst τ) ts
  | [] => rfl
  | t :: ts => by rw [substAll, substAll, substAll, subst_subst t, substAll_substAll ts]

end

/-- A tree none of whose variables is replaced stays as it is. -/
theorem subst_eq_self {σ : TypeId → Tree} {t : Tree} (h : ∀ v, t.HasVar v → σ v = .var v) : t.subst σ = t :=
  (subst_congr t h).trans t.subst_id

end Tree

namespace Store

variable {s : Store}

/-! ## The tree of a type

A type in a grounded store stands for one finite tree. It is computed with a bound, like every walk, and then
described by one equation for each thing that a type can show. -/

/-- `tree` on types whose walk ends within `fuel` steps; a walk that does not end gives a variable. The answer is
    total, so trees can be spoken of before a store is known to be grounded. -/
def treeWithin (s : Store) : Nat → TypeId → Tree
  | 0, ty => .var ty
  | fuel + 1, ty =>
    match s.view ty with
    | .ok (.op _ con args) => .app con (args.map (s.treeWithin fuel))
    | .ok (.var id) => .var id
    | .error _ => .var ty

/-- The finite tree of a type: all bindings followed, down to unbound variables. It means what it should on grounded
    stores only. -/
def tree (s : Store) (ty : TypeId) : Tree := s.treeWithin s.walkBound ty

/-- Beyond the rank of a type the bound plays no part, so the equations below can be stated without it. -/
theorem treeWithin_eq (h : s.Grounded) {rank : TypeId → Nat} (hrank : s.IsRank rank) :
    ∀ {fuel fuel' : Nat} {a : TypeId}, a.index < s.size → rank a < fuel → rank a < fuel' →
      s.treeWithin fuel a = s.treeWithin fuel' a := by
  intro fuel
  induction fuel with
  | zero => intro fuel' a _ hfuel; exact absurd hfuel (Nat.not_lt_zero _)
  | succ fuel ih =>
    intro fuel' a ha hfuel hfuel'
    -- Neither bound is used up here, and both stay above the ranks of the components.
    obtain ⟨fuel', rfl⟩ : ∃ n, fuel' = n + 1 := ⟨fuel' - 1, by omega⟩
    obtain ⟨v, hv, hview⟩ := h.exists_view ha
    cases v with
    | var x => simp only [treeWithin, hview]
    | op r con args =>
      simp only [treeWithin, hview, Tree.app.injEq, true_and]
      refine List.map_congr_left ?_
      intro arg harg
      have := hv.rank_arg_lt hrank harg
      exact ih (hv.arg_lt h harg) (by omega) (by omega)

theorem Shows.tree_var (h : s.Grounded) {a x : TypeId} (hv : s.Shows a (.var x)) : s.tree a = .var x := by
  simp only [tree, walkBound, treeWithin, hv.view_eq h]

/-- The tree of a type that shows a constructor is that constructor around the trees of the components shown. -/
theorem Shows.tree_op (h : s.Grounded) {a r : TypeId} {con : Constructor} {args : List TypeId}
    (hv : s.Shows a (.op r con args)) : s.tree a = .app con (args.map s.tree) := by
  obtain ⟨rank, hrank, hle⟩ := h.exists_rank
  have ha := hle a
  unfold tree
  -- The components are read with one step less, which their ranks allow.
  rw [walkBound, treeWithin, hv.view_eq h]
  simp only [Tree.app.injEq, true_and]
  refine List.map_congr_left ?_
  intro arg harg
  have := hv.rank_arg_lt hrank harg
  exact treeWithin_eq h hrank (hv.arg_lt h harg) (by omega) (by omega)

namespace Grounded

theorem tree_var (h : s.Grounded) {x : TypeId} (hx : s.IsUnbound x) : s.tree x = .var x :=
  Shows.tree_var h (.var hx)

/-- The tree of a constructor is the constructor around the trees of its components. -/
theorem tree_op (h : s.Grounded) {r : TypeId} {con : Constructor} {args : List TypeId}
    (hr : s.get r = .ok (.op con args)) : s.tree r = .app con (args.map s.tree) :=
  Shows.tree_op h (.op hr)

/-- What a type shows has the tree of the type, so the tree may be taken at either end of a chain of bindings. -/
theorem tree_shows (h : s.Grounded) {a : TypeId} {v : View} (hv : s.Shows a v) :
    s.tree a = s.tree v.id := by
  cases v with
  | var x => exact (Shows.tree_var h hv).trans (h.tree_var hv.isUnbound).symm
  | op r con args => exact (Shows.tree_op h hv).trans (h.tree_op hv.get_op).symm

/-- A bound variable has the tree of what it is bound to. -/
theorem tree_bound (h : s.Grounded) {a b : TypeId} (hb : s.get a = .ok (.var (some b))) :
    s.tree a = s.tree b := by
  obtain ⟨v, hv, _⟩ := h.exists_shows (h.inRange (refers_of_bound hb))
  rw [h.tree_shows (.bound hb hv), h.tree_shows hv]

/-! ## Variables of a tree -/

/-- **The variables of a type's tree** are the unbound variables that the type reaches. Facts about paths, such as
    occurrence and being pinned, become facts about trees by this lemma. -/
theorem hasVar_tree_iff (h : s.Grounded) {a x : TypeId} (ha : a.index < s.size) :
    (s.tree a).HasVar x ↔ s.Reaches a x ∧ s.IsUnbound x := by
  obtain ⟨rank, hrank, -⟩ := h.exists_rank
  induction hn : rank a using Nat.strong_induction_on generalizing a with
  | _ n ih =>
    subst hn
    obtain ⟨v, hv, -⟩ := h.exists_view ha
    cases v with
    | var y =>
      rw [Shows.tree_var h hv, Tree.hasVar_var]
      constructor
      · rintro rfl; exact ⟨hv.reaches, hv.isUnbound⟩
      · rintro ⟨hr, hx⟩; exact eq_of_reaches_unbound hv.isUnbound (hv.reaches_of_reaches hx hr)
    | op r con args =>
      rw [Shows.tree_op h hv, Tree.hasVar_app]
      have harg : ∀ arg ∈ args, (s.tree arg).HasVar x ↔ s.Reaches arg x ∧ s.IsUnbound x :=
        fun arg hmem => ih _ (hv.rank_arg_lt hrank hmem) (hv.arg_lt h hmem) rfl
      constructor
      · rintro ⟨t, ht, hxt⟩
        obtain ⟨arg, hmem, rfl⟩ := List.mem_map.mp ht
        obtain ⟨hr, hx⟩ := (harg arg hmem).mp hxt
        exact ⟨(hv.reaches_arg hmem).trans hr, hx⟩
      · rintro ⟨hr, hx⟩
        obtain ⟨arg, hmem, hr⟩ := (hv.reaches_op_iff hx).mp hr
        exact ⟨s.tree arg, List.mem_map_of_mem hmem, (harg arg hmem).mpr ⟨hr, hx⟩⟩

end Grounded

/-! ## Equality of types is equality of trees -/

/-- Two lists of one length have equal images when their members do, pair by pair, which is the form in which
    components are compared. -/
theorem map_eq_map_iff_zip {α β : Type} {f : α → β} : ∀ {xs ys : List α}, xs.length = ys.length →
    (xs.map f = ys.map f ↔ ∀ pair ∈ xs.zip ys, f pair.1 = f pair.2)
  | [], [], _ => by simp
  | x :: xs, y :: ys, h => by
    have tail := map_eq_map_iff_zip (f := f) (Nat.succ.inj h)
    rw [List.map_cons, List.map_cons, List.cons.injEq, tail, List.zip_cons_cons, List.forall_mem_cons]

/-- With fuel above the rank of the first type, `same` answers, and answers whether the trees are equal. By
    induction on the fuel; two constructors are the same when they agree and their components do, pair by pair. -/
theorem sameWithin_eq_ok (h : s.Grounded) {rank : TypeId → Nat} (hrank : s.IsRank rank) :
    ∀ {fuel : Nat} {a b : TypeId}, a.index < s.size → b.index < s.size → rank a < fuel →
      ∃ r, s.sameWithin fuel a b = .ok r ∧ (r = true ↔ s.tree a = s.tree b) := by
  intro fuel
  induction fuel with
  | zero => intro a b _ _ hfuel; exact absurd hfuel (Nat.not_lt_zero _)
  | succ fuel ih =>
    intro a b ha hb hfuel
    obtain ⟨v, hv, hva⟩ := h.exists_view ha
    obtain ⟨w, hw, hwb⟩ := h.exists_view hb
    match v, w with
    | .var x, .var y =>
      refine ⟨decide (x = y), by simp [sameWithin, hva, hwb], ?_⟩
      rw [decide_eq_true_iff, Shows.tree_var h hv, Shows.tree_var h hw, Tree.var.injEq]
    | .var x, .op r con args =>
      refine ⟨false, by simp [sameWithin, hva, hwb], ?_⟩
      rw [Shows.tree_var h hv, Shows.tree_op h hw]
      simp
    | .op r con args, .var x =>
      refine ⟨false, by simp [sameWithin, hva, hwb], ?_⟩
      rw [Shows.tree_op h hv, Shows.tree_var h hw]
      simp
    | .op r con args, .op r' con' args' =>
      rw [Shows.tree_op h hv, Shows.tree_op h hw]
      by_cases hcon : con = con' ∧ args.length = args'.length
      · obtain ⟨res, hres, hiff⟩ := @List.exists_allM_eq_ok _ (fun pair => s.sameWithin fuel pair.1 pair.2)
          (fun pair => s.tree pair.1 = s.tree pair.2) (args.zip args') fun pair hmem => by
            have hl := (List.of_mem_zip hmem).1
            have := hv.rank_arg_lt hrank hl
            exact ih (hv.arg_lt h hl) (hw.arg_lt h (List.of_mem_zip hmem).2) (by omega)
        refine ⟨res, by simp [sameWithin, hva, hwb, hcon, hres], ?_⟩
        -- Two applications are equal if all of their components are.
        rw [hiff, hcon.1, Tree.app.injEq, map_eq_map_iff_zip hcon.2]
        exact ⟨fun heq => ⟨rfl, heq⟩, fun heq => heq.2⟩
      · refine ⟨false, by simp [sameWithin, hva, hwb, hcon], ?_⟩
        simp only [Bool.false_eq_true, Tree.app.injEq, false_iff, not_and]
        exact fun hc hargs => hcon ⟨hc, by simpa using congrArg List.length hargs⟩

/-- **`same` compares trees.** It always answers on a grounded store, and it is therefore an equivalence, although
    nothing in its definition says so. -/
theorem Grounded.same_eq_ok (h : s.Grounded) {a b : TypeId} (ha : a.index < s.size)
    (hb : b.index < s.size) :
    ∃ r, s.same a b = .ok r ∧ (r = true ↔ s.tree a = s.tree b) := by
  obtain ⟨rank, hrank, hle⟩ := h.exists_rank
  exact sameWithin_eq_ok h hrank ha hb ((hle a).trans_lt s.size_lt_pairBound)

end Store

end TypeInference
