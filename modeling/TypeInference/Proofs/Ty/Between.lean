import Mathlib.Logic.Equiv.Fintype
import TypeInference.Proofs.Ty.MostGeneral
import TypeInference.Proofs.Ty.Reading

/-!
# `Proofs.Ty.Between` — a store that knows more than one, and less than another

Types of a store `s` are *linked* with types of another store `t`. The store `t` lies between `s` and a store `f`
that `s` becomes, if whatever `s` says of linked types is true of the trees that they have in `t`, and whatever `t`
says of linked types is true of the trees that they have in `f`. Both halves are said by readings: `s` can be read
by trees of `t`, and `t` by trees of `f`.

If the same is done to both stores, `t` goes on lying between. It may have to bind what `s` has bound, and less of
it, because more is bound already; it cannot clash, because `f` is a solution of all that `t` is asked for. Where
`s` has looked at a type and seen a constructor, `t` sees it, too.

## Contents
* `Links`, `Node.Linked`, `Store.Between` — linked types, and stores that lie between;
* `Between.allocate`, `Between.unify`, `Between.instantiate` — the same is done on both sides;
* `Between.operator?`, `Between.hasConstructor`, `Between.same` — what is seen;
* `Tree.exists_perm`, `Between.exists_perm` — linked types in the end.
-/

namespace TypeInference

open Relation

/-! ## Links -/

/-- Types of one store that are compared with types of another. A type may be linked with several, and most are
    linked with none. -/
abbrev Links := TypeId → TypeId → Prop

/-- One more pair of types that are linked. -/
def Links.add (links : Links) (a b : TypeId) : Links := fun x y => links x y ∨ x = a ∧ y = b

theorem Links.le_add {links : Links} {a b : TypeId} : links ≤ links.add a b := fun _ _ => .inl

theorem Links.add_self {links : Links} {a b : TypeId} : links.add a b a b := .inr ⟨rfl, rfl⟩

theorem Links.all_mono {links links' : Links} (hle : links ≤ links') {as bs : List TypeId}
    (h : List.Forall₂ links as bs) : List.Forall₂ links' as bs :=
  h.imp fun a b hab => hle a b hab

/-- New nodes that are linked: two variables, or a constructor around linked components. -/
inductive Node.Linked (links : Links) : Node → Node → Prop
  | var : Linked links (.var none) (.var none)
  | op {con : Constructor} {args args' : List TypeId} :
      List.Forall₂ links args args' → Linked links (.op con args) (.op con args')

/-- Lists that two readings make equal are made equal at every place. -/
theorem map_eq_map_iff {first second : TypeId → Tree} {as bs : List TypeId} :
    as.map first = bs.map second ↔ List.Forall₂ (fun a b => first a = second b) as bs := by
  rw [← List.forall₂_eq_eq_eq, List.forall₂_map_left_iff, List.forall₂_map_right_iff]

/-- Whatever is on the left of a link in a list has a partner. -/
theorem Links.exists_right {links : Links} {as bs : List TypeId} (h : List.Forall₂ links as bs) {a : TypeId}
    (ha : a ∈ as) : ∃ b ∈ bs, links a b := by
  induction h with
  | nil => cases ha
  | cons hab _ ih =>
    rcases List.mem_cons.mp ha with rfl | ha
    · exact ⟨_, List.mem_cons_self, hab⟩
    · obtain ⟨b, hb, hab⟩ := ih ha
      exact ⟨b, List.mem_cons_of_mem _ hb, hab⟩

/-- Whatever is on the right of a link in a list has a partner. -/
theorem Links.exists_left {links : Links} {as bs : List TypeId} (h : List.Forall₂ links as bs) {b : TypeId}
    (hb : b ∈ bs) : ∃ a ∈ as, links a b :=
  have hflip : List.Forall₂ (fun y x => links x y) bs as := h.flip
  Links.exists_right hflip hb

/-! ## The same up to names -/

namespace Tree

variable {σ τ : TypeId → Tree} {t : Tree} {v : TypeId}

/-- A replacement that changes nothing replaces no variable of the tree. -/
theorem eq_var_of_subst_eq_self (h : t.subst σ = t) (hv : t.HasVar v) : σ v = .var v := by
  induction hv with
  | var => rwa [subst_var] at h
  | app harg _ ih =>
    rw [subst_app, app.injEq] at h
    exact ih (List.map_inj_left.mp (h.2.trans (List.map_id _).symm) _ harg)

/-- **Trees that come from each other** by replacing variables are the same up to names, all at once. The
    replacements undo each other, so they take variables to variables, and finitely many different names can be
    exchanged by one permutation. -/
theorem exists_perm {ι : Type} (first second : ι → Tree) {n : Nat} (hσ : ∀ i, second i = (first i).subst σ)
    (hτ : ∀ i, first i = (second i).subst τ) (hlt : ∀ i v, (first i).HasVar v → v.index < n) :
    ∃ ρ : Equiv.Perm TypeId, ∀ i, second i = (first i).rename ρ := by
  have hvar : ∀ v : {v // ∃ i, (first i).HasVar v}, ∃ w, σ v = .var w ∧ τ w = .var v.1 := by
    rintro ⟨v, i, hv⟩
    have hself : (first i).subst (fun u => (σ u).subst τ) = first i := by rw [← subst_subst, ← hσ, ← hτ]
    have hback : (σ v).subst τ = .var v := eq_var_of_subst_eq_self hself hv
    cases hnew : σ v with
    | var w =>
      rw [hnew, subst_var] at hback
      exact ⟨w, rfl, hback⟩
    | app con args =>
      rw [hnew, subst_app] at hback
      cases hback
  choose name hname hback using hvar
  have hinjective : Function.Injective name := fun v u he =>
    Subtype.ext (var.inj ((hback v).symm.trans ((congrArg τ he).trans (hback u))))
  have hindex : Function.Injective TypeId.index := fun ⟨_⟩ ⟨_⟩ he => congrArg TypeId.mk he
  have hbound : ∀ v : {v // ∃ i, (first i).HasVar v}, v.1.index < n := fun v => v.2.elim fun i hv => hlt i v.1 hv
  have hfinite : Finite {v // ∃ i, (first i).HasVar v} :=
    .of_injective (fun v => (⟨v.1.index, hbound v⟩ : Fin n)) fun v u he => Subtype.ext (hindex (Fin.mk.inj he))
  obtain ⟨ρ, hρ⟩ := Equiv.Perm.exists_extending_pair Subtype.val name Subtype.val_injective hinjective
  refine ⟨ρ, fun i => ?_⟩
  rw [hσ i, rename]
  exact subst_congr _ fun v hv => (hname ⟨v, i, hv⟩).trans (congrArg Tree.var (hρ ⟨v, i, hv⟩).symm)

end Tree

namespace Store

/-! ## Stores that lie between -/

/-- `t` knows of linked types what `s` knows of them, and no more than what is true of them in `f`. Both are said by
    readings, which makes the relation easy to keep: a further equation on both sides is a further condition on the
    same readings. -/
structure Between (links : Links) (s t f : Store) : Prop where
  wf : t.WellFormed
  lt : ∀ {a b}, links a b → a.index < s.size ∧ b.index < t.size
  primitive : ∀ {id node}, initial.get id = .ok node → links id id
  informed : ∃ reading, s.Reads reading ∧ ∀ {a b}, links a b → reading a = t.tree b
  solved : ∃ reading, t.Reads reading ∧ ∀ {a b}, links a b → reading b = f.tree a

variable {links : Links} {s s' t f : Store} {hidden : Set TypeId} {a b : TypeId}

namespace Between

/-- More types are linked, if they are read alike as well. -/
theorem link {links' : Links} (h : Between links s t f) (hle : links ≤ links')
    (hlt : ∀ {a b}, links' a b → a.index < s.size ∧ b.index < t.size)
    (hinformed : ∀ reading, s.Reads reading → (∀ {a b}, links a b → reading a = t.tree b) →
      ∀ {a b}, links' a b → reading a = t.tree b)
    (hsolved : ∀ reading, t.Reads reading → (∀ {a b}, links a b → reading b = f.tree a) →
      ∀ {a b}, links' a b → reading b = f.tree a) : Between links' s t f where
  wf := h.wf
  lt := hlt
  primitive := fun hget => hle _ _ (h.primitive hget)
  informed := by
    obtain ⟨reading, hreads, hlinks⟩ := h.informed
    exact ⟨reading, hreads, hinformed reading hreads hlinks⟩
  solved := by
    obtain ⟨reading, hreads, hlinks⟩ := h.solved
    exact ⟨reading, hreads, hsolved reading hreads hlinks⟩

/-! ### The same on both sides -/

theorem refs_lt (h : Between links s t f) {node node' : Node} (hnode : node.Linked links node') :
    (∀ x ∈ node.refs, x.index < s.size) ∧ ∀ y ∈ node'.refs, y.index < t.size := by
  cases hnode with
  | var => simp [Node.refs]
  | @op con args args' hargs =>
    refine ⟨fun x hx => ?_, fun y hy => ?_⟩
    · obtain ⟨y, -, hxy⟩ := Links.exists_right hargs hx
      exact (h.lt hxy).1
    · obtain ⟨x, -, hxy⟩ := Links.exists_left hargs hy
      exact (h.lt hxy).2

/-- **A new type** on both sides. Two variables may be linked whatever they become in `f`, and two constructors
    because their components are. -/
theorem allocate (h : Between links s t f) (hs : s.WellFormed) {node node' : Node}
    (hnode : node.Linked links node') (hfits : node.Fits) (hf : Evolves hidden (s.allocate node).2 f) :
    Between (links.add ⟨s.size⟩ ⟨t.size⟩) (s.allocate node).2 (t.allocate node').2 f := by
  obtain ⟨hrefs, hrefs'⟩ := h.refs_lt hnode
  have hfits' : node'.Fits := by
    cases hnode with
    | var => trivial
    | @op con args args' hargs =>
      show con.Takes args'.length
      rw [← hargs.length_eq]
      exact hfits
  have happends : Appends t (t.allocate node').2 := .allocate h.wf.grounded hrefs'
  have hnew : (t.allocate node').2.get ⟨t.size⟩ = .ok node' := get_allocate_self t node'
  have hgrounded : (s.allocate node).2.Grounded := hs.grounded.allocate hrefs
  obtain ⟨reading, hreads, hlinks⟩ := h.informed
  obtain ⟨reading', hreads', hlinks'⟩ := h.solved
  -- The new types have the trees that their components make.
  have hread : node.ReadAs reading ((t.allocate node').2.tree ⟨t.size⟩) := by
    cases hnode with
    | var => trivial
    | @op con args args' hargs =>
      have hold : args'.map (t.allocate _).2.tree = args'.map t.tree :=
        List.map_congr_left fun y hy => happends.tree_eq h.wf.grounded (hrefs' y hy)
      rw [happends.grounded.tree_op hnew, hold, ← map_eq_map_iff.mpr (hargs.imp fun _ _ => hlinks)]
      rfl
  have hread' : node'.ReadAs reading' (f.tree ⟨s.size⟩) := by
    cases hnode with
    | var => trivial
    | @op con args args' hargs =>
      have hget : f.get ⟨s.size⟩ = .ok (.op con args) := hf.kept (get_allocate_self s _) (by simp)
      rw [hf.wf.grounded.tree_op hget, map_eq_map_iff.mpr (hargs.imp fun _ _ hab => (hlinks' hab).symm)]
      rfl
  obtain ⟨next, hnext, hagree, hself⟩ := hreads.allocate hs.grounded hrefs hread
  obtain ⟨next', hnext', hagree', hself'⟩ := hreads'.allocate h.wf.grounded hrefs' hread'
  refine ⟨h.wf.allocate hfits' hrefs', ?_, fun hget => .inl (h.primitive hget), ⟨next, hnext, ?_⟩,
    ⟨next', hnext', ?_⟩⟩
  · rw [size_allocate, size_allocate]
    rintro a b (hab | ⟨rfl, rfl⟩)
    · exact ⟨(h.lt hab).1.trans (Nat.lt_succ_self _), (h.lt hab).2.trans (Nat.lt_succ_self _)⟩
    · exact ⟨Nat.lt_succ_self _, Nat.lt_succ_self _⟩
  · rintro a b (hab | ⟨rfl, rfl⟩)
    · rw [hagree a (h.lt hab).1, hlinks hab, happends.tree_eq h.wf.grounded (h.lt hab).2]
    · exact hself
  · rintro a b (hab | ⟨rfl, rfl⟩)
    · rw [hagree' b (h.lt hab).2, hlinks' hab]
    · exact hself'

/-- **What has been unified can be unified** on the other side. The reading of `t` by trees of `f` is a solution of
    the new equation, so the most general solution exists, and nothing is bound that `f` does not have. -/
theorem unify (h : Between links s t f) (hs : s.WellFormed) {x y a b : TypeId} (ha : links x a) (hb : links y b)
    {u : Unit} (hrun : Store.unify x y s = .ok u s') (hf : Evolves hidden s' f) :
    ∃ t', Store.unify a b t = .ok () t' ∧ t'.size = t.size ∧ Between links s' t' f := by
  obtain ⟨hassigns, hadds⟩ := (hs.grounded.unify_adds (h.lt ha).1 (h.lt hb).1).ok hrun
  obtain ⟨reading', hreads', hlinks'⟩ := h.solved
  have hequal : reading' a = reading' b := by
    rw [hlinks' ha, hlinks' hb]
    exact ((hadds f.tree).mp hf.reads_tree).2
  have hclear : ∀ {c : TypeId}, c.index < t.size → t.Clear ∅ c := fun hc => ⟨hc, by simp⟩
  have hunify := h.wf.grounded.unify_adds (h.lt ha).2 (h.lt hb).2
  have hbinds := unify_within h.wf (hclear (h.lt ha).2) (hclear (h.lt hb).2)
  cases hrun' : Store.unify a b t with
  | error reason t' =>
    -- The later store solves what has been asked.
    obtain ⟨-, -, hnone⟩ := hunify.error hrun'
    exact absurd hequal (hnone reading' hreads')
  | ok u t' =>
    obtain ⟨-, hadds'⟩ := hunify.ok hrun'
    obtain ⟨hevolves, hsame⟩ := hbinds.ok hrun'
    obtain ⟨reading, hreads, hlinks⟩ := h.informed
    have htree : ∀ {c d}, links c d → (reading c).subst t'.tree = t'.tree d := fun hcd => by
      rw [hlinks hcd, ← hevolves.tree_eq_subst h.wf (h.lt hcd).2]
    refine ⟨t', rfl, hevolves.size_eq, hevolves.wf, fun hcd => ?_, h.primitive,
      ⟨fun c => (reading c).subst t'.tree, (hadds _).mpr ⟨hreads.subst _, ?_⟩, htree⟩,
      ⟨reading', (hadds' _).mpr ⟨hreads', hequal⟩, hlinks'⟩⟩
    · rw [hassigns.size_eq, hevolves.size_eq]
      exact h.lt hcd
    · show (reading x).subst t'.tree = (reading y).subst t'.tree
      rw [htree ha, htree hb, hsame]

/-- **What has been copied can be copied** on the other side. The copies may rename different variables, for more
    may be bound in `t`; but the pinned types correspond, and the rest is free on both sides. -/
theorem instantiate {pinned pinned' : List TypeId} {x a copy : TypeId} (h : Between links s t f)
    (hs : s.WellFormed) (hx : links x a) (hpins : List.Forall₂ links pinned pinned')
    (hclear : ∀ p ∈ pinned, s.Clear hidden p) (hrun : s.instantiate pinned x = .ok (copy, s'))
    (hevolves : Evolves hidden s s') (hf : Evolves hidden s' f)
    (hinstance : ∃ σ : TypeId → Tree, (∀ v, v ∉ hidden → σ v = .var v) ∧ f.tree copy = (f.tree x).subst σ) :
    ∃ copy' t', t.instantiate pinned' a = .ok (copy', t') ∧ t.size ≤ t'.size ∧
      Between (links.add copy copy') s' t' f := by
  have hpinned : ∀ p ∈ pinned, p.index < s.size := fun p hp => (hclear p hp).lt
  have hpinned' : ∀ p' ∈ pinned', p'.index < t.size := fun p' hp' => by
    obtain ⟨p, -, hpp'⟩ := Links.exists_left hpins hp'
    exact (h.lt hpp').2
  obtain ⟨copy₁, s₁, name, hrun₁, hrenews⟩ := hs.grounded.instantiate_renews hpinned (h.lt hx).1
  obtain ⟨rfl, rfl⟩ := Prod.mk.inj (Except.ok.inj (hrun₁.symm.trans hrun))
  obtain ⟨copy', t', name', hrun', hrenews'⟩ := h.wf.grounded.instantiate_renews hpinned' (h.lt hx).2
  have hwf' : t'.WellFormed := by
    have hempty : ∀ v ∈ (∅ : Set TypeId), t.IsUnbound v := by simp
    obtain ⟨copy₂, t₂, hrun₂, hevolves₂, -⟩ := h.wf.instantiate_clear hempty
      (fun p' hp' => ⟨hpinned' p' hp', by simp⟩) (h.lt hx).2
    obtain ⟨rfl, rfl⟩ := Prod.mk.inj (Except.ok.inj (hrun₂.symm.trans hrun'))
    exact hevolves₂.wf
  obtain ⟨reading, hreads, hlinks⟩ := h.informed
  obtain ⟨reading', hreads', hlinks'⟩ := h.solved
  obtain ⟨σ, hσ, hcopy⟩ := hinstance
  -- Variables that are pinned in `t` keep their names there; those of pinned types in `f` are not hidden.
  obtain ⟨next, hnext, hagree, hself⟩ := hrenews.reads hs.grounded (h.lt hx).1 hpinned hreads
    (σ := fun v => .var (name' v)) fun p hp v hv hvar => by
      obtain ⟨p', hp', hpp'⟩ := Links.exists_right hpins hp
      rw [hlinks hpp'] at hv
      rw [hlinks hx] at hvar
      rw [hrenews'.kept v hvar ⟨p', hp', hv⟩]
  obtain ⟨next', hnext', hagree', hself'⟩ := hrenews'.reads h.wf.grounded (h.lt hx).2 hpinned' hreads'
    (σ := σ) fun p' hp' v hv _ => by
      obtain ⟨p, hp, hpp'⟩ := Links.exists_left hpins hp'
      have hclearf : f.Clear hidden p := (hevolves.trans hf).clear hs (hclear p hp)
      rw [hlinks' hpp'] at hv
      exact hσ v (hclearf.2 v ((hf.wf.grounded.hasVar_tree_iff hclearf.lt).mp hv).1)
  refine ⟨copy', t', hrun', hrenews'.appends.size_le, hwf', ?_, fun hget => .inl (h.primitive hget),
    ⟨next, hnext, ?_⟩, ⟨next', hnext', ?_⟩⟩
  · rintro c d (hcd | ⟨rfl, rfl⟩)
    · exact ⟨(h.lt hcd).1.trans_le hrenews.appends.size_le, (h.lt hcd).2.trans_le hrenews'.appends.size_le⟩
    · exact ⟨hrenews.lt, hrenews'.lt⟩
  · rintro c d (hcd | ⟨rfl, rfl⟩)
    · rw [hagree c (h.lt hcd).1, hlinks hcd, hrenews'.appends.tree_eq h.wf.grounded (h.lt hcd).2]
    · rw [hself, hlinks hx, hrenews'.tree_eq, Tree.rename]
  · rintro c d (hcd | ⟨rfl, rfl⟩)
    · rw [hagree' d (h.lt hcd).2, hlinks' hcd]
    · rw [hself', hlinks' hx, hcopy]

/-! ### What is seen -/

/-- **A constructor that is seen** is seen on the other side, and its components can be linked: `t` knows what `s`
    knows. -/
theorem shows (h : Between links s t f) (hs : s.WellFormed) (hf : Evolves hidden s f) (hab : links a b)
    {r : TypeId} {con : Constructor} {args : List TypeId} (hv : s.Shows a (.op r con args)) :
    ∃ r' args' links', t.Shows b (.op r' con args') ∧ links ≤ links' ∧ Between links' s t f ∧
      List.Forall₂ links' args args' := by
  have htree : ∀ reading, s.Reads reading → (∀ {a b}, links a b → reading a = t.tree b) →
      t.tree b = .app con (args.map reading) := fun reading hreads hlinks => by
    rw [← hlinks hab, hreads.shows hv, View.id, hreads.op hv.get_op]
  obtain ⟨reading, hreads, hlinks⟩ := h.informed
  obtain ⟨w, hw, -⟩ := h.wf.grounded.exists_view (h.lt hab).2
  cases w with
  | var y =>
    -- A variable has no tree that begins with a constructor.
    have hvar := htree reading hreads hlinks
    rw [hw.tree_var h.wf.grounded] at hvar
    cases hvar
  | op r' con' args' =>
    have happ := htree reading hreads hlinks
    rw [hw.tree_op h.wf.grounded, Tree.app.injEq] at happ
    obtain ⟨rfl, hargs⟩ := happ
    have hlength : args.length = args'.length := by simpa using (congrArg List.length hargs).symm
    -- The components at the same place are linked; the three conditions are inherited from the whole types.
    refine ⟨r', args', fun x y => links x y ∨ (x, y) ∈ args.zip args', hw, fun _ _ => .inl, h.link
      (fun _ _ => .inl) ?_ ?_ ?_, ?_⟩
    · rintro x y (hxy | hxy)
      · exact h.lt hxy
      · exact ⟨hv.arg_lt hs.grounded (List.of_mem_zip hxy).1, hw.arg_lt h.wf.grounded (List.of_mem_zip hxy).2⟩
    · rintro reading hreads hlinks x y (hxy | hxy)
      · exact hlinks hxy
      · have happ := htree reading hreads hlinks
        rw [hw.tree_op h.wf.grounded, Tree.app.injEq] at happ
        exact List.forall₂_zip (map_eq_map_iff.mp happ.2.symm) hxy
    · rintro reading' hreads' hlinks' x y (hxy | hxy)
      · exact hlinks' hxy
      · have happ : f.tree a = .app con' (args'.map reading') := by
          rw [← hlinks' hab, hreads'.shows hw, View.id, hreads'.op hw.get_op]
        rw [hf.tree_op hv, Tree.app.injEq] at happ
        exact (List.forall₂_zip (map_eq_map_iff.mp happ.2) hxy).symm
    · exact List.forall₂_iff_zip.mpr ⟨hlength, fun hxy => .inr hxy⟩

/-- The constructor and the components that a type is known to have. -/
theorem operator? (h : Between links s t f) (hs : s.WellFormed) (hf : Evolves hidden s f) (hab : links a b)
    {con : Constructor} {args : List TypeId} (hoperator : s.operator? a = .ok (some (con, args))) :
    ∃ args' links', t.operator? b = .ok (some (con, args')) ∧ links ≤ links' ∧ Between links' s t f ∧
      List.Forall₂ links' args args' := by
  obtain ⟨v, hv, hfound⟩ := hs.grounded.operator?_eq_ok (h.lt hab).1
  cases v with
  | var x => cases hfound.symm.trans hoperator
  | op r con₁ args₁ =>
    cases hfound.symm.trans hoperator
    obtain ⟨r', args', links', hw, hle, hbetween, hargs⟩ := h.shows hs hf hab hv
    refine ⟨args', links', ?_, hle, hbetween, hargs⟩
    rw [Store.operator?, hw.view_eq h.wf.grounded]
    rfl

theorem hasConstructor (h : Between links s t f) (hs : s.WellFormed) (hf : Evolves hidden s f) (hab : links a b)
    {con : Constructor} (hhas : s.hasConstructor con a = .ok true) : t.hasConstructor con b = .ok true := by
  obtain ⟨found, hfound, hiff⟩ := hs.grounded.hasConstructor_eq_ok (h.lt hab).1 con
  cases hfound.symm.trans hhas
  obtain ⟨r, args, hv⟩ := hiff.mp rfl
  obtain ⟨r', args', -, hw, -⟩ := h.shows hs hf hab hv
  obtain ⟨found', hfound', hiff'⟩ := h.wf.grounded.hasConstructor_eq_ok (h.lt hab).2 con
  rw [hfound', hiff'.mpr ⟨r', args', hw⟩]

/-- Types that are known to be equal are known to be so on the other side. Types that are not known to be equal may
    be. -/
theorem same (h : Between links s t f) (hs : s.WellFormed) {x y : TypeId} (hxa : links x a) (hyb : links y b)
    (hsame : s.same x y = .ok true) : t.same a b = .ok true := by
  obtain ⟨found, hfound, hiff⟩ := hs.grounded.same_eq_ok (h.lt hxa).1 (h.lt hyb).1
  cases hfound.symm.trans hsame
  obtain ⟨reading, hreads, hlinks⟩ := h.informed
  have hvalue : ∀ {c d}, links c d → t.tree d = s.value reading c := fun hcd => by
    rw [← hlinks hcd, hs.grounded.value_eq hreads (fun _ _ => rfl) (h.lt hcd).1]
  obtain ⟨found', hfound', hiff'⟩ := h.wf.grounded.same_eq_ok (h.lt hxa).2 (h.lt hyb).2
  rw [hfound', hiff'.mpr]
  rw [hvalue hxa, hvalue hyb, value, value, hiff.mp rfl]

/-! ### In the end -/

/-- **Linked types are the same up to names** when nothing comes after, so that `s` knows all that there is to know. -/
theorem exists_perm (h : Between links s t s) (hs : s.Grounded) :
    ∃ ρ : Equiv.Perm TypeId, ∀ {a b}, links a b → t.tree b = (s.tree a).rename ρ := by
  obtain ⟨reading, hreads, hlinks⟩ := h.informed
  obtain ⟨reading', hreads', hlinks'⟩ := h.solved
  obtain ⟨ρ, hρ⟩ := Tree.exists_perm (fun link : {link : TypeId × TypeId // links link.1 link.2} => s.tree link.1.1)
    (fun link => t.tree link.1.2)
    (fun ⟨_, hab⟩ => by rw [← hlinks hab, ← hs.value_eq hreads (fun _ _ => rfl) (h.lt hab).1, value])
    (fun ⟨_, hab⟩ => by rw [← hlinks' hab, ← h.wf.grounded.value_eq hreads' (fun _ _ => rfl) (h.lt hab).2, value])
    fun ⟨_, hab⟩ v hv => lt_of_get ((hs.hasVar_tree_iff (h.lt hab).1).mp hv).2
  exact ⟨ρ, fun hab => hρ ⟨(_, _), hab⟩⟩

end Between

end Store

end TypeInference
